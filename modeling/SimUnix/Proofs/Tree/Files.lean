/-
A tree as a map from paths to files. A path is the list of names from the root down, and what it shows of a
node is its kind, its owner and group, its permissions and its content. In a well-formed tree only
directories have children, so that a path shows exactly the node that its names lead to.
-/
import SimUnix.Proofs.Tree.Lookup
import SimUnix.Proofs.Tree.Ways
import Mathlib.Logic.Function.Basic

namespace SimUnix

/-! ## Maps of files -/

/-- What a path shows of a node. -/
structure Face where
  kind : NodeKind
  owner : Json
  group : Json
  permissions : Json
  content : Json
  deriving DecidableEq

/-- What is shown of a node. -/
def Node.face (n : Node) : Face := ⟨n.kind, n.owner, n.group, n.permissions, n.content⟩

/-- The files of a tree by their paths. -/
abbrev FileMap := List String → Option Face

namespace FileMap

/-- One path shows something else. -/
def put (m : FileMap) (path : List String) (f : Face) : FileMap := Function.update m path (some f)

/-- A path and all paths below it are gone. -/
def remove (m : FileMap) (path : List String) : FileMap := fun names => if path <+: names then none else m names

/-- A path and all paths below it are renamed. -/
def move (m : FileMap) (path target : List String) : FileMap := fun names =>
  if target <+: names then m (path ++ names.drop target.length) else m.remove path names

/-- What a path and the paths below it show is shown elsewhere, too, with a few changes. -/
def copy (m : FileMap) (path target : List String) (change : Face → Face) : FileMap := fun names =>
  if target <+: names then (m (path ++ names.drop target.length)).map change else m names

/-- Where a path goes that is moved to another one: into it where that is another directory, else to it. -/
def goal (m : FileMap) (path target : List String) : List String :=
  if (m target).any (·.kind = .directory) ∧ target ≠ path then target ++ path.getLast?.toList else target

/-- A path that is moved to itself stays. -/
theorem move_self (m : FileMap) (path : List String) : m.move path path = m := by
  funext names
  unfold move remove
  split
  · rename_i hpre
    obtain ⟨rest, rfl⟩ := hpre
    rw [List.drop_left]
  · rfl

end FileMap

/-! ## Well-formed trees -/

namespace Skeleton

variable {σ : Skeleton} {a c p : NodeId} {x y : Joint}

/-- Only directories have children, and every child has a name that may be given. -/
structure Shaped (σ : Skeleton) : Prop where
  directories : ∀ {a x}, σ a = some x → x.children ≠ [] → x.kind = .directory
  named : ∀ {a x}, σ a = some x → x.parent ≠ .null → ∃ name, x.name = .str name ∧ Path.validName name = true

theorem Shaped.put (h : Shaped σ) (hc : x.children = []) (hp : x.parent = .null) : Shaped (σ.put x) := by
  have hcase : ∀ {a z}, σ.put x a = some z → z = x ∨ σ a = some z := by
    intro a z hz
    unfold Skeleton.put at hz
    split at hz
    · exact .inl (Option.some.inj hz).symm
    · exact .inr hz
  refine ⟨fun hz hne => ?_, fun hz hne => ?_⟩ <;> rcases hcase hz with rfl | hz
  · exact absurd hc hne
  · exact h.directories hz hne
  · exact absurd hp hne
  · exact h.named hz hne

theorem Shaped.link (h : Shaped σ) {name : String} (hx : σ c = some x) (hname : x.name = .str name)
    (hvalid : Path.validName name = true) (hy : σ p = some y) (hdir : y.kind = .directory) : Shaped (σ.link c p) := by
  refine ⟨fun {a z} hz hne => ?_, fun {a z} hz hne => ?_⟩ <;> obtain ⟨w, hw, rfl⟩ := Option.map_eq_some_iff.1 hz
  · by_cases ha : a = p
    · subst ha
      cases hy.symm.trans hw
      exact hdir
    · simp only [if_neg ha] at hne
      exact h.directories (x := w) hw hne
  · by_cases ha : a = c
    · subst ha
      cases hx.symm.trans hw
      exact ⟨name, hname, hvalid⟩
    · simp only [if_neg ha] at hne
      exact h.named (x := w) hw hne

theorem Shaped.unlink (h : Shaped σ) : Shaped (σ.unlink c p) := by
  refine ⟨fun {a z} hz hne => ?_, fun {a z} hz hne => ?_⟩ <;> obtain ⟨w, hw, rfl⟩ := Option.map_eq_some_iff.1 hz
  · refine h.directories (x := w) hw fun he => hne ?_
    dsimp only
    rw [he]
    exact ite_self _
  · refine h.named (x := w) hw fun he => hne ?_
    dsimp only
    rw [he]
    exact ite_self _

theorem Shaped.rename (h : Shaped σ) (hl : σ.Loose c) {name : Json} : Shaped (σ.rename c name) := by
  refine ⟨fun {a z} hz hne => ?_, fun {a z} hz hne => ?_⟩ <;> obtain ⟨w, hw, rfl⟩ := Option.map_eq_some_iff.1 hz
  · exact h.directories (x := w) hw hne
  · by_cases ha : a = c
    · subst ha
      obtain ⟨v, hv, hnull⟩ := hl
      cases hv.symm.trans hw
      exact absurd hnull hne
    · obtain ⟨own, hown, hvalid⟩ := h.named hw hne
      exact ⟨own, by simp only [if_neg ha, hown], hvalid⟩

theorem Shaped.prune (h : Shaped σ) : Shaped (σ.prune c) :=
  ⟨fun hz hne => h.directories (prune_eq_some.1 hz).2 hne, fun hz hne => h.named (prune_eq_some.1 hz).2 hne⟩

end Skeleton

namespace Tree

open Skeleton

variable {t t' : Tree} {n m : Node} {a : NodeId} {names : List String} {f : Face}

/-- A tree in order in which only directories have children, and every child has a name that may be given. -/
structure WellFormed (t : Tree) : Prop extends Linked t where
  shaped : t.skeleton.Shaped

theorem Linked.texts (h : Linked t) {x : Joint} (hx : t.skeleton a = some x) : ∃ s : String, x.name = .str s := by
  obtain ⟨n, hn, rfl⟩ := skeleton_some.1 hx
  exact (h.written (bare_some.2 ⟨n, hn, rfl⟩)).name

/-! ## The files of a tree -/

/-- The file at a path. -/
def files (t : Tree) : FileMap := fun names =>
  match t.root with
  | .error _ => none
  | .ok root => (t.descend root names).toOption.join.map Node.face

/-- What is shown of the node with an id. -/
def faceOf (t : Tree) (a : NodeId) : Option Face := (t.get? a).map Node.face

/-- Names lead down from a node to one that shows this. -/
def Shows (t : Tree) (a : NodeId) (names : List String) (f : Face) : Prop := ∃ b, t.skeleton.Lies a names b ∧ t.faceOf b = some f

/-- Following names leads to the node to which they lead down. -/
theorem WellFormed.descend_iff (h : WellFormed t) {names : List String} {n : Node} (hn : t.get? n.id = some n) :
    t.descend n names = .ok (some m) ↔ t.get? m.id = some m ∧ t.skeleton.Lies n.id names m.id := by
  induction names generalizing n with
  | nil =>
    constructor
    · intro hd
      cases hd
      exact ⟨hn, rfl⟩
    · rintro ⟨hm, he⟩
      have he : m.id = n.id := he
      rw [he, hn] at hm
      cases hm
      rfl
  | cons name names ih =>
    have hchild : ∀ {c}, t.skeleton.Hangs n.id c name → c ∈ n.children := fun hc => (h.above_iff hn).1 hc.1
    unfold descend
    split
    · -- without children nothing is found, and nothing hangs below
      rename_i hfile
      constructor
      · intro hd
        cases hd
      · rintro ⟨-, c, hc, -⟩
        have hkind := h.shaped.directories (skeleton_some.2 ⟨n, hn, rfl⟩) (List.ne_nil_of_mem (hchild hc))
        exact absurd (isDir_iff.2 hkind) (by simpa using hfile)
    · rcases h.childNamed_cases hn name with ⟨hnone, hno⟩ | ⟨c, hsome, hmem, hc, hname⟩
      · rw [hnone]
        constructor
        · intro hd
          cases hd
        · rintro ⟨-, c, hc, -⟩
          obtain ⟨x, hx, hname⟩ := hc.2
          exact absurd hname (hno c (hchild hc) x hx)
      · have hangs : t.skeleton.Hangs n.id c.id name := ⟨(h.above_iff hn).2 hmem, c.joint, skeleton_some.2 ⟨c, hc, rfl⟩, hname⟩
        rw [hsome]
        refine (ih hc).trans (and_congr_right fun _ => ?_)
        constructor
        · intro hl
          exact ⟨c.id, hangs, hl⟩
        · rintro ⟨_, hk, hl⟩
          exact h.forest.sibling hk hangs ▸ hl

theorem WellFormed.files_iff (h : WellFormed t) : t.files names = some f ↔ t.Shows t.rootId names f := by
  obtain ⟨root, hroot, hget, hid, -⟩ := h.root_ok
  have hfound : ∀ {x : Except Fault (Option Node)} {m : Node}, x.toOption.join = some m ↔ x = .ok (some m) := by
    rintro (e | _ | m) <;> simp [Except.toOption]
  unfold files Shows faceOf
  rw [hroot]
  simp only [Option.map_eq_some_iff]
  constructor
  · rintro ⟨m, hm, hf⟩
    obtain ⟨hm, hl⟩ := (h.descend_iff hget).1 (hfound.1 hm)
    exact ⟨m.id, hid ▸ hl, m, hm, hf⟩
  · rintro ⟨b, hl, m, hm, hf⟩
    have hlies : t.skeleton.Lies root.id names m.id := hid.symm ▸ h.id_eq hm ▸ hl
    exact ⟨m, hfound.2 ((h.descend_iff hget).2 ⟨h.get_self hm, hlies⟩), hf⟩

/-- Where names lead to a node, the paths below show what lies below it. -/
theorem WellFormed.files_below (h : WellFormed t) {way : List String} (hway : t.skeleton.Lies t.rootId way a) :
    t.files (way ++ names) = some f ↔ t.Shows a names f := by
  rw [h.files_iff]
  constructor
  · rintro ⟨b, hl, hb⟩
    obtain ⟨c, hc, hl⟩ := lies_append.1 hl
    exact ⟨b, hc.node h.forest hway ▸ hl, hb⟩
  · rintro ⟨b, hl, hb⟩
    exact ⟨b, lies_append.2 ⟨a, hway, hl⟩, hb⟩

/-- What is found at a path lies where its components lead. -/
theorem WellFormed.lookup_lies (h : WellFormed t) {path : String} (hl : t.lookup path = .ok (some n)) :
    t.get? n.id = some n ∧ t.skeleton.Lies t.rootId (Path.components path) n.id := by
  obtain ⟨root, hroot, hget, hid, -⟩ := h.root_ok
  unfold lookup at hl
  rw [hroot] at hl
  exact hid ▸ (h.descend_iff hget).1 hl

end Tree

end SimUnix
