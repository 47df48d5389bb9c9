/-
Paths and nodes of a tree in order. What is found at a path has the names on the path for its own, so
that a canonical path is the path of what it leads to. The other way round, the path of a node leads to
the node exactly where everything hangs below the root, only directories have children, and every name
may be given.
-/
import SimUnix.Proofs.Tree.OneTree
import SimUnix.Proofs.Tree.Path

namespace SimUnix.Tree

open Skeleton

variable {t t' : Tree} {n m c p : Node} {a : NodeId} {names : List String}

/-! ## Names on the way to a node -/

/-- A chain that ends at a node without a parent gets no longer with more fuel. -/
theorem chain_succ : ∀ {count : Nat} {n r : Node}, (t.chain count n).getLast? = some r → t.parentOf? r = none →
    t.chain (count + 1) n = t.chain count n
  | 0, n, r, hr, _ => by
    unfold Tree.chain at hr
    cases hr
  | count + 1, n, r, hr, hp => by
    unfold Tree.chain at hr ⊢
    rcases hpar : t.parentOf? n with _ | q
    · rfl
    · rw [hpar] at hr
      simp only at hr ⊢
      congr 1
      rcases hrest : t.chain count q with _ | ⟨m, ms⟩
      · rw [hrest] at hr
        cases hr
        have hp : t.parentOf? n = none := hp
        rw [hpar] at hp
        cases hp
      · rw [hrest, List.getLast?_cons_cons, ← hrest] at hr
        rw [← hrest]
        exact chain_succ hr hp

theorem Linked.lineage_child (h : Linked t) (hc : t.get? c.id = some c) (hp : t.parentOf? c = some p) :
    t.lineage c = c :: t.lineage p := by
  obtain ⟨hget, hab⟩ := (h.parentOf_iff hc).1 hp
  obtain ⟨-, r, hr, hrget, hl⟩ := h.chain_complete t.size [c.id] hget (List.nodup_singleton _) (by simpa using .single hab)
    (by simp)
  have hstable := chain_succ hr ((h.parentOf_none hrget).2 hl)
  show t.chain (t.size + 1) c = c :: t.chain (t.size + 1) p
  rw [hstable, Tree.chain, hp]

/-- The names of a node and of those above it, from the top. One without a parent is not counted. -/
def namesOf (t : Tree) (n : Node) : List Json := (((t.lineage n).filter (·.parent != .null)).map Node.name).reverse

theorem Linked.namesOf_child (h : Linked t) (hc : t.get? c.id = some c) (hp : t.parentOf? c = some p) :
    t.namesOf c = t.namesOf p ++ [c.name] := by
  have hne : (c.parent != .null) = true := by
    unfold Tree.parentOf? at hp
    split at hp
    · cases hp
    · rename_i hne
      simpa using hne
  unfold namesOf
  rw [h.lineage_child hc hp, List.filter_cons_of_pos (p := fun m : Node => m.parent != .null) hne, List.map_cons, List.reverse_cons]

theorem namesOf_top (hn : n.parent = .null) : t.namesOf n = [] := by
  have hline : t.lineage n = [n] := by
    show t.chain (t.size + 1) n = [n]
    unfold Tree.chain Tree.parentOf?
    rw [if_pos hn]
  unfold namesOf
  rw [hline, List.filter_cons_of_neg (by simpa using hn)]
  rfl

theorem mapM_asText : ∀ {nodes : List Node} {names : List String}, nodes.map Node.name = names.map Json.str →
    nodes.mapM (·.name.asText) = .ok names
  | [], [], _ => rfl
  | n :: nodes, name :: names, h => by
    obtain ⟨hn, hrest⟩ := List.cons.inj h
    rw [List.mapM_cons, hn, mapM_asText hrest]
    rfl

theorem pathOf_eq (h : t.namesOf n = names.map Json.str) : t.pathOf n = .ok (Path.ofComponents names) := by
  have hrev : ((t.lineage n).filter (·.parent != .null)).map Node.name = names.reverse.map Json.str := by
    rw [List.map_reverse, ← h]
    unfold namesOf
    rw [List.reverse_reverse]
  unfold Tree.pathOf
  rw [mapM_asText hrev]
  show Except.ok (Path.ofComponents names.reverse.reverse) = _
  rw [List.reverse_reverse]

/-- The names of a tree in order are texts. -/
theorem Linked.namesOf_texts (h : Linked t) (hn : t.get? n.id = some n) : ∃ names : List String, t.namesOf n = names.map Json.str := by
  have htexts : ∀ x ∈ t.namesOf n, ∃ s : String, x = .str s := by
    intro x hx
    obtain ⟨m, hm, rfl⟩ := List.mem_map.1 (List.mem_reverse.1 hx)
    obtain ⟨hget, -⟩ := h.chain_sound hn (List.mem_filter.1 hm).1
    exact (h.written (bare_some.2 ⟨m, hget, rfl⟩)).name
  generalize t.namesOf n = xs at htexts ⊢
  induction xs with
  | nil => exact ⟨[], rfl⟩
  | cons x xs ih =>
    obtain ⟨s, rfl⟩ := htexts x List.mem_cons_self
    obtain ⟨names, hnames⟩ := ih fun y hy => htexts y (List.mem_cons_of_mem _ hy)
    exact ⟨s :: names, by rw [hnames]; rfl⟩

/-- Every node has a path. -/
theorem Linked.pathOf_ok (h : Linked t) (hn : t.get? n.id = some n) : ∃ path, t.pathOf n = .ok path := by
  obtain ⟨names, hnames⟩ := h.namesOf_texts hn
  exact ⟨_, pathOf_eq hnames⟩

/-! ## What is found -/

/-- Following names leads to a node with those names. -/
theorem Linked.namesOf_descend (h : Linked t) : ∀ {names : List String} {n : Node}, t.get? n.id = some n →
    t.descend n names = .ok (some m) → t.namesOf m = t.namesOf n ++ names.map Json.str
  | [], n, _, hd => by
    cases hd
    simp
  | name :: names, n, hn, hd => by
    unfold Tree.descend at hd
    split at hd
    · cases hd
    · rcases h.childNamed_cases hn name with ⟨hc, -⟩ | ⟨c, hc, hm, hget, hname⟩
      · rw [hc] at hd
        cases hd
      · rw [hc] at hd
        have hp : t.parentOf? c = some n := (h.parentOf_iff hget).2 ⟨hn, (h.above_iff hn).2 hm⟩
        rw [h.namesOf_descend hget hd, h.namesOf_child hget hp, hname, List.append_assoc]
        rfl

theorem Linked.namesOf_lookup (h : Linked t) {path : String} (hl : t.lookup path = .ok (some n)) :
    t.namesOf n = (Path.components path).map Json.str := by
  obtain ⟨r, hr, hget, -, -⟩ := h.root_ok
  have htop : r.parent = .null := by
    obtain ⟨x, hx, hp⟩ := h.loose_root
    obtain ⟨m, hm, rfl⟩ := skeleton_some.1 hx
    rw [node_ok.1 hr] at hm
    cases hm
    exact hp
  unfold Tree.lookup at hl
  rw [hr] at hl
  have hnames := h.namesOf_descend hget hl
  rwa [namesOf_top htop, List.nil_append] at hnames

/-- A canonical path is the path of what it leads to. -/
theorem Linked.pathOf_lookup (h : Linked t) {path : String} (hp : Path.normalize path = path)
    (hl : t.lookup path = .ok (some n)) : t.pathOf n = .ok path := by
  obtain ⟨names, hvalid, hnorm⟩ := Path.normalize_valid path
  rw [hp] at hnorm
  have hnames := h.namesOf_lookup hl
  rw [hnorm, Path.components_ofComponents hvalid] at hnames
  rw [hnorm]
  exact pathOf_eq hnames

/-! ## What a path leads to -/

/-- Following names finds something or nothing, and does not fail. -/
theorem Linked.descend_ok (h : Linked t) : ∀ {names : List String} {n : Node}, t.get? n.id = some n → ∃ found?, t.descend n names = .ok found?
  | [], n, _ => ⟨some n, rfl⟩
  | name :: names, n, hn => by
    unfold Tree.descend
    split
    · exact ⟨none, rfl⟩
    · rcases h.childNamed_cases hn name with ⟨hc, -⟩ | ⟨c, hc, -, hget, -⟩
      · rw [hc]
        exact ⟨none, rfl⟩
      · rw [hc]
        exact h.descend_ok hget

theorem Linked.lookup_ok (h : Linked t) (path : String) : ∃ found?, t.lookup path = .ok found? := by
  obtain ⟨r, hr, hget, -⟩ := h.root_ok
  unfold Tree.lookup
  rw [hr]
  exact h.descend_ok hget

/-- One name more leads to a child of that name. -/
theorem descend_snoc {name : String} : ∀ {names : List String} {n : Node}, t.descend n (names ++ [name]) = .ok (some m) ↔
    ∃ d, t.descend n names = .ok (some d) ∧ d.isDir = true ∧ t.childNamed d name = .ok (some m)
  | [], n => by
    show t.descend n [name] = _ ↔ ∃ d, Except.ok (some n) = _ ∧ _
    unfold Tree.descend
    split
    · rename_i hfile
      simp_all
    · rename_i hdir
      rcases hc : t.childNamed n name with e | _ | c <;> simp_all [Tree.descend]
  | next :: names, n => by
    show t.descend n (next :: (names ++ [name])) = _ ↔ _
    rw [Tree.descend.eq_def t n (next :: (names ++ [name])), Tree.descend.eq_def t n (next :: names)]
    dsimp only
    split
    · simp
    · rcases hc : t.childNamed n next with e | _ | c
      · simp
      · simp
      · exact descend_snoc

/-- Where a child keeps its name and its parent, it is found by its name as before. -/
theorem Linked.childNamed_kept (h : Linked t) (h' : Linked t') {x x' c' : Node} {name : Json} (hx : t.get? x.id = some x)
    (hx' : t'.get? x.id = some x') (hc : t.childNamed x name = .ok (some c)) (hc' : t'.get? c.id = some c')
    (hname : c'.name = c.name) (hparent : c'.parent = c.parent) : t'.childNamed x' name = .ok (some c') := by
  obtain ⟨hm, hget, rfl⟩ := h.childNamed_some hx hc
  obtain ⟨y, hy, hup, hnull⟩ := (h.above_iff hx).2 hm
  obtain ⟨k, hk, rfl⟩ := skeleton_some.1 hy
  cases hget.symm.trans hk
  have hab : t'.skeleton.Above x.id c.id := ⟨c'.joint, skeleton_some.2 ⟨c', hc', rfl⟩, hparent.trans hup, hnull⟩
  have hm' : c'.id ∈ x'.children := by
    rw [h'.id_eq hc']
    exact (h'.above_iff hx').1 hab
  rw [← hname]
  exact h'.childNamed_of_mem hx' hm' (h'.get_self hc')

/-- What is found at a path is still found there if it and all above it keep their names and parents. -/
theorem Linked.lookup_kept (h : Linked t) (h' : Linked t') (hroot : t'.rootId = t.rootId) {P : NodeId → Prop}
    (hup : ∀ {b c}, t.skeleton.Above b c → P c → P b)
    (hkept : ∀ {b m}, P b → t.get? b = some m → ∃ m', t'.get? b = some m' ∧ m'.name = m.name ∧ m'.parent = m.parent ∧ m'.kind = m.kind)
    {path : String} (hl : t.lookup path = .ok (some m)) (hm : P m.id) :
    ∃ m', t'.lookup path = .ok (some m') ∧ t'.get? m.id = some m' := by
  obtain ⟨r, hr, hget, hid, -⟩ := h.root_ok
  have hall : ∀ {names : List String} {m : Node}, t.descend r names = .ok (some m) → P m.id →
      ∃ r' m', t'.root = .ok r' ∧ t'.descend r' names = .ok (some m') ∧ t'.get? m.id = some m' := by
    intro names
    induction names using List.reverseRecOn with
    | nil =>
      intro m hd hm
      cases hd
      obtain ⟨r', hr', -⟩ := hkept hm hget
      exact ⟨r', r', node_ok.2 (by rw [hroot, ← hid]; exact hr'), rfl, hr'⟩
    | append_singleton names name ih =>
      intro m hd hm
      obtain ⟨x, hx, hdir, hc⟩ := descend_snoc.1 hd
      have hxget : t.get? x.id = some x := (h.descend_found hget (hid ▸ h.loose_root.inDirectories) hx).1
      obtain ⟨hmem, hmget, -⟩ := h.childNamed_some hxget hc
      have hpx : P x.id := hup ((h.above_iff hxget).2 hmem) hm
      obtain ⟨r', x', hr', hd', hx'⟩ := ih hx hpx
      obtain ⟨m', hm', hname, hparent, -⟩ := hkept hm hmget
      obtain ⟨y, hy, -, -, hkind⟩ := hkept hpx hxget
      cases hx'.symm.trans hy
      have hdir' : x'.isDir = true := isDir_iff.2 (hkind.trans (isDir_iff.1 hdir))
      exact ⟨r', m', hr', descend_snoc.2 ⟨x', hd', hdir', h.childNamed_kept h' hxget hx' hc hm' hname hparent⟩, hm'⟩
  unfold Tree.lookup at hl ⊢
  rw [hr] at hl
  obtain ⟨r', m', hr', hd', hm'⟩ := hall hl hm
  exact ⟨m', by rw [hr']; exact hd', hm'⟩

/-- The names from the root to a node in directories lead to it. -/
theorem Linked.descend_namesOf (h : Linked t) {r : Node} (hr : t.root = .ok r) (hu : t.skeleton.Under t.rootId a) :
    ∀ {n : Node} {names : List String}, t.get? a = some n → t.skeleton.InDirectories a → t.namesOf n = names.map Json.str →
      t.descend r names = .ok (some n) := by
  induction hu with
  | refl =>
    intro n names hn _ hnames
    rw [← node_ok, show t.node t.rootId = t.root from rfl, hr] at hn
    cases hn
    have htop : r.parent = .null := by
      obtain ⟨x, hx, hp⟩ := h.loose_root
      obtain ⟨m, hm, rfl⟩ := skeleton_some.1 hx
      rw [node_ok.1 hr] at hm
      cases hm
      exact hp
    rw [namesOf_top htop] at hnames
    rw [List.map_eq_nil_iff.1 hnames.symm]
    rfl
  | @tail b a _ hab ih =>
    intro n names hn hi hnames
    obtain ⟨q, hq, hm⟩ := h.present_above hab
    have hqid := h.id_eq hq
    have hnid := h.id_eq hn
    subst hqid hnid
    obtain ⟨before, hbefore⟩ := h.namesOf_texts hq
    obtain ⟨name, hname⟩ := (h.written (bare_some.2 ⟨n, hn, rfl⟩)).name
    have hname : n.name = .str name := hname
    rw [h.namesOf_child hn ((h.parentOf_iff hn).2 ⟨hq, hab⟩), hbefore, hname] at hnames
    have hall : names = before ++ [name] := by
      refine List.map_injective_iff.2 (fun _ _ => Json.str.inj) ?_
      rw [← hnames]
      simp
    have hup : t.skeleton.InDirectories q.id := fun b hb hne => hi b (hb.tail hab) fun he => by
      rw [he] at hb
      exact h.forest.not_above_under hab hb
    have hne : q.id ≠ n.id := fun he => h.forest.not_above_under hab (he ▸ .refl)
    have hdir : q.isDir = true := by
      obtain ⟨x, hx, hk⟩ := hi q.id (.single hab) hne
      obtain ⟨d, hd, rfl⟩ := skeleton_some.1 hx
      rw [hq] at hd
      cases hd
      exact isDir_iff.2 hk
    rw [hall]
    exact descend_snoc.2 ⟨q, ih hq hup hbefore, hdir, hname ▸ h.childNamed_of_mem hq hm hn⟩

/-! ## What the path of a node leads to -/

theorem Linked.descend_under (h : Linked t) : ∀ {names : List String} {n : Node}, t.get? n.id = some n →
    t.descend n names = .ok (some m) → t.skeleton.Under n.id m.id
  | [], n, _, hd => by
    cases hd
    exact .refl
  | name :: names, n, hn, hd => by
    unfold Tree.descend at hd
    split at hd
    · cases hd
    · rcases h.childNamed_cases hn name with ⟨hc, -⟩ | ⟨c, hc, hm, hget, -⟩
      · rw [hc] at hd
        cases hd
      · rw [hc] at hd
        exact .head ((h.above_iff hn).2 hm) (h.descend_under hget hd)

/-- A node below the root, with nothing but directories above it. -/
def Rooted (t : Tree) (n : Node) : Prop := t.skeleton.Under t.rootId n.id ∧ t.skeleton.InDirectories n.id

theorem Linked.lookup_rooted (h : Linked t) {path : String} (hl : t.lookup path = .ok (some n)) : t.Rooted n := by
  refine ⟨?_, (h.lookup_found hl).2⟩
  obtain ⟨r, hr, hget, hid, -⟩ := h.root_ok
  unfold Tree.lookup at hl
  rw [hr] at hl
  exact hid ▸ h.descend_under hget hl

/-- The path of a node leads to it exactly if the node is rooted and the path is taken apart into the names on the way. -/
theorem Linked.lookup_names_iff (h : Linked t) (hn : t.get? n.id = some n) (hnames : t.namesOf n = names.map Json.str) :
    t.lookup (Path.ofComponents names) = .ok (some n) ↔ t.Rooted n ∧ Path.components (Path.ofComponents names) = names := by
  constructor
  · intro hl
    refine ⟨h.lookup_rooted hl, List.map_injective_iff.2 (fun _ _ => Json.str.inj) ?_⟩
    rw [← h.namesOf_lookup hl, hnames]
  · rintro ⟨⟨hu, hi⟩, happart⟩
    obtain ⟨r, hr, -⟩ := h.root_ok
    unfold Tree.lookup
    rw [hr]
    dsimp only
    rw [happart]
    exact h.descend_namesOf hr hu hn hi hnames

end SimUnix.Tree
