/-
What is found at a path of a tree in order: a node of the tree that has nothing but directories above
it.
-/
import SimUnix.Proofs.Tree.Change

namespace SimUnix

namespace Skeleton

variable {σ : Skeleton} {a b c p : NodeId} {x : Joint}

/-- All nodes strictly above a node are directories. -/
def InDirectories (σ : Skeleton) (a : NodeId) : Prop :=
  ∀ b, σ.Under b a → b ≠ a → ∃ x, σ b = some x ∧ x.kind = .directory

theorem Loose.inDirectories (h : σ.Loose a) : σ.InDirectories a :=
  fun _ hu hne => absurd (h.eq_of_under hu) hne

/-- A child of a directory that is in directories is so too. -/
theorem InDirectories.child (hp : σ.InDirectories p) (hx : σ p = some x) (hd : x.kind = .directory)
    (hab : σ.Above p a) : σ.InDirectories a := by
  intro b hb hne
  rcases Relation.ReflTransGen.cases_tail hb with heq | ⟨q, hq, hqa⟩
  · exact absurd heq.symm hne
  · rw [hqa.unique hab] at hq
    by_cases hbp : b = p
    · exact ⟨x, hbp ▸ hx, hd⟩
    · exact hp b hq hbp

end Skeleton

namespace Tree

open Skeleton

variable {t : Tree} {n m dir : Node} {a b : NodeId} {now : Time.Stamp}

theorem isDir_iff : n.isDir = true ↔ n.joint.kind = .directory := by
  unfold Node.isDir
  exact beq_iff_eq

theorem Linked.root_ok (h : Linked t) : ∃ r, t.root = .ok r ∧ t.get? r.id = some r ∧ r.id = t.rootId ∧ r.isDir = true := by
  obtain ⟨x, hx, -, hk⟩ := h.rooted
  obtain ⟨r, hr, rfl⟩ := skeleton_some.1 hx
  exact ⟨r, node_ok.2 hr, h.get_self hr, h.id_eq hr, isDir_iff.2 hk⟩

/-- A child of a directory that is in directories is so too. -/
theorem Linked.child_inDirectories (h : Linked t) (hn : t.get? n.id = some n) (hi : t.skeleton.InDirectories n.id)
    (hd : n.isDir = true) (hm : a ∈ n.children) : t.skeleton.InDirectories a :=
  hi.child (skeleton_some.2 ⟨n, hn, rfl⟩) (isDir_iff.1 hd) ((h.above_iff hn).2 hm)

/-- Following names from a node in directories leads to another one. -/
theorem Linked.descend_found (h : Linked t) : ∀ {names : List String} {n : Node}, t.get? n.id = some n →
    t.skeleton.InDirectories n.id → t.descend n names = .ok (some m) →
      t.get? m.id = some m ∧ t.skeleton.InDirectories m.id
  | [], n, hn, hi, hd => by
    cases hd
    exact ⟨hn, hi⟩
  | name :: names, n, hn, hi, hd => by
    unfold Tree.descend at hd
    split at hd
    · cases hd
    · rename_i hdir
      rcases h.childNamed_cases hn name with ⟨hc, -⟩ | ⟨c, hc, hm, hget, -⟩
      · rw [hc] at hd
        cases hd
      · rw [hc] at hd
        exact h.descend_found hget (h.child_inDirectories hn hi (by simpa using hdir) hm) hd

/-- What is found at a path is a node in directories. -/
theorem Linked.lookup_found (h : Linked t) {path : String} (hl : t.lookup path = .ok (some m)) :
    t.get? m.id = some m ∧ t.skeleton.InDirectories m.id := by
  obtain ⟨r, hr, hget, hid, -⟩ := h.root_ok
  unfold Tree.lookup at hl
  rw [hr] at hl
  exact h.descend_found hget (hid ▸ h.loose_root.inDirectories) hl

/-- A path of more than one character has components. -/
theorem components_ne_nil {path : String} (h : 1 < path.length) : Path.components path ≠ [] := by
  unfold Path.components
  rw [if_neg]
  · intro he
    exact Text.splitChars_ne_nil _ _ (List.map_eq_nil_iff.1 he)
  · rintro (rfl | rfl) <;> revert h <;> decide

/-- Following at least one name leads to a node below another one. -/
theorem Linked.descend_below (h : Linked t) : ∀ {names : List String} {n : Node}, names ≠ [] → t.get? n.id = some n →
    t.descend n names = .ok (some m) → ∃ d, t.parentOf? m = some d
  | name :: names, n, _, hn, hd => by
    unfold Tree.descend at hd
    split at hd
    · cases hd
    · rcases h.childNamed_cases hn name with ⟨hc, -⟩ | ⟨c, hc, hm, hget, -⟩
      · rw [hc] at hd
        cases hd
      · rw [hc] at hd
        cases names with
        | nil =>
          cases hd
          exact ⟨n, (h.parentOf_iff hget).2 ⟨hn, (h.above_iff hn).2 hm⟩⟩
        | cons next names => exact h.descend_below (by simp) hget hd

/-- What is found at a path with at least one component lies below another node. -/
theorem Linked.lookup_below (h : Linked t) {path : String} (hp : Path.components path ≠ [])
    (hl : t.lookup path = .ok (some m)) : ∃ d, t.parentOf? m = some d := by
  obtain ⟨r, hr, hget, -⟩ := h.root_ok
  unfold Tree.lookup at hl
  rw [hr] at hl
  exact h.descend_below hp hget hl

/-- A new node below a directory that is in directories is so too. -/
theorem Linked.add_inDirectories (h : Linked t) (hn : IsNew t n) (hd : t.get? dir.id = some dir)
    (hi : t.skeleton.InDirectories dir.id) (hdir : dir.isDir = true) :
    (t.takeId.2.add n dir.id now).skeleton.InDirectories n.id := by
  have habs := h.new_absent hn
  have hy : t.skeleton dir.id = some dir.joint := skeleton_some.2 ⟨dir, hd, rfl⟩
  have hput : (t.skeleton.put n.joint).Loose n.id := (loose_put hn.parent).2 (.inl rfl)
  have habove : ∀ {a b}, (t.takeId.2.add n dir.id now).skeleton.Above a b ↔
      (b = n.id ∧ a = dir.id) ∨ t.skeleton.Above a b := by
    intro a b
    rw [skeleton_add, above_link hput (h.forest.ne_null hy), above_put habs hn.parent]
  -- Above the directory nothing has changed, since the new node is above nothing.
  have hold : ∀ {b}, (t.takeId.2.add n dir.id now).skeleton.Under b dir.id →
      t.skeleton.Under b dir.id ∧ ∃ x, t.skeleton b = some x := by
    intro b hb
    induction hb using Relation.ReflTransGen.head_induction_on with
    | refl => exact ⟨.refl, _, hy⟩
    | head hab _ ih =>
      obtain ⟨hu, x, hx⟩ := ih
      rcases habove.1 hab with ⟨rfl, -⟩ | hab
      · rw [habs] at hx
        cases hx
      · obtain ⟨z, hz, -⟩ := h.forest.mem_of_above hab
        exact ⟨.head hab hu, z, hz⟩
  have hkind : ∀ {b x}, t.skeleton b = some x →
      ∃ x', (t.takeId.2.add n dir.id now).skeleton b = some x' ∧ x'.kind = x.kind := by
    intro b x hx
    rw [skeleton_add]
    exact ⟨_, link_some (put_old habs hx), rfl⟩
  obtain ⟨y', hy', hk'⟩ := hkind hy
  refine InDirectories.child ?_ hy' (hk'.trans (isDir_iff.1 hdir)) (habove.2 (.inl ⟨rfl, rfl⟩))
  intro b hb hne
  obtain ⟨hu, -⟩ := hold hb
  obtain ⟨x, hx, hk⟩ := hi b hu hne
  obtain ⟨x', hx', hk'⟩ := hkind hx
  exact ⟨x', hx', hk'.trans hk⟩

end Tree

end SimUnix
