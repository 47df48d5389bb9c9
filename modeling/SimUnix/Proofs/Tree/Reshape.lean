/-
Which nodes a change of the tree touches, and how: a node may get other children, another place, which is
its name and its parent, or be dropped. Everything else about a node is its core.
-/
import SimUnix.Proofs.Tree.Copy

namespace SimUnix

/-- A node without its name and its links and without the time of its last change. -/
def Node.core (n : Node) : Node := { n.bare with name := .null }

namespace Tree

open Skeleton

variable {t t₁ t₂ t' : Tree} {n m d dir : Node} {a c p id : NodeId} {now : Time.Stamp} {f : Node → Node}
  {kids places : NodeId → Prop}

/-- Every node that is there after a change was there before or is new. Old nodes keep their core; only
some of them get other children, and only some another place. -/
structure Reshaped (kids places : NodeId → Prop) (t t' : Tree) : Prop where
  core : ∀ {a n n'}, t.get? a = some n → t'.get? a = some n' → n'.core = n.core
  children : ∀ {a n n'}, t.get? a = some n → t'.get? a = some n' → n'.children ≠ n.children → kids a
  place : ∀ {a n n'}, t.get? a = some n → t'.get? a = some n' → n'.name ≠ n.name ∨ n'.parent ≠ n.parent → places a
  born : ∀ {a m}, t'.get? a = some m → t.get? a = none → t.ids.Yields a

/-- Nothing happens to old nodes. -/
theorem Grown.reshaped (hg : Grown t t') : Reshaped kids places t t' := by
  have hsame : ∀ {a n n'}, t.get? a = some n → t'.get? a = some n' → n' = n := by
    intro a n n' hn hn'
    rw [hg.old hn] at hn'
    cases hn'
    rfl
  refine ⟨fun hn hn' => by rw [hsame hn hn'], fun hn hn' hne => ?_, fun hn hn' hne => ?_, hg.born⟩
  · exact absurd (by rw [hsame hn hn']) hne
  · rcases hne with hne | hne <;> exact absurd (by rw [hsame hn hn']) hne

theorem Reshaped.refl : Reshaped kids places t t := by
  have hsame : ∀ {a n n'}, t.get? a = some n → t.get? a = some n' → n' = n := by
    intro a n n' hn hn'
    rw [hn] at hn'
    cases hn'
    rfl
  refine ⟨fun hn hn' => by rw [hsame hn hn'], fun hn hn' hne => ?_, fun hn hn' hne => ?_, fun hm ha => ?_⟩
  · exact absurd (by rw [hsame hn hn']) hne
  · rcases hne with hne | hne <;> exact absurd (by rw [hsame hn hn']) hne
  · rw [ha] at hm
    cases hm

/-- What holds of the touched nodes matters for old nodes only. -/
theorem Reshaped.imp {kids' places' : NodeId → Prop} (h : Reshaped kids places t t')
    (hk : ∀ {a n}, t.get? a = some n → kids a → kids' a) (hp : ∀ {a n}, t.get? a = some n → places a → places' a) :
    Reshaped kids' places' t t' :=
  ⟨h.core, fun hn hn' hne => hk hn (h.children hn hn' hne), fun hn hn' hne => hp hn (h.place hn hn' hne), h.born⟩

/-- One more change of a node. -/
theorem Reshaped.update (h : Reshaped kids places t t₁) (hcore : ∀ n, (f n).core = n.core)
    (hkids : kids id ∨ ∀ n, (f n).children = n.children)
    (hplace : places id ∨ ∀ n, (f n).name = n.name ∧ (f n).parent = n.parent) : Reshaped kids places t (t₁.update id f) := by
  have hcase : ∀ {a n'}, (t₁.update id f).get? a = some n' → ∃ n₁, t₁.get? a = some n₁ ∧ ((a = id ∧ n' = f n₁) ∨ n' = n₁) := by
    intro a n' hn'
    rw [get?_update] at hn'
    split at hn'
    · rename_i ha
      obtain ⟨n₁, hn₁, rfl⟩ := Option.map_eq_some_iff.1 hn'
      exact ⟨n₁, hn₁, .inl ⟨ha, rfl⟩⟩
    · exact ⟨n', hn', .inr rfl⟩
  refine ⟨fun hn hn' => ?_, fun hn hn' hne => ?_, fun hn hn' hne => ?_, fun hm ha => ?_⟩
  · obtain ⟨n₁, hn₁, ⟨-, rfl⟩ | rfl⟩ := hcase hn'
    · exact (hcore n₁).trans (h.core hn hn₁)
    · exact h.core hn hn₁
  · obtain ⟨n₁, hn₁, ⟨rfl, rfl⟩ | rfl⟩ := hcase hn'
    · rcases hkids with hk | hsame
      · exact hk
      · exact h.children hn hn₁ (hsame n₁ ▸ hne)
    · exact h.children hn hn₁ hne
  · obtain ⟨n₁, hn₁, ⟨rfl, rfl⟩ | rfl⟩ := hcase hn'
    · rcases hplace with hk | hsame
      · exact hk
      · exact h.place hn hn₁ ((hsame n₁).1 ▸ (hsame n₁).2 ▸ hne)
    · exact h.place hn hn₁ hne
  · obtain ⟨n₁, hn₁, -⟩ := hcase hm
    exact h.born hn₁ ha

/-- Hanging a node below a directory gives the directory a child and the node a place. -/
theorem Reshaped.hung {name : Json} (h : Reshaped kids places t t₁) (hc : places c) (hp : kids p) :
    Reshaped kids places t (t₁.hung c name p now) := by
  unfold Tree.hung Tree.attach
  refine .update (.update (.update h ?_ ?_ ?_) ?_ ?_ ?_) ?_ ?_ ?_
  · exact fun _ => rfl
  · exact .inr fun _ => rfl
  · exact .inl hc
  · exact fun _ => rfl
  · exact .inr fun _ => rfl
  · exact .inl hc
  · exact fun _ => rfl
  · exact .inl hp
  · exact .inr fun _ => ⟨rfl, rfl⟩

/-- Moving a node gives it another place, and the directories that it leaves and enters other children. -/
theorem reshaped_move {name : Json} (hp : t.parentOf? n = some d) (ht : t.detach n now = .ok t') (hn : places n.id)
    (hd : kids d.id) (hdir : kids p) : Reshaped kids places t (t'.relinked n.id name p now) := by
  have hdet : Reshaped kids places t t' := by
    unfold Tree.detach at ht
    simp only [hp] at ht
    split at ht
    · cases ht
      refine .update (.update .refl ?_ ?_ ?_) ?_ ?_ ?_
      · exact fun _ => rfl
      · exact .inl hd
      · exact .inr fun _ => ⟨rfl, rfl⟩
      · exact fun _ => rfl
      · exact .inr fun _ => rfl
      · exact .inl hn
    · cases ht
  exact .update (hdet.hung hn hdir) (fun _ => rfl) (.inr fun _ => rfl) (.inr fun _ => ⟨rfl, rfl⟩)

/-! ## Nodes that stay -/

theorem keeps_update (hn : t.get? a = some n) : ∃ m, (t.update id f).get? a = some m := by
  rw [get?_update, hn]
  split <;> exact ⟨_, rfl⟩

theorem keeps_hung {name : Json} (hn : t.get? a = some n) : ∃ m, (t.hung c name p now).get? a = some m := by
  unfold hung attach
  obtain ⟨n₁, hn₁⟩ := keeps_update hn
  obtain ⟨n₂, hn₂⟩ := keeps_update hn₁
  exact keeps_update hn₂

theorem keeps_detach (ht : t.detach m now = .ok t') (hn : t.get? a = some n) : ∃ k, t'.get? a = some k := by
  rw [← mem_keys_iff, (rewired_detach ht).keys, mem_keys_iff]
  exact ⟨n, hn⟩

/-! ## Adding and removing -/

/-- Adding a node gives a directory a child and touches no other node. -/
theorem get?_add_old (h : Linked t) (hn : IsNew t n) (hm : t.get? a = some m) : (t.takeId.2.add n p now).get? a =
    some (if a = p then { m with children := m.children ++ [n.id], modified := now } else m) := by
  have hne : a ≠ n.id := by
    rintro rfl
    have habs := h.new_absent hn
    rw [skeleton_some.2 ⟨m, hm, rfl⟩] at habs
    cases habs
  have hins : (t.takeId.2.insert n).get? a = some m := by
    rw [get?_insert, if_neg hne]
    exact hm
  unfold add attach
  rw [get?_update, get?_update, if_neg hne, hins]
  split <;> rfl

/-- A new node as it is found below its directory. -/
theorem get?_add_new (h : Linked t) (hn : IsNew t n) (hd : t.get? p = some dir) :
    (t.takeId.2.add n p now).get? n.id = some { n with parent := p } := by
  have hne : n.id ≠ p := by
    rintro rfl
    have habs := h.new_absent hn
    rw [skeleton_some.2 ⟨dir, hd, rfl⟩] at habs
    cases habs
  unfold add attach
  rw [get?_update, if_neg hne, get?_update, if_pos rfl, get?_insert, if_pos rfl]
  rfl

theorem keeps_add (h : Linked t) (hnew : IsNew t m) (hn : t.get? a = some n) : ∃ k, (t.takeId.2.add m p now).get? a = some k :=
  ⟨_, get?_add_old h hnew hn⟩

theorem reshaped_add (h : Linked t) (hn : IsNew t n) (hp : kids p) : Reshaped kids places t (t.takeId.2.add n p now) := by
  refine ⟨fun hm hm' => ?_, fun hm hm' hne => ?_, fun hm hm' hne => ?_, fun {a m} hm ha => ?_⟩
  · rw [get?_add_old h hn hm] at hm'
    cases hm'
    split <;> rfl
  · rw [get?_add_old h hn hm] at hm'
    cases hm'
    split at hne
    · rename_i heq
      exact heq ▸ hp
    · exact absurd rfl hne
  · rw [get?_add_old h hn hm] at hm'
    cases hm'
    split at hne <;> rcases hne with hne | hne <;> exact absurd rfl hne
  · by_cases heq : a = n.id
    · rw [heq, hn.id]
      exact t.ids.yields_id
    · unfold add attach at hm
      rw [get?_update, get?_update, if_neg heq, get?_insert, if_neg heq] at hm
      have ha : t.takeId.2.get? a = none := ha
      rw [ha, Option.map_none, ite_self] at hm
      cases hm

/-- Removing a node below a directory takes a child from it; what is below the node is dropped. -/
theorem reshaped_removed (h : Linked t) (hab : t.skeleton.Above p c) (hr : Removed t t' c p) (hp : kids p) :
    Reshaped kids places t t' := by
  have hleft : ∀ {a m}, t'.get? a = some m → ¬ t.skeleton.Under c a := by
    intro a m hm hu
    have hx := skeleton_some.2 ⟨m, hm, rfl⟩
    rw [hr.skeleton, prune_eq_some, under_unlink h.forest hab] at hx
    exact hx.1 hu
  have hsame : ∀ {a n n'}, t.get? a = some n → t'.get? a = some n' → a ≠ p → n' = n := by
    intro a n n' hn hn' hne
    rw [hr.get a (hleft hn') hne, hn] at hn'
    cases hn'
    rfl
  have hbare : ∀ {a n n'}, t.get? a = some n → t'.get? a = some n' → n'.bare = n.bare := by
    intro a n n' hn hn'
    have hb := hr.bare a (hleft hn')
    unfold Tree.bare at hb
    rw [hn, hn'] at hb
    exact Option.some.inj hb
  refine ⟨fun {a n n'} hn hn' => ?_, fun {a n n'} hn hn' hne => ?_, fun {a n n'} hn hn' hne => ?_, fun {a m} hm ha => ?_⟩
  · exact congrArg (fun b : Node => { b with name := .null }) (hbare hn hn')
  · by_cases he : a = p
    · exact he ▸ hp
    · exact absurd (by rw [hsame hn hn' he]) hne
  · exfalso
    by_cases he : a = p
    · have hx := skeleton_some.2 ⟨n', hn', rfl⟩
      rw [hr.skeleton, prune_eq_some] at hx
      have hy : t.skeleton a = some n.joint := skeleton_some.2 ⟨n, hn, rfl⟩
      have hac : a ≠ c := by
        rintro rfl
        exact hleft hn' .refl
      have hx₂ := hx.2
      rw [unlink_some hy] at hx₂
      have hname : n'.name = n.name := show n'.bare.name = n.bare.name by rw [hbare hn hn']
      have hparent : n'.parent = if a = c then Json.null else n.parent := (congrArg Joint.parent (Option.some.inj hx₂)).symm
      rw [if_neg hac] at hparent
      rcases hne with hne | hne
      · exact hne hname
      · exact hne hparent
    · rw [hsame hn hn' he] at hne
      rcases hne with hne | hne <;> exact hne rfl
  · have hx := skeleton_some.2 ⟨m, hm, rfl⟩
    rw [hr.skeleton, prune_eq_some] at hx
    obtain ⟨y, hy, -⟩ := Option.map_eq_some_iff.1 hx.2
    obtain ⟨n, hn, -⟩ := skeleton_some.1 hy
    rw [ha] at hn
    cases hn

end Tree

end SimUnix
