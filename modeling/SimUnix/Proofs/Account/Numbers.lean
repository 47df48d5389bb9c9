/-
Numbers and memberships. No number is given twice, every user has a group of its own under the same number,
and only users are members of groups. Every change of the tables that can be asked for keeps it so: a number
is given only while it is free, and nobody leaves the own group but with the user.
-/
import SimUnix.Proofs.Account.Order

namespace SimUnix

/-! ## Look-ups in changed tables -/

namespace Keyed

variable {κ α : Type} [DecidableEq κ] {table : Keyed κ α} {k l : κ} {v w : α} {f : α → α}

/-- A value under a new key comes beside the others. -/
theorem get?_put_new (h : table.get? k = none) : (table.put k v).get? l = some w ↔ l = k ∧ w = v ∨ table.get? l = some w := by
  rw [get?_put]
  split
  · rename_i he
    subst he
    simp [h, eq_comm]
  · simp [*]

theorem get?_update_some : (table.update k f).get? l = some w ↔
    (l = k ∧ ∃ v, table.get? l = some v ∧ w = f v) ∨ l ≠ k ∧ table.get? l = some w := by
  rw [get?_update]
  split
  · simp [*, eq_comm]
  · simp [*]

end Keyed

namespace Accounts

open Keyed

variable {a b : Accounts} {u : User} {name : Json}

/-! ## The invariant -/

/-- Tables whose numbers and memberships are right, but for the groups that the users know. -/
structure Numbered (a : Accounts) : Prop where
  root : ∃ u, a.user? rootName = some u ∧ u.uid = .int 0
  system : ∀ g ∈ systemGroups, ∃ x, a.group? g.1 = some x ∧ x.gid = .int g.2
  uids : ∀ {m n u v}, a.user? m = some u → a.user? n = some v → u.uid = v.uid → m = n
  gids : ∀ {m n x y}, a.group? m = some x → a.group? n = some y → x.gid = y.gid → m = n
  own : ∀ {n u}, a.user? n = some u → u.gid = u.uid ∧ ∃ x, a.group? n = some x ∧ x.gid = u.gid ∧ n ∈ x.members
  known : ∀ {n x m}, a.group? n = some x → m ∈ x.members → ∃ u, a.user? m = some u

/-- The same numbers and the same members. -/
structure Alike (a b : Accounts) : Prop where
  user : ∀ n, Option.Rel (fun u v => v.uid = u.uid ∧ v.gid = u.gid) (a.user? n) (b.user? n)
  group : ∀ n, Option.Rel (fun x y => y.gid = x.gid ∧ ∀ m, m ∈ y.members ↔ m ∈ x.members) (a.group? n) (b.group? n)

/-- Nothing but numbers and members matters. -/
theorem Numbered.alike (h : a.Numbered) (hab : Alike a b) : b.Numbered where
  root := by
    obtain ⟨u, hu, huid⟩ := h.root
    obtain ⟨v, hv, hvid, -⟩ := rel_to (hab.user _) hu
    exact ⟨v, hv, hvid.trans huid⟩
  system g hg := by
    obtain ⟨x, hx, hgid⟩ := h.system g hg
    obtain ⟨y, hy, hygid, -⟩ := rel_to (hab.group _) hx
    exact ⟨y, hy, hygid.trans hgid⟩
  uids hu hv he := by
    obtain ⟨u, hu, huid, -⟩ := rel_of (hab.user _) hu
    obtain ⟨v, hv, hvid, -⟩ := rel_of (hab.user _) hv
    exact h.uids hu hv (huid.symm.trans (he.trans hvid))
  gids hx hy he := by
    obtain ⟨x, hx, hxgid, -⟩ := rel_of (hab.group _) hx
    obtain ⟨y, hy, hygid, -⟩ := rel_of (hab.group _) hy
    exact h.gids hx hy (hxgid.symm.trans (he.trans hygid))
  own hv := by
    obtain ⟨u, hu, huid, hugid⟩ := rel_of (hab.user _) hv
    obtain ⟨hsame, x, hx, hgid, hmem⟩ := h.own hu
    obtain ⟨y, hy, hygid, hmembers⟩ := rel_to (hab.group _) hx
    exact ⟨hugid.trans (hsame.trans huid.symm), y, hy, hygid.trans (hgid.trans hugid.symm), (hmembers _).2 hmem⟩
  known hy hm := by
    obtain ⟨x, hx, -, hmembers⟩ := rel_of (hab.group _) hy
    obtain ⟨u, hu⟩ := h.known hx ((hmembers _).1 hm)
    obtain ⟨v, hv, -⟩ := rel_to (hab.user _) hu
    exact ⟨v, hv⟩

/-! ## Changes of what is there -/

/-- Other groups may be listed with the users. -/
theorem Numbered.reindexed (h : a.Numbered) : a.reindexed.Numbered := by
  refine h.alike ⟨fun n => ?_, fun n => rel_refl (fun x => ⟨rfl, fun _ => Iff.rfl⟩) _⟩
  rw [user?_reindexed_eq]
  exact rel_map (fun u => ⟨rfl, rfl⟩) _

/-- The same tables, listed in another order. -/
theorem Numbered.same (h : a.Numbered) (hab : a.Same b) : b.Numbered :=
  h.alike ⟨fun n => rel_imp User.Same.numbers (hab.user n),
    fun n => rel_imp (fun hs => ⟨hs.gid.symm, fun _ => hs.members.symm.mem_iff⟩) (hab.group n)⟩

/-- A change of a user that leaves the numbers alone. -/
theorem Numbered.updateUsers (h : a.Numbered) {f : User → User} (hf : ∀ u, (f u).uid = u.uid ∧ (f u).gid = u.gid) :
    Numbered { a with users := a.users.update name f } := by
  refine h.alike ⟨fun n => ?_, fun n => rel_refl (fun x => ⟨rfl, fun _ => Iff.rfl⟩) _⟩
  show Option.Rel _ (a.users.get? n) ((a.users.update name f).get? n)
  rw [get?_update]
  split
  · exact rel_map hf _
  · exact rel_refl (fun u => ⟨rfl, rfl⟩) _

/-- A change of the members of one group. Whoever is added is a user, and a user stays in its own group. -/
theorem Numbered.updateMembers (h : a.Numbered) {f : Group → Group} (hgid : ∀ x, (f x).gid = x.gid)
    (hknown : ∀ {x m}, a.group? name = some x → m ∈ (f x).members → m ∈ x.members ∨ ∃ u, a.user? m = some u)
    (hown : ∀ {x u}, a.group? name = some x → a.user? name = some u → name ∈ x.members → name ∈ (f x).members) :
    Numbered { a with groups := a.groups.update name f } := by
  have hto : ∀ {n x}, a.group? n = some x → ∃ y, (a.groups.update name f).get? n = some y ∧ y.gid = x.gid ∧
      (n ∈ x.members → (∃ u, a.user? n = some u) → n ∈ y.members) := by
    intro n x hx
    by_cases hn : n = name
    · subst hn
      exact ⟨f x, get?_update_some.2 (.inl ⟨rfl, x, hx, rfl⟩), hgid x, fun hm ⟨u, hu⟩ => hown hx hu hm⟩
    · exact ⟨x, get?_update_some.2 (.inr ⟨hn, hx⟩), rfl, fun hm _ => hm⟩
  have hfrom : ∀ {n y}, (a.groups.update name f).get? n = some y → ∃ x, a.group? n = some x ∧ y.gid = x.gid ∧
      ∀ m ∈ y.members, m ∈ x.members ∨ ∃ u, a.user? m = some u := by
    intro n y hy
    rcases get?_update_some.1 hy with ⟨rfl, x, hx, rfl⟩ | ⟨-, hx⟩
    · exact ⟨x, hx, hgid x, fun m hm => hknown hx hm⟩
    · exact ⟨y, hx, rfl, fun m hm => .inl hm⟩
  refine ⟨h.root, fun g hg => ?_, h.uids, fun hx hy he => ?_, fun hu => ?_, fun hy hm => ?_⟩
  · obtain ⟨x, hx, hxgid⟩ := h.system g hg
    obtain ⟨y, hy, hygid, -⟩ := hto hx
    exact ⟨y, hy, hygid.trans hxgid⟩
  · obtain ⟨x, hx, hxgid, -⟩ := hfrom hx
    obtain ⟨y, hy, hygid, -⟩ := hfrom hy
    exact h.gids hx hy (hxgid.symm.trans (he.trans hygid))
  · obtain ⟨hsame, x, hx, hxgid, hmem⟩ := h.own hu
    obtain ⟨y, hy, hygid, hstays⟩ := hto hx
    exact ⟨hsame, y, hy, hygid.trans hxgid, hstays hmem ⟨_, hu⟩⟩
  · obtain ⟨x, hx, -, hmembers⟩ := hfrom hy
    exact (hmembers _ hm).elim (h.known hx) id

/-- A user joins a group. -/
theorem Numbered.join (h : a.Numbered) {user : Json} (hu : a.user? user = some u) :
    Numbered { a with groups := a.groups.update name (·.insert user) } :=
  h.updateMembers gid_insert (fun _ hm => (mem_insert.1 hm).imp_right (by rintro rfl; exact ⟨u, hu⟩)) fun _ _ hm =>
    mem_insert.2 (.inl hm)

/-- Somebody leaves a group that is not the own one. -/
theorem Numbered.leave (h : a.Numbered) {user : Json} (hother : ∀ u, a.user? name = some u → name ≠ user) :
    Numbered { a with groups := a.groups.update name (·.erase user) } :=
  h.updateMembers (fun _ => rfl) (fun _ hm => .inl (mem_erase.1 hm).1) fun _ hu hm => mem_erase.2 ⟨hm, hother _ hu⟩

/-! ## Numbers that are free -/

/-- A number that no user and no group has. -/
structure Unused (a : Accounts) (number : Json) : Prop where
  user : ∀ {n u}, a.user? n = some u → u.uid ≠ number
  group : ∀ {n x}, a.group? n = some x → x.gid ≠ number

/-- The search for a free number passes only numbers that are taken. -/
theorem firstFree_spec {taken : List Json} : ∀ {count n : Nat},
    taken.any (·.isNumber (firstFree taken count n : Nat)) = false ∨ ∀ k < count, taken.any (·.isNumber (n + k : Nat)) = true
  | 0, n => .inr fun k hk => absurd hk (Nat.not_lt_zero k)
  | count + 1, n => by
    unfold firstFree
    split
    · rename_i htaken
      refine (@firstFree_spec taken count (n + 1)).imp_right fun hall k hk => ?_
      rcases k with _ | k
      · exact htaken
      · rw [show n + (k + 1) = n + 1 + k by omega]
        exact hall k (Nat.lt_of_succ_lt_succ hk)
    · rename_i hfree
      exact .inl (by simpa using hfree)

/-- Among more candidates than there are taken numbers one is free. -/
theorem firstFree_free {taken : List Json} (hint : ∀ v ∈ taken, ∃ i, v = .int i) {count n : Nat} (hcount : taken.length < count) :
    taken.any (·.isNumber (firstFree taken count n : Nat)) = false := by
  refine (@firstFree_spec taken count n).resolve_right fun hall => ?_
  -- otherwise the candidates, which all differ, were among the fewer taken numbers
  have hnodup : ((List.range count).map fun k => Json.int ((n + k : Nat) : Int)).Nodup :=
    List.nodup_range.map fun i j he => by
      have hij : ((n + i : Nat) : Int) = ((n + j : Nat) : Int) := Json.int.inj he
      omega
  have hsub : ((List.range count).map fun k => Json.int ((n + k : Nat) : Int)) ⊆ taken := by
    intro v hv
    obtain ⟨k, hk, rfl⟩ := List.mem_map.1 hv
    obtain ⟨w, hw, hnum⟩ := List.any_eq_true.1 (hall k (List.mem_range.1 hk))
    obtain ⟨i, rfl⟩ := hint w hw
    have hi : i = ((n + k : Nat) : Int) := by simpa [Json.isNumber] using hnum
    exact hi ▸ hw
  have hlen := (List.subperm_of_subset hnodup hsub).length_le
  rw [List.length_map, List.length_range] at hlen
  omega

/-- Numbers that are taken are integers. -/
theorem InOrder.taken_int (h : a.InOrder) : ∀ v ∈ a.takenNumbers, ∃ i, v = .int i := by
  intro v hv
  rcases List.mem_append.1 hv with hv | hv
  · obtain ⟨u, hu, rfl⟩ := List.mem_map.1 hv
    obtain ⟨p, hp, rfl⟩ := List.mem_map.1 hu
    exact (h.user p hp).2.uid
  · obtain ⟨x, hx, rfl⟩ := List.mem_map.1 hv
    obtain ⟨p, hp, rfl⟩ := List.mem_map.1 hx
    exact (h.group p hp).2.gid

/-- Looking for a free number gives up on numbers that are no keys, and tables in order have none. -/
theorem InOrder.taken_keys (h : a.InOrder) : a.takenNumbers.all Json.isKey = true := List.all_eq_true.2 fun v hv => by
  obtain ⟨i, rfl⟩ := h.taken_int v hv
  rfl

theorem InOrder.nextUid_ok (h : a.InOrder) : ∃ i, a.nextUid = .ok i := ⟨_, if_pos h.taken_keys⟩

/-- The next number is free. -/
theorem InOrder.unused (h : a.InOrder) {i : Int} (hnext : a.nextUid = .ok i) : a.Unused (.int i) := by
  have hfree : a.takenNumbers.any (·.isNumber i) = false := by
    unfold nextUid at hnext
    split at hnext
    · cases hnext
      exact firstFree_free h.taken_int (Nat.lt_succ_self _)
    · cases hnext
  have hno : ∀ v ∈ a.takenNumbers, v ≠ .int i := by
    rintro v hv rfl
    have hyes : a.takenNumbers.any (·.isNumber i) = true := List.any_eq_true.2 ⟨_, hv, beq_self_eq_true i⟩
    rw [hfree] at hyes
    cases hyes
  refine ⟨fun {n u} hu => hno _ (List.mem_append_left _ ?_), fun {n x} hx => hno _ (List.mem_append_right _ ?_)⟩
  · exact List.mem_map_of_mem (List.mem_map_of_mem (f := Prod.snd) ((get?_iff_mem h.users).1 hu))
  · exact List.mem_map_of_mem (List.mem_map_of_mem (f := Prod.snd) ((get?_iff_mem h.groups).1 hx))

/-! ## New entries -/

/-- A new group of users under a free number. -/
theorem Numbered.putGroup (h : a.Numbered) {x : Group} (hnew : a.group? name = none) (hfree : a.Unused x.gid)
    (hknown : ∀ m ∈ x.members, ∃ u, a.user? m = some u) : Numbered { a with groups := a.groups.put name x } := by
  have hget : ∀ {n y}, (a.groups.put name x).get? n = some y ↔ n = name ∧ y = x ∨ a.group? n = some y := get?_put_new hnew
  refine ⟨h.root, fun g hg => ?_, h.uids, fun hy hz he => ?_, fun hu => ?_, fun hy hm => ?_⟩
  · obtain ⟨y, hy, hgid⟩ := h.system g hg
    exact ⟨y, hget.2 (.inr hy), hgid⟩
  · rcases hget.1 hy with ⟨rfl, rfl⟩ | hy' <;> rcases hget.1 hz with ⟨rfl, rfl⟩ | hz'
    · rfl
    · exact absurd he.symm (hfree.group hz')
    · exact absurd he (hfree.group hy')
    · exact h.gids hy' hz' he
  · obtain ⟨hsame, y, hy, hrest⟩ := h.own hu
    exact ⟨hsame, y, hget.2 (.inr hy), hrest⟩
  · rcases hget.1 hy with ⟨rfl, rfl⟩ | hy
    · exact hknown _ hm
    · exact h.known hy hm

/-- A new user with a group of its own, both under a free number. -/
theorem Numbered.insertUser (h : a.Numbered) (hnew : a.user? u.name = none) (hnone : a.group? u.name = none)
    (hsame : u.gid = u.uid) (hfree : a.Unused u.uid) (hin : a.insertUser u = .ok b) : b.Numbered := by
  let x : Group := { name := u.name, gid := u.gid, members := [u.name] }
  have huser : ∀ {n v}, (a.users.put u.name u).get? n = some v ↔ n = u.name ∧ v = u ∨ a.user? n = some v := get?_put_new hnew
  have hgroup : ∀ {n y}, (a.groups.put u.name x).get? n = some y ↔ n = u.name ∧ y = x ∨ a.group? n = some y := get?_put_new hnone
  have hentered : Numbered { users := a.users.put u.name u, groups := a.groups.put u.name x } := by
    refine ⟨?_, fun g hg => ?_, fun hv hw he => ?_, fun hy hz he => ?_, fun hv => ?_, fun hy hm => ?_⟩
    · obtain ⟨r, hr, huid⟩ := h.root
      exact ⟨r, huser.2 (.inr hr), huid⟩
    · obtain ⟨y, hy, hgid⟩ := h.system g hg
      exact ⟨y, hgroup.2 (.inr hy), hgid⟩
    · rcases huser.1 hv with ⟨rfl, rfl⟩ | hv' <;> rcases huser.1 hw with ⟨rfl, rfl⟩ | hw'
      · rfl
      · exact absurd he.symm (hfree.user hw')
      · exact absurd he (hfree.user hv')
      · exact h.uids hv' hw' he
    · rcases hgroup.1 hy with ⟨rfl, rfl⟩ | hy' <;> rcases hgroup.1 hz with ⟨rfl, rfl⟩ | hz'
      · rfl
      · exact absurd (he.symm.trans hsame) (hfree.group hz')
      · exact absurd (he.trans hsame) (hfree.group hy')
      · exact h.gids hy' hz' he
    · rcases huser.1 hv with ⟨rfl, rfl⟩ | hv
      · exact ⟨hsame, x, hgroup.2 (.inl ⟨rfl, rfl⟩), rfl, List.mem_singleton.2 rfl⟩
      · obtain ⟨hown, y, hy, hrest⟩ := h.own hv
        exact ⟨hown, y, hgroup.2 (.inr hy), hrest⟩
    · rcases hgroup.1 hy with ⟨rfl, rfl⟩ | hy
      · exact ⟨u, huser.2 (.inl ⟨List.mem_singleton.1 hm, rfl⟩)⟩
      · obtain ⟨v, hv⟩ := h.known hy hm
        exact ⟨v, huser.2 (.inr hv)⟩
  unfold Accounts.insertUser Accounts.updateGroup at hin
  split at hin
  · cases hin
    exact hentered.join (huser.2 (.inl ⟨rfl, rfl⟩))
  · cases hin

/-! ## Entries that go -/

/-- A group that is no user's own. -/
theorem Numbered.dropGroup (h : a.Numbered) (hgroups : a.groups.keys.Nodup) (hno : ∀ g ∈ systemGroups, Json.str g.1 ≠ name)
    (hown : a.user? name = none) : Numbered { a with groups := a.groups.drop name } := by
  have hget : ∀ {n y}, (a.groups.drop name).get? n = some y ↔ n ≠ name ∧ a.group? n = some y := by
    intro n y
    rw [get?_drop hgroups]
    show (if n = name then none else a.group? n) = some y ↔ _
    split <;> simp [*]
  refine ⟨h.root, fun g hg => ?_, h.uids, fun hx hy he => h.gids (hget.1 hx).2 (hget.1 hy).2 he, fun {n u} hu => ?_,
    fun hx hm => h.known (hget.1 hx).2 hm⟩
  · obtain ⟨x, hx, hgid⟩ := h.system g hg
    exact ⟨x, hget.2 ⟨hno g hg, hx⟩, hgid⟩
  · obtain ⟨hsame, x, hx, hrest⟩ := h.own hu
    refine ⟨hsame, x, hget.2 ⟨?_, hx⟩, hrest⟩
    rintro rfl
    cases hown.symm.trans hu

/-- A user goes, and leaves every group. -/
theorem Numbered.withoutUser (h : a.Numbered) (husers : a.users.keys.Nodup) (hroot : name ≠ rootName) :
    Numbered { users := a.users.drop name, groups := a.groups.mapValues (·.erase name) } := by
  have huser : ∀ {n v}, (a.users.drop name).get? n = some v ↔ n ≠ name ∧ a.user? n = some v := by
    intro n v
    rw [get?_drop husers]
    show (if n = name then none else a.user? n) = some v ↔ _
    split <;> simp [*]
  have hgroup : ∀ {n y}, Keyed.get? (a.groups.mapValues (·.erase name)) n = some y ↔ ∃ x, a.group? n = some x ∧ x.erase name = y := by
    intro n y
    have hmap : Keyed.get? (a.groups.mapValues (·.erase name)) n = (a.group? n).map (·.erase name) :=
      get?_map (f := fun x : Group => x.erase name)
    rw [hmap, Option.map_eq_some_iff]
  refine ⟨?_, fun g hg => ?_, fun hu hv he => h.uids (huser.1 hu).2 (huser.1 hv).2 he, fun hx hy he => ?_, fun hu => ?_,
    fun hy hm => ?_⟩
  · obtain ⟨u, hu, huid⟩ := h.root
    exact ⟨u, huser.2 ⟨hroot.symm, hu⟩, huid⟩
  · obtain ⟨x, hx, hgid⟩ := h.system g hg
    exact ⟨_, hgroup.2 ⟨x, hx, rfl⟩, hgid⟩
  · obtain ⟨x, hx', rfl⟩ := hgroup.1 hx
    obtain ⟨y, hy', rfl⟩ := hgroup.1 hy
    exact h.gids hx' hy' he
  · obtain ⟨hne, hu⟩ := huser.1 hu
    obtain ⟨hsame, x, hx, hgid, hmem⟩ := h.own hu
    exact ⟨hsame, _, hgroup.2 ⟨x, hx, rfl⟩, hgid, mem_erase.2 ⟨hmem, hne⟩⟩
  · obtain ⟨x, hx, rfl⟩ := hgroup.1 hy
    obtain ⟨hm, hne⟩ := mem_erase.1 hm
    obtain ⟨u, hu⟩ := h.known hx hm
    exact ⟨u, huser.2 ⟨hne, hu⟩⟩

/-- The own group of a user who goes may go, too. -/
theorem Numbered.eraseUser (h : a.Numbered) (horder : a.InOrder) {user : String} (hroot : user ≠ rootName)
    (hu : a.user? user = some u) : (a.eraseUser u).Numbered := by
  have hname : u.name = .str user := (horder.filedUsers.get? hu).1
  have hne : u.name ≠ rootName := by
    rw [hname]
    exact fun he => hroot (Json.str.inj he)
  have hgone := h.withoutUser horder.users hne
  have hkeys : (a.groups.mapValues (·.erase u.name)).keys.Nodup := by
    unfold Keyed.keys Keyed.mapValues
    rw [List.map_map]
    exact horder.groups
  have hsystem : ∀ g ∈ systemGroups, Json.str g.1 ≠ u.name := by
    intro g hg he
    refine hroot (Json.str.inj (hname.symm.trans (he.symm.trans (congrArg Json.str (horder.apart g hg ?_)))))
    rw [he, hname]
    exact Option.isSome_iff_exists.2 ⟨u, hu⟩
  have hdropped : Keyed.get? (a.users.drop u.name) u.name = none := by
    rw [get?_drop horder.users, if_pos rfl]
  unfold Accounts.eraseUser
  dsimp only
  split
  · split
    · exact hgone.dropGroup hkeys hsystem hdropped
    · exact hgone
  · exact hgone

/-! ## The first tables -/

theorem initial_numbered : initial.Numbered := by
  have huser : ∀ {n u}, initial.user? n = some u → n = rootName ∧ u.uid = .int 0 ∧ u.gid = .int 0 := by
    intro n u hu
    have hmem : (n, u) ∈ initial.users := (get?_iff_mem initial_inOrder.users).1 hu
    cases List.mem_singleton.1 hmem
    exact ⟨rfl, rfl, rfl⟩
  have hgroup : ∀ {n x}, initial.group? n = some x → ∃ g ∈ systemGroups, n = .str g.1 ∧ x.gid = .int g.2 ∧
      ∀ m ∈ x.members, m = rootName := by
    intro n x hx
    obtain ⟨g, hg, he⟩ := List.mem_map.1 ((get?_iff_mem initial_inOrder.groups).1 hx)
    cases he
    refine ⟨g, hg, rfl, rfl, fun m hm => ?_⟩
    dsimp only at hm
    split at hm
    · rename_i hroot
      rw [List.mem_singleton.1 hm, hroot]
    · cases hm
  have hroot : ∃ u, initial.user? rootName = some u ∧ u.uid = .int 0 ∧ u.gid = .int 0 := ⟨_, rfl, rfl, rfl⟩
  have hapart : ∀ g ∈ systemGroups, ∀ g' ∈ systemGroups, g.2 = g'.2 → g.1 = g'.1 := by decide
  refine ⟨?_, by decide, fun hu hv _ => ?_, fun hx hy he => ?_, fun hu => ?_, fun hx hm => ?_⟩
  · obtain ⟨u, hu, huid, -⟩ := hroot
    exact ⟨u, hu, huid⟩
  · rw [(huser hu).1, (huser hv).1]
  · obtain ⟨g, hg, rfl, hxgid, -⟩ := hgroup hx
    obtain ⟨g', hg', rfl, hygid, -⟩ := hgroup hy
    rw [hapart g hg g' hg' (Json.int.inj (hxgid.symm.trans (he.trans hygid)))]
  · obtain ⟨rfl, huid, hgid⟩ := huser hu
    exact ⟨hgid.trans huid.symm, _, rfl, hgid.symm, List.mem_singleton.2 rfl⟩
  · obtain ⟨_, _, _, _, hmembers⟩ := hgroup hx
    obtain ⟨u, hu, -⟩ := hroot
    exact ⟨u, hmembers _ hm ▸ hu⟩

/-! ## What users know of their groups -/

/-- Tables in which everything is right: numbers, memberships, and what users know of them. -/
structure Consistent (a : Accounts) : Prop where
  /-- Root exists under the numbers zero. -/
  root : ∃ u, a.user? rootName = some u ∧ u.uid = .int 0 ∧ u.gid = .int 0
  /-- The groups of the system exist under their numbers. -/
  system : ∀ g ∈ systemGroups, ∃ x, a.group? g.1 = some x ∧ x.gid = .int g.2
  /-- No two users share a number, and no two groups do. -/
  uids : ∀ {m n u v}, a.user? m = some u → a.user? n = some v → u.uid = v.uid → m = n
  gids : ∀ {m n x y}, a.group? m = some x → a.group? n = some y → x.gid = y.gid → m = n
  /-- Every user is a member of a group of the same name and number, the only one with that number. -/
  own : ∀ {n u}, a.user? n = some u → u.gid = u.uid ∧ (∃ x, a.group? n = some x ∧ x.gid = u.gid ∧ n ∈ x.members) ∧
    ∀ {m y}, a.group? m = some y → y.gid = u.gid → m = n
  /-- Members are users. -/
  known : ∀ {n x m}, a.group? n = some x → m ∈ x.members → ∃ u, a.user? m = some u
  /-- The groups of a user are the names of those that list it, each once. -/
  groups : ∀ {n u}, a.user? n = some u → u.groups.Nodup ∧ ∀ g, g ∈ u.groups ↔ ∃ x, a.group? g = some x ∧ n ∈ x.members

/-- Users know the groups that list them, each once, and no others. -/
theorem Indexed.groups (hindexed : a.Indexed) (horder : a.InOrder) {n : Json} {u : User} (hu : a.user? n = some u) :
    u.groups.Nodup ∧ ∀ g, g ∈ u.groups ↔ ∃ x, a.group? g = some x ∧ n ∈ x.members := by
  have hself : a.reindexed.user? n = some u := by
    rw [show a.reindexed = a from hindexed, hu]
  rw [user?_reindexed_eq, hu] at hself
  have hgroups : u.groups = listing a.groups u.name := (congrArg User.groups (Option.some.inj hself)).symm
  have hname : u.name = n := (horder.filedUsers.get? hu).1
  rw [hgroups, hname]
  unfold listing
  refine ⟨?_, fun g => ?_⟩
  · -- groups stand under their names, and each name once
    have hnames : (a.groups.values.map (·.name)).Nodup :=
      InOrder.names_nodup horder.groups (fun p hp => (horder.group p hp).1) (.refl _)
    exact hnames.sublist (List.filter_sublist.map _)
  · rw [List.mem_map]
    constructor
    · rintro ⟨x, hx, rfl⟩
      obtain ⟨hin, hlists⟩ := List.mem_filter.1 hx
      obtain ⟨p, hp, rfl⟩ := List.mem_map.1 hin
      refine ⟨p.2, (get?_iff_mem horder.groups).2 ?_, List.contains_iff_mem.1 hlists⟩
      rw [(horder.group p hp).1]
      exact hp
    · rintro ⟨x, hx, hmem⟩
      refine ⟨x, List.mem_filter.2 ⟨?_, List.contains_iff_mem.2 hmem⟩, (horder.filedGroups.get? hx).1⟩
      exact List.mem_map_of_mem (f := Prod.snd) ((get?_iff_mem horder.groups).1 hx)

theorem Numbered.consistent (h : a.Numbered) (horder : a.InOrder) (hindexed : a.Indexed) : a.Consistent where
  root := by
    obtain ⟨u, hu, huid⟩ := h.root
    exact ⟨u, hu, huid, (h.own hu).1.trans huid⟩
  system := h.system
  uids := h.uids
  gids := h.gids
  own hu := by
    obtain ⟨hsame, x, hx, hgid, hmem⟩ := h.own hu
    exact ⟨hsame, ⟨x, hx, hgid, hmem⟩, fun hy he => h.gids hy hx (he.trans hgid.symm)⟩
  known := h.known
  groups hu := hindexed.groups horder hu

end Accounts

end SimUnix
