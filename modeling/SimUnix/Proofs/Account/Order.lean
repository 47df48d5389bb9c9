/-
Every change of the tables of users and groups leaves them in order: each entry under its own name, plain,
with root and the system groups in their places.
-/
import SimUnix.Proofs.Account.Restore

namespace SimUnix

/-! ## Tables of named entries -/

namespace Keyed

variable {κ α : Type} [DecidableEq κ] {table : Keyed κ α} {k : κ} {p : κ × α}

theorem mem_put {v : α} : ∀ {table : Keyed κ α}, p ∈ put table k v → p = (k, v) ∨ p ∈ table
  | [], h => .inl (List.mem_singleton.1 h)
  | (l, w) :: rest, h => by
    unfold put at h
    split at h
    · rename_i heq
      rcases List.mem_cons.1 h with rfl | h
      · exact .inl (by rw [beq_iff_eq.1 heq])
      · exact .inr (List.mem_cons_of_mem _ h)
    · rcases List.mem_cons.1 h with rfl | h
      · exact .inr (List.mem_cons_self ..)
      · exact (mem_put h).imp_right (List.mem_cons_of_mem _)

theorem mem_update {f : α → α} : ∀ {table : Keyed κ α}, p ∈ update table k f → p ∈ table ∨ ∃ q ∈ table, p = (q.1, f q.2)
  | (l, w) :: rest, h => by
    unfold update at h
    split at h
    · rcases List.mem_cons.1 h with rfl | h
      · exact .inr ⟨_, List.mem_cons_self .., rfl⟩
      · exact .inl (List.mem_cons_of_mem _ h)
    · rcases List.mem_cons.1 h with rfl | h
      · exact .inl (List.mem_cons_self ..)
      · exact (mem_update h).imp (List.mem_cons_of_mem _) (Exists.imp fun _ => And.imp_left (List.mem_cons_of_mem _))

theorem mem_of_drop : ∀ {table : Keyed κ α}, p ∈ drop table k → p ∈ table
  | (l, w) :: rest, h => by
    unfold drop at h
    split at h
    · exact List.mem_cons_of_mem _ h
    · rcases List.mem_cons.1 h with rfl | h
      · exact List.mem_cons_self ..
      · exact List.mem_cons_of_mem _ (mem_of_drop h)

theorem has_iff {l : κ} : table.has l = true ↔ ∃ v, table.get? l = some v := Option.isSome_iff_exists

theorem has_eq_false {l : κ} : table.has l = false ↔ table.get? l = none := by
  unfold Keyed.has
  rw [Option.isSome_eq_false_iff, Option.isNone_iff_eq_none]

theorem has_put {v : α} {l : κ} : (put table k v).has l = (decide (l = k) || table.has l) := by
  unfold has
  rw [get?_put]
  split
  · rename_i h
    simp [h]
  · rename_i h
    simp [h]

theorem has_update {f : α → α} {l : κ} : (update table k f).has l = table.has l := by
  unfold has
  rw [get?_update]
  split
  · rename_i h
    rw [h, Option.isSome_map]
  · rfl

theorem has_mapValues {f : α → α} {l : κ} : (table.mapValues f).has l = table.has l := by
  unfold has
  rw [show (table.mapValues f).get? l = _ from get?_map, Option.isSome_map]

theorem has_drop (h : table.keys.Nodup) {l : κ} : (drop table k).has l = (decide (l ≠ k) && table.has l) := by
  unfold has
  rw [get?_drop h]
  split <;> simp [*]

/-- Every entry stands under its own name, once, and has a property. -/
structure Filed (name : α → κ) (P : α → Prop) (table : Keyed κ α) : Prop where
  once : table.keys.Nodup
  entry : ∀ p ∈ table, name p.2 = p.1 ∧ P p.2

variable {name : α → κ} {P : α → Prop}

namespace Filed

theorem get? (h : Filed name P table) {v : α} (hv : table.get? k = some v) : name v = k ∧ P v :=
  h.entry _ ((get?_iff_mem h.once).1 hv)

/-- What stands under a name is the entry of that name. -/
theorem get?_iff (h : Filed name P table) {v : α} : table.get? k = some v ↔ v ∈ table.values ∧ name v = k := by
  constructor
  · intro hv
    exact ⟨List.mem_map_of_mem ((get?_iff_mem h.once).1 hv), (h.get? hv).1⟩
  · rintro ⟨hv, rfl⟩
    obtain ⟨p, hp, rfl⟩ := List.mem_map.1 hv
    exact (get?_iff_mem h.once).2 ((h.entry p hp).1 ▸ hp)

theorem put (h : Filed name P table) {v : α} (hn : name v = k) (hv : P v) : Filed name P (table.put k v) := by
  refine ⟨?_, fun p hp => ?_⟩
  · rw [keys_put]
    split
    · exact h.once
    · rename_i hk
      exact List.nodup_append.2 ⟨h.once, List.pairwise_singleton .., fun a ha b hb => by
        rw [List.mem_singleton.1 hb]
        rintro rfl
        exact hk ha⟩
  · rcases mem_put hp with rfl | hp
    · exact ⟨hn, hv⟩
    · exact h.entry p hp

theorem update (h : Filed name P table) {f : α → α} (hf : ∀ v, P v → name (f v) = name v ∧ P (f v)) :
    Filed name P (table.update k f) := by
  refine ⟨by rw [keys_update]; exact h.once, fun p hp => ?_⟩
  rcases mem_update hp with hp | ⟨q, hq, rfl⟩
  · exact h.entry p hp
  · obtain ⟨hn, hv⟩ := h.entry q hq
    exact ⟨(hf _ hv).1.trans hn, (hf _ hv).2⟩

theorem drop (h : Filed name P table) : Filed name P (table.drop k) :=
  ⟨by rw [keys_drop]; exact h.once.erase _, fun p hp => h.entry p (mem_of_drop hp)⟩

omit [DecidableEq κ] in
theorem mapValues (h : Filed name P table) {f : α → α} (hf : ∀ v, P v → name (f v) = name v ∧ P (f v)) :
    Filed name P (table.mapValues f) := by
  refine ⟨?_, fun p hp => ?_⟩
  · unfold keys Keyed.mapValues
    rw [List.map_map]
    exact h.once
  · obtain ⟨q, hq, rfl⟩ := List.mem_map.1 hp
    obtain ⟨hn, hv⟩ := h.entry q hq
    exact ⟨(hf _ hv).1.trans hn, (hf _ hv).2⟩

end Filed

end Keyed

/-! ## Users and groups -/

/-- A list from which repetitions have been erased has none. -/
theorem nodup_eraseDups {α : Type} [DecidableEq α] : ∀ xs : List α, xs.eraseDups.Nodup
  | [] => .nil
  | x :: xs => by
    rw [List.eraseDups_cons]
    refine List.nodup_cons.2 ⟨fun hx => ?_, nodup_eraseDups _⟩
    simpa using List.mem_eraseDups.1 hx
termination_by xs => xs.length
decreasing_by exact Nat.lt_succ_of_le (List.length_filter_le ..)

theorem Group.Plain.insert {g : Group} (h : g.Plain) {user : Json} (hu : user.IsText) : (g.insert user).Plain := by
  unfold Group.insert
  split
  · exact h
  · rename_i hnew
    refine ⟨h.name, h.gid, fun m hm => ?_, ?_⟩
    · rcases List.mem_append.1 hm with hm | hm
      · exact h.members m hm
      · rw [List.mem_singleton.1 hm]
        exact hu
    · refine List.nodup_append.2 ⟨h.once, List.pairwise_singleton .., fun a ha b hb => ?_⟩
      rw [List.mem_singleton.1 hb]
      rintro rfl
      exact hnew (List.contains_iff_mem.2 ha)

theorem Group.Plain.erase {g : Group} (h : g.Plain) {user : Json} : (g.erase user).Plain :=
  ⟨h.name, h.gid, fun m hm => h.members m (List.mem_of_mem_filter hm), h.once.filter _⟩

theorem Group.name_insert {g : Group} {user : Json} : (g.insert user).name = g.name := by
  unfold Group.insert
  split <;> rfl

namespace Accounts

open Keyed

variable {a a' : Accounts} {u : User}

theorem gid_insert {name : Json} (x : Group) : (x.insert name).gid = x.gid := by
  unfold Group.insert
  split <;> rfl

theorem mem_insert {x : Group} {name m : Json} : m ∈ (x.insert name).members ↔ m ∈ x.members ∨ m = name := by
  unfold Group.insert
  split
  · rename_i hmem
    refine ⟨.inl, fun hm => hm.elim id ?_⟩
    rintro rfl
    exact List.contains_iff_mem.1 hmem
  · rw [List.mem_append, List.mem_singleton]

theorem mem_erase {x : Group} {name m : Json} : m ∈ (x.erase name).members ↔ m ∈ x.members ∧ m ≠ name := by
  unfold Group.erase
  rw [List.mem_filter, bne_iff_ne]

theorem InOrder.filedUsers (h : a.InOrder) : Filed User.name User.Plain a.users := ⟨h.users, h.user⟩

theorem InOrder.filedGroups (h : a.InOrder) : Filed Group.name Group.Plain a.groups := ⟨h.groups, h.group⟩

/-- Other users, none of them named like a group of the system. -/
theorem InOrder.withUsers (h : a.InOrder) {users : Keyed Json User} (hf : Filed User.name User.Plain users)
    (hroot : users.has rootName = true)
    (hapart : ∀ g ∈ systemGroups, users.has (.str g.1) = true → g.1 = rootName) : InOrder { a with users } :=
  ⟨hf.once, hf.entry, h.groups, h.group, hroot, h.system, hapart⟩

/-- Other groups, with those of the system among them. -/
theorem InOrder.withGroups (h : a.InOrder) {groups : Keyed Json Group} (hf : Filed Group.name Group.Plain groups)
    (hsystem : ∀ g ∈ systemGroups, groups.has (.str g.1) = true) : InOrder { a with groups } :=
  ⟨h.users, h.user, hf.once, hf.entry, h.root, hsystem, h.apart⟩

theorem InOrder.updateUsers (h : a.InOrder) {name : Json} {f : User → User}
    (hf : ∀ u : User, u.Plain → (f u).name = u.name ∧ (f u).Plain) : InOrder { a with users := a.users.update name f } :=
  h.withUsers (h.filedUsers.update hf) (has_update.trans h.root) fun g hg hhas => h.apart g hg (has_update.symm.trans hhas)

theorem InOrder.updateGroups (h : a.InOrder) {name : Json} {f : Group → Group}
    (hf : ∀ x : Group, x.Plain → (f x).name = x.name ∧ (f x).Plain) : InOrder { a with groups := a.groups.update name f } :=
  h.withGroups (h.filedGroups.update hf) fun g hg => has_update.trans (h.system g hg)

theorem InOrder.updateGroup (h : a.InOrder) {name : Json} {f : Group → Group}
    (hf : ∀ x : Group, x.Plain → (f x).name = x.name ∧ (f x).Plain) (hup : a.updateGroup name f = .ok a') : a'.InOrder := by
  unfold Accounts.updateGroup at hup
  split at hup
  · cases hup
    exact h.updateGroups hf
  · cases hup

theorem InOrder.insertUser (h : a.InOrder) (hu : u.Plain) (hnew : ∀ g ∈ systemGroups, u.name ≠ .str g.1)
    (hin : a.insertUser u = .ok a') : a'.InOrder := by
  have hgroup : Group.Plain { name := u.name, gid := u.gid, members := [u.name] } :=
    ⟨hu.name, hu.gid, fun m hm => by rw [List.mem_singleton.1 hm]; exact hu.name, List.pairwise_singleton ..⟩
  have husers : InOrder { a with users := a.users.put u.name u } := by
    refine h.withUsers (h.filedUsers.put rfl hu) (has_put.trans (by rw [h.root, Bool.or_true])) fun g hg hhas => ?_
    rw [has_put, Bool.or_eq_true, decide_eq_true_eq] at hhas
    exact hhas.elim (fun he => absurd he.symm (hnew g hg)) (h.apart g hg)
  have hboth := husers.withGroups (h.filedGroups.put (v := { name := u.name, gid := u.gid, members := [u.name] }) rfl hgroup)
    fun g hg => has_put.trans (by rw [h.system g hg, Bool.or_true])
  exact hboth.updateGroup (fun x hx => ⟨Group.name_insert, hx.insert hu.name⟩) hin

/-- A user who is not root takes no group of the system along. -/
theorem InOrder.eraseUser (h : a.InOrder) {name : String} (hroot : name ≠ rootName) (hu : a.user? name = some u) :
    (a.eraseUser u).InOrder := by
  have hname : u.name = .str name := (h.filedUsers.get? hu).1
  have hsystem : ∀ g ∈ systemGroups, Json.str g.1 ≠ u.name := by
    intro g hg he
    rw [hname] at he
    cases he
    refine hroot (h.apart g hg ?_)
    unfold Keyed.has
    rw [show a.users.get? (.str g.1) = _ from hu]
    rfl
  have husers : InOrder { a with users := a.users.drop u.name } := by
    refine h.withUsers h.filedUsers.drop ?_ fun g hg hhas => ?_
    · rw [has_drop h.users, h.root, Bool.and_true, decide_eq_true_eq, hname]
      exact fun he => hroot (Json.str.inj he).symm
    · rw [has_drop h.users, Bool.and_eq_true] at hhas
      exact h.apart g hg hhas.2
  have herased : Filed Group.name Group.Plain (a.groups.mapValues (·.erase u.name)) :=
    h.filedGroups.mapValues fun x hx => ⟨rfl, hx.erase⟩
  have hthere : ∀ g ∈ systemGroups, (a.groups.mapValues (·.erase u.name)).has (.str g.1) = true :=
    fun g hg => has_mapValues.trans (h.system g hg)
  unfold Accounts.eraseUser
  dsimp only
  split
  · split
    · refine husers.withGroups herased.drop fun g hg => ?_
      rw [has_drop herased.once, hthere g hg, Bool.and_true, decide_eq_true_eq]
      exact hsystem g hg
    · exact husers.withGroups herased hthere
  · exact husers.withGroups herased hthere

theorem InOrder.putGroup (h : a.InOrder) {x : Group} (hx : x.Plain) : InOrder { a with groups := a.groups.put x.name x } :=
  h.withGroups (h.filedGroups.put rfl hx) fun g hg => has_put.trans (by rw [h.system g hg, Bool.or_true])

theorem InOrder.dropGroup (h : a.InOrder) {name : String} (hno : isSystemGroup name = false) :
    InOrder { a with groups := a.groups.drop name } := by
  refine h.withGroups h.filedGroups.drop fun g hg => ?_
  rw [has_drop h.groups, h.system g hg, Bool.and_true, decide_eq_true_eq]
  intro he
  cases he
  have hyes : isSystemGroup g.1 = true := List.any_eq_true.2 ⟨g, hg, beq_self_eq_true _⟩
  rw [hno] at hyes
  cases hyes

/-! ## The first tables -/

theorem initial_inOrder : initial.InOrder := by
  have htext : ∀ s : String, Json.IsText (.str s) := fun s => ⟨s, rfl⟩
  refine InOrder.reindexed ⟨by decide, fun p hp => ?_, by decide, fun p hp => ?_, by decide, by decide, by decide⟩
  · cases List.mem_singleton.1 hp
    exact ⟨rfl, htext _, ⟨0, rfl⟩, ⟨0, rfl⟩, htext _, htext _, htext _, ⟨htext _, by decide⟩, htext _⟩
  · obtain ⟨g, hg, rfl⟩ := List.mem_map.1 hp
    refine ⟨rfl, htext _, ⟨_, rfl⟩, fun m hm => ?_, ?_⟩
    · dsimp only at hm
      split at hm
      · rw [List.mem_singleton.1 hm]
        exact htext _
      · cases hm
    · dsimp only
      split
      · exact List.pairwise_singleton ..
      · exact .nil

theorem initial_indexed : initial.Indexed := reindexed_reindexed

/-- Users know their groups also after a change of users that touches neither names nor groups. -/
theorem Indexed.updateUsers (h : a.Indexed) {name : Json} {f : User → User} (hname : ∀ u, (f u).name = u.name)
    (hf : ∀ u groups, { f u with groups } = f { u with groups }) :
    Indexed { a with users := a.users.update name f } := by
  have hcommute : ∀ {table : Keyed Json User} {g : User → List Json}, (∀ u, g (f u) = g u) →
      (table.update name f).mapValues (fun u => { u with groups := g u }) =
        (table.mapValues fun u => { u with groups := g u }).update name f := by
    intro table g hg
    induction table with
    | nil => rfl
    | cons p rest ih =>
      unfold Keyed.mapValues at ih ⊢
      unfold Keyed.update
      rw [List.map_cons]
      split
      · rename_i heq
        simp only [List.map_cons, if_pos heq, hg, hf]
      · rename_i hne
        simp only [List.map_cons, if_neg hne, ih]
  have huser : a.users.mapValues (fun u => { u with groups := listing a.groups u.name }) = a.users := congrArg Accounts.users h
  unfold Indexed Accounts.reindexed
  have hkey := @hcommute a.users (fun u => listing a.groups u.name) fun u => by rw [hname]
  rw [huser] at hkey
  exact congrArg (fun users => ({ a with users } : Accounts)) hkey

end Accounts

end SimUnix
