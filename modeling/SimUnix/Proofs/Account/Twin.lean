/-
Tables of users and groups that differ in the password of one user only. Nothing that is asked of the
tables, save whether a password is right, tells them apart, and what is changed in both alike leaves them
such a pair.
-/
import SimUnix.Proofs.Account.Order

namespace SimUnix

/-- Results that a map makes equal are both faults, or both there. -/
theorem results_of_map {α β : Type} {x y : Except Fault α} {f : α → β} (h : y.map f = x.map f) :
    (∃ e, x = .error e ∧ y = .error e) ∨ ∃ a b, x = .ok a ∧ y = .ok b ∧ f b = f a := by
  cases x with
  | error e =>
    cases y with
    | error e' =>
      cases h
      exact .inl ⟨e, rfl, rfl⟩
    | ok b => cases h
  | ok a =>
    cases y with
    | error e => cases h
    | ok b => exact .inr ⟨a, b, rfl, rfl, Except.ok.inj h⟩

/-! ## Tables in general -/

namespace Keyed

variable {κ α β : Type} [DecidableEq κ] {k l : κ} {f g : α → α}

theorem update_put {v : α} : ∀ table : Keyed κ α,
    (table.put k v).update l f = (table.update l f).put k (if k = l then f v else v)
  | [] => by
    unfold put update
    by_cases h : k = l <;> simp [h, update]
  | (m, w) :: rest => by
    have ih := update_put (v := v) rest
    by_cases hkl : k = l
    · subst hkl
      by_cases hk : m = k <;> simp_all [put, update]
    · by_cases hk : m = k <;> by_cases hl : m = l <;> simp_all [put, update]

theorem update_drop_self : ∀ table : Keyed κ α, (table.update k f).drop k = table.drop k
  | [] => rfl
  | (m, w) :: rest => by
    have ih := update_drop_self rest
    by_cases hk : m = k <;> simp_all [drop, update]

theorem update_drop_of_ne (hne : k ≠ l) : ∀ table : Keyed κ α, (table.drop k).update l f = (table.update l f).drop k
  | [] => rfl
  | (m, w) :: rest => by
    have ih := update_drop_of_ne hne rest
    by_cases hk : m = k <;> by_cases hl : m = l <;> simp_all [drop, update]

theorem update_mapValues (h : ∀ v, f (g v) = g (f v)) : ∀ table : Keyed κ α,
    (table.mapValues g).update l f = (table.update l f).mapValues g
  | [] => rfl
  | (m, w) :: rest => by
    have ih := update_mapValues h rest
    unfold mapValues at ih ⊢
    by_cases hl : m = l <;> simp_all [update]

theorem update_update : ∀ table : Keyed κ α, (table.update l f).update l g = table.update l (g ∘ f)
  | [] => rfl
  | (m, w) :: rest => by
    have ih := update_update rest
    by_cases hl : m = l <;> simp_all [update]

/-- What does not see a change of a value does not see it in the table. -/
theorem values_update_map {φ : α → β} (h : ∀ v, φ (f v) = φ v) : ∀ table : Keyed κ α,
    (table.update l f).values.map φ = table.values.map φ
  | [] => rfl
  | (m, w) :: rest => by
    have ih := values_update_map h rest
    unfold values at ih ⊢
    by_cases hl : m = l <;> simp_all [update]

end Keyed

/-! ## Sorting -/

namespace Json

variable {α β : Type} {key : β → Json} {g : α → β}

theorem mapM_keyed_map {γ : Type} (read : Json → Option γ) : ∀ xs : List α,
    (xs.map g).mapM (fun y => (read (key y)).map (·, y)) =
      (xs.mapM fun x => (read (key (g x))).map (·, x)).map (List.map (Prod.map id g))
  | [] => rfl
  | x :: xs => by
    have ih := mapM_keyed_map read xs
    simp only [List.map_cons, List.mapM_cons, ih]
    cases read (key (g x)) with
    | none => rfl
    | some n => cases xs.mapM fun x => (read (key (g x))).map (·, x) <;> rfl

theorem sorted_keyed_map {γ : Type} {r : γ → γ → Bool} (ps : List (γ × α)) :
    (((ps.map (Prod.map id g)).mergeSort fun p q => r p.1 q.1).map Prod.snd) =
      ((ps.mergeSort fun p q => r p.1 q.1).map Prod.snd).map g := by
  have hsort : (ps.mergeSort fun p q => r p.1 q.1).map (Prod.map id g) =
      (ps.map (Prod.map id g)).mergeSort fun p q => r p.1 q.1 := List.map_mergeSort fun _ _ _ _ => rfl
  rw [← hsort, List.map_map, List.map_map]
  rfl

/-- Sorting by a key that a change does not see. -/
theorem sortedBy_map (key : β → Json) (g : α → β) (xs : List α) : sortedBy key (xs.map g) = (sortedBy (key ∘ g) xs).map (List.map g) := by
  have hnumber : sortedByNumber? key (xs.map g) = (sortedByNumber? (key ∘ g) xs).map (List.map g) := by
    unfold sortedByNumber?
    rw [mapM_keyed_map fun j => j.asInt.toOption]
    show _ = ((xs.mapM fun x => ((key (g x)).asInt.toOption).map (·, x)) >>= _ : Option _).map _
    cases xs.mapM fun x => ((key (g x)).asInt.toOption).map (·, x) with
    | none => rfl
    | some ps => exact congrArg some (sorted_keyed_map (r := fun a b => decide (a ≤ b)) ps)
  have htext : sortedByText? key (xs.map g) = (sortedByText? (key ∘ g) xs).map (List.map g) := by
    unfold sortedByText?
    rw [mapM_keyed_map fun j => j.asText.toOption]
    show _ = ((xs.mapM fun x => ((key (g x)).asText.toOption).map (·, x)) >>= _ : Option _).map _
    cases xs.mapM fun x => ((key (g x)).asText.toOption).map (·, x) with
    | none => rfl
    | some ps => exact congrArg some (sorted_keyed_map (r := Text.precedes) ps)
  unfold sortedBy
  rw [List.length_map, hnumber, htext]
  split
  · rfl
  · cases sortedByNumber? (key ∘ g) xs with
    | some _ => rfl
    | none => cases sortedByText? (key ∘ g) xs <;> rfl

end Json

/-! ## Users -/

namespace User

/-- A user without the password. -/
def veiled (u : User) : User := { u with passwordDigest := "" }

/-- Users that differ in their passwords only. -/
def Twin (u v : User) : Prop := u.veiled = v.veiled

variable {u v : User}

/-- What does not see the password does not tell the users apart. -/
theorem Twin.same {α : Type} (h : u.Twin v) (q : User → α) (hq : ∀ u : User, q u.veiled = q u) : q v = q u := by
  rw [← hq u, ← hq v, h]

end User

/-! ## Tables of users and groups -/

namespace Accounts

/-- The tables without the password of a user. -/
def veiled (target : String) (a : Accounts) : Accounts := { a with users := a.users.update target User.veiled }

/-- Tables that differ in the password of one user only. -/
def Twin (target : String) (a b : Accounts) : Prop := a.veiled target = b.veiled target

variable {target : String} {a b : Accounts}

theorem Twin.refl (a : Accounts) : a.Twin target a := rfl

theorem Twin.groups (h : a.Twin target b) : b.groups = a.groups := (congrArg Accounts.groups h).symm

theorem Twin.users (h : a.Twin target b) : b.users.update target User.veiled = a.users.update target User.veiled :=
  (congrArg Accounts.users h).symm

theorem twin_iff : a.Twin target b ↔
    b.users.update target User.veiled = a.users.update target User.veiled ∧ b.groups = a.groups :=
  ⟨fun h => ⟨h.users, h.groups⟩, fun ⟨hu, hg⟩ => by
    unfold Twin veiled
    rw [hu, hg]⟩

/-- Two tables have users under the same names, which are twins. -/
theorem Twin.user? (h : a.Twin target b) (name : Json) :
    (a.user? name = none ∧ b.user? name = none) ∨ ∃ u v, a.user? name = some u ∧ b.user? name = some v ∧ u.Twin v := by
  have hget : (b.user? name).map User.veiled = (a.user? name).map User.veiled := by
    have hboth : ((b.users.update target User.veiled).get? name).map User.veiled =
        ((a.users.update target User.veiled).get? name).map User.veiled := by rw [h.users]
    rw [Keyed.get?_update, Keyed.get?_update] at hboth
    split at hboth
    · rw [Option.map_map, Option.map_map] at hboth
      exact hboth
    · exact hboth
  cases ha : a.user? name with
  | none =>
    rw [ha] at hget
    exact .inl ⟨rfl, Option.map_eq_none_iff.1 hget⟩
  | some u =>
    rw [ha] at hget
    obtain ⟨v, hv, huv⟩ := Option.map_eq_some_iff.1 hget
    exact .inr ⟨u, v, rfl, hv, huv.symm⟩

/-- What does not see a password is asked of both tables alike. -/
theorem Twin.userWith {α : Type} (h : a.Twin target b) (name : Json) (q : User → α) (hq : ∀ u : User, q u.veiled = q u) :
    (b.user? name).map q = (a.user? name).map q := by
  rcases h.user? name with ⟨ha, hb⟩ | ⟨u, v, ha, hb, huv⟩
  · rw [ha, hb]
  · rw [ha, hb, Option.map_some, Option.map_some, huv.same q hq]

theorem Twin.isSome (h : a.Twin target b) (name : Json) : (b.user? name).isSome = (a.user? name).isSome := by
  have hunit := h.userWith name (fun _ => ()) fun _ => rfl
  rw [← Option.isSome_map (f := fun _ : User => ()), hunit, Option.isSome_map]

theorem Twin.has (h : a.Twin target b) (name : Json) : b.users.has name = a.users.has name := h.isSome name

theorem Twin.isAdmin (h : a.Twin target b) (name : Json) : b.isAdmin name = a.isAdmin name := by
  have hadmin := h.userWith name User.isAdmin fun _ => rfl
  unfold Accounts.isAdmin
  rcases h.user? name with ⟨ha, hb⟩ | ⟨u, v, ha, hb, huv⟩
  · rw [ha, hb]
  · rw [ha, hb, Option.any_some, Option.any_some, huv.same User.isAdmin fun _ => rfl]

/-- What does not see a password is asked of both lists of users alike. -/
theorem Twin.values {α : Type} (h : a.Twin target b) (q : User → α) (hq : ∀ u : User, q u.veiled = q u) :
    b.users.values.map q = a.users.values.map q := by
  rw [← Keyed.values_update_map (l := .str target) hq, h.users, Keyed.values_update_map hq]

/-- Whether a name can be looked up at all is the same in both. -/
theorem Twin.find {α : Type} (h : a.Twin target b) (name : Json) (q : User → α) (hq : ∀ u : User, q u.veiled = q u) :
    (b.find name).map (Option.map q) = (a.find name).map (Option.map q) := by
  unfold Accounts.find
  split
  · exact congrArg Except.ok (h.userWith name q hq)
  · rfl

theorem Twin.subject (h : a.Twin target b) (name : Json) : b.subject name = a.subject name := by
  unfold Accounts.subject
  rcases results_of_map (h.find name User.groups fun _ => rfl) with ⟨e, ha, hb⟩ | ⟨u?, v?, ha, hb, hgroups⟩
  · rw [ha, hb]
  · rw [ha, hb]
    show Except.ok _ = Except.ok _
    rw [hgroups]

theorem Twin.groupName (h : a.Twin target b) (gid : Json) : b.groupName gid = a.groupName gid := by
  unfold Accounts.groupName
  rw [h.groups]

theorem Twin.group? (h : a.Twin target b) (name : Json) : b.group? name = a.group? name := by
  unfold Accounts.group?
  rw [h.groups]

theorem Twin.groupsText (h : a.Twin target b) : b.groupsText = a.groupsText := by
  unfold Accounts.groupsText
  rw [h.groups]

theorem Twin.groupsJson (h : a.Twin target b) : b.groupsJson = a.groupsJson := by
  unfold Accounts.groupsJson Accounts.sortedGroups
  rw [h.groups]

theorem Twin.sortedGroups (h : a.Twin target b) : b.sortedGroups = a.sortedGroups := by
  unfold Accounts.sortedGroups
  rw [h.groups]

theorem Twin.takenNumbers (h : a.Twin target b) : b.takenNumbers = a.takenNumbers := by
  unfold Accounts.takenNumbers
  rw [h.values User.uid fun _ => rfl, h.groups]

theorem Twin.nextUid (h : a.Twin target b) : b.nextUid = a.nextUid := by
  unfold Accounts.nextUid
  rw [h.takenNumbers]

/-- What is made of the users in their order, without looking at passwords. -/
theorem Twin.sortedUsers {α : Type} (h : a.Twin target b) (q : User → α) (hq : ∀ u : User, q u.veiled = q u) :
    b.sortedUsers.map (List.map q) = a.sortedUsers.map (List.map q) := by
  have hsorted : ∀ us : List User, (User.sorted us).map (List.map q) = (User.sorted (us.map User.veiled)).map (List.map q) := by
    intro us
    unfold User.sorted
    rw [Json.sortedBy_map User.uid User.veiled]
    have hsame : User.uid ∘ User.veiled = User.uid := rfl
    rw [hsame]
    cases Json.sortedBy User.uid us with
    | error e => rfl
    | ok vs =>
      show Except.ok _ = Except.ok _
      rw [List.map_map]
      exact congrArg Except.ok (List.map_congr_left fun u _ => (hq u).symm)
  unfold Accounts.sortedUsers
  rw [hsorted, h.values User.veiled fun _ => rfl, ← hsorted]

theorem Twin.usersText (h : a.Twin target b) : b.usersText = a.usersText := by
  have hlines : ∀ x : Accounts, x.usersText = (x.sortedUsers.map (List.map User.fileLine)).map Text.joinLines := by
    intro x
    show (do .ok (Text.joinLines ((← x.sortedUsers).map User.fileLine)) : Except Fault String) = _
    cases x.sortedUsers <;> rfl
  rw [hlines, hlines, h.sortedUsers User.fileLine fun _ => rfl]

/-- Both tables have a record, or neither has one. -/
theorem Twin.usersJson (h : a.Twin target b) :
    (∃ e, a.usersJson = .error e ∧ b.usersJson = .error e) ∨ ∃ v w, a.usersJson = .ok v ∧ b.usersJson = .ok w := by
  unfold Accounts.usersJson
  rcases results_of_map (h.sortedUsers (fun _ => ()) fun _ => rfl) with ⟨e, ha, hb⟩ | ⟨us, vs, ha, hb, -⟩
  · rw [ha, hb]
    exact .inl ⟨e, rfl, rfl⟩
  · rw [ha, hb]
    exact .inr ⟨_, _, rfl, rfl⟩

/-! ## Changes -/

theorem Twin.withGroups (h : a.Twin target b) (groups : Keyed Json Group) :
    Twin target { a with groups } { b with groups } := twin_iff.2 ⟨h.users, rfl⟩

theorem Twin.reindexed (h : a.Twin target b) : a.reindexed.Twin target b.reindexed := by
  have hmap : ∀ users : Keyed Json User,
      (users.mapValues fun u => { u with groups := listing a.groups u.name }).update (.str target) User.veiled =
        (users.update (.str target) User.veiled).mapValues fun u => { u with groups := listing a.groups u.name } :=
    fun users => Keyed.update_mapValues (by exact fun _ => rfl) users
  refine twin_iff.2 ⟨?_, h.groups⟩
  show (b.users.mapValues fun u => { u with groups := listing b.groups u.name }).update (.str target) User.veiled =
    (a.users.mapValues fun u => { u with groups := listing a.groups u.name }).update (.str target) User.veiled
  rw [h.groups, hmap, hmap, h.users]

theorem Twin.put (h : a.Twin target b) (name : Json) (u : User) (groups : Keyed Json Group) :
    Twin target { users := a.users.put name u, groups } { users := b.users.put name u, groups } := by
  refine twin_iff.2 ⟨?_, rfl⟩
  dsimp only
  rw [Keyed.update_put, Keyed.update_put, h.users]

theorem Twin.drop (h : a.Twin target b) (name : Json) (groups : Keyed Json Group) :
    Twin target { users := a.users.drop name, groups } { users := b.users.drop name, groups } := by
  refine twin_iff.2 ⟨?_, rfl⟩
  dsimp only
  by_cases hname : name = .str target
  · -- Without the target the tables are the same.
    rw [hname, ← Keyed.update_drop_self (f := User.veiled), h.users, Keyed.update_drop_self]
  · rw [Keyed.update_drop_of_ne hname, Keyed.update_drop_of_ne hname, h.users]

theorem Twin.insertUser (h : a.Twin target b) (u : User) :
    (b.insertUser u).map (veiled target) = (a.insertUser u).map (veiled target) := by
  unfold Accounts.insertUser Accounts.updateGroup
  rw [h.groups]
  dsimp only
  split
  · exact congrArg Except.ok (h.put u.name u _).symm
  · rfl

theorem Twin.eraseUser {u v : User} (h : a.Twin target b) (huv : u.Twin v) : (a.eraseUser u).Twin target (b.eraseUser v) := by
  unfold Accounts.eraseUser
  dsimp only
  rw [huv.same User.name fun _ => rfl, huv.same User.gid fun _ => rfl, h.groups]
  exact h.drop u.name _

/-- Tables in which the user has been given a password are twins, whatever the password. -/
theorem Twin.password (h : a.Twin target b) {f g : User → User} (hf : ∀ u, (f u).veiled = u.veiled) (hg : ∀ u, (g u).veiled = u.veiled) :
    Twin target { a with users := a.users.update target f } { b with users := b.users.update target g } := by
  refine twin_iff.2 ⟨?_, h.groups⟩
  dsimp only
  rw [Keyed.update_update, Keyed.update_update, funext (f := User.veiled ∘ f) hf, funext (f := User.veiled ∘ g) hg]
  exact h.users

end Accounts

end SimUnix
