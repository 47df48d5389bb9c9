/-
The changes of users and groups that may be asked for, as data. Each leaves the tables in order and their
numbers and memberships right, whoever asks for it; what else belongs to it is done to the tree alone.
-/
import SimUnix.Proofs.Account.Numbers
import SimUnix.Proofs.Machine.Upkeep

namespace SimUnix

namespace Machine

open Tree Act

variable {s s' : Machine} {user? : Option Json}

/-! ## Changes as data -/

/-- A change of users and groups that may be asked for. -/
inductive TableCall where
  | addUser (new : NewUser)
  | updateUser (name : String) (c : UserChange)
  | deleteUser (name : String)
  | addGroup (name : String) (members : List String)
  | addToGroup (user group : String)
  | removeFromGroup (user group : String)
  | deleteGroup (name : String)

namespace TableCall

/-- What a change is called where it is refused. -/
def action : TableCall → String
  | addUser new => s!"add user {new.name}"
  | updateUser name _ => s!"update user {name}"
  | deleteUser name => s!"delete user {name}"
  | addGroup name _ => s!"add group {name}"
  | addToGroup user group => s!"add {user} to {group}"
  | removeFromGroup user group => s!"remove {user} from {group}"
  | deleteGroup name => s!"delete group {name}"

/-- The new tables, or nothing if the request makes no sense. -/
def change : TableCall → Accounts → Except Fault (Option Accounts)
  | addUser new, a =>
    if !validUserName new.name || a.users.has new.name || a.groups.has new.name then .ok none
    else do .ok (some (← a.insertUser (new.build (← a.nextUid))))
  | updateUser name c, a =>
    if !a.users.has name then .ok none
    else
      let a := { a with users := a.users.update name c.apply }
      match c.admin? with
      | none => .ok (some a)
      | some admin =>
        if name = rootName then .ok (some a)
        else (a.updateGroup adminGroup fun g => if admin then g.insert name else g.erase name).map some
  | deleteUser name, a => .ok <| if name = rootName then none else (a.user? name).map a.eraseUser
  | addGroup name members, a => do
    if name = "" || a.groups.has name || !members.all (a.users.has ·) then .ok none
    else
      let gid ← a.nextUid
      .ok (some { a with groups := a.groups.put name { name, gid := .int gid, members := members.eraseDups.map .str } })
  | addToGroup user group, a => .ok <|
    match a.group? group with
    | none => none
    | some g =>
      if !a.users.has user || g.members.contains user then none
      else some { a with groups := a.groups.update group (·.insert user) }
  | removeFromGroup user group, a => .ok <|
    match a.group? group, a.user? user with
    | some g, some u =>
      if !g.members.contains user || g.gid.sameKey u.gid then none
      else some { a with groups := a.groups.update group (·.erase user) }
    | _, _ => none
  | deleteGroup name, a => .ok <|
    match a.group? name with
    | none => none
    | some g =>
      if Accounts.isSystemGroup name || a.users.values.any (·.gid.sameKey g.gid) then none
      else some { a with groups := a.groups.drop name }

/-- What else belongs to a change. Its result is the message to log. -/
def finish : TableCall → Act String
  | addUser new => do
    match (← get).accounts.user? new.name with
    | none => pure ""
    | some u =>
      if new.withHome then discard <| createHome u
      pure s!"user {u.name.plain} created (uid={u.uid.plain})"
  | updateUser name _ => pure s!"user {name} updated"
  | deleteUser name => pure s!"user {name} deleted"
  | addGroup name _ => pure s!"group {name} created"
  | addToGroup user group => pure s!"{user} added to {group}"
  | removeFromGroup user group => pure s!"{user} removed from {group}"
  | deleteGroup name => pure s!"group {name} deleted"

/-- The operation that asks for a change. -/
def operation (user? : Option Json) : TableCall → Operation
  | addUser new => .addUser new user?
  | updateUser name c => .updateUser name c user?
  | deleteUser name => .deleteUser name user?
  | addGroup name members => .addGroup name members user?
  | addToGroup user group => .addToGroup user group user?
  | removeFromGroup user group => .removeFromGroup user group user?
  | deleteGroup name => .deleteGroup name user?

/-- Every such operation changes the tables for an administrator. -/
theorem run_operation (c : TableCall) :
    (c.operation user?).run = discard (administer c.action user? c.change c.finish) := by
  cases c <;> rfl

/-- The password hint of a new user is a text. -/
def Proper : TableCall → Prop
  | addUser new => new.passwordHint.IsText
  | _ => True

end TableCall

/-! ## The tables stay in order -/

theorem plain_newUser {new : NewUser} {uid : Int} (hint : new.passwordHint.IsText) : (new.build uid).Plain where
  name := ⟨_, rfl⟩
  uid := ⟨_, rfl⟩
  gid := ⟨_, rfl⟩
  fullName := ⟨_, rfl⟩
  passwordDigest := ⟨_, rfl⟩
  passwordHint := hint
  home := by
    refine ⟨⟨_, rfl⟩, fun he => ?_⟩
    have hempty : homeFor new.name = "" := Json.str.inj he
    unfold homeFor at hempty
    split at hempty
    · revert hempty
      decide
    · have hlen := congrArg String.length hempty
      rw [String.length_append] at hlen
      have hsix : "/home/".length = 6 := by decide
      simp [hsix] at hlen
  shell := ⟨_, rfl⟩

theorem UserChange.plain_apply {c : UserChange} {u : User} (h : u.Plain) : (c.apply u).Plain := by
  have htext : ∀ {x? : Option String} {y : Json}, y.IsText → ((x?.map Json.str).getD y).IsText := by
    intro x? y hy
    cases x? with
    | none => exact hy
    | some x => exact ⟨x, rfl⟩
  refine ⟨h.name, h.uid, h.gid, htext h.fullName, ?_, htext h.passwordHint, h.home, h.shell⟩
  show ((c.password?.map (.str <| passwordDigest ·)).getD u.passwordDigest).IsText
  cases c.password? with
  | none => exact h.passwordDigest
  | some p => exact ⟨_, rfl⟩

namespace TableCall

variable {a a' : Accounts} {c : TableCall}

/-! ## What each change does -/

theorem change_addUser {new : NewUser} (h : (addUser new).change a = .ok (some a')) : validUserName new.name = true ∧
    a.user? new.name = none ∧ a.group? new.name = none ∧ ∃ uid, a.nextUid = .ok uid ∧ a.insertUser (new.build uid) = .ok a' := by
  simp only [change] at h
  split at h
  · cases h
  · rename_i hnew
    simp only [Bool.or_eq_true, Bool.not_eq_true', not_or, Bool.not_eq_false, Bool.not_eq_true] at hnew
    obtain ⟨uid, huid, h⟩ := bind_ok.1 h
    obtain ⟨a₁, hinsert, h⟩ := bind_ok.1 h
    cases h
    exact ⟨hnew.1.1, Keyed.has_eq_false.1 hnew.1.2, Keyed.has_eq_false.1 hnew.2, uid, huid, hinsert⟩

theorem change_updateUser {name : String} {c : UserChange} (h : (updateUser name c).change a = .ok (some a')) :
    (∃ u, a.user? name = some u) ∧ (a' = { a with users := a.users.update name c.apply } ∨ ∃ admin : Bool,
      Accounts.updateGroup { a with users := a.users.update name c.apply } adminGroup
        (fun g => if admin then g.insert name else g.erase name) = .ok a') := by
  simp only [change] at h
  split at h
  · cases h
  rename_i hhas
  refine ⟨Keyed.has_iff.1 (by simpa using hhas), ?_⟩
  split at h
  · cases h
    exact .inl rfl
  rename_i admin _
  split at h
  · cases h
    exact .inl rfl
  rcases hup : Accounts.updateGroup { a with users := a.users.update name c.apply } adminGroup
    (fun g => if admin then g.insert name else g.erase name) with e | b
  · rw [hup] at h
    cases h
  · rw [hup] at h
    cases h
    exact .inr ⟨admin, hup⟩

theorem change_deleteUser {name : String} (h : (deleteUser name).change a = .ok (some a')) :
    name ≠ rootName ∧ ∃ u, a.user? name = some u ∧ a' = a.eraseUser u := by
  simp only [change] at h
  split at h
  · cases h
  rename_i hroot
  obtain ⟨u, hu, rfl⟩ := Option.map_eq_some_iff.1 (Except.ok.inj h)
  exact ⟨hroot, u, hu, rfl⟩

theorem change_addGroup {name : String} {members : List String} (h : (addGroup name members).change a = .ok (some a')) :
    a.group? name = none ∧ (∀ m ∈ members, ∃ u, a.user? m = some u) ∧ ∃ gid, a.nextUid = .ok gid ∧
      a' = { a with groups := a.groups.put name { name, gid := .int gid, members := members.eraseDups.map .str } } := by
  simp only [change] at h
  split at h
  · cases h
  rename_i hnew
  simp only [Bool.or_eq_true, not_or, Bool.not_eq_true, Bool.not_eq_true', Bool.not_eq_false, List.all_eq_true] at hnew
  obtain ⟨gid, hgid, h⟩ := bind_ok.1 h
  cases h
  exact ⟨Keyed.has_eq_false.1 hnew.1.2, fun m hm => Keyed.has_iff.1 (hnew.2 m hm), gid, hgid, rfl⟩

theorem change_addToGroup {user group : String} (h : (addToGroup user group).change a = .ok (some a')) :
    (∃ u, a.user? user = some u) ∧ a' = { a with groups := a.groups.update group (·.insert user) } := by
  simp only [change] at h
  split at h
  · cases h
  split at h
  · cases h
  rename_i hno
  simp only [Bool.or_eq_true, Bool.not_eq_true', not_or, Bool.not_eq_false] at hno
  cases h
  exact ⟨Keyed.has_iff.1 hno.1, rfl⟩

theorem change_removeFromGroup {user group : String} (h : (removeFromGroup user group).change a = .ok (some a')) :
    (∃ g u, a.group? group = some g ∧ a.user? user = some u ∧ g.gid.sameKey u.gid = false) ∧
      a' = { a with groups := a.groups.update group (·.erase user) } := by
  simp only [change] at h
  split at h
  · rename_i g u hg hu
    split at h
    · cases h
    rename_i hno
    simp only [Bool.or_eq_true, not_or, Bool.not_eq_true] at hno
    cases h
    exact ⟨⟨g, u, hg, hu, hno.2⟩, rfl⟩
  · cases h

theorem change_deleteGroup {name : String} (h : (deleteGroup name).change a = .ok (some a')) :
    Accounts.isSystemGroup name = false ∧
      (∃ g, a.group? name = some g ∧ ∀ u ∈ a.users.values, u.gid.sameKey g.gid = false) ∧
        a' = { a with groups := a.groups.drop name } := by
  simp only [change] at h
  split at h
  · cases h
  rename_i g hg
  split at h
  · cases h
  rename_i hno
  simp only [Bool.or_eq_true, not_or, Bool.not_eq_true, List.any_eq_false] at hno
  cases h
  exact ⟨hno.1, ⟨g, hg, hno.2⟩, rfl⟩

/-! ## What each change keeps -/

/-- Every change leaves the tables in order. -/
theorem orders (hc : c.Proper) (ha : a.InOrder) (h : c.change a = .ok (some a')) : a'.InOrder := by
  cases c with
  | addUser new =>
    obtain ⟨-, -, hgroup, uid, -, hinsert⟩ := change_addUser h
    refine ha.insertUser (plain_newUser hc) (fun g hg he => ?_) hinsert
    obtain ⟨x, hx⟩ := Keyed.has_iff.1 (ha.system g hg)
    rw [← he] at hx
    cases hgroup.symm.trans hx
  | updateUser name d =>
    have hupdated : Accounts.InOrder { a with users := a.users.update name d.apply } :=
      ha.updateUsers fun u hu => ⟨rfl, UserChange.plain_apply hu⟩
    obtain ⟨-, rfl | ⟨admin, hup⟩⟩ := change_updateUser h
    · exact hupdated
    · refine hupdated.updateGroup (fun x hx => ?_) hup
      cases admin with
      | true => exact ⟨Group.name_insert, hx.insert ⟨_, rfl⟩⟩
      | false => exact ⟨rfl, hx.erase⟩
  | deleteUser name =>
    obtain ⟨hroot, u, hu, rfl⟩ := change_deleteUser h
    exact ha.eraseUser hroot hu
  | addGroup name members =>
    obtain ⟨-, -, gid, -, rfl⟩ := change_addGroup h
    have hplain : Group.Plain { name := .str name, gid := .int gid, members := members.eraseDups.map .str } := by
      refine ⟨⟨_, rfl⟩, ⟨_, rfl⟩, fun m hm => ?_, ?_⟩
      · obtain ⟨s, -, rfl⟩ := List.mem_map.1 hm
        exact ⟨s, rfl⟩
      · exact (nodup_eraseDups members).map fun _ _ he => Json.str.inj he
    exact ha.putGroup hplain
  | addToGroup user group =>
    obtain ⟨-, rfl⟩ := change_addToGroup h
    exact ha.updateGroups fun x hx => ⟨Group.name_insert, hx.insert ⟨_, rfl⟩⟩
  | removeFromGroup user group =>
    obtain ⟨-, rfl⟩ := change_removeFromGroup h
    exact ha.updateGroups fun x hx => ⟨rfl, hx.erase⟩
  | deleteGroup name =>
    obtain ⟨hno, -, rfl⟩ := change_deleteGroup h
    exact ha.dropGroup hno

theorem sameKey_refl (v : Json) : v.sameKey v = true := by
  unfold Json.sameKey
  rw [beq_self_eq_true, Bool.true_or]

/-- Every change leaves numbers and memberships right. -/
theorem numbered (ha : a.InOrder) (hn : a.Numbered) (h : c.change a = .ok (some a')) : a'.Numbered := by
  cases c with
  | addUser new =>
    obtain ⟨-, huser, hgroup, uid, huid, hinsert⟩ := change_addUser h
    exact hn.insertUser (u := new.build uid) huser hgroup rfl (ha.unused huid) hinsert
  | updateUser name d =>
    have hupdated : Accounts.Numbered { a with users := a.users.update name d.apply } := hn.updateUsers fun u => ⟨rfl, rfl⟩
    obtain ⟨⟨u, hu⟩, rfl | ⟨admin, hup⟩⟩ := change_updateUser h
    · exact hupdated
    · -- nobody is called like the administrators, so that nobody leaves its own group
      have hnobody : ∀ v, Keyed.get? (a.users.update name d.apply) adminGroup = some v → False := fun v hv => by
        have hroot := ha.apart (adminGroup, 27) (by decide) (Keyed.has_update.symm.trans (Keyed.has_iff.2 ⟨v, hv⟩))
        exact absurd hroot (by decide)
      unfold Accounts.updateGroup at hup
      split at hup
      · cases hup
        cases admin with
        | true => exact hupdated.join (u := d.apply u) (Keyed.get?_update_some.2 (.inl ⟨rfl, u, hu, rfl⟩))
        | false => exact hupdated.leave fun v hv => (hnobody v hv).elim
      · cases hup
  | deleteUser name =>
    obtain ⟨hroot, u, hu, rfl⟩ := change_deleteUser h
    exact hn.eraseUser ha hroot hu
  | addGroup name members =>
    obtain ⟨hnew, hmembers, gid, hgid, rfl⟩ := change_addGroup h
    refine hn.putGroup hnew (ha.unused hgid) fun m hm => ?_
    obtain ⟨t, ht, rfl⟩ := List.mem_map.1 hm
    exact hmembers t (List.mem_eraseDups.1 ht)
  | addToGroup user group =>
    obtain ⟨⟨u, hu⟩, rfl⟩ := change_addToGroup h
    exact hn.join hu
  | removeFromGroup user group =>
    obtain ⟨⟨g, u, hg, hu, hother⟩, rfl⟩ := change_removeFromGroup h
    refine hn.leave fun v _ he => ?_
    -- the group of the user's own name has the user's number
    obtain ⟨-, x, hx, hgid, -⟩ := hn.own hu
    rw [← he] at hx
    cases hg.symm.trans hx
    rw [hgid, sameKey_refl] at hother
    cases hother
  | deleteGroup name =>
    obtain ⟨hno, ⟨g, hg, hother⟩, rfl⟩ := change_deleteGroup h
    refine hn.dropGroup ha.groups (fun q hq he => ?_) (Option.eq_none_iff_forall_ne_some.2 fun u hu => ?_)
    · cases he
      have hyes : Accounts.isSystemGroup q.1 = true := List.any_eq_true.2 ⟨q, hq, beq_self_eq_true _⟩
      rw [hno] at hyes
      cases hyes
    · obtain ⟨-, x, hx, hgid, -⟩ := hn.own hu
      cases hg.symm.trans hx
      have hno := hother u (List.mem_map_of_mem (f := Prod.snd) ((Keyed.get?_iff_mem ha.users).1 hu))
      rw [hgid, sameKey_refl] at hno
      cases hno

/-- What else belongs to a change succeeds, and does something to the tree only, which stays tidy. -/
theorem run_finish {P : Accounts → Prop} (hs : s.Sound) (h : s.TidyWith P) : ∃ message t, c.finish.run s = (.ok message, { s with tree := t }) ∧
    TidyWith P { s with tree := t } := by
  cases c with
  | addUser new =>
    have hfinish : (addUser new).finish = (get >>= fun s => match s.accounts.user? new.name with
        | none => pure ""
        | some u => do
          if new.withHome then discard <| createHome u
          pure s!"user {u.name.plain} created (uid={u.uid.plain})") := rfl
    rw [hfinish, run_bind, run_get]
    dsimp only
    rcases hu : s.accounts.user? new.name with _ | u
    · exact ⟨_, s.tree, rfl, h⟩
    have hplain : u.Plain := (h.1.accounts.filedUsers.get? hu).2
    dsimp only
    split
    · obtain ⟨id, s₁, hhome⟩ := run_createHome hs hplain.home.1
      have hframe : s₁ = { s with tree := s₁.tree } := onlyTree_createHome (show OnlyTree s s from rfl) hhome
      have h₁ := tidy_createHome hplain.name h hhome
      rw [run_bind, run_discard, hhome]
      rw [hframe] at h₁ ⊢
      exact ⟨_, _, rfl, h₁⟩
    · exact ⟨_, s.tree, rfl, h⟩
  | _ => exact ⟨_, s.tree, rfl, h⟩

/-- A change is finished by making the home of a new user, or without doing anything. -/
theorem finish_cases {r : Except Fault String} (hrun : c.finish.run s = (r, s')) : s' = s ∨
    ∃ new u x, c = addUser new ∧ s.accounts.user? new.name = some u ∧ (createHome u).run s = (x, s') := by
  cases c with
  | addUser new =>
    have hrun := Act.got hrun
    split at hrun
    · cases hrun
      exact .inl rfl
    rename_i u hu
    split at hrun
    · rcases hhome : (createHome u).run s with ⟨x, s₁⟩
      rw [run_bind, run_discard, hhome] at hrun
      have hend : s₁ = s' := by cases x <;> cases hrun <;> rfl
      exact .inr ⟨new, u, x, rfl, hu, hend ▸ hhome⟩
    · cases hrun
      exact .inl rfl
  | _ =>
    cases hrun
    exact .inl rfl

theorem keeps_finish {I : Machine → Prop} (hI : ∀ u, Keeps I (createHome u)) : Keeps I c.finish := by
  intro s s' r h hrun
  rcases finish_cases hrun with rfl | ⟨new, u, x, -, -, hhome⟩
  · exact h
  · exact hI u h hhome

/-- The home that is made is that of the user who has been added, where new users are at home. -/
theorem homely_finish {new : NewUser} {u : User} (h : (addUser new).change a = .ok (some a')) (hu : a'.user? new.name = some u) :
    u.Homely := by
  obtain ⟨hvalid, -, -, uid, -, hinsert⟩ := change_addUser h
  have hfound : a'.user? new.name = some (new.build uid) := Accounts.user?_insertUser hinsert
  cases hfound.symm.trans hu
  exact ⟨new.name, validName_of_validUserName hvalid, rfl⟩

theorem sound_finish {r : Except Fault String} (hs : s.Sound) (hrun : c.finish.run s = (r, s')) : s'.Sound :=
  keeps_finish (fun _ => sound_createHome) hs hrun

end TableCall

/-! ## Making a change -/

variable {P : Accounts → Prop}

theorem Tidy.withAccounts (h : s.Tidy) {a : Accounts} (ha : a.InOrder) : Tidy { s with accounts := a } :=
  ⟨h.marked, ha, h.user, h.clipboard, h.core, h.apps, h.failures, h.diagnostic, h.clock⟩

/-- Whoever is refused leaves a log entry, whoever is let through nothing. -/
theorem authorize_cases {action : String} {r : Except Fault (Option Json)} (hrun : (authorize action user?).run s = (r, s')) :
    s' = { s with log := s'.log } ∧ ∀ actor, r = .ok (some actor) → s' = s := by
  have hrun := Act.got hrun
  split at hrun
  · cases hrun
    exact ⟨rfl, by rintro _ ⟨⟩⟩
  · rcases askedOf hrun with ⟨e, -, rfl, rfl⟩ | ⟨may, -, hrun⟩
    · exact ⟨rfl, by rintro _ ⟨⟩⟩
    · split at hrun
      · cases hrun
        exact ⟨rfl, fun _ _ => rfl⟩
      · cases hrun
        exact ⟨rfl, by rintro _ ⟨⟩⟩

/-- Asks for a change; the answer is whether it is made. -/
def TableCall.request (user? : Option Json) (c : TableCall) : Act Bool := administer c.action user? c.change c.finish

/-- A change that is asked for adds to the log at most, or is made: there are new tables, what else belongs to it is done to
the tree, and then everything that depends on it is brought up to date. -/
theorem TableCall.request_cases {c : TableCall} (hc : c.Proper) (hs : s.Sound) (h : s.Tidy) {r : Except Fault Bool}
    (hrun : (c.request user?).run s = (r, s')) : s' = { s with log := s'.log } ∧ r ≠ .ok true ∨
      ∃ accounts t message actor x, r = x.map (fun _ => true) ∧ c.change s.accounts = .ok (some accounts) ∧
        c.finish.run { s with accounts } = (.ok message, { s with accounts, tree := t }) ∧
          Sound { s with accounts, tree := t } ∧ Tidy { s with accounts, tree := t } ∧
            (committed message actor).run { s with accounts, tree := t } = (x, s') := by
  unfold request administer at hrun
  rcases of_run_bind hrun with ⟨e, hauth, rfl⟩ | ⟨actor?, s₁, hauth, hnext⟩
  · exact .inl ⟨(authorize_cases hauth).1, nofun⟩
  obtain ⟨hlog, hsame⟩ := authorize_cases hauth
  rcases actor? with _ | actor
  · cases hnext
    exact .inl ⟨hlog, nofun⟩
  obtain rfl := hsame actor rfl
  rcases askedOf hnext with ⟨e, -, rfl, rfl⟩ | ⟨accounts?, hchange, hrun⟩
  · exact .inl ⟨rfl, nofun⟩
  cases accounts? with
  | none =>
    cases hrun
    exact .inl ⟨rfl, nofun⟩
  | some accounts =>
    right
    have hset : TidyWith (fun _ => True) { s₁ with accounts } := ⟨h.withAccounts (c.orders hc h.accounts hchange), trivial⟩
    have hsound : Sound { s₁ with accounts } := hs.same rfl rfl
    obtain ⟨message, t, hfinish, htidy⟩ := c.run_finish hsound hset
    simp only at hrun
    rw [run_bind, run_modify] at hrun
    dsimp only at hrun
    rw [run_bind, hfinish] at hrun
    dsimp only at hrun
    rw [run_bind] at hrun
    rcases hcommit : (committed message actor).run { s₁ with accounts, tree := t } with ⟨x, s₂⟩
    rw [hcommit] at hrun
    have hend : r = x.map (fun _ => true) ∧ s₂ = s' := by cases x <;> cases hrun <;> exact ⟨rfl, rfl⟩
    exact ⟨accounts, t, message, actor, x, hend.1, hchange, hfinish, c.sound_finish hsound hfinish, htidy.1, hend.2 ▸ hcommit⟩

/-- The operation that asks for a change does no more than that. -/
theorem TableCall.run_cases {c : TableCall} (hc : c.Proper) (hs : s.Sound) (h : s.Tidy) {r : Except Fault Unit}
    (hrun : (c.operation user?).run.run s = (r, s')) : s' = { s with log := s'.log } ∨
      ∃ accounts t message actor x, c.change s.accounts = .ok (some accounts) ∧
        c.finish.run { s with accounts } = (.ok message, { s with accounts, tree := t }) ∧
          Sound { s with accounts, tree := t } ∧ Tidy { s with accounts, tree := t } ∧
            (committed message actor).run { s with accounts, tree := t } = (x, s') := by
  rw [c.run_operation] at hrun
  obtain ⟨y, hrun⟩ := of_run_discard hrun
  rcases c.request_cases hc hs h hrun with ⟨hlog, -⟩ | ⟨accounts, t, message, actor, x, -, hmade⟩
  · exact .inl hlog
  · exact .inr ⟨accounts, t, message, actor, x, hmade⟩

/-- Bringing everything up to date ends in a regular state. -/
theorem regular_committed {message : String} {actor : Json} {r : Except Fault Unit} (h : s.Tidy)
    (hrun : (committed message actor).run s = (r, s')) : s'.Regular := by
  unfold committed at hrun
  rw [run_bind, run_modify] at hrun
  dsimp only at hrun
  have hset : TidyWith Accounts.Indexed { s with accounts := s.accounts.reindexed } :=
    ⟨h.withAccounts h.accounts.reindexed, Accounts.reindexed_reindexed⟩
  exact (keeps_bind tidy_syncFiles (fun _ => keeps_bind tidy_log fun _ => tidy_flush) hset hrun).regular

/-- A change of users and groups leaves a regular state. -/
theorem regular_table {c : TableCall} (hc : c.Proper) (hs : s.Sound) (h : s.Regular) {r : Except Fault Unit}
    (hrun : (c.operation user?).run.run s = (r, s')) : s'.Regular := by
  rcases c.run_cases hc hs h.toTidy hrun with hlog | ⟨accounts, t, message, actor, x, -, -, -, htidy, hcommit⟩
  · rw [hlog]
    exact ⟨⟨h.marked, h.accounts, h.user, h.clipboard, h.core, h.apps, h.failures, h.diagnostic, h.clock⟩, h.indexed⟩
  · exact regular_committed htidy hcommit

end Machine

end SimUnix
