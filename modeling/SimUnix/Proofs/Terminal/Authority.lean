/-
Nothing on a terminal gets around the permissions. What a user who does not rule changes in the tree by
typing, it changes by calls that are made in its name, and each of them only does what the user has the
authority for. Changes of users and groups are refused to whoever is no administrator, and in safe mode to
everybody; and a change that is refused, for whatever reason, leaves a log entry at most.
-/
import SimUnix.Proofs.Machine.Authority
import SimUnix.Proofs.Terminal.Life

namespace SimUnix

/-! ## Calls in the name of a user -/

/-- What comes about by calls that are made for a user. In between, the tree and the tables of users and
groups stay as they are. -/
inductive Station.Calls (user : String) (s : Station) : Station → Prop
  | refl : Calls user s s
  | beside {s₁ s₂ : Station} (before : Calls user s s₁) (beside : s₁.Beside s₂) : Calls user s s₂
  | call {s₁ : Station} {c : Machine.FileCall} {r : Except Fault Machine.Answer} {m : Machine} (before : Calls user s s₁)
      (run : (c.run (some user) none).run s₁.machine = (r, m)) : Calls user s { s₁ with machine := m }

namespace Station

variable {user : String} {s s₁ s₂ : Station}

theorem Calls.trans (h₁ : s.Calls user s₁) (h₂ : s₁.Calls user s₂) : s.Calls user s₂ := by
  induction h₂ with
  | refl => exact h₁
  | beside _ hb ih => exact ih.beside hb
  | call _ hrun ih => exact ih.call hrun

theorem Calls.sound (h : s.Calls user s₁) (hs : s.Sound) : s₁.Sound := by
  induction h with
  | refl => exact hs
  | beside _ hb ih => exact hb.sound ih
  | @call s₁ c _ _ _ hrun ih => exact (c.trail ih.linked hrun).sound ih

/-- No call makes anyone an administrator. -/
theorem Calls.accounts (h : s.Calls user s₁) (hs : s.Sound) : s₁.machine.accounts = s.machine.accounts := by
  induction h with
  | refl => rfl
  | beside _ hb ih => exact hb.accounts.trans ih
  | @call s₁ c r m hbefore hrun ih =>
    refine Eq.trans ?_ ih
    rcases c.trail (hbefore.sound hs).linked hrun with hr | ⟨t, -, ha⟩
    · exact hr.alike.accounts
    · show m.accounts = s₁.machine.accounts
      rw [ha.same]

/-- What a part of a line does for a user: calls in its name, as long as it does not rule. -/
def Deeds (user : String) (s s' : Station) : Prop :=
  (s.Sound → s'.Sound) ∧ (s.Sound → ¬ s.machine.Rules user → s.Calls user s')

theorem duty_deeds (hu : user ≠ "") : Duty user (Deeds user) where
  refl _ := ⟨id, fun _ _ => .refl⟩
  trans {s₁ s₂ s₃} h₁ h₂ := by
    refine ⟨fun h => h₂.1 (h₁.1 h), fun hs hno => (h₁.2 hs hno).trans (h₂.2 (h₁.1 hs) fun hyes => hno ?_)⟩
    rw [Machine.rules_iff hu, (h₁.2 hs hno).accounts hs] at hyes
    exact (Machine.rules_iff hu).2 hyes
  sound h := h.1
  idle h := ⟨h.beside.sound, fun _ _ => .beside .refl h.beside⟩
  call {_ c _ _} hs _ hrun := ⟨fun _ => (c.trail hs.linked hrun).sound hs, fun _ _ => .call .refl hrun⟩
  perform {_ op _ _} hs _ hrun hmay :=
    ⟨fun _ => op.sound hs hrun, fun _ hno => .beside .refl (hmay.resolve_right hno)⟩

end Station

open Station

variable {user : String}

/-- A job that, where it begins while a user acts who does not rule, only makes calls in the name of that
user, whatever others do while it waits. -/
def Job.Serves (user : String) {α : Type} (job : Job α) : Prop :=
  ∀ s : Station, s.Sound → s.terminal.user = user → ¬ s.machine.Rules user → (job s).Within (Deeds user) s

theorem LinePart.serves (hu : user ≠ "") {α : Type} {job : Job α} (h : LinePart α job) : job.Serves user := by
  intro s hs huser hno
  have hD : Duty s.terminal.user (Deeds user) := by
    rw [huser]
    exact duty_deeds hu
  cases h with
  | beside h => exact (h s hs).mono fun hb => hD.idle hb.toIdle
  | step => exact Shell.step_within hs hD (huser ▸ hu) (huser ▸ hno)
  | redirect => exact Shell.redirect_within hs hD.service.toScribe

namespace World

end World

/-! ## Administrators -/

namespace Accounts

variable {a : Accounts}

/-- A name is that of an existing user who is root, or who is listed by a group of administrators. -/
def Administers (a : Accounts) (name : Json) : Prop :=
  ∃ u, a.user? name = some u ∧
    (name = .str rootName ∨ ∃ group ∈ [adminGroup, rootName], ∃ g, a.group? (.str group) = some g ∧ name ∈ g.members)

/-- What a user knows of its groups is what the groups list. -/
theorem isAdmin_iff (horder : a.InOrder) (hindexed : a.Indexed) {name : Json} : a.isAdmin name = true ↔ a.Administers name := by
  unfold isAdmin Administers
  rw [Option.any_eq_true]
  refine exists_congr fun u => and_congr_right fun hu => ?_
  have hname : u.name = name := (horder.filedUsers.get? hu).1
  have hgroups := (hindexed.groups horder hu).2
  simp [User.isAdmin, User.isRoot, hname, hgroups, or_assoc]

end Accounts

namespace Machine

open Act

variable {s s' : Machine} {user? : Option Json}

theorem Tidy.petitioner (h : s.Tidy) (hu : UserArg user?) : s.petitioner user? = .null ∨ (s.petitioner user?).IsText := by
  unfold Machine.petitioner
  rcases hf : user?.filter Json.truthy with _ | name
  · exact h.user
  · exact hu name (Option.filter_eq_some_iff.1 hf).1

/-- Whether somebody administers the system can always be told. -/
theorem Regular.mayAdminister (h : s.Regular) {name : Json} (hname : name = .null ∨ name.IsText) :
    ∃ b, s.mayAdminister name = .ok b ∧ (b = true → s.accounts.Administers name) := by
  unfold Machine.mayAdminister
  rcases hname with rfl | ⟨text, rfl⟩
  · exact ⟨false, rfl, nofun⟩
  · exact ⟨s.accounts.isAdmin (.str text), rfl, (Accounts.isAdmin_iff h.accounts h.indexed).1⟩

/-! ## Refusals -/

theorem run_authorize_refused {action : String} (h : s.safeMode = true ∨ s.mayAdminister (s.petitioner user?) = .ok false) :
    ∃ s', (authorize action user?).run s = (.ok none, s') := by
  unfold authorize
  rw [run_bind, run_get]
  dsimp only
  split
  · exact ⟨_, rfl⟩
  · rename_i hfree
    exact ⟨_, Act.next_ask (h.resolve_left hfree) rfl⟩

variable {action : String} {change : Accounts → Except Fault (Option Accounts)} {finish : Act String}

theorem run_administer_refused (h : s.safeMode = true ∨ s.mayAdminister (s.petitioner user?) = .ok false) :
    ∃ s', (administer action user? change finish).run s = (.ok false, s') := by
  obtain ⟨s', hauth⟩ : ∃ s', (authorize action user?).run s = (.ok none, s') := run_authorize_refused h
  exact ⟨s', Act.next hauth rfl⟩

/-- A refusal comes before the first change, in any state. -/
theorem administer_refused (hrun : (administer action user? change finish).run s = (.ok false, s')) : s' = { s with log := s'.log } := by
  unfold administer at hrun
  rcases of_run_bind hrun with ⟨e, -, he⟩ | ⟨actor?, s₁, hauth, hnext⟩
  · cases he
  obtain ⟨hlog, hsame⟩ := authorize_cases hauth
  rcases actor? with _ | actor
  · cases hnext
    exact hlog
  obtain rfl := hsame actor rfl
  rcases askedOf hnext with ⟨e, -, he, -⟩ | ⟨accounts?, -, hrun⟩
  · cases he
  rcases accounts? with _ | accounts
  · cases hrun
    rfl
  -- Once there are new tables, nothing but `true` is answered.
  · simp only at hrun
    rw [run_bind, run_modify] at hrun
    rcases of_run_bind hrun with ⟨e, -, he⟩ | ⟨message, s₂, -, hrun⟩
    · cases he
    rcases of_run_bind hrun with ⟨e, -, he⟩ | ⟨_, s₃, -, hrun⟩
    · cases he
    · cases hrun

/-- Asks the system for a change of users and groups, on behalf of somebody. -/
def TableCall.perform (user? : Option Json) : TableCall → Act Bool
  | addUser new => Machine.addUser new user?
  | updateUser name c => Machine.updateUser name c user?
  | deleteUser name => Machine.deleteUser name user?
  | addGroup name members => Machine.addGroup name members user?
  | addToGroup user group => Machine.addToGroup user group user?
  | removeFromGroup user group => Machine.removeFromGroup user group user?
  | deleteGroup name => Machine.deleteGroup name user?

theorem TableCall.perform_eq (c : TableCall) : c.perform user? = administer c.action user? c.change c.finish := by
  cases c <;> rfl

end Machine

namespace World

open Machine

/-- In safe mode every change of users and groups is refused, and so is out of it whatever somebody asks for who is not an
administrator. A change that is refused, for these reasons or others, leaves the tables, the tree and the store as they are. -/
theorem Living.refuses {w : World} (h : w.Living) (c : TableCall) (user? : Option String) :
    (w.machine.safeMode = true ∨ ¬ w.machine.accounts.Administers (w.machine.petitioner (user?.map .str)) →
      ∃ s', (c.perform (user?.map .str)).run w.machine = (.ok false, s')) ∧
    ∀ s', (c.perform (user?.map .str)).run w.machine = (.ok false, s') → s' = { w.machine with log := s'.log } := by
  rw [c.perform_eq]
  have hregular := h.attended.2
  have hactor : UserArg (user?.map .str) := fun u hu => by
    obtain ⟨name, -, rfl⟩ := Option.map_eq_some_iff.1 hu
    exact .inr ⟨name, rfl⟩
  refine ⟨fun hno => ?_, fun s' => administer_refused⟩
  obtain ⟨b, hmay, hadmin⟩ := hregular.mayAdminister (hregular.toTidy.petitioner hactor)
  refine run_administer_refused (hno.imp_right fun hno => ?_)
  rw [hmay, Bool.eq_false_iff.2 fun hb => hno (hadmin hb)]

/-- Root asks for a new group in safe mode. -/
theorem refuses_guarded : guarded.Living ∧ guarded.machine.safeMode = true ∧
    ∃ s', (Machine.addGroup "staff" [rootName] (some (.str rootName))).run guarded.machine = (.ok false, s') ∧
      s' = { guarded.machine with log := s'.log } := by
  obtain ⟨hrefused, hkept⟩ := living_guarded.refuses (.addGroup "staff" [rootName]) (some rootName)
  obtain ⟨s', hrun⟩ := hrefused (.inl safeMode_guarded)
  exact ⟨living_guarded, safeMode_guarded, s', hrun, hkept s' hrun⟩

end World

end SimUnix
