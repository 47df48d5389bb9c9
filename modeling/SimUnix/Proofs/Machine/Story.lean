/-
The story of a system: operations, one after the other, what happens beside them, and restarts. Stories
lead from sound and regular states to such states again, and in safe mode they change nothing, up to the
first reset.
-/
import SimUnix.Proofs.Machine.Freeze
import SimUnix.Proofs.Machine.Ordinary

namespace SimUnix

/-! ## The same tables -/

namespace Accounts

variable {a b c : Accounts}

theorem Same.refl (a : Accounts) : a.Same a :=
  ⟨fun _ => rel_refl (fun _ => ⟨rfl, .refl _⟩) _, fun _ => rel_refl (fun _ => ⟨rfl, rfl, .refl _⟩) _⟩

theorem Same.trans (h₁ : a.Same b) (h₂ : b.Same c) : a.Same c :=
  ⟨fun name => rel_trans (fun h h' => ⟨h.rest.trans h'.rest, h.groups.trans h'.groups⟩) (h₁.user name) (h₂.user name),
    fun name => rel_trans (fun h h' => ⟨h.name.trans h'.name, h.gid.trans h'.gid, h.members.trans h'.members⟩)
      (h₁.group name) (h₂.group name)⟩

end Accounts

namespace Machine

open Act

variable {allowed allowed' : Operation → Prop} {s s₁ s₂ s₃ s' : Machine}

/-! ## Stories -/

/-- What comes after a state by operations of some kind, by what happens beside them, and by stopping and
starting again, the same system or a new one on its store. Numbers of users and groups that are too long
to be read back cannot be restored. -/
inductive Leads (allowed : Operation → Prop) (s : Machine) : Machine → Prop
  | refl : Leads allowed s s
  | idle {s₁ s₂ : Machine} (before : Leads allowed s s₁) (idle : s₁.Idle s₂) : Leads allowed s s₂
  | perform {s₁ s₂ : Machine} {op : Operation} {r : Except Fault Unit} (before : Leads allowed s s₁) (may : allowed op)
      (run : op.run.run s₁ = (r, s₂)) : Leads allowed s s₂
  | restart {s₁ s₂ s₃ : Machine} {r : Except Fault Unit} (before : Leads allowed s s₁) (legible : s₁.accounts.Legible)
      (stop : shutdown.run s₁ = (.ok ⟨⟩, s₂)) (start : boot.run s₂.anew = (r, s₃)) : Leads allowed s s₃
  | reboot {s₁ s₂ s₃ : Machine} {r : Except Fault Unit} (before : Leads allowed s s₁) (legible : s₁.accounts.Legible)
      (stop : shutdown.run s₁ = (.ok ⟨⟩, s₂)) (start : boot.run s₂ = (r, s₃)) : Leads allowed s s₃

theorem Leads.trans (h₁ : Leads allowed s s₁) (h₂ : Leads allowed s₁ s₂) : Leads allowed s s₂ := by
  induction h₂ with
  | refl => exact h₁
  | idle _ hi ih => exact ih.idle hi
  | perform _ may run ih => exact ih.perform may run
  | restart _ legible stop start ih => exact ih.restart legible stop start
  | reboot _ legible stop start ih => exact ih.reboot legible stop start

theorem Leads.mono (hall : ∀ op, allowed op → allowed' op) (h : Leads allowed s s') : Leads allowed' s s' := by
  induction h with
  | refl => exact .refl
  | idle _ hi ih => exact ih.idle hi
  | perform _ may run ih => exact ih.perform (hall _ may) run
  | restart _ legible stop start ih => exact ih.restart legible stop start
  | reboot _ legible stop start ih => exact ih.reboot legible stop start

theorem Leads.sound (hs : s.Sound) (h : Leads allowed s s') : s'.Sound := by
  induction h with
  | refl => exact hs
  | idle _ hi ih => exact hi.sound ih
  | @perform _ _ op _ _ _ run ih => exact op.sound ih run
  | restart _ _ stop start ih => exact sound_boot (steady_sound.shutdown ih stop).anew start
  | reboot _ _ stop start ih => exact sound_boot (steady_sound.shutdown ih stop) start

/-- A state after a restart is that of before. -/
theorem Regular.resumes {m : Machine} {r : Except Fault Unit} (h : s.Regular) (hs : s.Sound) (legible : s.accounts.Legible)
    (stop : shutdown.run s = (.ok ⟨⟩, s₁)) (hstore : m.store = s₁.store) (hphase : m.phase = .shutdown) (hnow : m.now = s.now)
    (start : boot.run m = (r, s₂)) : r = .ok ⟨⟩ ∧ s.Resumes s₂ ∧ s₂.Regular := by
  obtain ⟨s₁', hstop, hboot⟩ := h.restart hs.linked legible (running_of_shutdown stop)
  rw [stop] at hstop
  cases hstop
  obtain ⟨s₂', hrun, hresumes, hregular⟩ := hboot m hstore hphase hnow
  rw [start] at hrun
  cases hrun
  exact ⟨rfl, hresumes, hregular⟩

/-- A system that has been stopped is in that phase, at the same time. -/
theorem stopped (h : s.Regular) (stop : shutdown.run s = (.ok ⟨⟩, s₁)) : s₁.phase = .shutdown ∧ s₁.now = s.now := by
  obtain ⟨us, gs, hs⟩ := h.lists
  obtain ⟨log, hstop⟩ := Regular.run_shutdown (running_of_shutdown stop) hs
  rw [stop] at hstop
  cases hstop
  exact ⟨rfl, rfl⟩

theorem Regular.restarted {r : Except Fault Unit} (h : s.Regular) (hs : s.Sound) (legible : s.accounts.Legible)
    (stop : shutdown.run s = (.ok ⟨⟩, s₁)) (start : boot.run s₁.anew = (r, s₂)) :
    r = .ok ⟨⟩ ∧ s.Resumes s₂ ∧ s₂.Regular :=
  h.resumes (m := s₁.anew) hs legible stop rfl rfl (stopped h stop).2 start

theorem Regular.rebooted {r : Except Fault Unit} (h : s.Regular) (hs : s.Sound) (legible : s.accounts.Legible)
    (stop : shutdown.run s = (.ok ⟨⟩, s₁)) (start : boot.run s₁ = (r, s₂)) :
    r = .ok ⟨⟩ ∧ s.Resumes s₂ ∧ s₂.Regular :=
  h.resumes hs legible stop rfl (stopped h stop).1 (stopped h stop).2 start

theorem Regular.idle (h : s.Regular) (hi : s.Idle s') : s'.Regular := by
  obtain ⟨s₁, rfl, ha⟩ := hi.before
  have h₁ : Regular { s with developerMode := s'.developerMode } :=
    ⟨⟨h.marked, h.accounts, h.user, h.clipboard, h.core, h.apps, h.failures, h.diagnostic, h.clock⟩, h.indexed⟩
  exact (h₁.tidyWith.aside ha).regular

/-- Regular states only lead to regular states. -/
theorem Leads.regular (hall : ∀ op, allowed op → op.Proper) (hs : s.Sound) (hr : s.Regular) (h : Leads allowed s s') :
    s'.Regular := by
  induction h with
  | refl => exact hr
  | idle _ hi ih => exact ih.idle hi
  | perform hbefore may run ih => exact Operation.regular (hall _ may) (hbefore.sound hs) ih run
  | restart hbefore legible stop start ih => exact (ih.restarted (hbefore.sound hs) legible stop start).2.2
  | reboot hbefore legible stop start ih => exact (ih.rebooted (hbefore.sound hs) legible stop start).2.2

/-! ## The freeze -/

/-- The second system is in safe mode, and has the nodes, the users and groups and the applications of the
first one. Only the order may differ in which users, groups, members and the groups of a user are listed. -/
structure Frozen (s s' : Machine) : Prop where
  rootId : s'.tree.rootId = s.tree.rootId
  nodes : s'.tree.nodes = s.tree.nodes
  accounts : s.accounts.Same s'.accounts
  apps : s'.apps = s.apps
  safeMode : s'.safeMode = true

theorem Frozen.refl (h : s.safeMode = true) : s.Frozen s := ⟨rfl, rfl, .refl _, rfl, h⟩

theorem Frozen.trans (h₁ : s.Frozen s₁) (h₂ : s₁.Frozen s₂) : s.Frozen s₂ :=
  ⟨h₂.rootId.trans h₁.rootId, h₂.nodes.trans h₁.nodes, h₁.accounts.trans h₂.accounts, h₂.apps.trans h₁.apps, h₂.safeMode⟩

theorem Stands.frozen (h : Stands s s') : s.Frozen s' :=
  ⟨by rw [h.tree], by rw [h.tree], h.accounts ▸ .refl _, h.apps, h.safeMode⟩

theorem Resumes.frozen (h : s.Resumes s') (hsafe : s.safeMode = true) : s.Frozen s' :=
  ⟨h.rootId, h.nodes, h.accounts.1, h.apps, h.safeMode.trans hsafe⟩

/-- In safe mode, operations on request and restarts change nothing. -/
theorem Leads.frozen (hall : ∀ op, allowed op → op.Proper ∧ op.Requested) (hs : s.Sound) (hr : s.Regular)
    (hsafe : s.safeMode = true) (h : Leads allowed s s') : s.Frozen s' := by
  have hproper : ∀ op, allowed op → op.Proper := fun op hop => (hall op hop).1
  -- The induction is on the story. Safe mode, which `Frozen` carries along, is what each next step needs.
  induction h with
  | refl => exact .refl hsafe
  | idle _ hi ih => exact ih.trans ((Stands.refl ih.safeMode).idle hi).frozen
  | perform hbefore may run ih =>
    have hstands := Operation.stands (hall _ may).2 (hbefore.sound hs).linked (Stands.refl ih.safeMode) run
    exact ih.trans hstands.frozen
  | restart hbefore legible stop start ih =>
    have hregular := hbefore.regular hproper hs hr
    exact ih.trans ((hregular.restarted (hbefore.sound hs) legible stop start).2.1.frozen ih.safeMode)
  | reboot hbefore legible stop start ih =>
    have hregular := hbefore.regular hproper hs hr
    exact ih.trans ((hregular.rebooted (hbefore.sound hs) legible stop start).2.1.frozen ih.safeMode)

/-- What may be done to a system by those who use it: operations on request, and a reset. -/
def Operation.Ordinary (op : Operation) : Prop := op.Proper ∧ (op.Requested ∨ op = .reset)

end Machine

end SimUnix
