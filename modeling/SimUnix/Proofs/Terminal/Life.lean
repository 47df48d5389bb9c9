/-
The life of a system with its terminals: from its first start on, operations, typing and restarts. Once it
is in safe mode nothing changes its nodes, its users and groups or its applications, until it is reset.
-/
import SimUnix.Proofs.Machine.FirstStart
import SimUnix.Proofs.Machine.Story
import SimUnix.Proofs.Terminal.World

namespace SimUnix

open Machine

/-! ## Typing -/

/-- The system comes to another state by what those may do who use it. -/
def Station.Leads (s s' : Station) : Prop := Machine.Leads Operation.Ordinary s.machine s'.machine

/-- What is due for a user is on request, or a reset. -/
theorem Machine.Operation.Due.ordinary {op : Operation} {user : String} (h : op.Due user) : op.Ordinary := by
  cases op
  case logout => exact ⟨trivial, .inl trivial⟩
  case reset => exact ⟨trivial, .inr rfl⟩
  case addUser => exact ⟨h.2, .inl trivial⟩
  case updateUser => exact ⟨trivial, .inl trivial⟩
  case deleteUser => exact ⟨trivial, .inl trivial⟩
  case addGroup => exact ⟨trivial, .inl trivial⟩
  case addToGroup => exact ⟨trivial, .inl trivial⟩
  case removeFromGroup => exact ⟨trivial, .inl trivial⟩
  case deleteGroup => exact ⟨trivial, .inl trivial⟩
  all_goals exact h.elim

theorem Machine.FileCall.Default.ordinary {c : FileCall} {user : String} (h : c.Default) :
    (Operation.file c (some user) none).Ordinary := by
  refine ⟨?_, .inl trivial⟩
  cases c
  case createFile dir name content permissions? =>
    cases (show permissions? = none from h)
    exact ⟨userArg_some user, userArg_none⟩
  all_goals exact userArg_some user

theorem Station.duty_leads (user : String) : Duty user Station.Leads where
  refl _ := .refl
  trans h₁ h₂ := h₁.trans h₂
  sound h hs := h.sound hs
  idle h := .idle .refl h.machine
  call {_ _ _ _} _ hc hrun :=
    let ⟨_, hop⟩ := run_discard_of hrun
    .perform .refl hc.ordinary hop
  perform _ hd hrun _ := .perform .refl hd.ordinary hrun

namespace World

variable {allowed allowed' : Operation → Prop} {w w' : World}

/-! ## Moves -/

/-- What may happen next to a system with its terminals: an operation of some kind, a restart, in which a new
system or the same one starts on the store, or something on a terminal. -/
inductive Moves (allowed : Operation → Prop) (w : World) : World → Prop
  | operate {op : Operation} {r : Except Fault Unit} {s : Machine} (may : allowed op) (run : op.run.run w.machine = (r, s)) :
      Moves allowed w { w with machine := s }
  | restart {r : Except Fault Unit} {s₁ s₂ : Machine} (legible : w.machine.accounts.Legible)
      (stop : Machine.shutdown.run w.machine = (.ok ⟨⟩, s₁)) (start : Machine.boot.run s₁.anew = (r, s₂)) :
      Moves allowed w { machine := s₂ }
  | reboot {r : Except Fault Unit} {s₁ s₂ : Machine} (legible : w.machine.accounts.Legible)
      (stop : Machine.shutdown.run w.machine = (.ok ⟨⟩, s₁)) (start : Machine.boot.run s₁ = (r, s₂)) :
      Moves allowed w { w with machine := s₂ }
  | opens {user? : Option Json} {launches closes : Bool} {terminal : Terminal}
      (run : w.machine.openTerminal user? launches closes = .ok terminal) :
      Moves allowed w { w with windows := w.windows ++ [{ terminal }] }
  | start {i : Nat} {v : Window} {r : Except Fault Unit} {s : Station} (there : w.windows[i]? = some v)
      (run : Station.start.run { machine := w.machine, terminal := v.terminal } = (r, s)) :
      Moves allowed w { machine := s.machine, windows := w.windows.set i { v with terminal := s.terminal } }
  | submit {i : Nat} {v v' : Window} {line : String} {r : Except Fault Response} {s : Machine}
      (there : w.windows[i]? = some v) (run : v.submit w.machine line = (r, v', s)) :
      Moves allowed w { machine := s, windows := w.windows.set i v' }
  | abandon {i : Nat} {v v' : Window} {b : Bool} {s : Machine} (there : w.windows[i]? = some v)
      (run : v.abandon w.machine = (b, v', s)) : Moves allowed w { machine := s, windows := w.windows.set i v' }
  | interrupt {i : Nat} {v : Window} {input : String} {r : Except Fault Block} {s : Station} (there : w.windows[i]? = some v)
      (run : (Station.interrupt input).run { machine := w.machine, terminal := v.terminal } = (r, s)) :
      Moves allowed w { machine := s.machine, windows := w.windows.set i { v with terminal := s.terminal } }

/-- What happens next leads to nothing else than what can be reached. -/
theorem Moves.reachable (h : w.Reachable) (hmove : Moves allowed w w') : w'.Reachable := by
  cases hmove with
  | operate _ run => exact h.operate run
  | restart _ stop start =>
    have hstop : Reachable { w with machine := _ } := h.operate (show Operation.shutdown.run.run w.machine = _ from stop)
    exact hstop.restart.operate (show Operation.boot.run.run _ = _ from start)
  | reboot _ stop start =>
    have hstop : Reachable { w with machine := _ } := h.operate (show Operation.shutdown.run.run w.machine = _ from stop)
    exact hstop.operate (show Operation.boot.run.run _ = _ from start)
  | opens run => exact h.opens run
  | start there run => exact h.start there run
  | submit there run => exact h.submit there run
  | abandon there run => exact h.abandon there run
  | interrupt there run => exact h.interrupt there run

/-- The system is sound, and commands that wait will do nothing else than those may who use it. -/
structure Attended (w : World) : Prop where
  machine : w.machine.Sound
  windows : ∀ v ∈ w.windows, v.Awaits Station.Leads

theorem Attended.set (h : w.Attended) {i : Nat} {v : Window} {s : Machine} (hs : s.Sound) (hv : v.Awaits Station.Leads) :
    Attended { machine := s, windows := w.windows.set i v } := by
  refine ⟨hs, fun u hu => ?_⟩
  rcases List.mem_or_eq_of_mem_set hu with hu | rfl
  · exact h.windows u hu
  · exact hv

/-- The system goes where the world moves. -/
theorem Moves.leads (hall : ∀ op : Operation, op.Ordinary → allowed op) (hw : w.Attended) (h : Moves allowed w w') :
    Machine.Leads allowed w.machine w'.machine ∧ w'.Attended := by
  -- Whose terminal it is makes no difference: a duty to lead is the same for every user.
  have hduty := Station.duty_leads ""
  have hstep : ∀ {s : Machine}, Machine.Leads allowed w.machine s → s.Sound := fun hs => hs.sound hw.machine
  cases h with
  | operate may run =>
    have hs : Machine.Leads allowed w.machine _ := .perform .refl may run
    exact ⟨hs, hstep hs, hw.windows⟩
  | restart legible stop start =>
    have hs : Machine.Leads allowed w.machine _ := .restart .refl legible stop start
    exact ⟨hs, hstep hs, fun _ hv => by cases hv⟩
  | reboot legible stop start =>
    have hs : Machine.Leads allowed w.machine _ := .reboot .refl legible stop start
    exact ⟨hs, hstep hs, hw.windows⟩
  | opens run =>
    refine ⟨.refl, hw.machine, fun v hv => ?_⟩
    rcases List.mem_append.1 hv with hv | hv
    · exact hw.windows v hv
    · cases List.mem_singleton.1 hv
      exact fun _ hw => by cases hw
  | @start i v r s there run =>
    have hs : Machine.Leads Operation.Ordinary w.machine s.machine :=
      Window.within_start hduty.service (fun {_ _ _} _ hrun =>
        let ⟨_, hop⟩ := run_discard_of hrun
        .perform .refl (show Operation.Ordinary .checkIntegrity from ⟨trivial, .inl trivial⟩) hop)
        (s := { machine := w.machine, terminal := v.terminal }) hw.machine run
    exact ⟨hs.mono hall, hw.set (hs.sound hw.machine) (hw.windows v (List.mem_of_getElem? there))⟩
  | @submit i v v' line r s there run =>
    obtain ⟨⟨_, _, hs⟩, hv⟩ := Window.submit_within Station.duty_leads hw.machine (hw.windows v (List.mem_of_getElem? there)) run
    have hs : Machine.Leads Operation.Ordinary w.machine s := hs
    exact ⟨hs.mono hall, hw.set (hs.sound hw.machine) hv⟩
  | @abandon i v v' b s there run =>
    obtain ⟨⟨_, _, hs⟩, hv⟩ := Window.abandon_within hduty.toCourse hw.machine (hw.windows v (List.mem_of_getElem? there)) run
    have hs : Machine.Leads Operation.Ordinary w.machine s := hs
    exact ⟨hs.mono hall, hw.set (hs.sound hw.machine) hv⟩
  | @interrupt i v input r s there run =>
    have hs : Machine.Leads Operation.Ordinary w.machine s.machine :=
      Window.within_interrupt hduty.service (s := { machine := w.machine, terminal := v.terminal }) hw.machine run
    exact ⟨hs.mono hall, hw.set (hs.sound hw.machine) (hw.windows v (List.mem_of_getElem? there))⟩

/-! ## Living -/

/-- The states that a system and its terminals get into after its first start, on an empty store, by
operations with proper arguments, those of the system on its own behalf included, by restarts, and by what
is typed. -/
inductive Living : World → Prop
  | first {store : Store} {hostname : String} {log : Log} {ids : IdSupply} {now : Time.Stamp} {r : Except Fault Unit}
      {s : Machine} (empty : store.Empty) (clock : now.Proper)
      (start : Machine.boot.run (Machine.create store hostname log ids now) = (r, s)) : Living { machine := s }
  | next {w w' : World} (before : Living w) (move : Moves Operation.Proper w w') : Living w'

theorem Living.attended (h : w.Living) : w.Attended ∧ w.machine.Regular := by
  induction h with
  | first empty clock start =>
    exact ⟨⟨sound_boot (sound_create empty.restores) start, fun _ hv => by cases hv⟩, regular_first empty clock start⟩
  | next _ move ih =>
    obtain ⟨hs, hw⟩ := move.leads (fun _ hop => hop.1) ih.1
    exact ⟨hw, hs.regular (fun _ hop => hop) ih.1.machine ih.2⟩

theorem Moves.perform {op : Operation} (hop : allowed op) : Moves allowed w { w with machine := op.after w.machine } :=
  .operate hop (show op.run.run w.machine = ((op.run.run w.machine).1, _) from rfl)

theorem Living.started {store : Store} {hostname : String} {log : Log} {ids : IdSupply} {now : Time.Stamp} (empty : store.Empty)
    (clock : now.Proper) : Living { machine := Operation.boot.after (Machine.create store hostname log ids now) } :=
  .first empty clock (Prod.mk.eta (p := Machine.boot.run (Machine.create store hostname log ids now))).symm

theorem living_fresh : fresh.Living := .started Store.empty_memory ⟨rfl, by decide, by decide⟩

/-- A check that has failed. -/
def failedCheck : IntegrityReport := { valid := false, failures := [.str "/etc/passwd"] }

theorem safeMode_failedCheck (s : Machine) : ((Operation.enterSafeMode failedCheck).after s).safeMode = true :=
  safeMode_enterSafeMode (s := s) Prod.mk.eta.symm

theorem proper_failedCheck : (Operation.enterSafeMode failedCheck).Proper := fun _ hf => ⟨_, List.mem_singleton.1 hf⟩

/-- A new system that a check has put into safe mode. -/
def guarded : World := { fresh with machine := (Operation.enterSafeMode failedCheck).after fresh.machine }

theorem living_guarded : guarded.Living := .next living_fresh (.perform proper_failedCheck)

theorem safeMode_guarded : guarded.machine.safeMode = true := safeMode_failedCheck _

/-- Root has tried to write to a file. -/
def denied : World :=
  { guarded with machine := (Operation.file (.writeFile "/etc/passwd" "x") (some (.str rootName)) none).after guarded.machine }

end World

end SimUnix
