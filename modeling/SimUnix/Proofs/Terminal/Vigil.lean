/-
A terminal under watch from the moment it is opened. A vigil keeps what its lines have begun and which
accounts it was given the right password for; the terminal itself does what it does without one. Whatever
else happens to the system and on other terminals may happen at any time in between.
-/
import SimUnix.Proofs.Terminal.Watch
import SimUnix.Proofs.Terminal.World

namespace SimUnix

/-! ## Vigils -/

/-- A terminal under watch, and the command that waits in it. -/
structure Vigil where
  terminal : Terminal
  waiting? : Option (Option String → Station → Watched Finished) := none
  /-- What has begun so far, in order. -/
  begun : List Begun := []
  /-- The accounts whose passwords were given right when a command asked for them. -/
  proven : List String := []

namespace Vigil

/-- The terminal itself. -/
def window (v : Vigil) : Window :=
  { terminal := v.terminal, waiting? := v.waiting?.map fun resume reply s => (resume reply s).progress }

/-- The account whose password was asked for last: that of the command that began last, if it asks for one. -/
def account? (v : Vigil) : Option String := v.begun.getLast?.bind Begun.account?

/-- What goes on with the next line: the command that waits, if one does. -/
def next? (v : Vigil) : Option (Option String → Station → Watched Finished) := if v.terminal.prompt.active then v.waiting? else none

/-- The vigil and the system after a command has got somewhere. -/
def follow (v : Vigil) : Watched Finished → Except Fault Response × Vigil × Machine
  | .done f s => (.ok (.finished f s.terminal.closed), { v with terminal := s.terminal, waiting? := none }, s.machine)
  | .failed e s => (.error e, { v with terminal := s.terminal, waiting? := none }, s.machine)
  | .waiting s resume =>
    (.ok (.asks s.terminal.prompt.message s.terminal.prompt.kind),
      { v with terminal := s.terminal, waiting? := some resume }, s.machine)
  | .begins b rest => { v with begun := v.begun ++ [b] }.follow rest

/-- The vigil once an answer has been given: it counts for the account that was asked about if it is its
password. -/
def hear (v : Vigil) (s : Machine) (answer : String) : Vigil :=
  { v with proven := v.proven ++ (v.account?.filter (s.accounts.verify · answer)).toList }

/-- Takes a line: as the answer to the question that waits, or as a command line. -/
def submit (v : Vigil) (s : Machine) (line : String) : Except Fault Response × Vigil × Machine :=
  match v.next? with
  | some resume => (v.hear s line).follow (resume (some line) { machine := s, terminal := v.terminal })
  | none => v.follow (Window.watchStart line { machine := s, terminal := v.terminal })

/-- Gives up the command that waits; false if there is none. -/
def abandon (v : Vigil) (s : Machine) : Bool × Vigil × Machine :=
  match v.next? with
  | some resume =>
    let (_, v, s) := v.follow (resume none { machine := s, terminal := v.terminal })
    (true, { v with waiting? := none }, s)
  | none => (false, v, s)

variable {v : Vigil} {s : Machine} {line : String}

/-! ## The terminal itself -/

/-- A terminal settles as its vigil does. -/
theorem settle_window : ∀ {p : Watched Finished} {v : Vigil},
    Window.settle p.progress = ((v.follow p).1, (v.follow p).2.1.window, (v.follow p).2.2)
  | .done _ _, _ => rfl
  | .failed _ _, _ => rfl
  | .waiting _ _, _ => rfl
  | .begins b rest, v => settle_window (p := rest) (v := { v with begun := v.begun ++ [b] })

theorem next_window : (if v.window.terminal.prompt.active then v.window.waiting? else none) =
    v.next?.map fun resume reply s => (resume reply s).progress := by
  unfold next? window
  dsimp only
  split <;> rfl

/-- A terminal takes a line as its vigil does. -/
theorem submit_window : v.window.submit s line = ((v.submit s line).1, (v.submit s line).2.1.window, (v.submit s line).2.2) := by
  unfold Window.submit submit
  dsimp only
  rw [next_window]
  cases v.next? with
  | some resume => exact settle_window
  | none =>
    have hstart := congrFun (show (Window.watchStart line).job = Window.startLine line from Window.job_watchStart)
      { machine := s, terminal := v.terminal }
    exact (congrArg Window.settle hstart).symm.trans settle_window

/-- A terminal gives up as its vigil does. -/
theorem abandon_window : v.window.abandon s = ((v.abandon s).1, (v.abandon s).2.1.window, (v.abandon s).2.2) := by
  unfold Window.abandon abandon
  rw [next_window]
  cases v.next? with
  | some resume =>
    rw [Option.map_some]
    dsimp only
    rw [settle_window (v := v)]
    rfl
  | none => rfl

end Vigil

/-! ## Runs -/

namespace World

/-- A terminal that was opened as a user in some place among the windows is followed, whatever it is given to
do: lines, answers, questions that are given up, and interruptions. In between, the system and the other
terminals get into any states that can be reached. -/
inductive Follows (user : String) (i : Nat) : World → Vigil → Prop
  | opens {w : World} {user? : Option Json} {launches closes : Bool} {terminal : Terminal} (before : Reachable w)
      (run : w.machine.openTerminal user? launches closes = .ok terminal) (who : terminal.user = user)
      (place : i = w.windows.length) : Follows user i { w with windows := w.windows ++ [{ terminal }] } { terminal }
  | elsewhere {w w' : World} {v : Vigil} (before : Follows user i w v) (there : Reachable w')
      (same : w'.windows[i]? = w.windows[i]?) : Follows user i w' v
  | start {w : World} {v : Vigil} {r : Except Fault Unit} {s : Station} (before : Follows user i w v)
      (run : Station.start.run { machine := w.machine, terminal := v.terminal } = (r, s)) :
      Follows user i { machine := s.machine, windows := w.windows.set i { v with terminal := s.terminal }.window }
        { v with terminal := s.terminal }
  | submit {w : World} {v v' : Vigil} {line : String} {r : Except Fault Response} {s : Machine} (before : Follows user i w v)
      (run : v.submit w.machine line = (r, v', s)) : Follows user i { machine := s, windows := w.windows.set i v'.window } v'
  | abandon {w : World} {v v' : Vigil} {b : Bool} {s : Machine} (before : Follows user i w v)
      (run : v.abandon w.machine = (b, v', s)) : Follows user i { machine := s, windows := w.windows.set i v'.window } v'
  | interrupt {w : World} {v : Vigil} {input : String} {r : Except Fault Block} {s : Station} (before : Follows user i w v)
      (run : (Station.interrupt input).run { machine := w.machine, terminal := v.terminal } = (r, s)) :
      Follows user i { machine := s.machine, windows := w.windows.set i { v with terminal := s.terminal }.window }
        { v with terminal := s.terminal }

variable {user : String} {i : Nat} {w : World} {v : Vigil}

theorem getElem?_set_of_some {u u' : Window} (h : w.windows[i]? = some u) : (w.windows.set i u')[i]? = some u' := by
  rw [List.getElem?_set_self (List.getElem?_eq_some_iff.1 h).1]

/-- A terminal that is followed is one of a world that can be reached. -/
theorem Follows.reachable (h : Follows user i w v) : w.Reachable ∧ w.windows[i]? = some v.window := by
  induction h with
  | opens before run who place =>
    refine ⟨.opens before run, ?_⟩
    rw [place]
    exact List.getElem?_concat_length
  | elsewhere _ there same ih => exact ⟨there, same.trans ih.2⟩
  | start _ run ih => exact ⟨.start ih.1 ih.2 run, getElem?_set_of_some ih.2⟩
  | @submit w v _ line _ _ _ run ih =>
    have hwindow : v.window.submit w.machine line = _ := Vigil.submit_window
    rw [run] at hwindow
    exact ⟨.submit ih.1 ih.2 hwindow, getElem?_set_of_some ih.2⟩
  | @abandon w v _ _ _ _ run ih =>
    have hwindow := Vigil.abandon_window (v := v) (s := w.machine)
    rw [run] at hwindow
    exact ⟨.abandon ih.1 ih.2 hwindow, getElem?_set_of_some ih.2⟩
  | interrupt _ run ih => exact ⟨.interrupt ih.1 ih.2 run, getElem?_set_of_some ih.2⟩

/-- What happens in another place leaves a terminal that is followed alone. -/
theorem Follows.aside (h : Follows user i w v) {j : Nat} {u : Window} {s : Machine} (hij : i ≠ j)
    (there : Reachable { machine := s, windows := w.windows.set j u }) :
    Follows user i { machine := s, windows := w.windows.set j u } v :=
  .elsewhere h there (List.getElem?_set_ne hij.symm)

/-- Where something is done on one terminal, that one is followed further, and the others as before. -/
theorem followed_set {j : Nat} {u₀ u' : Window} {s : Machine} (hall : ∀ {i : Nat} {u : Window}, w.windows[i]? = some u →
      ∃ user v, Follows user i w v ∧ v.window = u) (before : w.windows[j]? = some u₀)
    (there : Reachable { machine := s, windows := w.windows.set j u' })
    (hstep : ∀ {user v}, Follows user j w v → v.window = u₀ →
      ∃ v', Follows user j { machine := s, windows := w.windows.set j u' } v' ∧ v'.window = u') {i : Nat} {u : Window}
    (hu : (w.windows.set j u')[i]? = some u) :
    ∃ user v, Follows user i { machine := s, windows := w.windows.set j u' } v ∧ v.window = u := by
  by_cases hij : i = j
  · subst hij
    rw [getElem?_set_of_some before] at hu
    cases hu
    obtain ⟨user, v, hv, hwindow⟩ := hall before
    exact ⟨user, hstep hv hwindow⟩
  · rw [List.getElem?_set_ne (Ne.symm hij)] at hu
    obtain ⟨user, v, hv, hwindow⟩ := hall hu
    exact ⟨user, v, hv.aside hij there, hwindow⟩

/-- Every terminal of a world that can be reached is one that has been followed. -/
theorem Reachable.followed (h : w.Reachable) : ∀ {i : Nat} {u : Window}, w.windows[i]? = some u →
    ∃ user v, Follows user i w v ∧ v.window = u := by
  induction h with
  | first => exact fun hu => by cases hu
  | restart => exact fun hu => by cases hu
  | operate before run ih =>
    intro i u hu
    obtain ⟨user, v, hv, rfl⟩ := ih hu
    exact ⟨user, v, .elsewhere hv (.operate before run) rfl, rfl⟩
  | @opens w user? launches closes terminal before run ih =>
    intro i u hu
    rcases lt_or_ge i w.windows.length with hi | hi
    · obtain ⟨user, v, hv, rfl⟩ := ih ((List.getElem?_append_left hi).symm.trans hu)
      exact ⟨user, v, .elsewhere hv (.opens before run) (List.getElem?_append_left hi), rfl⟩
    · have hlast : i = w.windows.length := by
        have hlt := (List.getElem?_eq_some_iff.1 hu).1
        rw [List.length_append, List.length_singleton] at hlt
        omega
      subst hlast
      rw [List.getElem?_concat_length] at hu
      cases hu
      exact ⟨_, _, .opens before run rfl rfl, rfl⟩
  | start before there run ih =>
    refine followed_set ih there (.start before there run) fun hv hwindow => ?_
    subst hwindow
    exact ⟨_, .start hv run, rfl⟩
  | @submit w j u₀ u' line r s before there run ih =>
    refine followed_set ih there (.submit before there run) fun {user v} hv hwindow => ?_
    subst hwindow
    rw [Vigil.submit_window] at run
    cases run
    exact ⟨_, .submit hv (show v.submit w.machine line = (_, _, _) from rfl), rfl⟩
  | @abandon w j u₀ u' b s before there run ih =>
    refine followed_set ih there (.abandon before there run) fun {user v} hv hwindow => ?_
    subst hwindow
    rw [Vigil.abandon_window] at run
    cases run
    exact ⟨_, .abandon hv (show v.abandon w.machine = (_, _, _) from rfl), rfl⟩
  | interrupt before there run ih =>
    refine followed_set ih there (.interrupt before there run) fun hv hwindow => ?_
    subst hwindow
    exact ⟨_, .interrupt hv run, rfl⟩

end World

end SimUnix
