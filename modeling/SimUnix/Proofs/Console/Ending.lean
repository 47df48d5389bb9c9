/-
How the console ends. Whatever is typed, it comes to its end with the input. Once a terminal has been opened, the system is down
then and its state is in the store, also if a command has given up; and where the input ends at a prompt of the terminal, or at a
question of a command, the console ends regularly. Before that the system keeps running when the console ends, unless there have
been too many attempts to log in.
-/
import SimUnix.Console.Transcript
import SimUnix.Proofs.Terminal.Uptime

namespace SimUnix.Console

open Machine

/-! ## Endings -/

/-- The console waits for a user to log in. -/
def Stage.LoggingIn : Stage → Prop
  | userName _ | password _ _ => True
  | _ => False

/-- The console waits at a terminal. -/
def Stage.InSession : Stage → Prop
  | command _ | answer _ => True
  | _ => False

/-- What the console leaves behind where it has not stopped the system: it is up, and its state is in the store. -/
structure LeftUp (s : Machine) : Prop where
  up : s.Up
  written : s.Written

/-- What a console leaves behind. It has stopped the system, unless the input has ended or has been interrupted while a user was
to log in, or there was no way to ask for a user or to open a terminal. -/
inductive Leaves (s : Machine) : Ending → Prop
  | regular (down : s.Down) : Leaves s .regular
  | stopped {e : Fault} (down : s.Down) : Leaves s (.fault e)
  | endOfInput (left : LeftUp s) : Leaves s .endOfInput
  | interrupted (left : LeftUp s) : Leaves s .interrupted
  | nameless {e : Fault} (left : LeftUp s) (why : s.hostname = .error e) : Leaves s (.fault e)
  | unopened {e : Fault} {user : Json} (left : LeftUp s) (why : s.openTerminal (some user) true true = .error e) :
      Leaves s (.fault e)

namespace Dialog

/-- A console that has opened a terminal: the system is up while it reads, and down when it is over. -/
inductive Serves : Dialog → Prop
  | command {s : Machine} {w : Window} {r : Reading} (up : s.Up) (awaits : w.Awaits Station.StaysUp) : Serves ⟨s, .command w, some r⟩
  | answer {s : Machine} {w : Window} {r : Reading} (up : s.Up) (awaits : w.Awaits Station.StaysUp) : Serves ⟨s, .answer w, some r⟩
  | closed {s : Machine} {ending : Ending} (down : s.Down) (how : ending = .regular ∨ ∃ e, ending = .fault e) :
      Serves ⟨s, .over ending, none⟩

/-- A console that has started the system. -/
inductive Started : Dialog → Prop
  | userName {s : Machine} {failed : Nat} {r : Reading} (left : LeftUp s) : Started ⟨s, .userName failed, some r⟩
  | password {s : Machine} {failed : Nat} {user : String} {r : Reading} (left : LeftUp s) : Started ⟨s, .password failed user, some r⟩
  | closed {s : Machine} {ending : Ending} (leaves : Leaves s ending) : Started ⟨s, .over ending, none⟩
  | serves {d : Dialog} (serves : Serves d) : Started d

variable {s s' : Machine} {ending : Ending} {width : Int} {text : String} {d : Dialog} {w : Window} {typed : Input}

/-! ## Sessions -/

/-- Ending a session stops the system. -/
theorem close_up (h : s.Up) : ∃ s', s'.Down ∧ (close s ending text).dialog = ⟨s', .over ending, none⟩ := by
  obtain ⟨s', hstop, hdown⟩ := h.stop
  refine ⟨s', hdown, ?_⟩
  unfold close
  dsimp only
  rw [if_pos h.running, hstop]
  rfl

theorem serves_close (h : s.Up) (how : ending = .regular ∨ ∃ e, ending = .fault e) : (close s ending text).dialog.Serves := by
  obtain ⟨s', hdown, hclose⟩ : ∃ s', s'.Down ∧ (close s ending text).dialog = ⟨s', .over ending, none⟩ := close_up h
  rw [hclose]
  exact .closed hdown how

theorem serves_askCommand (h : s.Up) (hw : w.Awaits Station.StaysUp) : (askCommand s w text).dialog.Serves := by
  unfold askCommand
  split
  · exact serves_close h (.inl rfl)
  · split
    · exact serves_close h (.inr ⟨_, rfl⟩)
    · exact .command h hw

theorem serves_goOn {r : Except Fault Response} (h : s.Up) (hw : w.Awaits Station.StaysUp) :
    (goOn width (r, w, s)).dialog.Serves := by
  rcases r with e | ⟨f, closed⟩ | ⟨message, kind⟩
  · exact serves_close h (.inr ⟨_, rfl⟩)
  · unfold goOn
    dsimp only
    split
    · exact serves_close h (.inr ⟨_, rfl⟩)
    · exact serves_askCommand h hw
  · exact .answer h hw

/-- A line, as a command or as an answer. -/
theorem serves_submit {line : String} (h : s.Up) (hw : w.Awaits Station.StaysUp) :
    (goOn width (w.submit s line)).dialog.Serves := by
  rcases hrun : w.submit s line with ⟨r, w', s'⟩
  obtain ⟨h', hw'⟩ := Window.submit_staysUp h hw hrun
  exact serves_goOn h' hw'

theorem serves_onCommand (h : s.Up) (hw : w.Awaits Station.StaysUp) : (onCommand width s w typed).dialog.Serves := by
  cases typed with
  | line line => exact serves_submit h hw
  | endOfInput => exact serves_close h (.inl rfl)
  | interrupt =>
    unfold onCommand
    dsimp only
    rcases hrun : (Station.interrupt "").run { machine := s, terminal := w.terminal } with ⟨r, st⟩
    have hsound : Station.Sound { machine := s, terminal := w.terminal } := h.sound
    have hup : st.machine.Up := (Window.within_interrupt (Station.duty_staysUp "").service hsound hrun).2 h
    cases r with
    | error e => exact serves_close hup (.inr ⟨_, rfl⟩)
    | ok b => exact serves_askCommand hup hw

theorem serves_onAnswer (h : s.Up) (hw : w.Awaits Station.StaysUp) : (onAnswer width s w typed).dialog.Serves := by
  cases typed with
  | line line => exact serves_submit h hw
  | endOfInput => exact serves_close (Window.abandon_staysUp h hw rfl) (.inl rfl)
  | interrupt => exact serves_submit h hw

theorem Serves.next (h : d.Serves) : (d.next width typed).dialog.Serves := by
  cases h with
  | command up awaits => exact serves_onCommand up awaits
  | answer up awaits => exact serves_onAnswer up awaits
  | closed down how => exact .closed down how

/-- At the end of input a session ends regularly. -/
theorem Serves.endOfInput (h : d.Serves) (hs : d.stage.InSession) :
    ∃ s', s'.Down ∧ (d.next width .endOfInput).dialog = ⟨s', .over .regular, none⟩ := by
  cases h with
  | command up awaits => exact close_up up
  | answer up awaits => exact close_up (Window.abandon_staysUp up awaits rfl)
  | closed => exact hs.elim

/-! ## Starting and logging in -/

theorem started_askName {failed : Nat} (h : LeftUp s) : (askName s failed text).dialog.Started := by
  unfold askName
  split
  · rename_i e he
    exact .closed (.nameless h he)
  · exact .userName h

theorem started_openFor {user : Json} (h : LeftUp s) : (openFor s user text).dialog.Started := by
  unfold openFor
  split
  · rename_i e he
    exact .closed (.unopened h he)
  rename_i terminal hopen
  rcases hrun : Station.start.run { machine := s, terminal } with ⟨r, st⟩
  have hsound : Station.Sound { machine := s, terminal } := h.up.sound
  have hup : st.machine.Up := (Station.staysUp_start hsound hrun).2 h.up
  refine .serves ?_
  cases r with
  | error e => exact serves_close hup (.inr ⟨_, rfl⟩)
  | ok u =>
    dsimp only
    split
    · exact serves_close hup (.inr ⟨_, rfl⟩)
    · exact serves_askCommand hup fun _ hw => by cases hw

theorem started_loginFailed {failed : Nat} (h : LeftUp s) : (loginFailed s failed).dialog.Started := by
  unfold loginFailed
  dsimp only
  split
  · exact started_askName h
  · obtain ⟨s', hstop, hdown⟩ := h.up.stop
    rw [hstop]
    exact .closed (.regular hdown)

theorem started_logIn {failed : Nat} {user password : String} (h : LeftUp s) : (logIn s failed user password).dialog.Started := by
  obtain ⟨found, s', hrun, hup, hwritten⟩ := h.up.login user password
  have h' : LeftUp s' := ⟨hup, hwritten h.written⟩
  unfold logIn
  rw [hrun]
  cases found
  · exact started_loginFailed h'
  · exact started_openFor h'

theorem Started.next (h : d.Started) : (d.next width typed).dialog.Started := by
  cases h with
  | serves serves => exact .serves serves.next
  | closed leaves => exact .closed leaves
  | userName left =>
    cases typed with
    | line line => exact .password left
    | endOfInput => exact .closed (.endOfInput left)
    | interrupt => exact .closed (.interrupted left)
  | password left =>
    cases typed with
    | line line => exact started_logIn left
    | endOfInput => exact .closed (.endOfInput left)
    | interrupt => exact .closed (.interrupted left)

/-- A console that starts on what has been written out. -/
theorem started_start {Q : Machine → Prop} (hb : Restorable Q s.store) (hs : s.Sound) (hnow : s.now.Proper)
    (hphase : s.phase = .shutdown) : (start s).dialog.Started := by
  obtain ⟨s', hboot, hup, hwritten⟩ := hb.boot hs hnow hphase
  have h : LeftUp s' := ⟨hup, hwritten⟩
  unfold start
  rw [hboot]
  dsimp only
  split
  · exact started_openFor h
  · exact started_askName h

end Dialog

/-! ## Playing -/

variable {p : Printed} {typed : List Input} {x : Input} {width : Int}

/-- A console that reads no more stays as it is. -/
theorem play_over (h : p.dialog.reading? = none) : (p.play width typed).dialog = p.dialog := by
  cases typed with
  | nil => rfl
  | cons x rest =>
    unfold Printed.play
    rw [h]

/-- What is typed last is taken where everything before it has led to, if the console still reads there. -/
theorem play_concat : (p.play width (typed ++ [x])).dialog =
    if (p.play width typed).dialog.reading? = none then (p.play width typed).dialog
    else ((p.play width typed).dialog.next width x).dialog := by
  induction typed generalizing p with
  | nil =>
    rcases hread : p.dialog.reading? with _ | reading
    · rw [play_over hread, play_over hread, if_pos hread]
    · have hnil : (p.play width []).dialog = p.dialog := rfl
      rw [hnil, hread, if_neg (Option.some_ne_none _), List.nil_append]
      unfold Printed.play
      rw [hread]
      rfl
  | cons y rest ih =>
    rcases hread : p.dialog.reading? with _ | reading
    · rw [play_over hread, play_over hread, if_pos hread]
    · have hstep : ∀ ys, (p.play width (y :: ys)).dialog = ((p.dialog.next width y).play width ys).dialog := fun ys => by
        rw [Printed.play]
        simp only [hread]
        rfl
      rw [List.cons_append, hstep, hstep]
      exact ih

/-- What every step keeps is kept by a whole script. -/
theorem play_keeps {I : Dialog → Prop} (hstep : ∀ {d x}, I d → I (d.next width x).dialog) {before : List Input}
    (hb : before <+: typed) (h : I (p.play width before).dialog) : I (p.play width typed).dialog := by
  obtain ⟨rest, rfl⟩ := hb
  induction rest using List.reverseRecOn with
  | nil => rwa [List.append_nil]
  | append_singleton rest x ih =>
    rw [← List.append_assoc, play_concat]
    split
    · exact ih
    · exact hstep ih

/-! ## Scripts -/

/-- A console that is started on the records that a system has left behind. -/
def reopen (m : Machine) (hostname : String) (log : Log) (now : Time.Stamp) : Printed :=
  Dialog.start (create m.store hostname log m.tree.ids now)

/-- Systems that earlier runs have left behind: one that has never been started, one that has been stopped after any life, one whose
life broke off when everything had been written out, and one on which a console has come to any end. -/
inductive LeftBehind : Machine → Prop
  | first {store : Store} {hostname : String} {log : Log} {ids : IdSupply} {now : Time.Stamp} (empty : store.Empty) :
      LeftBehind (create store hostname log ids now)
  | stopped {w : World} {s : Machine} (life : w.Living) (stop : Machine.shutdown.run w.machine = (.ok ⟨⟩, s)) : LeftBehind s
  | brokenOff {w : World} (life : w.Living) (written : w.machine.Written) : LeftBehind w.machine
  | console {m : Machine} {hostname : String} {log : Log} {now : Time.Stamp} {width : Int} {typed : List Input} {ending : Ending}
      (before : LeftBehind m) (clock : now.Proper)
      (ends : ((reopen m hostname log now).play width typed).dialog.stage = .over ending) :
      LeftBehind ((reopen m hostname log now).play width typed).dialog.machine

/-- A system whose records a console can be started on. -/
structure Reopens (m : Machine) : Prop where
  sound : m.Sound
  restorable : Restorable (fun _ => True) m.store

variable {m s : Machine} {hostname : String} {log : Log} {now : Time.Stamp} {ending : Ending} {d : Dialog}

theorem reopens_down (h : s.Down) : Reopens s := ⟨h.sound, h.written.restorable h.sound h.regular⟩

theorem LeftUp.reopens (h : LeftUp s) : Reopens s := ⟨h.up.sound, h.written.restorable h.up.sound h.up.regular⟩

theorem Leaves.reopens (h : Leaves s ending) : Reopens s := by
  cases h with
  | regular down | stopped down => exact reopens_down down
  | endOfInput left | interrupted left | nameless left _ | unopened left _ => exact left.reopens

theorem Dialog.Serves.leaves (h : Dialog.Serves ⟨s, .over ending, none⟩) : s.Down ∧ Leaves s ending := by
  cases h with
  | closed down how =>
    rcases how with rfl | ⟨e, rfl⟩
    · exact ⟨down, .regular down⟩
    · exact ⟨down, .stopped down⟩

/-- A console that is over has left its system in one of these ways. -/
theorem Dialog.Started.leaves (h : d.Started) (hover : d.stage = .over ending) : Leaves d.machine ending := by
  cases h with
  | userName | password => cases hover
  | closed leaves =>
    cases hover
    exact leaves
  | serves serves =>
    cases serves with
    | command | answer => cases hover
    | closed down how =>
      cases hover
      exact (Dialog.Serves.closed down how).leaves.2

theorem Reopens.started (h : Reopens m) (clock : now.Proper) : (reopen m hostname log now).dialog.Started :=
  Dialog.started_start (s := create m.store hostname log m.tree.ids now) h.restorable (sound_create h.sound.restores) clock rfl

theorem Reopens.started_play (h : Reopens m) (clock : now.Proper) {width : Int} {typed : List Input} :
    ((reopen m hostname log now).play width typed).dialog.Started :=
  have hbegin : ((reopen m hostname log now).play width []).dialog.Started := h.started clock
  play_keeps Dialog.Started.next List.nil_prefix hbegin

theorem Dialog.Started.serving (h : d.Started) (hs : d.stage.InSession) : d.Serves := by
  cases h with
  | userName | password | closed => exact hs.elim
  | serves serves => exact serves

theorem LeftBehind.reopens (h : LeftBehind m) : Reopens m := by
  induction h with
  | first empty => exact ⟨sound_create empty.restores, .inl empty.get_tree⟩
  | stopped life stop =>
    obtain ⟨hattended, hregular⟩ := life.attended
    obtain ⟨s', hstop, hdown⟩ := Up.stop ⟨hattended.machine, hregular, running_of_shutdown stop⟩
    cases hstop.symm.trans stop
    exact reopens_down hdown
  | brokenOff life written =>
    obtain ⟨hattended, hregular⟩ := life.attended
    exact ⟨hattended.machine, written.restorable hattended.machine hregular⟩
  | console _ clock ends ih =>
    exact ((ih.started_play clock).leaves ends).reopens

/-- On whatever earlier runs have left behind and whatever is typed, the console ends with the input. In the end its system is down
and the state is in the store, unless nobody got to a terminal, and the console ends regularly where the input ends at a terminal. At
a login, the end of input ends the console as well, but leaves the system up. -/
theorem LeftBehind.ends_with_input (h : LeftBehind m) (clock : now.Proper) {width : Int} {typed : List Input} :
    ∃ s ending, ((reopen m hostname log now).play width (typed ++ [.endOfInput])).dialog = ⟨s, .over ending, none⟩ ∧ Leaves s ending ∧
      (∀ before, before <+: typed → ((reopen m hostname log now).play width before).dialog.stage.InSession → s.Down) ∧
      (((reopen m hostname log now).play width typed).dialog.stage.InSession → ending = .regular) ∧
      (((reopen m hostname log now).play width typed).dialog.stage.LoggingIn → ending = .endOfInput) := by
  have hmid : ((reopen m hostname log now).play width typed).dialog.Started := h.reopens.started_play clock
  have hlast : ∀ before, before <+: typed → ((reopen m hostname log now).play width before).dialog.stage.InSession →
      ((reopen m hostname log now).play width (typed ++ [.endOfInput])).dialog.Serves := fun before hb hs =>
    play_keeps Dialog.Serves.next (hb.trans (List.prefix_append ..)) ((h.reopens.started_play clock).serving hs)
  rw [play_concat] at hlast ⊢
  generalize ((reopen m hostname log now).play width typed).dialog = d at hmid hlast ⊢
  cases hmid with
  | userName left | password left =>
    exact ⟨_, .endOfInput, rfl, .endOfInput left, fun before hb hs => (hlast before hb hs).leaves.1, False.elim, fun _ => rfl⟩
  | closed leaves => exact ⟨_, _, rfl, leaves, fun before hb hs => (hlast before hb hs).leaves.1, False.elim, False.elim⟩
  | serves serves =>
    cases serves with
    | closed down how => exact ⟨_, _, rfl, (Dialog.Serves.closed down how).leaves.2, fun _ _ _ => down, False.elim, False.elim⟩
    | command up awaits =>
      obtain ⟨s', hdown, hend⟩ := (Dialog.Serves.command up awaits).endOfInput trivial
      exact ⟨s', .regular, hend, .regular hdown, fun _ _ _ => hdown, fun _ => rfl, False.elim⟩
    | answer up awaits =>
      obtain ⟨s', hdown, hend⟩ := (Dialog.Serves.answer up awaits).endOfInput trivial
      exact ⟨s', .regular, hend, .regular hdown, fun _ _ _ => hdown, fun _ => rfl, False.elim⟩

/-- A system that has never been started. -/
def unopened : Machine := create (.memory []) "aurora" {} { stem := "n" } { seconds := 0 }

/-- Root logs in and types a line, whose number cannot be read, and gives up another one. -/
def visit : List Input := [.line "root", .line "admin", .line "head -n ²", .interrupt]

theorem ends_with_input_root : LeftBehind unopened ∧ Time.Stamp.Proper { seconds := 0 } ∧
    ∃ s ending, ((reopen unopened "aurora" {} { seconds := 0 }).play 80 (visit ++ [.endOfInput])).dialog = ⟨s, .over ending, none⟩ ∧
      Leaves s ending ∧
      (∀ before, before <+: visit → ((reopen unopened "aurora" {} { seconds := 0 }).play 80 before).dialog.stage.InSession → s.Down) ∧
      (((reopen unopened "aurora" {} { seconds := 0 }).play 80 visit).dialog.stage.InSession → ending = .regular) ∧
      (((reopen unopened "aurora" {} { seconds := 0 }).play 80 visit).dialog.stage.LoggingIn → ending = .endOfInput) :=
  have hleft : LeftBehind unopened := .first Store.empty_memory
  have hclock : Time.Stamp.Proper { seconds := 0 } := ⟨rfl, by decide, by decide⟩
  ⟨hleft, hclock, hleft.ends_with_input hclock⟩

/-- The end of input at the first login ends the console, but not regularly, and leaves the system up. -/
theorem left_up_unopened : ∃ s ending,
    ((reopen unopened "aurora" {} { seconds := 0 }).play 80 [.endOfInput]).dialog = ⟨s, .over ending, none⟩ ∧
      ending ≠ .regular ∧ s.phase = .running := by
  have hclock : Time.Stamp.Proper { seconds := 0 } := ⟨rfl, by decide, by decide⟩
  have hsound : unopened.Sound := sound_create Store.empty_memory.restores
  let m : Machine := create unopened.store "aurora" {} unopened.tree.ids { seconds := 0 }
  have hempty : Restorable (fun _ => False) m.store := .inl Store.empty_memory.get_tree
  rcases hboot : Machine.boot.run m with ⟨r, s⟩
  obtain ⟨rfl, -, hrunning, -, hnobody | ⟨_, hno, -⟩⟩ := boot_cases (sound_create hsound.restores) hclock rfl hempty hboot
  · have hstart : reopen unopened "aurora" {} { seconds := 0 } = Dialog.askName s 0 (bootText s.bootLog ++ "\n") := by
      unfold reopen Dialog.start
      rw [show Machine.boot.run (create unopened.store "aurora" {} unopened.tree.ids { seconds := 0 }) = (.ok ⟨⟩, s) from hboot]
      dsimp only
      rw [hnobody]
      rfl
    -- Without a name for the host there is no login, but no regular end either.
    rw [hstart]
    unfold Dialog.askName
    rcases s.hostname with e | host
    · exact ⟨s, .fault e, rfl, by rintro ⟨⟩, hrunning⟩
    · exact ⟨s, .endOfInput, rfl, by rintro ⟨⟩, hrunning⟩
  · exact hno.elim

end SimUnix.Console
