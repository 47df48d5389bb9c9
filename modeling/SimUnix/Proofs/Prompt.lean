/-
The channel of questions, whoever asks on it and whatever the host does, the askers going on after every act as far as
they can. A desk then comes to rest: either nobody waits and there is no promise in the slot, or exactly one asker waits,
and for the promise that is in the slot. So a question that is taken up gets the first answer after it, or is given up
before that, and no answer goes to anybody else.
-/
import SimUnix.Prompt
import Mathlib.Data.List.Basic

namespace SimUnix.Prompt

variable {d : Desk} {i j p : Nat} {outcome : Promise} {ended asker : Asker} {promises : List Promise} {fate : Fate} {value : String}

/-! ## Askers -/

/-- Nobody goes on who is through. -/
theorem Asker.ready_of_fate (h : asker.fate ≠ .waiting) : asker.ready promises = false := by
  cases asker with
  | calling | awaiting => exact absurd rfl h
  | answered | cancelled | refused => rfl

/-- Whoever has been promised something is through once the promise is settled. -/
theorem Promise.fate_ending (h : outcome.ending? = some ended) : ended.fate ≠ .waiting := by
  cases outcome with
  | pending => cases h
  | kept | broken =>
    cases h
    exact nofun

theorem Promise.ending_kept : (kept value).ending? = some (.answered value) := rfl

theorem Promise.ending_broken : broken.ending? = some .cancelled := rfl

namespace Desk

/-! ## Rest -/

/-- Nobody waits, and the host has nothing to deal with. -/
structure Idle (d : Desk) : Prop where
  slot : d.slot? = none
  told : d.requested = false
  through : ∀ asker ∈ d.askers, asker.fate ≠ .waiting

/-- One asker waits and nobody else, for the promise of a number, which the host has been told of and can settle. -/
structure Busy (d : Desk) (i p : Nat) : Prop where
  slot : d.slot? = some p
  told : d.requested = true
  pending : d.promises[p]? = some .pending
  waits : d.askers[i]? = some (.awaiting p)
  through : ∀ {j asker}, d.askers[j]? = some asker → j ≠ i → asker.fate ≠ .waiting

/-- A desk at which the askers have gone on as far as they can. -/
def AtRest (d : Desk) : Prop := d.Idle ∨ ∃ i p, d.Busy i p

theorem Idle.ready?_eq (h : d.Idle) : d.ready? = none :=
  List.findIdx?_eq_none_iff.2 fun asker hmem => asker.ready_of_fate (h.through asker hmem)

theorem Busy.ready?_eq (h : d.Busy i p) : d.ready? = none := by
  apply List.findIdx?_eq_none_iff.2
  intro asker hmem
  obtain ⟨j, hj⟩ := List.mem_iff_getElem?.1 hmem
  by_cases hji : j = i
  · subst hji
    rw [h.waits] at hj
    cases hj
    simp [Asker.ready, h.pending, Promise.ending?]
  · exact asker.ready_of_fate (h.through hj hji)

theorem Idle.pending?_eq (h : d.Idle) : d.pending? = none := by simp [pending?, h.slot]

theorem Busy.pending?_eq (h : d.Busy i p) : d.pending? = some p := by simp [pending?, h.slot, h.pending]

/-! ## Coming to rest -/

theorem settle_of_rest (h : d.ready? = none) : d.settle = d := by
  unfold settle
  cases 2 * d.askers.length with
  | zero => rfl
  | succ n => simp only [turns, h]

/-- If nobody goes on after one turn, then that turn was all there was to do. -/
theorem settle_of_turn (hready : d.ready? = some i) (hrest : (d.turn i).ready? = none) : d.settle = d.turn i := by
  obtain ⟨hlt, -⟩ := List.findIdx?_eq_some_iff_getElem.1 hready
  -- There is somebody, so that the turns do not run out before it is seen that everybody rests.
  obtain ⟨n, hn⟩ : ∃ n, 2 * d.askers.length = n + 2 := ⟨2 * d.askers.length - 2, by omega⟩
  unfold settle
  rw [hn]
  simp only [turns, hready, hrest]

/-- Of a new asker it is the only turn where all others rest. -/
theorem ask_of_turn {message : String} {kind : PromptKind} (hd : d.ready? = none)
    (hrest : (turn { d with askers := d.askers ++ [.calling message kind] } d.askers.length).ready? = none) :
    d.ask message kind = turn { d with askers := d.askers ++ [.calling message kind] } d.askers.length := by
  apply settle_of_turn _ hrest
  have hothers : d.askers.findIdx? (·.ready d.promises) = none := hd
  rw [ready?, List.findIdx?_append, hothers]
  simp [Asker.ready]

/-- Where nobody waits a question is taken up. -/
theorem Idle.ask_eq (h : d.Idle) (message : String) (kind : PromptKind) : d.ask message kind = {
    promises := d.promises ++ [.pending], slot? := some d.promises.length, requested := true, message, kind
    askers := d.askers ++ [.awaiting d.promises.length] } ∧
    (d.ask message kind).Busy d.askers.length d.promises.length := by
  have hturn : turn { d with askers := d.askers ++ [.calling message kind] } d.askers.length = {
      promises := d.promises ++ [.pending], slot? := some d.promises.length, requested := true, message, kind
      askers := d.askers ++ [.awaiting d.promises.length] } := by
    simp [turn, Desk.prompt, pending?, Prompt.request, h.slot]
  have hbusy : Busy {
      promises := d.promises ++ [.pending], slot? := some d.promises.length, requested := true, message, kind
      askers := d.askers ++ [.awaiting d.promises.length] } d.askers.length d.promises.length := by
    refine ⟨rfl, rfl, by simp, by simp, fun {j asker} hj hne => ?_⟩
    have hlt : j < d.askers.length := by
      have hlength := (List.getElem?_eq_some_iff.1 hj).1
      simp only [List.length_append, List.length_singleton] at hlength
      omega
    rw [List.getElem?_append_left hlt] at hj
    exact h.through asker (List.mem_of_getElem? hj)
  have hask := ask_of_turn h.ready?_eq (hturn ▸ hbusy.ready?_eq)
  rw [hask, hturn]
  exact ⟨rfl, hbusy⟩

/-- Where somebody waits a question is refused, and nothing else happens. -/
theorem Busy.ask_eq (h : d.Busy i p) (message : String) (kind : PromptKind) :
    d.ask message kind = { d with askers := d.askers ++ [.refused (.misuse .promptPending)] } ∧ (d.ask message kind).Busy i p := by
  have hturn : turn { d with askers := d.askers ++ [.calling message kind] } d.askers.length =
      { d with askers := d.askers ++ [.refused (.misuse .promptPending)] } := by
    simp [turn, Desk.prompt, pending?, Prompt.request, h.slot, h.pending]
  have hi : i < d.askers.length := (List.getElem?_eq_some_iff.1 h.waits).1
  have hbusy : Busy { d with askers := d.askers ++ [.refused (.misuse .promptPending)] } i p := by
    refine ⟨h.slot, h.told, h.pending, (List.getElem?_append_left hi).trans h.waits, fun {j asker} hj hne => ?_⟩
    rcases Nat.lt_or_ge j d.askers.length with hlt | hge
    · rw [List.getElem?_append_left hlt] at hj
      exact h.through hj hne
    · rw [List.getElem?_append_right hge] at hj
      cases List.mem_singleton.1 (List.mem_of_getElem? hj)
      exact nofun
  have hask := ask_of_turn h.ready?_eq (hturn ▸ hbusy.ready?_eq)
  rw [hask, hturn]
  exact ⟨rfl, hbusy⟩

theorem Idle.finish_eq (h : d.Idle) : d.finish outcome = (false, d) := by
  simp [finish, h.pending?_eq, settle_of_rest h.ready?_eq]

/-- What the host decides ends the one question that waits. -/
theorem Busy.finish_eq (h : d.Busy i p) (hended : outcome.ending? = some ended) :
    d.finish outcome = (true, { d with
      promises := d.promises.set p outcome, slot? := none, requested := false, askers := d.askers.set i ended }) ∧
    (d.finish outcome).2.Idle := by
  have hp : p < d.promises.length := (List.getElem?_eq_some_iff.1 h.pending).1
  have hturn : turn { d with promises := d.promises.set p outcome, requested := false } i = { d with
      promises := d.promises.set p outcome, slot? := none, requested := false, askers := d.askers.set i ended } := by
    simp [turn, h.waits, List.getElem?_set_self hp, hended]
  have hidle : Idle { d with
      promises := d.promises.set p outcome, slot? := none, requested := false, askers := d.askers.set i ended } := by
    refine ⟨rfl, rfl, fun asker hmem => ?_⟩
    obtain ⟨j, hj⟩ := List.mem_iff_getElem?.1 hmem
    by_cases hji : j = i
    · subst hji
      rw [List.getElem?_set_self (List.getElem?_eq_some_iff.1 h.waits).1] at hj
      cases hj
      exact Promise.fate_ending hended
    · rw [List.getElem?_set_ne (Ne.symm hji)] at hj
      exact h.through hj hji
  -- It is no other asker whom the settled promise wakes.
  have hready : ready? { d with promises := d.promises.set p outcome, requested := false } = some i := by
    obtain ⟨hi, hwaits⟩ := List.getElem?_eq_some_iff.1 h.waits
    apply List.findIdx?_eq_some_iff_getElem.2
    refine ⟨hi, ?_, fun j hj => ?_⟩
    · simp [hwaits, Asker.ready, List.getElem?_set_self hp, hended]
    · have hthrough := h.through (List.getElem?_eq_getElem (Nat.lt_trans hj hi)) (Nat.ne_of_lt hj)
      simp [Asker.ready_of_fate hthrough]
  have hsettle := settle_of_turn hready (hturn ▸ hidle.ready?_eq)
  simp only [finish, h.pending?_eq, hsettle, hturn]
  exact ⟨trivial, hidle⟩

/-! ## Fates -/

theorem getElem?_fates : d.fates[j]? = some fate ↔ ∃ asker, d.askers[j]? = some asker ∧ asker.fate = fate := by
  unfold fates
  rw [List.getElem?_map, Option.map_eq_some_iff]

theorem Idle.waiting_not_mem (h : d.Idle) : .waiting ∉ d.fates := by
  intro hmem
  obtain ⟨asker, hasker, hfate⟩ := List.mem_map.1 hmem
  exact h.through asker hasker hfate

theorem Busy.waiting_iff (h : d.Busy i p) : d.fates[j]? = some .waiting ↔ j = i := by
  rw [getElem?_fates]
  constructor
  · rintro ⟨asker, hasker, hfate⟩
    by_contra hne
    exact h.through hasker hne hfate
  · rintro rfl
    exact ⟨_, h.waits, rfl⟩

theorem Busy.waiting_mem (h : d.Busy i p) : .waiting ∈ d.fates := List.mem_of_getElem? (h.waiting_iff.2 rfl)

/-- What the host decides is the fate of whoever waits, and of nobody else. -/
theorem AtRest.fates_finish (h : d.AtRest) (hended : outcome.ending? = some ended) :
    (d.finish outcome).2.fates = d.fates.map fun fate => if fate = .waiting then ended.fate else fate := by
  rcases h with h | ⟨i, p, h⟩
  · rw [h.finish_eq]
    have hsame : ∀ fate ∈ d.fates, (if fate = .waiting then ended.fate else fate) = id fate := by
      intro fate hmem
      apply if_neg
      rintro rfl
      exact h.waiting_not_mem hmem
    rw [List.map_congr_left hsame, List.map_id]
  · have hset : (d.finish outcome).2.fates = d.fates.set i ended.fate := by
      rw [(h.finish_eq hended).1]
      exact List.map_set
    rw [hset]
    apply List.ext_getElem?
    intro j
    by_cases hji : j = i
    · subst hji
      have hfate := h.waiting_iff.2 (rfl : j = j)
      rw [List.getElem?_set_self (List.getElem?_eq_some_iff.1 hfate).1, List.getElem?_map, hfate]
      simp
    · rw [List.getElem?_set_ne (Ne.symm hji), List.getElem?_map]
      cases hfate : d.fates[j]? with
      | none => rfl
      | some fate =>
        have hne : fate ≠ .waiting := by
          rintro rfl
          exact hji (h.waiting_iff.1 hfate)
        simp [hne]

theorem Idle.fates_ask (h : d.Idle) (message : String) (kind : PromptKind) : (d.ask message kind).fates = d.fates ++ [.waiting] := by
  rw [(h.ask_eq message kind).1]
  exact List.map_append

theorem Busy.fates_ask (h : d.Busy i p) (message : String) (kind : PromptKind) :
    (d.ask message kind).fates = d.fates ++ [.refused (.misuse .promptPending)] := by
  rw [(h.ask_eq message kind).1]
  exact List.map_append

/-! ## Acts -/

/-- What is done at a desk: someone asks, or the host answers or gives up. -/
inductive Act where
  | ask (message : String) (kind : PromptKind)
  | answer (value : String)
  | cancel
  deriving DecidableEq

/-- The desk after an act. -/
def after (d : Desk) : Act → Desk
  | .ask message kind => d.ask message kind
  | .answer value => (d.answer value).2
  | .cancel => d.cancel.2

/-- The desk after some acts, the askers going on as far as they can after each. -/
def play (d : Desk) (acts : List Act) : Desk := acts.foldl after d

/-- What becomes of a question that has been taken up, from what is done then: the first answer is its answer, unless
the host gives up before. -/
def verdict : List Act → Fate
  | [] => .waiting
  | .ask _ _ :: rest => verdict rest
  | .answer value :: _ => .answered value
  | .cancel :: _ => .cancelled

theorem AtRest.ask (h : d.AtRest) (message : String) (kind : PromptKind) : (d.ask message kind).AtRest := by
  rcases h with h | ⟨i, p, h⟩
  · exact .inr ⟨_, _, (h.ask_eq message kind).2⟩
  · exact .inr ⟨_, _, (h.ask_eq message kind).2⟩

theorem AtRest.finish (h : d.AtRest) (hended : outcome.ending? = some ended) : (d.finish outcome).2.Idle := by
  rcases h with h | ⟨i, p, h⟩
  · rw [h.finish_eq]
    exact h
  · exact (h.finish_eq hended).2

theorem AtRest.after (h : d.AtRest) (act : Act) : (d.after act).AtRest := by
  cases act with
  | ask message kind => exact h.ask message kind
  | answer value => exact .inl (h.finish Promise.ending_kept)
  | cancel => exact .inl (h.finish Promise.ending_broken)

/-- However long it is gone on with, the desk comes to rest after every act. -/
theorem AtRest.play (h : d.AtRest) (acts : List Act) : (d.play acts).AtRest := by
  induction acts generalizing d with
  | nil => exact h
  | cons act rest ih => exact ih (h.after act)

theorem atRest_new : AtRest {} := .inl ⟨rfl, rfl, nofun⟩

/-- A fate stays what it is. -/
theorem AtRest.fate_after (h : d.AtRest) (act : Act) (hfate : d.fates[j]? = some fate) (hne : fate ≠ .waiting) :
    (d.after act).fates[j]? = some fate := by
  have hdecided : ∀ {outcome ended}, outcome.ending? = some ended → (d.finish outcome).2.fates[j]? = some fate := by
    intro outcome ended hended
    rw [h.fates_finish hended, List.getElem?_map, hfate, Option.map_some, if_neg hne]
  cases act with
  | ask message kind =>
    have hlt := (List.getElem?_eq_some_iff.1 hfate).1
    show (d.ask message kind).fates[j]? = some fate
    rcases h with h | ⟨i, p, h⟩
    · rw [h.fates_ask, List.getElem?_append_left hlt, hfate]
    · rw [h.fates_ask, List.getElem?_append_left hlt, hfate]
  | answer value => exact hdecided Promise.ending_kept
  | cancel => exact hdecided Promise.ending_broken

theorem AtRest.fate_play (h : d.AtRest) (hfate : d.fates[j]? = some fate) (hne : fate ≠ .waiting) (acts : List Act) :
    (d.play acts).fates[j]? = some fate := by
  induction acts generalizing d with
  | nil => exact hfate
  | cons act rest ih => exact ih (h.after act) (h.fate_after act hfate hne)

theorem Busy.fate_finish (h : d.Busy i p) (hended : outcome.ending? = some ended) (acts : List Act) :
    ((d.finish outcome).2.play acts).fates[i]? = some ended.fate := by
  apply AtRest.fate_play (.inl (h.finish_eq hended).2) _ (Promise.fate_ending hended)
  rw [AtRest.fates_finish (.inr ⟨i, p, h⟩) hended, List.getElem?_map, h.waiting_iff.2 rfl]
  rfl

/-- The asker who waits gets what is made of the question by the first answer, or by giving up. -/
theorem Busy.fate_play (h : d.Busy i p) (acts : List Act) : (d.play acts).fates[i]? = some (verdict acts) := by
  induction acts generalizing d with
  | nil => exact h.waiting_iff.2 rfl
  | cons act rest ih =>
    cases act with
    | ask message kind => exact ih (h.ask_eq message kind).2
    | answer value => exact h.fate_finish Promise.ending_kept rest
    | cancel => exact h.fate_finish Promise.ending_broken rest

/-- What a channel owes to those who ask on it and to its host. Nobody can go on, and the host has been told of
a question exactly if one waits. At most one does. One that is asked while none waits is taken up, with its message and kind,
and its fate is decided by the first answer or cancellation after it. One that is asked while another waits is refused, and
nothing but its asker is added. The host learns whether a question waits, and what it decides is the fate of the question
that waits and of no other. A fate that is decided stays. -/
structure Faithful (d : Desk) : Prop where
  rest : d.ready? = none
  told : d.requested = true ↔ .waiting ∈ d.fates
  one : ∀ {i j : Nat}, d.fates[i]? = some .waiting → d.fates[j]? = some .waiting → i = j
  taken : .waiting ∉ d.fates → ∀ message kind,
    (d.ask message kind).prompt = { active := true, message, kind } ∧ (d.ask message kind).fates = d.fates ++ [.waiting] ∧
      ∀ acts, ((d.ask message kind).play acts).fates[d.fates.length]? = some (verdict acts)
  refused : .waiting ∈ d.fates → ∀ message kind,
    d.ask message kind = { d with askers := d.askers ++ [.refused (.misuse .promptPending)] }
  answered : ∀ value, ((d.answer value).1 = true ↔ .waiting ∈ d.fates) ∧
    (d.answer value).2.fates = d.fates.map fun fate => if fate = .waiting then .answered value else fate
  cancelled : (d.cancel.1 = true ↔ .waiting ∈ d.fates) ∧
    d.cancel.2.fates = d.fates.map fun fate => if fate = .waiting then .cancelled else fate
  decided : ∀ {i : Nat} {fate : Fate}, d.fates[i]? = some fate → fate ≠ .waiting → ∀ acts, (d.play acts).fates[i]? = some fate

/-- The host is told the truth. -/
theorem AtRest.finish_iff (h : d.AtRest) (hended : outcome.ending? = some ended) : (d.finish outcome).1 = true ↔ .waiting ∈ d.fates := by
  rcases h with h | ⟨i, p, h⟩
  · rw [h.finish_eq]
    exact iff_of_false nofun h.waiting_not_mem
  · rw [(h.finish_eq hended).1]
    exact iff_of_true rfl h.waiting_mem

theorem AtRest.idle_of_not_mem (h : d.AtRest) (hnone : .waiting ∉ d.fates) : d.Idle := by
  rcases h with h | ⟨i, p, h⟩
  · exact h
  · exact absurd h.waiting_mem hnone

theorem AtRest.busy_of_mem (h : d.AtRest) (hsome : .waiting ∈ d.fates) : ∃ i p, d.Busy i p := by
  rcases h with h | h
  · exact absurd hsome h.waiting_not_mem
  · exact h

/-- Whatever is done on a new channel, it keeps its promises. -/
theorem play_faithful (acts : List Act) : Faithful (play {} acts) := by
  have h := atRest_new.play acts
  constructor
  case rest =>
    rcases h with h | ⟨i, p, h⟩
    · exact h.ready?_eq
    · exact h.ready?_eq
  case told =>
    rcases h with h | ⟨i, p, h⟩
    · exact iff_of_false (by simp [h.told]) h.waiting_not_mem
    · exact iff_of_true h.told h.waiting_mem
  case one =>
    intro i j hi hj
    obtain ⟨k, p, hbusy⟩ := h.busy_of_mem (List.mem_of_getElem? hi)
    rw [hbusy.waiting_iff.1 hi, hbusy.waiting_iff.1 hj]
  case taken =>
    intro hnone message kind
    have hidle := h.idle_of_not_mem hnone
    have hlength : (play {} acts).fates.length = (play {} acts).askers.length := List.length_map _
    obtain ⟨hask, hbusy⟩ := hidle.ask_eq message kind
    refine ⟨?_, hidle.fates_ask message kind, ?_⟩
    · rw [Desk.prompt, hbusy.pending?_eq, hask]
      rfl
    · rw [hlength]
      exact hbusy.fate_play
  case refused =>
    intro hsome message kind
    obtain ⟨i, p, hbusy⟩ := h.busy_of_mem hsome
    exact (hbusy.ask_eq message kind).1
  case answered =>
    intro value
    exact ⟨h.finish_iff Promise.ending_kept, h.fates_finish Promise.ending_kept⟩
  case cancelled =>
    exact ⟨h.finish_iff Promise.ending_broken, h.fates_finish Promise.ending_broken⟩
  case decided =>
    intro i fate hfate hne
    exact h.fate_play hfate hne

example : (play {} [.ask "Password:" .password, .ask "Sure?" .text, .answer "1234", .cancel]).fates =
    [.answered "1234", .refused (.misuse .promptPending)] := by decide

end Desk

end SimUnix.Prompt
