/-
What becomes of the lines that are typed. A history that changes writes both records of its user as it has them
itself, whatever another history of the same user has written in the meantime. While a user types on one terminal
alone, every line is kept. Of several terminals on which a user types, the one that has written last has its lines
in the store, and what was typed on the others since they were opened is in none of them.
-/
import SimUnix.Proofs.Store.Agreement
import SimUnix.Proofs.Terminal.Beside

namespace SimUnix

/-! ## Keys of users -/

namespace Store

variable {a b store : Store} {key other user : String} {v : Json}

/-- A safe letter of a key stands in the name of its file, too. -/
theorem fileName_at {i : Nat} {c : Char} (h : key.toList[i]? = some c) (hc : isSafe c = true) : (fileName key).toList[i]? = some c := by
  have hlen : i < key.toList.length := (List.getElem?_eq_some_iff.1 h).1
  rw [toList_fileName, List.getElem?_append_left (by rwa [List.length_map]), List.getElem?_map, h]
  exact congrArg some (if_pos hc)

/-- Keys with different letters at one place do not get in each other's way. -/
theorem Clear.of_letter {i : Nat} {c d : Char} (h : key.toList[i]? = some c) (h' : other.toList[i]? = some d)
    (hc : isSafe c = true) (hd : isSafe d = true) (hne : c ≠ d) : Clear key other := by
  refine ⟨fun he => ?_, fun he => ?_, fileName_ne_draftName⟩
  · rw [he, h'] at h
    exact hne (Option.some.inj h).symm
  · have hfile := fileName_at h hc
    rw [he, fileName_at h' hd] at hfile
    exact hne (Option.some.inj hfile).symm

theorem historyKey_at : (historyKey user).toList[12]? = some 'h' := by simp [historyKey, keyLead]

theorem inputKey_at : (inputKey user).toList[12]? = some 'i' := by simp [inputKey, keyLead]

theorem isOwn_of_lead {rest : String} : IsOwn (keyLead ++ rest) := by
  unfold IsOwn Text.startsWith
  rw [List.isPrefixOf_iff_prefix, String.toList_append]
  exact List.prefix_append ..

theorem isOwn_historyKey : IsOwn (historyKey user) := by
  unfold historyKey
  rw [String.append_assoc]
  exact isOwn_of_lead

theorem isOwn_inputKey : IsOwn (inputKey user) := by
  unfold inputKey
  rw [String.append_assoc]
  exact isOwn_of_lead

theorem clear_history_input {u v : String} : Clear (historyKey u) (inputKey v) :=
  .of_letter historyKey_at inputKey_at (by decide) (by decide) (by decide)

theorem clear_input_history {u v : String} : Clear (inputKey u) (historyKey v) :=
  .of_letter inputKey_at historyKey_at (by decide) (by decide) (by decide)

theorem clear_historyKeys {u v : String} (h : safeKey u ≠ safeKey v) : Clear (historyKey u) (historyKey v) :=
  ⟨fun he => h (fileName_historyKey_iff.1 (congrArg fileName he)), fun he => h (fileName_historyKey_iff.1 he), fileName_ne_draftName⟩

theorem clear_inputKeys {u v : String} (h : safeKey u ≠ safeKey v) : Clear (inputKey u) (inputKey v) :=
  ⟨fun he => h (fileName_inputKey_iff.1 (congrArg fileName he)), fun he => h (fileName_inputKey_iff.1 he), fileName_ne_draftName⟩

/-! ## Writing -/

theorem write_eq (h : a.write key v = .ok b) : a.takesName (draftName key) = true ∧ b = a.set key v := by
  unfold Store.write at h
  split at h
  · rename_i htakes
    cases h
    exact ⟨htakes, rfl⟩
  · cases h

/-- What could be written is read back. -/
theorem get_write (h : a.write key v = .ok b) (hfits : v.Fits Json.maxDepth) : b.get key = .ok (some (b.echo v)) := by
  obtain ⟨htakes, rfl⟩ := write_eq h
  rw [echo_set]
  cases a with
  | memory records => exact get_set_memory
  | files d =>
    have hshort : (draftName key).length ≤ maxNameLength := of_decide_eq_true htakes
    exact get_set (Nat.le_trans length_fileName_le hshort) hfits

/-- A key under which one of a user's records is listed. -/
def KeptFor (user key : String) : Prop := fileName key = fileName (historyKey user) ∨ fileName key = fileName (inputKey user)

/-- What a record of a terminal adds to the keys that are listed. -/
theorem listed_set (hne : other ≠ "") (h : key ∈ (store.set other v).keys) : fileName key = fileName other ∨ key ∈ store.keys := by
  rcases mem_keys_of_set hne h with (rfl | rfl) | hold
  · exact .inl rfl
  · exact .inl fileName_safeKey
  · exact .inr hold

/-- At most the records of one user have been written. -/
structure WritesOf (user : String) (a b : Store) : Prop where
  echo : b.echo = a.echo
  get : ∀ {key}, Clear key (historyKey user) → Clear key (inputKey user) → b.get key = a.get key
  keys : ∀ {key}, key ∈ b.keys → KeptFor user key ∨ key ∈ a.keys

theorem WritesOf.refl : WritesOf user store store := ⟨rfl, fun _ _ => rfl, .inr⟩

theorem writesOf_history (h : a.write (historyKey user) v = .ok b) : WritesOf user a b := by
  obtain ⟨-, rfl⟩ := write_eq h
  exact ⟨echo_set, fun hclear _ => get_set_other hclear, fun hkey => (listed_set isOwn_historyKey.ne_empty hkey).imp_left .inl⟩

theorem WritesOf.input {c : Store} (h : WritesOf user a b) (hw : b.write (inputKey user) v = .ok c) : WritesOf user a c := by
  obtain ⟨-, rfl⟩ := write_eq hw
  refine ⟨echo_set.trans h.echo, fun hhistory hinput => (get_set_other hinput).trans (h.get hhistory hinput), fun hkey => ?_⟩
  rcases listed_set isOwn_inputKey.ne_empty hkey with hkey | hkey
  · exact .inl (.inr hkey)
  · exact h.keys hkey

end Store

namespace History

open Store

variable {h h' g : History} {a b : Store} {user : String}

/-! ## Histories that a store shows -/

/-- Both records of the user are as the history has them, as far as a store can give them back. -/
structure ShownIn (h : History) (store : Store) : Prop where
  lines : (Json.arr h.commands).Fits Json.maxDepth → store.get (inputKey h.user) = .ok (some (store.echo (.arr h.commands)))
  blocks : ∃ v, h.blocksJson = .ok v ∧ (v.Fits Json.maxDepth → store.get (historyKey h.user) = .ok (some (store.echo v)))

theorem ShownIn.congr (hs : h.ShownIn a) (huser : g.user = h.user) (hcommands : g.commands = h.commands)
    (hblocks : g.blocks = h.blocks) : g.ShownIn a := by
  obtain ⟨hlines, v, hv, hget⟩ := hs
  have hv' : g.blocksJson = .ok v := by
    unfold blocksJson at hv ⊢
    rwa [hblocks]
  refine ⟨?_, v, hv', ?_⟩
  · rwa [huser, hcommands]
  · rwa [huser]

/-- Lines that are texts are read back as they are. -/
theorem ShownIn.texts (hs : h.ShownIn a) (htexts : ∀ c ∈ h.commands, ∃ t, c = .str t) :
    a.get (inputKey h.user) = .ok (some (.arr h.commands)) := by
  have hfits : (Json.arr h.commands).Fits Json.maxDepth := by
    unfold Json.maxDepth Json.Fits
    intro c hc
    obtain ⟨t, rfl⟩ := htexts c hc
    exact trivial
  have hecho : a.echo (.arr h.commands) = .arr h.commands := by
    rw [a.echoes_echo.arr]
    refine congrArg Json.arr ((List.map_congr_left fun c hc => ?_).trans (List.map_id _))
    obtain ⟨t, rfl⟩ := htexts c hc
    exact a.echoes_echo.str t
  rw [hs.lines hfits, hecho]

/-- What is written for a user whose records are kept elsewhere does not matter. -/
theorem ShownIn.writes (hs : h.ShownIn a) (hw : WritesOf user a b) (hne : safeKey h.user ≠ safeKey user) : h.ShownIn b := by
  obtain ⟨hlines, v, hv, hget⟩ := hs
  refine ⟨fun hfits => ?_, v, hv, fun hfits => ?_⟩
  · rw [hw.echo, hw.get clear_input_history (clear_inputKeys hne)]
    exact hlines hfits
  · rw [hw.echo, hw.get (clear_historyKeys hne) clear_history_input]
    exact hget hfits

theorem run_put {key : String} {v : Json} {r : Except Fault Unit} {p : History × Store}
    (hrun : (save.put key v).run (h, a) = (r, p)) :
    p.1 = h ∧ (p.2 = a ∧ r ≠ .ok () ∨ a.write key v = .ok p.2 ∧ r = .ok ()) := by
  unfold save.put at hrun
  rw [run_bind, run_get] at hrun
  dsimp only at hrun
  split at hrun
  · cases hrun
    exact ⟨rfl, .inl ⟨rfl, fun he => by cases he⟩⟩
  · rename_i b hb
    cases hrun
    exact ⟨rfl, .inr ⟨hb, rfl⟩⟩

/-- Saving leaves the history as it is, and writes nothing but the records of its user. If it does not fail, they
are as the history has them. -/
theorem run_save {r : Except Fault Unit} {p : History × Store} (hrun : save.run (h, a) = (r, p)) :
    p.1 = h ∧ WritesOf h.user a p.2 ∧ (r = .ok () → h.ShownIn p.2) := by
  unfold save at hrun
  rw [run_bind, run_get] at hrun
  dsimp only at hrun
  split at hrun
  · cases hrun
    exact ⟨rfl, .refl, fun he => by cases he⟩
  · rename_i v hv
    rw [run_bind] at hrun
    rcases hfirst : (save.put (historyKey h.user) v).run (h, a) with ⟨x, h₁, a₁⟩
    obtain ⟨rfl, hput⟩ := run_put hfirst
    rw [hfirst] at hrun
    rcases hput with ⟨rfl, hfailed⟩ | ⟨hw, rfl⟩
    · cases x with
      | ok => exact absurd rfl hfailed
      | error e =>
        cases hrun
        exact ⟨rfl, .refl, fun he => by cases he⟩
    · have hfirst := writesOf_history hw
      obtain ⟨hsame, ⟨hstore, hfailed⟩ | ⟨hw', rfl⟩⟩ := run_put hrun
      · rw [hstore]
        exact ⟨hsame, hfirst, fun he => absurd he hfailed⟩
      · refine ⟨hsame, hfirst.input hw', fun _ => ⟨get_write hw', v, hv, fun hfits => ?_⟩⟩
        obtain ⟨-, hset⟩ := write_eq hw'
        rw [hset, get_set_other clear_history_input, echo_set]
        exact get_write hw hfits

/-! ## Notes -/

/-- What a terminal does to its history while the same user acts. -/
inductive Note where
  | line (text : String)
  | block (b : Block)
  | clear

namespace Note

/-- Takes a note. -/
def write : Note → Remember Unit
  | line text => record text
  | block b => add b
  | clear => History.clear

/-- A history after a line that has been typed. -/
def typed (h : History) (text : String) : History :=
  if Text.allBlank text then { h with cursor? := none } else withCommand text { h with cursor? := none }

/-- A history after a note. -/
def on (h : History) : Note → History
  | line text => typed h text
  | block b => { h with blocks := newest h.maxBlocks (h.blocks ++ [b]) }
  | clear => { h with blocks := [] }

/-- A note for which nothing is written. -/
def Silent : Note → Prop
  | line text => Text.allBlank text = true
  | block _ | clear => False

variable {n : Note}

@[simp] theorem on_user : (n.on h).user = h.user := by
  cases n with
  | line text =>
    show (typed h text).user = h.user
    unfold typed withCommand
    split
    · rfl
    · split <;> rfl
  | block b => rfl
  | clear => rfl

theorem Silent.on_eq (hn : n.Silent) : n.on h = { h with cursor? := none } := by
  cases n with
  | line text => exact if_pos hn
  | block b => exact hn.elim
  | clear => exact hn.elim

/-- What taking a note leaves behind. -/
structure Leaves (n : Note) (h : History) (a : Store) (r : Except Fault Unit) (h' : History) (b : Store) : Prop where
  history : h' = n.on h
  others : WritesOf h.user a b
  same : n.Silent → b = a
  shown : ¬ n.Silent → r = .ok () → h'.ShownIn b

/-- A note for which the history is saved. -/
theorem leaves_save {r : Except Fault Unit} (hloud : ¬ n.Silent) (hrun : save.run (n.on h, a) = (r, (h', b))) :
    n.Leaves h a r h' b := by
  obtain ⟨rfl, hwrites, hshown⟩ := run_save hrun
  rw [on_user] at hwrites
  exact ⟨rfl, hwrites, fun hn => absurd hn hloud, fun _ => hshown⟩

theorem run_blank {text : String} (hblank : Text.allBlank text = true) :
    (record text).run (h, a) = (.ok (), ({ h with cursor? := none }, a)) := by
  unfold record
  rw [hblank, run_bind]
  rfl

theorem run_full {text : String} (hfull : Text.allBlank text = false) :
    (record text).run (h, a) = save.run (withCommand text { h with cursor? := none }, a) := by
  unfold record
  rw [hfull, Bool.not_false, if_pos rfl]
  rfl

theorem leaves {r : Except Fault Unit} (hrun : n.write.run (h, a) = (r, (h', b))) : n.Leaves h a r h' b := by
  cases n with
  | line text =>
    rcases hblank : Text.allBlank text with _ | _
    · have hloud : ¬ Silent (.line text) := fun hn => Bool.false_ne_true (hblank.symm.trans hn)
      have hon : on h (.line text) = withCommand text { h with cursor? := none } := if_neg hloud
      exact leaves_save hloud (by rw [hon, ← run_full hblank]; exact hrun)
    · cases (run_blank hblank).symm.trans hrun
      exact ⟨(Silent.on_eq (n := .line text) hblank).symm, .refl, fun _ => rfl, fun hloud => absurd hblank hloud⟩
  | block bl => exact leaves_save (fun hn => hn) hrun
  | clear => exact leaves_save (fun hn => hn) hrun

end Note

/-! ## Lines of a history -/

/-- A history after some notes. -/
def after (h : History) (notes : List Note) : History := notes.foldl Note.on h

theorem newest_of_le {α : Type} {limit : Int} {items : List α} (h : (items.length : Int) ≤ limit) : newest limit items = items := by
  unfold newest
  split
  · rw [show items.length - limit.toNat = 0 by omega, List.drop_zero]
  · rw [show (-limit).toNat = 0 by omega, List.drop_zero]

/-- The newest item is kept. -/
theorem newest_append {α : Type} {limit : Int} {items : List α} {x : α} (h : 0 ≤ limit) :
    ∃ older, newest limit (items ++ [x]) = older ++ [x] := by
  unfold newest
  have hlen : (items ++ [x]).length = items.length + 1 := by rw [List.length_append]; rfl
  split
  · exact ⟨_, List.drop_append_of_le_length (by omega)⟩
  · exact ⟨_, List.drop_append_of_le_length (by omega)⟩

theorem mem_withCommand {line x : String} (hroom : (h.commands.length : Int) + 1 ≤ h.maxCommands) :
    .str x ∈ (withCommand line h).commands ↔ .str x ∈ h.commands ∨ x = line := by
  unfold withCommand
  split
  · rename_i hlast
    refine ⟨.inl, fun hx => hx.elim id ?_⟩
    rintro rfl
    exact List.mem_of_getLast? hlast
  · have hall : newest h.maxCommands (h.commands ++ [.str line]) = h.commands ++ [.str line] :=
      newest_of_le (by rw [List.length_append]; exact hroom)
    dsimp only
    rw [hall, List.mem_append, List.mem_singleton, Json.str.injEq]

theorem mem_newest {α : Type} {limit : Int} {items : List α} {x : α} (hx : x ∈ newest limit items) : x ∈ items := by
  unfold newest at hx
  split at hx <;> exact List.mem_of_mem_drop hx

theorem length_newest_le {α : Type} {limit : Int} {items : List α} : (newest limit items).length ≤ items.length := by
  unfold newest
  split <;> rw [List.length_drop] <;> omega

/-- A note adds at most one line, and leaves room for as many lines. -/
theorem Note.on_room {n : Note} : (n.on h).maxCommands = h.maxCommands ∧ (n.on h).commands.length ≤ h.commands.length + 1 := by
  cases n with
  | line text =>
    show (typed h text).maxCommands = _ ∧ (typed h text).commands.length ≤ _
    unfold typed withCommand
    split
    · exact ⟨rfl, Nat.le_succ _⟩
    · split
      · exact ⟨rfl, Nat.le_succ _⟩
      · exact ⟨rfl, Nat.le_trans length_newest_le (by rw [List.length_append]; rfl)⟩
  | block b => exact ⟨rfl, Nat.le_succ _⟩
  | clear => exact ⟨rfl, Nat.le_succ _⟩

theorem Note.mem_on {n : Note} {x : String} (hroom : (h.commands.length : Int) + 1 ≤ h.maxCommands) :
    .str x ∈ (n.on h).commands ↔ .str x ∈ h.commands ∨ n = .line x ∧ Text.allBlank x = false := by
  cases n with
  | line text =>
    show .str x ∈ (typed h text).commands ↔ _
    unfold typed
    split
    · rename_i hblank
      refine ⟨.inl, fun hx => hx.elim id ?_⟩
      rintro ⟨hline, hfull⟩
      cases hline
      rw [hblank] at hfull
      cases hfull
    · rename_i hfull
      rw [mem_withCommand (show ((History.commands { h with cursor? := none }).length : Int) + 1 ≤ _ from hroom)]
      refine or_congr_right ⟨?_, ?_⟩
      · rintro rfl
        exact ⟨rfl, Bool.eq_false_iff.2 hfull⟩
      · rintro ⟨hline, -⟩
        cases hline
        rfl
  | block b => exact ⟨.inl, fun hx => hx.elim id fun hn => by cases hn.1⟩
  | clear => exact ⟨.inl, fun hx => hx.elim id fun hn => by cases hn.1⟩

/-- As long as there is room, the lines of a history are those that it was loaded with and those that were typed. -/
theorem mem_after {notes : List Note} {x : String} (hroom : (h.commands.length : Int) + notes.length ≤ h.maxCommands) :
    .str x ∈ (h.after notes).commands ↔ .str x ∈ h.commands ∨ .line x ∈ notes ∧ Text.allBlank x = false := by
  induction notes generalizing h with
  | nil => exact ⟨.inl, fun hx => hx.elim id fun hn => by cases hn.1⟩
  | cons n notes ih =>
    rw [List.length_cons] at hroom
    obtain ⟨hmax, hlen⟩ := Note.on_room (n := n) (h := h)
    have hrest : .str x ∈ ((n.on h).after notes).commands ↔ _ := ih (h := n.on h) (by rw [hmax]; omega)
    show .str x ∈ ((n.on h).after notes).commands ↔ _
    rw [hrest, Note.mem_on (by omega), List.mem_cons, or_assoc, eq_comm (a := n), or_and_right]

/-! ## Several histories -/

/-- Notes taken in several histories that are kept in one store, each in the one at its number, one after the other. -/
inductive Taken (hs : List History) (a : Store) : List (Nat × Note) → List History → Store → Prop
  | none : Taken hs a [] hs a
  | next {notes : List (Nat × Note)} {hs' : List History} {b c : Store} {i : Nat} {n : Note} {h h' : History}
      (before : Taken hs a notes hs' b) (there : hs'[i]? = some h) (run : n.write.run (h, b) = (.ok (), (h', c))) :
      Taken hs a (notes ++ [(i, n)]) (hs'.set i h') c

/-- The notes that were taken in one of the histories. -/
def notesOf (i : Nat) (notes : List (Nat × Note)) : List Note := (notes.filter (·.1 = i)).map (·.2)

theorem notesOf_append {i : Nat} {xs ys : List (Nat × Note)} : notesOf i (xs ++ ys) = notesOf i xs ++ notesOf i ys := by
  unfold notesOf
  rw [List.filter_append, List.map_append]

theorem notesOf_next {i : Nat} {n : Note} {notes : List (Nat × Note)} : notesOf i (notes ++ [(i, n)]) = notesOf i notes ++ [n] := by
  rw [notesOf_append]
  simp [notesOf]

theorem notesOf_other {i j : Nat} {n : Note} {notes : List (Nat × Note)} (hj : j ≠ i) :
    notesOf i (notes ++ [(j, n)]) = notesOf i notes := by
  rw [notesOf_append]
  simp [notesOf, hj]

theorem mem_notesOf {i : Nat} {n : Note} {notes : List (Nat × Note)} : n ∈ notesOf i notes ↔ (i, n) ∈ notes := by
  unfold notesOf
  simp

theorem after_append {xs ys : List Note} : h.after (xs ++ ys) = (h.after xs).after ys := List.foldl_append

theorem after_user {notes : List Note} : (h.after notes).user = h.user := by
  induction notes generalizing h with
  | nil => rfl
  | cons n notes ih => exact ih.trans Note.on_user

variable {hs hs' : List History} {notes : List (Nat × Note)} {i : Nat}

/-- A history changes by its own notes only. -/
theorem Taken.own (ht : Taken hs a notes hs' b) (there : hs[i]? = some h) : hs'[i]? = some (h.after (notesOf i notes)) := by
  induction ht with
  | none => exact there
  | @next notes hs' b c j n g g' _ hat run ih =>
    have hg' := (Note.leaves run).history
    by_cases hj : j = i
    · subst hj
      have hg : g = h.after (notesOf j notes) := Option.some.inj (hat.symm.trans ih)
      rw [notesOf_next, after_append, List.getElem?_set_self (List.getElem?_eq_some_iff.1 hat).1, hg', hg]
      rfl
    · rw [notesOf_other hj, List.getElem?_set_ne hj, ih]

/-- A note that changes nothing about what the store shows of a user's history, unless it is taken there: nothing is
written for it, or it is written for someone whose records are kept elsewhere. -/
def KeepsClear (hs : List History) (i : Nat) (user : String) (e : Nat × Note) : Prop :=
  e.1 = i ∨ e.2.Silent ∨ ∃ g, hs[e.1]? = some g ∧ safeKey user ≠ safeKey g.user

/-- What a store shows of a user who types on one terminal stays true: what is typed on the others by those whose
records are kept elsewhere changes nothing about it. -/
theorem Taken.shown (ht : Taken hs a notes hs' b) (there : hs[i]? = some h) (hshown : h.ShownIn a)
    (alone : ∀ e ∈ notes, KeepsClear hs i h.user e) :
    (h.after (notesOf i notes)).ShownIn b := by
  induction ht with
  | none => exact hshown
  | @next notes hs' b c j n g g' before hat run ih =>
    have ih := ih fun e he => alone e (List.mem_append_left _ he)
    obtain ⟨hnext, hwrites, hsame, hnow⟩ := Note.leaves run
    by_cases hj : j = i
    · subst hj
      have hg : g = h.after (notesOf j notes) := Option.some.inj (hat.symm.trans (before.own there))
      have hstep : (h.after (notesOf j notes)).after [n] = g' := by rw [← hg, hnext]; rfl
      rw [notesOf_next, after_append, hstep]
      by_cases hn : n.Silent
      · rw [hsame hn, hnext, hn.on_eq, hg]
        exact ih.congr rfl rfl rfl
      · exact hnow hn rfl
    · rw [notesOf_other hj]
      rcases alone (j, n) (List.mem_append_right _ (List.mem_singleton_self _)) with hown | hn | ⟨g₀, hg₀, hne⟩
      · exact absurd hown hj
      · rw [hsame hn]
        exact ih
      · have hg : g = g₀.after (notesOf j notes) := Option.some.inj (hat.symm.trans (before.own hg₀))
        refine ih.writes hwrites ?_
        rwa [after_user, hg, after_user]

theorem Taken.split {later : List (Nat × Note)} (ht : Taken hs a (notes ++ later) hs' b) :
    ∃ mid c, Taken hs a notes mid c ∧ Taken mid c later hs' b := by
  generalize hall : notes ++ later = all at ht
  induction ht generalizing later with
  | none =>
    obtain ⟨rfl, rfl⟩ := List.append_eq_nil_iff.1 hall
    exact ⟨hs, a, .none, .none⟩
  | @next all hs' b c i n g g' before hat run ih =>
    rcases List.eq_nil_or_concat later with rfl | ⟨later, e, rfl⟩
    · rw [List.append_nil] at hall
      exact ⟨_, _, hall ▸ before.next hat run, .none⟩
    · rw [List.concat_eq_append, ← List.append_assoc] at hall
      obtain ⟨hall, he⟩ := List.append_inj' hall rfl
      obtain ⟨mid, d, hfirst, hrest⟩ := ih hall
      cases he
      rw [List.concat_eq_append]
      exact ⟨mid, d, hfirst, hrest.next hat run⟩

/-- Once a history has been written, and no other one of its user has been written after it, the store shows what it
was loaded with and its own notes, and nothing else. -/
theorem Taken.stored {earlier later : List (Nat × Note)} {n : Note} (ht : Taken hs a (earlier ++ (i, n) :: later) hs' b)
    (there : hs[i]? = some h) (hloud : ¬ n.Silent)
    (hlast : ∀ e ∈ later, KeepsClear hs i h.user e) :
    (h.after (notesOf i (earlier ++ (i, n) :: later))).ShownIn b := by
  rw [List.append_cons] at ht ⊢
  obtain ⟨mid, c, hfirst, hrest⟩ := ht.split
  have hmid := hfirst.own there
  have hwritten : (h.after (notesOf i (earlier ++ [(i, n)]))).ShownIn c := by
    generalize hall : earlier ++ [(i, n)] = all at hfirst
    cases hfirst with
    | none => simp at hall
    | @next notes hs₁ b₁ _ j n' g g' before hat run =>
      obtain ⟨rfl, he⟩ := List.append_inj' hall rfl
      cases he
      have hg' : g' = h.after (notesOf i (earlier ++ [(i, n)])) := by
        rw [List.getElem?_set_self (List.getElem?_eq_some_iff.1 hat).1] at hmid
        exact Option.some.inj hmid
      exact hall ▸ hg' ▸ (Note.leaves run).shown hloud rfl
  rw [notesOf_append, after_append]
  refine hrest.shown hmid hwritten fun e he => ?_
  rcases hlast e he with hown | hn | ⟨g, hg, hne⟩
  · exact .inl hown
  · exact .inr (.inl hn)
  · exact .inr (.inr ⟨_, hfirst.own hg, by rwa [after_user, after_user]⟩)

/-- As long as there is room, a line is among those of a history if it was loaded or typed there. -/
theorem mem_own_lines {x : String} (hroom : (h.commands.length : Int) + notes.length ≤ h.maxCommands) :
    .str x ∈ (h.after (notesOf i notes)).commands ↔ .str x ∈ h.commands ∨ (i, .line x) ∈ notes ∧ Text.allBlank x = false := by
  have hlen : (notesOf i notes).length ≤ notes.length := by
    unfold notesOf
    rw [List.length_map]
    exact List.length_filter_le ..
  rw [mem_after (by omega), mem_notesOf]

theorem typed_texts {text : String} (htexts : ∀ c ∈ h.commands, ∃ t, c = .str t) : ∀ c ∈ (Note.typed h text).commands, ∃ t, c = .str t := by
  have hadded : ∀ c ∈ h.commands ++ [.str text], ∃ t, c = .str t := by
    intro c hc
    rcases List.mem_append.1 hc with hc | hc
    · exact htexts c hc
    · exact ⟨text, List.mem_singleton.1 hc⟩
  unfold Note.typed
  split
  · exact htexts
  · unfold withCommand
    split
    · exact htexts
    · exact fun c hc => hadded c (mem_newest hc)

/-- Lines that are typed are texts. -/
theorem after_texts {notes : List Note} (htexts : ∀ c ∈ h.commands, ∃ t, c = .str t) : ∀ c ∈ (h.after notes).commands, ∃ t, c = .str t := by
  induction notes generalizing h with
  | nil => exact htexts
  | cons n notes ih =>
    refine ih (h := n.on h) ?_
    cases n with
    | line text => exact typed_texts htexts
    | block b => exact htexts
    | clear => exact htexts

/-- Of several histories of one user, the one that has been written last is what the store has of the user's lines: those that
it was loaded with, and those that were typed in it since. A line that was typed in another one is there only if it was
typed here, too, or loaded. -/
theorem Taken.last_written {earlier later : List (Nat × Note)} {n : Note} (ht : Taken hs a (earlier ++ (i, n) :: later) hs' b)
    (there : hs[i]? = some h) (hloud : ¬ n.Silent) (hlast : ∀ e ∈ later, KeepsClear hs i h.user e)
    (hroom : (h.commands.length : Int) + (earlier ++ (i, n) :: later).length ≤ h.maxCommands)
    (htexts : ∀ c ∈ h.commands, ∃ t, c = .str t) :
    ∃ lines, b.get (inputKey h.user) = .ok (some (.arr lines)) ∧ ∀ x, .str x ∈ lines ↔
      .str x ∈ h.commands ∨ (i, .line x) ∈ earlier ++ (i, n) :: later ∧ Text.allBlank x = false := by
  have hshown := ht.stored there hloud hlast
  have hget := hshown.texts (after_texts htexts)
  rw [after_user] at hget
  exact ⟨_, hget, fun x => mem_own_lines hroom⟩

/-- Two terminals of one user, on each of which a line has been typed. -/
def twoLines : List (Nat × Note) := [(0, .line "echo a"), (1, .line "echo b")]

/-- The store once both lines have been written. -/
def afterBoth : Store :=
  let first := (record "echo a").run ({ user := "user" }, .memory [])
  ((record "echo b").run ({ user := "user" }, first.2.2)).2.2

theorem taken_twoLines : ∃ hs', Taken [{ user := "user" }, { user := "user" }] (.memory []) twoLines hs' afterBoth := by
  have hfirst : ((record "echo a").run ({ user := "user" }, .memory [])).1 = .ok () := by decide +kernel
  have hsecond : ((record "echo b").run ({ user := "user" }, ((record "echo a").run ({ user := "user" }, .memory [])).2.2)).1 = .ok () := by
    decide +kernel
  have hone : Taken [{ user := "user" }, { user := "user" }] (.memory []) ([] ++ [(0, .line "echo a")]) _ _ :=
    .next .none rfl (Prod.ext hfirst rfl)
  exact ⟨_, .next hone rfl (Prod.ext hsecond rfl)⟩

theorem last_written_second : ∃ hs', Taken [{ user := "user" }, { user := "user" }] (.memory []) twoLines hs' afterBoth ∧
    ∃ lines, afterBoth.get (inputKey "user") = .ok (some (.arr lines)) ∧
      ∀ x, .str x ∈ lines ↔ .str x ∈ ([] : List Json) ∨ (1, Note.line x) ∈ twoLines ∧ Text.allBlank x = false := by
  obtain ⟨hs', ht⟩ := taken_twoLines
  have hloud : ¬ (Note.line "echo b").Silent := fun hn => absurd (show Text.allBlank "echo b" = true from hn) (by decide)
  have hsecond : Taken [{ user := "user" }, { user := "user" }] (.memory []) ([(0, .line "echo a")] ++ (1, .line "echo b") :: []) hs'
      afterBoth := ht
  exact ⟨hs', ht, Taken.last_written hsecond rfl hloud (fun e he => by cases he) (by decide) (fun c hc => by cases hc)⟩

/-- What was typed on the first terminal is lost when a line is typed on the second. -/
theorem line_lost : ¬ ∀ (hs hs' : List History) (a b : Store) (notes : List (Nat × Note)) (user : String),
    (∀ h ∈ hs, h.user = user ∧ storedCommands user a = .ok h.commands ∧ (h.commands.length : Int) + notes.length ≤ h.maxCommands) →
      Taken hs a notes hs' b → ∀ i x, (i, .line x) ∈ notes → Text.allBlank x = false →
        ∃ lines, b.get (inputKey user) = .ok (some (.arr lines)) ∧ .str x ∈ lines := by
  intro hall
  obtain ⟨hs', ht⟩ := taken_twoLines
  have hloaded : ∀ h ∈ [({ user := "user" } : History), { user := "user" }], h.user = "user" ∧
      storedCommands "user" (.memory []) = .ok h.commands ∧ (h.commands.length : Int) + twoLines.length ≤ h.maxCommands := by
    decide +kernel
  obtain ⟨lines, hget, hin⟩ := hall _ _ _ _ twoLines "user" hloaded ht 0 "echo a" (by simp [twoLines]) (by decide)
  have hstored : afterBoth.get (inputKey "user") = .ok (some (.arr ["echo b"])) := by decide +kernel
  cases hstored.symm.trans hget
  exact absurd hin (by decide)

end History

end SimUnix
