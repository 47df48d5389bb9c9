/-
How much of a history is kept. Of everything that has been added to a history since it was opened on an empty store the newest is
kept, as much as its limits say; a limit of zero keeps everything. Of lines that repeat each other one is kept, and blank ones are not.
What is kept is what the store has.
-/
import SimUnix.Proofs.Terminal.Erased
import SimUnix.Proofs.Terminal.Remembered
import SimUnix.Proofs.Machine.Operations
import Mathlib.Data.List.Destutter
import Mathlib.Data.List.DropRight

namespace SimUnix

/-- Nothing can be read from a store without any record. -/
theorem Store.Empty.get_ne {store : Store} (h : store.Empty) (key : String) (v : Json) : store.get key ≠ .ok (some v) := by
  cases store with
  | memory records =>
    cases h
    exact nofun
  | files d =>
    obtain ⟨files, path⟩ := d
    cases h
    unfold Store.get
    rcases (Store.files _).takesName (fileName key) with _ | _ <;> exact nofun

namespace History

open Store

variable {α : Type} {h h' : History} {a b : Store} {limit : Nat} {items : List α} {x : α}

/-! ## The newest items -/

/-- The last items of a list, as many as a limit says, and all of them if it is zero. -/
def kept (limit : Nat) (items : List α) : List α := if limit = 0 then items else items.rtake limit

theorem newest_eq_kept : newest limit items = kept limit items := by
  unfold newest kept
  by_cases hzero : limit = 0
  · subst hzero
    rfl
  · rw [if_pos (by omega), if_neg hzero]
    rfl

@[simp] theorem kept_nil : kept limit ([] : List α) = [] := by
  unfold kept
  rw [List.rtake_nil, ite_self]

theorem map_kept {β : Type} {f : α → β} : (kept limit items).map f = kept limit (items.map f) := by
  unfold kept List.rtake
  rw [apply_ite (List.map f), List.map_drop, List.length_map]

/-- What has been dropped once need not be looked at again. -/
theorem kept_concat : kept limit (kept limit items ++ [x]) = kept limit (items ++ [x]) := by
  unfold kept
  cases limit with
  | zero => rfl
  | succ n =>
    rw [if_neg (Nat.succ_ne_zero n), if_neg (Nat.succ_ne_zero n), if_neg (Nat.succ_ne_zero n), List.rtake_concat_succ,
      List.rtake_concat_succ]
    congr 1
    unfold List.rtake
    rw [List.drop_drop, List.length_drop]
    congr 1
    omega

/-- The newest item stays. -/
theorem getLast?_kept : (kept limit items).getLast? = items.getLast? := by
  rcases List.eq_nil_or_concat items with rfl | ⟨older, newest, rfl⟩
  · rw [kept_nil]
  · unfold kept
    cases limit with
    | zero => rfl
    | succ n => rw [if_neg (Nat.succ_ne_zero n), List.concat_eq_append, List.rtake_concat_succ, List.getLast?_concat, List.getLast?_concat]

/-! ## Items that repeat each other -/

section Collapse

variable [DecidableEq α]

/-- The items of a list without those that repeat the one before. -/
def collapsed (items : List α) : List α := items.destutter (· ≠ ·)

theorem destutter'_concat (first : α) : (items ++ [x]).destutter' (· ≠ ·) first =
    if (first :: items).getLast? = some x then items.destutter' (· ≠ ·) first else items.destutter' (· ≠ ·) first ++ [x] := by
  induction items generalizing first with
  | nil =>
    rw [List.nil_append, List.destutter'_singleton, List.destutter'_nil]
    by_cases hsame : first = x <;> simp [hsame]
  | cons second items ih =>
    rw [List.cons_append, List.getLast?_cons_cons, List.destutter'_cons, List.destutter'_cons]
    by_cases hsame : first ≠ second
    · rw [if_pos hsame, if_pos hsame, ih]
      split <;> rfl
    · rw [if_neg hsame, if_neg hsame, ih, not_not.1 hsame]

theorem collapsed_concat : collapsed (items ++ [x]) = if items.getLast? = some x then collapsed items else collapsed items ++ [x] := by
  cases items with
  | nil => rfl
  | cons first items => exact destutter'_concat first

theorem getLast?_collapsed : (collapsed items).getLast? = items.getLast? := by
  induction items using List.reverseRecOn with
  | nil => rfl
  | append_singleton items x ih =>
    rw [collapsed_concat, List.getLast?_concat]
    split
    · rename_i hsame
      rw [ih, hsame]
    · exact List.getLast?_concat

end Collapse

/-! ## Notes -/

/-- The lines of some notes that are not blank. -/
def linesOf (notes : List Note) : List String :=
  notes.filterMap fun
    | .line text => if Text.allBlank text then none else some text
    | _ => none

/-- The blocks of some notes, since the scrollback was emptied last. -/
def blocksOf (notes : List Note) : List Block :=
  notes.foldl (fun blocks n => match n with
    | .line _ => blocks
    | .block b => blocks ++ [b]
    | .clear => []) []

/-- What a history has of some notes. -/
structure Keeps (maxBlocks maxCommands : Nat) (notes : List Note) (h : History) : Prop where
  blockLimit : h.maxBlocks = maxBlocks
  lineLimit : h.maxCommands = maxCommands
  blocks : h.blocks = kept maxBlocks (blocksOf notes)
  lines : h.commands = (kept maxCommands (collapsed (linesOf notes))).map .str

variable {maxBlocks maxCommands : Nat} {notes : List Note} {n : Note}

theorem linesOf_concat : linesOf (notes ++ [n]) = linesOf notes ++ linesOf [n] := List.filterMap_append ..

/-- A line that repeats the last one of all is not added, even if older ones have been dropped. -/
theorem Keeps.typed {text : String} (hk : Keeps maxBlocks maxCommands notes h) :
    Keeps maxBlocks maxCommands (notes ++ [.line text]) (Note.typed h text) := by
  have hblocks : blocksOf (notes ++ [.line text]) = blocksOf notes := List.foldl_append
  unfold Note.typed
  split
  · rename_i hblank
    have hlines : linesOf (notes ++ [.line text]) = linesOf notes := by
      rw [linesOf_concat, show linesOf [.line text] = [] by simp [linesOf, hblank], List.append_nil]
    exact ⟨hk.blockLimit, hk.lineLimit, hblocks ▸ hk.blocks, hlines ▸ hk.lines⟩
  · rename_i hfull
    have hlines : linesOf (notes ++ [.line text]) = linesOf notes ++ [text] := by
      rw [linesOf_concat, show linesOf [.line text] = [text] by simp [linesOf, hfull]]
    have hlast : h.commands.getLast? = some (.str text) ↔ (linesOf notes).getLast? = some text := by
      rw [hk.lines, List.getLast?_map, getLast?_kept, getLast?_collapsed, Option.map_eq_some_iff]
      simp
    unfold withCommand
    dsimp only
    by_cases hsame : h.commands.getLast? = some (.str text)
    · rw [if_pos hsame]
      refine ⟨hk.blockLimit, hk.lineLimit, hblocks ▸ hk.blocks, ?_⟩
      rw [hlines, collapsed_concat, if_pos (hlast.1 hsame)]
      exact hk.lines
    · rw [if_neg hsame]
      refine ⟨hk.blockLimit, hk.lineLimit, hblocks ▸ hk.blocks, ?_⟩
      rw [hlines, collapsed_concat, if_neg fun he => hsame (hlast.2 he), ← kept_concat, map_kept, List.map_append, ← hk.lines,
        ← newest_eq_kept, ← hk.lineLimit]
      rfl

theorem Keeps.on (hk : Keeps maxBlocks maxCommands notes h) : Keeps maxBlocks maxCommands (notes ++ [n]) (n.on h) := by
  cases n with
  | line text => exact hk.typed
  | block b =>
    have hblocks : blocksOf (notes ++ [.block b]) = blocksOf notes ++ [b] := List.foldl_append
    refine ⟨hk.blockLimit, hk.lineLimit, ?_, ?_⟩
    · show newest h.maxBlocks (h.blocks ++ [b]) = _
      rw [hk.blockLimit, newest_eq_kept, hk.blocks, kept_concat, hblocks]
    · rw [linesOf_concat, show linesOf [.block b] = [] from rfl, List.append_nil]
      exact hk.lines
  | clear =>
    have hblocks : blocksOf (notes ++ [.clear]) = [] := List.foldl_append
    refine ⟨hk.blockLimit, hk.lineLimit, ?_, ?_⟩
    · rw [hblocks, kept_nil]
      rfl
    · rw [linesOf_concat, show linesOf [.clear] = [] from rfl, List.append_nil]
      exact hk.lines

/-! ## Records -/

/-- The items that a record lists; none if there is no record. -/
def listed (store : Store) (key : String) : Except Fault Json := (store.getFilled key).map (·.getD (.arr []))

theorem listed_some {key : String} {items : List Json} (hget : a.get key = .ok (some (.arr items))) :
    listed a key = .ok (.arr items) := by
  unfold listed getFilled
  rw [hget]
  cases items <;> rfl

theorem listed_empty {key : String} (empty : a.Empty) (takes : a.takesName (draftName key) = true) : listed a key = .ok (.arr []) := by
  have hget : a.get key = .ok none := by
    cases a with
    | memory records =>
      cases empty
      rfl
    | files d =>
      obtain ⟨files, path⟩ := d
      cases empty
      have hshort : (Store.files ⟨files, []⟩).takesName (fileName key) = true :=
        decide_eq_true (Nat.le_trans length_fileName_le (of_decide_eq_true takes))
      unfold Store.get
      rw [hshort]
      rfl
  unfold listed getFilled
  rw [hget]
  rfl

/-- A store that takes the names of one record of a user takes those of the other. -/
theorem takesName_input {user : String} (takes : a.takesName (draftName (historyKey user)) = true) :
    a.takesName (draftName (inputKey user)) = true := by
  cases a with
  | memory => rfl
  | files d =>
    have hle := of_decide_eq_true takes
    rw [length_draftName isOwn_historyKey.ne_empty] at hle
    refine decide_eq_true ?_
    rw [length_draftName isOwn_inputKey.ne_empty]
    simp only [historyKey, inputKey, String.length_append] at hle ⊢
    have hwords : "term-input-".length ≤ "term-history-".length := by decide
    omega

end History

/-- A block whose line and prompt are texts, and whose output can be laid out. -/
structure Block.Legible (b : Block) : Prop where
  command : ∃ text, b.command = .str text
  prompt : ∃ text, b.prompt = .str text
  output : ∃ lines, b.plainOutput = .ok lines

/-- Its record is one that every store gives back. -/
theorem Block.Legible.toJson {b : Block} (hb : b.Legible) :
    ∃ v, b.toJson = .ok v ∧ (∀ depth, v.Fits (depth + 2)) ∧ ∀ g : Json → Json, Json.Echoes g → g v = v := by
  obtain ⟨⟨command, output, error, prompt⟩, rfl⟩ : ∃ c : Block, b = c := ⟨b, rfl⟩
  obtain ⟨⟨line, rfl⟩, ⟨shown, rfl⟩, lines, hlines⟩ := hb
  refine ⟨_, bind_ok.2 ⟨lines, hlines, rfl⟩, fun depth => ?_, fun g hg => ?_⟩
  · simp [Json.Fits, Json.texts]
  · have hnames : ["command", "output", "error", "prompt"].Nodup := by decide
    rw [hg.obj _ (by exact hnames)]
    simp [Json.texts, hg.str, hg.bool, hg.arr]

namespace History

open Store

variable {h h' : History} {a b : Store} {notes : List Note} {n : Note}

/-- The record of blocks that can be laid out is one that every store gives back. -/
theorem blocksJson_legible (legible : ∀ bl ∈ h.blocks, bl.Legible) :
    ∃ vs, h.blocksJson = .ok (.arr vs) ∧ (Json.arr vs).Fits Json.maxDepth ∧ ∀ store : Store, store.echo (.arr vs) = .arr vs := by
  have hall : ∃ vs, h.blocks.mapM Block.toJson = .ok vs ∧ ∀ v ∈ vs, (∀ depth, v.Fits (depth + 2)) ∧ ∀ g : Json → Json, Json.Echoes g → g v = v := by
    generalize h.blocks = blocks at legible
    induction blocks with
    | nil => exact ⟨[], rfl, nofun⟩
    | cons bl blocks ih =>
      obtain ⟨v, hv, hkept⟩ := (legible bl List.mem_cons_self).toJson
      obtain ⟨vs, hvs, hrest⟩ := ih fun bl hbl => legible bl (List.mem_cons_of_mem _ hbl)
      exact ⟨v :: vs, by rw [List.mapM_cons, hv, hvs]; rfl, List.forall_mem_cons.2 ⟨hkept, hrest⟩⟩
  obtain ⟨vs, hvs, hkept⟩ := hall
  refine ⟨vs, ?_, ?_, fun store => ?_⟩
  · unfold blocksJson
    rw [hvs]
    rfl
  · unfold Json.maxDepth Json.Fits
    exact fun v hv => (hkept v hv).1 _
  · rw [store.echoes_echo.arr]
    exact congrArg Json.arr ((List.map_congr_left fun v hv => (hkept v hv).2 _ store.echoes_echo).trans (List.map_id _))

/-! ## Runs -/

/-- Opening a history on a store without any record leaves it empty, and the store as it is. -/
theorem load_empty (empty : a.Empty) (opens : load.run (h, a) = (.ok (), (h', b))) :
    h' = { h with blocks := [], commands := [], cursor? := none } ∧ b = a := by
  obtain ⟨hb, ⟨hfailed, -⟩ | ⟨-, blocks, commands, hblocks, hcommands, hh⟩⟩ := load_cases opens
  · exact absurd rfl hfailed
  · cases storedBlocks_absent (empty.get_ne _) hblocks
    cases storedCommands_absent (empty.get_ne _) hcommands
    exact ⟨hh, hb⟩

/-- The state after some notes have been taken, whether or not they could be written. -/
def taken (notes : List Note) (p : History × Store) : History × Store := notes.foldl (fun p n => (n.write.run p).2) p

theorem taken_fst {p : History × Store} : (taken notes p).1 = p.1.after notes := by
  induction notes generalizing p with
  | nil => rfl
  | cons n notes ih =>
    have hfirst : (n.write.run p).2.1 = n.on p.1 := (Note.leaves (r := (n.write.run p).1) rfl).history
    show (taken notes (n.write.run p).2).1 = (n.on p.1).after notes
    rw [ih, hfirst]

/-- A history whose records are up to date: they show it, or there is nothing to show and no record yet. -/
structure UpToDate (user : String) (h : History) (a : Store) : Prop where
  owner : h.user = user
  takes : a.takesName (draftName (historyKey user)) = true
  legible : ∀ bl ∈ h.blocks, bl.Legible
  shown : h.ShownIn a ∨ a.Empty ∧ h.blocks = [] ∧ h.commands = []

variable {user : String}

/-- A history of blocks that can be laid out is written if the store takes the names of its records. -/
theorem save_shows (howner : h.user = user) (takes : a.takesName (draftName (historyKey user)) = true)
    (legible : ∀ bl ∈ h.blocks, bl.Legible) : ∃ b, save.run (h, a) = (.ok (), (h, b)) ∧ UpToDate user h b := by
  subst howner
  obtain ⟨vs, hvs, -⟩ := blocksJson_legible legible
  have hsecond : (a.set (historyKey h.user) (.arr vs)).takesName (draftName (inputKey h.user)) = true := by
    rw [takesName_set]
    exact takesName_input takes
  have hrun : save.run (h, a) = (.ok (), (h, (a.set (historyKey h.user) (.arr vs)).set (inputKey h.user) (.arr h.commands))) := by
    unfold save
    rw [run_bind, run_get]
    dsimp only
    rw [hvs]
    dsimp only
    have hput : ∀ {store : Store} {key : String} {v : Json}, store.takesName (draftName key) = true →
        (save.put key v).run (h, store) = (.ok (), (h, store.set key v)) := by
      intro store key v htakes
      unfold save.put
      rw [run_bind, run_get]
      dsimp only
      rw [show store.write key v = .ok (store.set key v) from if_pos htakes]
      rfl
    rw [run_bind, hput takes]
    exact hput hsecond
  refine ⟨_, hrun, rfl, ?_, legible, .inl ((run_save hrun).2.2 rfl)⟩
  rw [takesName_set, takesName_set]
  exact takes

theorem UpToDate.note (hu : UpToDate user h a) (legible : ∀ bl, n = .block bl → bl.Legible) :
    ∃ h' b, n.write.run (h, a) = (.ok (), (h', b)) ∧ UpToDate user h' b := by
  have howner : (n.on h).user = user := Note.on_user.trans hu.owner
  have hsaved : (∀ bl ∈ (n.on h).blocks, bl.Legible) → ∃ b, save.run (n.on h, a) = (.ok (), (n.on h, b)) ∧ UpToDate user (n.on h) b :=
    save_shows howner hu.takes
  cases n with
  | line text =>
    have hblocks : (Note.on h (.line text)).blocks = h.blocks := by
      show (Note.typed h text).blocks = h.blocks
      unfold Note.typed withCommand
      split
      · rfl
      · split <;> rfl
    rcases hblank : Text.allBlank text with _ | _
    · obtain ⟨b, hrun, hnext⟩ := hsaved (hblocks ▸ hu.legible)
      have hon : Note.on h (.line text) = withCommand text { h with cursor? := none } :=
        if_neg fun he => Bool.false_ne_true (hblank.symm.trans he)
      exact ⟨_, b, (Note.run_full hblank).trans (hon ▸ hrun), hnext⟩
    · refine ⟨_, a, Note.run_blank hblank, hu.owner, hu.takes, hu.legible, ?_⟩
      exact hu.shown.imp_left fun hshown => hshown.congr rfl rfl rfl
  | block bl =>
    obtain ⟨b, hrun, hnext⟩ := hsaved fun x hx => by
      rcases List.mem_append.1 (mem_newest hx) with hold | hnew
      · exact hu.legible x hold
      · exact List.mem_singleton.1 hnew ▸ legible bl rfl
    exact ⟨_, b, hrun, hnext⟩
  | clear =>
    obtain ⟨b, hrun, hnext⟩ := hsaved nofun
    exact ⟨_, b, hrun, hnext⟩

theorem UpToDate.run (hu : UpToDate user h a) (legible : ∀ bl, .block bl ∈ notes → bl.Legible) :
    (notes.forM Note.write).run (h, a) = (.ok (), taken notes (h, a)) ∧ UpToDate user (taken notes (h, a)).1 (taken notes (h, a)).2 := by
  induction notes generalizing h a with
  | nil => exact ⟨rfl, hu⟩
  | cons n notes ih =>
    obtain ⟨h', b, hrun, hnext⟩ := hu.note (n := n) fun bl hbl => legible bl (hbl ▸ List.mem_cons_self)
    have htaken : taken (n :: notes) (h, a) = taken notes (h', b) := by
      show taken notes (n.write.run (h, a)).2 = _
      rw [hrun]
    have hcons : (n :: notes).forM Note.write = (n.write >>= fun _ => notes.forM Note.write) := rfl
    rw [htaken, hcons, run_bind, hrun]
    exact ih hnext fun bl hbl => legible bl (List.mem_cons_of_mem _ hbl)

theorem Keeps.after {maxBlocks maxCommands : Nat} {before : List Note} (hk : Keeps maxBlocks maxCommands before h) :
    Keeps maxBlocks maxCommands (before ++ notes) (h.after notes) := by
  induction notes generalizing h before with
  | nil => rwa [List.append_nil]
  | cons n notes ih =>
    rw [List.append_cons]
    exact ih hk.on

theorem UpToDate.listed (hu : UpToDate user h a) (htexts : ∀ c ∈ h.commands, ∃ t, c = .str t) :
    (∃ record, h.blocksJson = .ok record ∧ listed a (historyKey user) = .ok record) ∧
      listed a (inputKey user) = .ok (.arr h.commands) := by
  obtain ⟨rfl, takes, legible, hshown | ⟨empty, hblocks, hcommands⟩⟩ := hu
  · obtain ⟨vs, hvs, hfits, hecho⟩ := blocksJson_legible legible
    obtain ⟨v, hv, hget⟩ := hshown.blocks
    cases hvs.symm.trans hv
    exact ⟨⟨_, hvs, listed_some (by rw [hget hfits, hecho])⟩, listed_some (hshown.texts htexts)⟩
  · refine ⟨⟨.arr [], ?_, listed_empty empty takes⟩, ?_⟩
    · unfold blocksJson
      rw [hblocks]
      rfl
    · rw [hcommands]
      exact listed_empty empty (takesName_input takes)

/-- A history that was opened on a store without any record has the newest of what was noted since, whether or not it could be written.
If the store takes the names of its records, and every block can be laid out, all notes are written, and the records list what the
history has. -/
theorem newest_kept {maxBlocks maxCommands : Nat} {opened : History × Store} (empty : a.Empty)
    (opens : load.run ({ user, maxBlocks, maxCommands }, a) = (.ok (), opened)) (notes : List Note) :
    (taken notes opened).1.blocks = kept maxBlocks (blocksOf notes) ∧
      (taken notes opened).1.commands = (kept maxCommands (collapsed (linesOf notes))).map .str ∧
      (a.takesName (draftName (historyKey user)) = true → (∀ bl, .block bl ∈ notes → bl.Legible) →
        (notes.forM Note.write).run opened = (.ok (), taken notes opened) ∧
        (∃ record, (taken notes opened).1.blocksJson = .ok record ∧ listed (taken notes opened).2 (historyKey user) = .ok record) ∧
        listed (taken notes opened).2 (inputKey user) = .ok (.arr (taken notes opened).1.commands)) := by
  obtain ⟨h, b⟩ := opened
  obtain ⟨rfl, rfl⟩ := load_empty empty opens
  have hkeeps : Keeps maxBlocks maxCommands notes (taken notes ({ user, maxBlocks, maxCommands }, b)).1 := by
    have hnone : Keeps maxBlocks maxCommands [] { user, maxBlocks, maxCommands } :=
      ⟨rfl, rfl, by rw [show blocksOf [] = [] from rfl, kept_nil], by simp [linesOf, collapsed]⟩
    rw [taken_fst]
    exact hnone.after
  refine ⟨hkeeps.blocks, hkeeps.lines, fun takes legible => ?_⟩
  have hstart : UpToDate user { user, maxBlocks, maxCommands } b := ⟨rfl, takes, nofun, .inr ⟨empty, rfl, rfl⟩⟩
  obtain ⟨hrun, hdone⟩ := hstart.run legible
  refine ⟨hrun, hdone.listed fun c hc => ?_⟩
  rw [hkeeps.lines] at hc
  obtain ⟨text, -, rfl⟩ := List.mem_map.1 hc
  exact ⟨text, rfl⟩

theorem newest_kept_two :
    let opened : History × Store := ({ user := "user", maxBlocks := 2, maxCommands := 1 }, .memory [])
    let notes := [Note.line "a", .block { command := "a" }, .line " ", .line "b", .block { command := "b" }, .line "b",
      .block { command := "b", output := [.text "x"] }]
    load.run opened = (.ok (), opened) ∧
      (taken notes opened).1.blocks = [{ command := "b" }, { command := "b", output := [.text "x"] }] ∧
      (taken notes opened).1.commands = ["b"] ∧ listed (taken notes opened).2 (inputKey "user") = .ok (.arr ["b"]) := by
  intro opened notes
  have opens : load.run opened = (.ok (), opened) := rfl
  obtain ⟨hblocks, hlines, hrecords⟩ := @newest_kept _ "user" 2 1 _ empty_memory opens notes
  have hlegible : ∀ bl, .block bl ∈ notes → bl.Legible := by
    intro bl hbl
    simp only [notes, List.mem_cons, Note.block.injEq, reduceCtorEq, List.not_mem_nil, false_or, or_false] at hbl
    rcases hbl with rfl | rfl | rfl <;> exact ⟨⟨_, rfl⟩, ⟨_, rfl⟩, _, rfl⟩
  obtain ⟨-, -, hinput⟩ := hrecords rfl hlegible
  have hkept : kept 1 (collapsed (linesOf notes)) = ["b"] := by decide +kernel
  rw [hkept] at hlines
  rw [hlines] at hinput
  exact ⟨opens, hblocks, hlines, hinput⟩

/-- A limit of zero does not leave a history empty. -/
theorem zero_keeps_all : ¬ ∀ (user : String) (maxBlocks maxCommands : Nat) (opened : History × Store),
    load.run ({ user, maxBlocks, maxCommands }, .memory []) = (.ok (), opened) →
      ∀ notes, (taken notes opened).1.blocks = (blocksOf notes).rtake maxBlocks := by
  intro hall
  have hnone := hall "user" 0 1 _ rfl [.block { command := "a" }]
  exact List.cons_ne_nil _ _ hnone

end History

end SimUnix
