/-
Output redirected to one file again and again. Every line of it can be read from the file afterwards, in the order in which it
was printed, but for blank ones: nothing tells a blank line at the end of a file from the end of the line before it, so that it is
lost as soon as something is appended.
-/
import SimUnix.Proofs.Machine.Appended
import SimUnix.Proofs.Machine.Contents
import SimUnix.Proofs.Shell.Piping

namespace SimUnix

namespace Shell

open Machine

variable {s s' : Station} {o r : Outcome} {target : Target} {shown : List Line} {path : String}

/-! ## One redirection -/

/-- Writes what a redirection writes. -/
def Target.write (target : Target) (path : String) (lines : List String) (user : String) : Act Bool :=
  match target.mode with
  | .append => appendFile path (Text.joinLines lines) (some user)
  | .write => overwriteFile path (Text.joinLines lines) (some user)

/-- A job that performs an action and ends without an error, although a refusal would be one. -/
theorem act_accepted {action : Act Bool} {refusal : Outcome} (hrefusal : refusal.error = true) (hr : r.error = false)
    (hrun : (Job.act action >>= fun accepted => if (!accepted) = true then pure refusal else pure o) s = .done r s') :
    ∃ m, s' = { s with machine := m } ∧ action.run s.machine = (.ok true, m) := by
  rcases hact : action.run s.machine with ⟨e | accepted, m⟩
  · rw [Job.act_bind hact] at hrun
    cases hrun
  · rw [Job.act_bind hact] at hrun
    rcases accepted with _ | _
    · cases hrun
      cases hrefusal.symm.trans hr
    · cases hrun
      exact ⟨m, rfl, rfl⟩

/-- A redirection that succeeds has written the text of its step and nothing else. -/
theorem redirect_done (hpath : s.machine.resolve target.path (some s.terminal.user) (some s.terminal.cwd) = .ok path)
    (ho : o.error = false) (hrun : redirect target o shown s = .done r s') (hr : r.error = false) :
    ∃ m, s' = { s with machine := m } ∧ (target.write path o.texts s.terminal.user).run s.machine = (.ok true, m) := by
  unfold redirect at hrun
  rw [Job.terminal_bind] at hrun
  dsimp only at hrun
  rw [Job.ask_ok hpath] at hrun
  rcases hat : s.machine.nodeAt path (some s.terminal.user) with e | existing?
  · rw [Job.ask_error hat] at hrun
    cases hrun
  rw [Job.ask_ok hat, ho] at hrun
  split at hrun
  · cases hrun
    cases hr
  obtain ⟨_ | _, word⟩ := target
  · exact act_accepted rfl hr hrun
  · exact act_accepted rfl hr hrun

/-! ## Redirections in turn -/

variable {word : String} {names lines : List String}

/-- An outcome without an error that has some lines of text. -/
structure Printed (o : Outcome) : Prop where
  fine : o.error = false
  nonempty : o.texts ≠ []
  whole : ∀ l ∈ o.texts, '\n' ∉ l.toList

theorem printed_ok (hne : lines ≠ []) (hwhole : ∀ l ∈ lines, '\n' ∉ l.toList) : Printed (.ok lines) :=
  ⟨rfl, by rwa [Outcome.texts_ok], by rwa [Outcome.texts_ok]⟩

/-- Redirects outcomes to one file: the first as the mode says, the others are appended. -/
def redirectInTurn (word : String) (mode : Redirection) : List Outcome → Job (List Outcome)
  | [] => pure []
  | o :: rest => do
    let result ← redirect { mode, path := word } o []
    let results ← redirectInTurn word .append rest
    pure (result :: results)

/-- A word stands for the path of a file with some lines. -/
structure Kept (s : Station) (word : String) (names lines : List String) : Prop where
  linked : s.machine.tree.Linked
  valid : Path.Valid names
  path : s.machine.resolve word (some s.terminal.user) (some s.terminal.cwd) = .ok (Path.ofComponents names)
  nonempty : lines ≠ []
  whole : ∀ l ∈ lines, '\n' ∉ l.toList
  holds : s.machine.Holds (some s.terminal.user) (Path.ofComponents names) (Text.joinLines lines)

/-- A file that is written for the first time has the lines that are written. -/
theorem kept_write (hl : s.machine.tree.Linked)
    (hpath : s.machine.resolve word (some s.terminal.user) (some s.terminal.cwd) = .ok path)
    (hfree : s.machine.nodeAt path (some s.terminal.user) = .ok none) (ho : Printed o)
    (hrun : redirect { mode := .write, path := word } o shown s = .done r s') (hr : r.error = false) :
    s'.terminal = s.terminal ∧ ∃ names, Kept s' word names o.texts := by
  obtain ⟨names, hvalid, rfl⟩ := resolve_normal hpath
  obtain ⟨m, rfl, hwrite⟩ := redirect_done hpath ho.fine hrun hr
  have hrecords := overwriteFile_new hl hvalid hfree hwrite
  exact ⟨rfl, names, hrecords.linked, hvalid, hrecords.same.resolve.trans hpath, ho.nonempty, ho.whole, hrecords.holds⟩

/-- A file that is appended to has the lines that are appended after its own. -/
theorem Kept.append (h : Kept s word names lines) (ho : Printed o)
    (hrun : redirect { mode := .append, path := word } o shown s = .done r s') (hr : r.error = false) :
    s'.terminal = s.terminal ∧ Kept s' word names (Text.openEnd lines ++ o.texts) := by
  obtain ⟨m, rfl, hwrite⟩ := redirect_done h.path ho.fine hrun hr
  obtain ⟨joined, hjoined, hrecords⟩ := h.holds.appendFile h.linked h.valid hwrite
  rw [Text.appended_joinLines h.nonempty ho.nonempty h.whole] at hjoined
  cases hjoined
  refine ⟨rfl, hrecords.linked, h.valid, hrecords.same.resolve.trans h.path, List.append_ne_nil_of_right_ne_nil _ ho.nonempty, ?_, hrecords.holds⟩
  intro l hmem
  rcases List.mem_append.1 hmem with hold | hnew
  · exact h.whole l ((Text.openEnd_sublist lines).subset hold)
  · exact ho.whole l hnew

/-- After any number of redirections, the lines of all of them are there, in turn. -/
theorem Kept.inTurn : ∀ {outcomes results : List Outcome} {s : Station} {lines : List String}, Kept s word names lines →
    (∀ o ∈ outcomes, Printed o) → redirectInTurn word .append outcomes s = .done results s' → (∀ r ∈ results, r.error = false) →
      s'.terminal = s.terminal ∧ Kept s' word names (Text.merged (lines :: outcomes.map Outcome.texts))
  | [], _, _, _, h, _, hrun, _ => by
    cases hrun
    exact ⟨rfl, h⟩
  | o :: rest, _, s, lines, h, hprinted, hrun, hgood => by
    obtain ⟨ho, hrest⟩ := List.forall_mem_cons.1 hprinted
    obtain ⟨r, s₁, hfirst, hrun⟩ := Job.done_of_bind hrun
    obtain ⟨results, s₂, hturn, hrun⟩ := Job.done_of_bind hrun
    cases hrun
    obtain ⟨hr, hresults⟩ := List.forall_mem_cons.1 hgood
    obtain ⟨hterminal, hkept⟩ := h.append ho hfirst hr
    obtain ⟨hterminal', hkept'⟩ := hkept.inTurn hrest hturn hresults
    rw [Text.merged_step ho.nonempty] at hkept'
    exact ⟨hterminal'.trans hterminal, hkept'⟩

/-! ## Reading -/

/-- The lines of a file that has some are those. -/
theorem Kept.fileLines (h : Kept s word names lines) {ctx : Context} (huser : ctx.user = s.terminal.user) :
    ctx.fileLines? (Path.ofComponents names) s = .done (some lines) s := by
  have hcontent := h.holds.fileContent
  rw [← huser] at hcontent
  unfold Context.fileLines?
  rw [Job.ask_ok hcontent]
  show Progress.done (some (Text.lines (Text.joinLines lines))) s = _
  rw [Text.lines_joinLines h.nonempty h.whole]

/-- `cat` shows the lines of a file. -/
theorem Kept.cat (h : Kept s word names lines) {ctx : Context} (hargs : ctx.args = [word]) (huser : ctx.user = s.terminal.user)
    (hcwd : ctx.cwd = s.terminal.cwd) : Command.runCat ctx s = .done (.ok lines) s := by
  have hpath := h.path
  rw [← huser, ← hcwd] at hpath
  have hone : Command.showOne ctx word s = .done (lines.map .text, false) s := by
    unfold Command.showOne Context.resolve
    rw [Job.ask_ok hpath, Job.bind_done (h.fileLines huser)]
    rfl
  have hall : [word].mapM (Command.showOne ctx) s = .done [(lines.map .text, false)] s := by
    rw [List.mapM_cons, List.mapM_nil, Job.bind_done hone]
    rfl
  unfold Command.runCat
  rw [hargs]
  show ([word].mapM (Command.showOne ctx) >>= _) s = _
  rw [Job.bind_done hall]
  show Progress.done ({ output := lines.map .text ++ [], error := false || false } : Outcome) s = _
  rw [List.append_nil]
  rfl

end Shell

open Shell

variable {s s' : Station} {word path : String} {outcomes results : List Outcome}

/-- Outcomes are redirected to a file that is not there yet, the first with `>` and the others with `>>`, each with some lines of text
and all with success. Then `cat` shows their lines in turn, each list but the last without a blank line at its end; and so it shows
all lines exactly if none of them but the last one ends in a blank line. -/
theorem Station.Sound.cat_redirected (hs : s.Sound)
    (hpath : s.machine.resolve word (some s.terminal.user) (some s.terminal.cwd) = .ok path)
    (hfree : s.machine.nodeAt path (some s.terminal.user) = .ok none) (hne : outcomes ≠ []) (hprinted : ∀ o ∈ outcomes, Printed o)
    (hrun : redirectInTurn word .write outcomes s = .done results s') (hgood : ∀ r ∈ results, r.error = false) (ctx : Context)
    (hargs : ctx.args = [word]) (huser : ctx.user = s.terminal.user) (hcwd : ctx.cwd = s.terminal.cwd) :
    Command.runCat ctx s' = .done (.ok (Text.merged (outcomes.map Outcome.texts))) s' ∧
    (Text.merged (outcomes.map Outcome.texts) = outcomes.flatMap Outcome.texts ↔
      ∀ o ∈ outcomes.dropLast, o.texts.getLast? ≠ some "") := by
  refine ⟨?_, ?_⟩
  · obtain ⟨o, rest, rfl⟩ := List.exists_cons_of_ne_nil hne
    obtain ⟨ho, hrest⟩ := List.forall_mem_cons.1 hprinted
    obtain ⟨r, s₁, hfirst, hrun⟩ := Job.done_of_bind hrun
    obtain ⟨rs, s₂, hturn, hrun⟩ := Job.done_of_bind hrun
    cases hrun
    obtain ⟨hr, hrs⟩ := List.forall_mem_cons.1 hgood
    obtain ⟨hterminal, names, hkept⟩ := kept_write hs.linked hpath hfree ho hfirst hr
    obtain ⟨hterminal', hkept'⟩ := hkept.inTurn hrest hturn hrs
    rw [hterminal] at hterminal'
    exact hkept'.cat hargs (by rw [huser, hterminal']) (by rw [hcwd, hterminal'])
  · rw [List.flatMap_def, Text.merged_eq_flatten, ← List.map_dropLast, List.forall_mem_map]

/-- A blank line that is printed alone is gone when something is appended. -/
theorem cat_redirected_blank :
    ((redirectInTurn "f" .write [.ok [""], .ok ["x"]] >>= fun _ =>
        Command.runCat { args := ["f"], input := [], user := rootName, cwd := "/root", toScreen := true })
      { machine := World.housed.machine, terminal := World.homeTerminal }).result? = some (.ok ["x"]) := by
  decide +kernel

theorem cat_redirected_twice : ∃ s',
    redirectInTurn "f" .write [.ok ["", "a"], .ok ["", ""]] { machine := World.housed.machine, terminal := World.homeTerminal } =
      .done [{}, {}] s' ∧
    Command.runCat { args := ["f"], input := [], user := rootName, cwd := "/root", toScreen := true } s' =
      .done (.ok ["", "a", "", ""]) s' := by
  have hs : Station.Sound { machine := World.housed.machine, terminal := World.homeTerminal } :=
    (World.furnished_reachable.perform _).sound.machine
  have hpath : World.housed.machine.resolve "f" (some rootName) (some "/root") = .ok "/root/f" := by decide +kernel
  have hfree : World.housed.machine.nodeAt "/root/f" (some rootName) = .ok none := by decide +kernel
  have hprinted : ∀ o ∈ [Outcome.ok ["", "a"], .ok ["", ""]], Printed o :=
    List.forall_mem_cons.2 ⟨printed_ok (by decide) (by decide), List.forall_mem_singleton.2 (printed_ok (by decide) (by decide))⟩
  have hresult : (redirectInTurn "f" .write [.ok ["", "a"], .ok ["", ""]]
      { machine := World.housed.machine, terminal := World.homeTerminal }).result? = some [{}, {}] := by decide +kernel
  obtain ⟨s', hdone⟩ := Progress.done_of_result? hresult
  have hcat := hs.cat_redirected hpath hfree (List.cons_ne_nil _ _) hprinted hdone (by decide)
    { args := ["f"], input := [], user := rootName, cwd := "/root", toScreen := true } rfl rfl rfl
  exact ⟨s', hdone, hcat.1⟩

end SimUnix
