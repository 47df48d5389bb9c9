/-
Removing without force. The operands are taken one after the other, each as the ones before it have left things; whatever
comes of it, all nodes are still there afterwards, and what has been removed is in the trash.
-/
import SimUnix.Proofs.Machine.Removal
import SimUnix.Proofs.Terminal.World
import SimUnix.Command.Files

namespace SimUnix

/-- A job is over, with a result or without, and leaves a station so. -/
def Progress.Leaves {α : Type} (p : Progress α) (s : Station) : Prop := (∃ a, p = .done a s) ∨ ∃ e, p = .failed e s

/-- The result of a job that is over. -/
def Progress.result? {α : Type} : Progress α → Option α
  | .done a _ => some a
  | _ => none

theorem Progress.done_of_result? {α : Type} {p : Progress α} {a : α} (h : p.result? = some a) : ∃ s, p = .done a s := by
  cases p with
  | done b s => exact ⟨s, by rw [← Option.some.inj h]⟩
  | failed e s => cases h
  | waiting s resume => cases h

/-- The operands of which the turn comes, and how things are then. -/
inductive Turn (perform : String → Job (Option String)) : List String → Station → String → Station → Prop
  | first {arg : String} {rest : List String} {s : Station} : Turn perform (arg :: rest) s arg s
  | next {arg other : String} {rest : List String} {problem? : Option String} {s s₁ s₂ : Station}
      (before : perform arg s = .done problem? s₁) (turn : Turn perform rest s₁ other s₂) : Turn perform (arg :: rest) s other s₂

namespace Job

variable {α β : Type} {s : Station} {f : α → Job β}

theorem ask_ok {question : Machine → Except Fault α} {a : α} (h : question s.machine = .ok a) : (ask question >>= f) s = f a s := by
  show (ofExcept (question s.machine) s).bind f = f a s
  rw [h]
  rfl

theorem ask_error {question : Machine → Except Fault α} {e : Fault} (h : question s.machine = .error e) :
    (ask question >>= f) s = .failed e s := by
  show (ofExcept (question s.machine) s).bind f = .failed e s
  rw [h]
  rfl

theorem act_bind {action : Act α} {x : Except Fault α} {m : Machine} (h : action.run s.machine = (x, m)) :
    (act action >>= f) s = (ofExcept x >>= f) { s with machine := m } := by
  have hrun : (Move.act action).run s = (x, { s with machine := m }) := by rw [Course.run_act, h]
  show (move (Move.act action) s).bind f = _
  unfold move
  rw [hrun]
  rfl

end Job

namespace Command

open Machine Tree

variable {ctx : Context} {flags : List Char} {trash arg : String} {s s' : Station}

/-- What an operand of a command stands for. -/
def Finds (ctx : Context) (s : Machine) (arg : String) (n : Node) : Prop :=
  ∃ path, s.resolve arg (some ctx.user) (some ctx.cwd) = .ok path ∧ s.nodeAt path (some ctx.user) = .ok (some n)

/-- An operand stands neither for the trash nor for a path below it. -/
def Outside (ctx : Context) (s : Machine) (trash arg : String) : Prop :=
  ∀ path, s.resolve arg (some ctx.user) (some ctx.cwd) = .ok path → path ≠ trash ∧ Text.startsWith path (trash ++ "/") = false

/-- An operand is moved into the trash, or a problem is told and things are as they were, or nothing more is done. -/
theorem removeOne_leaves (hl : Linked s.machine.tree) (hflags : 'f' ∉ flags) (houtside : Outside ctx s.machine trash arg) :
    ∃ s', (removeOne ctx flags trash arg s).Leaves s' ∧
      s.machine.Discards (some ctx.user) (fun a => ∃ n, Finds ctx s.machine arg n ∧ n.id = a) s'.machine ∧
        ∀ n, Finds ctx s.machine arg n → removeOne ctx flags trash arg s = .done none s' →
          s'.machine.InTrash (some ctx.user) n.id := by
  have hflag : flags.contains 'f' = false := by simpa using hflags
  unfold removeOne Context.resolve
  rcases hpath : s.machine.resolve arg (some ctx.user) (some ctx.cwd) with e | path
  · rw [Job.ask_error hpath]
    exact ⟨s, .inr ⟨e, rfl⟩, .refl hl, fun _ _ => nofun⟩
  obtain ⟨hnot, hbelow⟩ := houtside path hpath
  rw [Job.ask_ok hpath]
  dsimp only
  unfold Context.nodeAt
  rcases hat : s.machine.nodeAt path (some ctx.user) with e | found?
  · rw [Job.ask_error hat]
    exact ⟨s, .inr ⟨e, rfl⟩, .refl hl, fun _ _ => nofun⟩
  rw [Job.ask_ok hat]
  rcases found? with _ | n
  · refine ⟨s, .inl ⟨_, rfl⟩, .refl hl, ?_⟩
    rintro n ⟨path', hpath', hat'⟩
    cases hpath.symm.trans hpath'
    cases hat.symm.trans hat'
  dsimp only
  split
  · exact ⟨s, .inl ⟨_, rfl⟩, .refl hl, fun _ _ => nofun⟩
  have hgood : (flags.contains 'f' || path == trash || Text.startsWith path (trash ++ "/")) = false := by
    rw [hflag, hbelow, beq_eq_false_iff_ne.2 hnot]
    rfl
  simp only [hgood, Bool.false_eq_true, if_false]
  rcases hrun : (moveToTrash path (some (.str ctx.user))).run s.machine with ⟨r, m⟩
  obtain ⟨hdisc, hin⟩ := discards_moveToTrash hl hrun
  have hfinds : ∀ n, s.machine.nodeAt path (some ctx.user) = .ok (some n) → Finds ctx s.machine arg n :=
    fun n hn => ⟨path, hpath, hn⟩
  refine ⟨{ s with machine := m }, ?_, hdisc.mono fun a ⟨n, hn, hid⟩ => ⟨n, hfinds n hn, hid⟩, ?_⟩
  · rw [Job.act_bind hrun]
    cases r with
    | error e => exact .inr ⟨e, rfl⟩
    | ok done => exact .inl ⟨_, rfl⟩
  · rintro k ⟨path', hpath', hk⟩ hdone
    rw [Job.act_bind hrun] at hdone
    cases hpath.symm.trans hpath'
    rcases r with e | _ | _
    · cases hdone
    · cases hdone
    · obtain ⟨n', hn', htrash⟩ := hin rfl
      cases hn'.symm.trans hk
      exact htrash

/-! ## All operands -/

variable {operands : List String}

theorem Outside.retreed {m : Machine} (h : Outside ctx s.machine trash arg) (hsame : s.machine.Retreed m) : Outside ctx m trash arg := by
  intro path hpath
  refine h path (Eq.trans ?_ hpath)
  rw [hsame]
  rfl

/-- Every turn takes at most what its operand finds then, and what an operand has put into the trash stays there. -/
theorem removeAll_leaves (hflags : 'f' ∉ flags) : ∀ {operands : List String} {s : Station} (done : List (Option String)),
    Linked s.machine.tree → (∀ arg ∈ operands, Outside ctx s.machine trash arg) →
      ∃ s', (List.mapM.loop (removeOne ctx flags trash) operands done s).Leaves s' ∧
        s.machine.Discards (some ctx.user)
          (fun a => ∃ arg s₁ n, Turn (removeOne ctx flags trash) operands s arg s₁ ∧ Finds ctx s₁.machine arg n ∧ n.id = a)
          s'.machine ∧
        ∀ arg s₁ s₂ n, Turn (removeOne ctx flags trash) operands s arg s₁ → Finds ctx s₁.machine arg n →
          removeOne ctx flags trash arg s₁ = .done none s₂ → s'.machine.InTrash (some ctx.user) n.id
  | [], s, done, hl, _ => ⟨s, .inl ⟨_, rfl⟩, .refl hl, fun _ _ _ _ hturn => nomatch hturn⟩
  | arg :: operands, s, done, hl, houtside => by
    obtain ⟨s₁, hleaves, hdisc, hin⟩ := removeOne_leaves hl hflags (houtside arg List.mem_cons_self)
    have hloop : List.mapM.loop (removeOne ctx flags trash) (arg :: operands) done s =
        (removeOne ctx flags trash arg s).bind fun problem? => List.mapM.loop (removeOne ctx flags trash) operands (problem? :: done) := rfl
    rcases hleaves with ⟨problem?, hdone⟩ | ⟨e, hfailed⟩
    · have hrest : ∀ other ∈ operands, Outside ctx s₁.machine trash other := fun other hm =>
        (houtside other (List.mem_cons_of_mem _ hm)).retreed hdisc.same
      obtain ⟨s', hleaves', hdisc', hin'⟩ := removeAll_leaves hflags (problem? :: done) hdisc.linked hrest
      refine ⟨s', ?_, .trans (hdisc.mono ?_) (hdisc'.mono ?_), ?_⟩
      · rw [hloop, hdone]
        exact hleaves'
      · rintro a ⟨n, hn, hid⟩
        exact ⟨arg, s, n, .first, hn, hid⟩
      · rintro a ⟨other, s₂, n, hturn, hn, hid⟩
        exact ⟨other, s₂, n, .next hdone hturn, hn, hid⟩
      · intro other s₂ s₃ n hturn hn hone
        cases hturn with
        | first =>
          cases hdone.symm.trans hone
          exact hdisc'.still (hin n hn hdone)
        | next before turn =>
          cases hdone.symm.trans before
          exact hin' other s₂ s₃ n turn hn hone
    · refine ⟨s₁, .inr ⟨e, ?_⟩, hdisc.mono ?_, ?_⟩
      · rw [hloop, hfailed]
        rfl
      · rintro a ⟨n, hn, hid⟩
        exact ⟨arg, s, n, .first, hn, hid⟩
      · intro other s₂ s₃ n hturn hn hone
        cases hturn with
        | first => cases hfailed.symm.trans hone
        | next before turn => cases hfailed.symm.trans before

theorem forOperands_leaves {perform : String → Job (Option String)} (hleaves : (List.mapM.loop perform operands [] s).Leaves s') :
    (forOperands operands perform s).Leaves s' := by
  have hbind : forOperands operands perform s =
      (List.mapM.loop perform operands [] s).bind fun problems => pure (.ofProblems problems.reduceOption) := rfl
  rw [hbind]
  rcases hleaves with ⟨problems, hdone⟩ | ⟨e, hfailed⟩
  · rw [hdone]
    exact .inl ⟨_, rfl⟩
  · rw [hfailed]
    exact .inr ⟨e, rfl⟩

/-- The turn of an operand of `rm`: how things are then, and what comes of it. -/
def Removes (ctx : Context) (s : Station) (arg : String) (s₁ : Station) (p : Progress (Option String)) : Prop :=
  ∃ trash, s.machine.trashPath (some ctx.user) = .ok trash ∧
    Turn (removeOne ctx (Context.flagsAndOperands ctx.args).1 trash) (Context.flagsAndOperands ctx.args).2 s arg s₁ ∧
      removeOne ctx (Context.flagsAndOperands ctx.args).1 trash arg s₁ = p

theorem runRm_leaves (s : Station) (hl : Linked s.machine.tree) (hflags : 'f' ∉ (Context.flagsAndOperands ctx.args).1)
    (houtside : ∀ arg ∈ (Context.flagsAndOperands ctx.args).2,
      ∀ trash, s.machine.trashPath (some ctx.user) = .ok trash → Outside ctx s.machine trash arg) :
    ∃ s', (runRm ctx s).Leaves s' ∧
      s.machine.Discards (some ctx.user)
        (fun a => ∃ arg s₁ p n, Removes ctx s arg s₁ p ∧ Finds ctx s₁.machine arg n ∧ n.id = a) s'.machine ∧
        ∀ arg s₁ s₂ n, Removes ctx s arg s₁ (.done none s₂) → Finds ctx s₁.machine arg n →
          s'.machine.InTrash (some ctx.user) n.id := by
  unfold runRm
  dsimp only
  split
  · rename_i hnone
    rw [List.isEmpty_iff] at hnone
    refine ⟨s, .inl ⟨_, rfl⟩, .refl hl, ?_⟩
    rintro arg s₁ s₂ n ⟨trash, -, hturn, -⟩
    rw [hnone] at hturn
    cases hturn
  rcases htrash : s.machine.trashPath (some ctx.user) with e | trash
  · rw [Job.ask_error htrash]
    refine ⟨s, .inr ⟨e, rfl⟩, .refl hl, ?_⟩
    rintro arg s₁ s₂ n ⟨trash, hok, -⟩
    cases htrash.symm.trans hok
  rw [Job.ask_ok htrash]
  obtain ⟨s', hleaves, hdisc, hin⟩ := removeAll_leaves hflags [] hl fun arg hm => houtside arg hm trash htrash
  refine ⟨s', ?_, hdisc.mono ?_, ?_⟩
  · exact forOperands_leaves hleaves
  · rintro a ⟨arg, s₁, n, hturn, hn, hid⟩
    exact ⟨arg, s₁, _, n, ⟨trash, htrash, hturn, rfl⟩, hn, hid⟩
  · rintro arg s₁ s₂ n ⟨trash', htrash', hturn, hdone⟩ hn
    cases htrash.symm.trans htrash'
    exact hin arg s₁ s₂ n hturn hn hdone

end Command

namespace World

open Machine Command

/-- Removing without force destroys nothing. Where no operand stands for the trash or a path below it, the command comes to an
end, and afterwards all nodes are still there, with the same content, owner, group and permissions. They have kept their names
and parents, but for those in the trash for which an operand stands when its turn comes; and if no problem is told about it,
whatever an operand stands for is there. -/
theorem Reachable.rm_destroys_nothing {w : World} (h : w.Reachable) (ctx : Context) (terminal : Terminal)
    (hflags : 'f' ∉ (Context.flagsAndOperands ctx.args).1) (houtside : ∀ arg ∈ (Context.flagsAndOperands ctx.args).2,
      ∀ trash, w.machine.trashPath (some ctx.user) = .ok trash → Outside ctx w.machine trash arg) :
    ∃ s', (runRm ctx { machine := w.machine, terminal }).Leaves s' ∧
      (∀ a m, w.machine.tree.get? a = some m → ∃ m', s'.machine.tree.get? a = some m' ∧ m'.core = m.core ∧
        (m'.name = m.name ∧ m'.parent = m.parent ∨
          (∃ arg s₁ p n, Removes ctx { machine := w.machine, terminal } arg s₁ p ∧ Finds ctx s₁.machine arg n ∧ n.id = a) ∧
            s'.machine.InTrash (some ctx.user) a)) ∧
      ∀ arg s₁ s₂ n, Removes ctx { machine := w.machine, terminal } arg s₁ (.done none s₂) → Finds ctx s₁.machine arg n →
        s'.machine.InTrash (some ctx.user) n.id := by
  have hl := h.sound.machine.linked
  obtain ⟨s', hleaves, hdisc, hin⟩ := runRm_leaves { machine := w.machine, terminal } hl hflags houtside
  exact ⟨s', hleaves, fun a m hm => hdisc.kept hm, hin⟩

/-- Root has a home, too. -/
def housed : World :=
  { machine := (Operation.file (.createDirectory "/" "root") (some (.str rootName)) none).after furnished.machine }

/-- What root types at home. -/
def recursive : Context := { args := ["-r", "/a"], input := [], user := rootName, cwd := "/root", toScreen := true }

/-- A terminal that root has at home. -/
def homeTerminal : Terminal :=
  { sessions := { current := rootName }, cwd := "/root", env := Shell.Environment.forSession rootName "/root" "/root",
    history := { user := rootName } }

/-- Root removes a directory, and it is in the trash. -/
theorem removed_housed : housed.Reachable ∧ ∃ s' n,
    (runRm recursive { machine := housed.machine, terminal := homeTerminal }).Leaves s' ∧
    Finds recursive housed.machine "/a" n ∧ s'.machine.InTrash (some (.str rootName)) n.id := by
  have hreach : housed.Reachable := furnished_reachable.perform _
  have hflags : Context.flagsAndOperands recursive.args = (['r'], ["/a"]) := by decide +kernel
  have htrash : housed.machine.trashPath (some (.str rootName)) = .ok "/root/.Trash" := by decide +kernel
  have hpath : housed.machine.resolve "/a" (some (.str rootName)) (some "/root") = .ok "/a" := by decide +kernel
  have houtside : ∀ arg ∈ (Context.flagsAndOperands recursive.args).2,
      ∀ trash, housed.machine.trashPath (some recursive.user) = .ok trash → Outside recursive housed.machine trash arg := by
    rw [hflags]
    intro arg harg trash htrash' path hpath'
    cases List.mem_singleton.1 harg
    cases htrash.symm.trans htrash'
    cases hpath.symm.trans hpath'
    exact ⟨by decide, by decide +kernel⟩
  obtain ⟨s', hleaves, -, hin⟩ := hreach.rm_destroys_nothing recursive homeTerminal (by rw [hflags]; decide) houtside
  have hthere : (housed.machine.nodeAt "/a" (some (.str rootName))).toOption.join.isSome = true := by decide +kernel
  have hquiet : (removeOne recursive ['r'] "/root/.Trash" "/a" { machine := housed.machine, terminal := homeTerminal }).result? =
      some none := by decide +kernel
  obtain ⟨n, hn⟩ : ∃ n, housed.machine.nodeAt "/a" (some (.str rootName)) = .ok (some n) := by
    rcases hat : housed.machine.nodeAt "/a" (some (.str rootName)) with e | _ | n
    · rw [hat] at hthere
      cases hthere
    · rw [hat] at hthere
      cases hthere
    · exact ⟨n, rfl⟩
  obtain ⟨s₂, hdone⟩ := Progress.done_of_result? hquiet
  have hfinds : Finds recursive housed.machine "/a" n := ⟨"/a", hpath, hn⟩
  have hturn : Removes recursive { machine := housed.machine, terminal := homeTerminal } "/a"
      { machine := housed.machine, terminal := homeTerminal } (.done none s₂) := by
    refine ⟨"/root/.Trash", htrash, ?_, ?_⟩
    · rw [hflags]
      exact .first
    · rw [hflags]
      exact hdone
  exact ⟨hreach, s', n, hleaves, hfinds, hin _ _ s₂ n hturn hfinds⟩

end World

end SimUnix
