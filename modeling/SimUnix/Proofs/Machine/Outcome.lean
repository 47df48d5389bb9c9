/-
What a call on files leaves, as a whole. One that answers no has changed nothing but the log; one that has
changed the tree has brought the records up to date as its last step, or has given up before. Only the
trash may have been made on the way to a refusal.
-/
import SimUnix.Proofs.Machine.Calls
import SimUnix.Proofs.Machine.Operations

namespace SimUnix.Machine

open Tree Act

variable {s s₁ s' : Machine} {user? source? : Option Json} {α : Type}

/-! ## Outcomes -/

/-- Nothing but the log is different. -/
def Noted (s s' : Machine) : Prop := s' = { s with log := s'.log }

/-- Another tree, and records that are those of before or have been brought up to date with everything else in
place. -/
structure Made (s s' : Machine) : Prop where
  same : s' = { s with tree := s'.tree, log := s'.log, store := s'.store }
  writes : s'.store = s.store ∨ ∃ log x, Act.flush.run { s' with log, store := s.store } = (x, s')

theorem Noted.refl (s : Machine) : s.Noted s := rfl

theorem Noted.trans {s₁ s₂ s₃ : Machine} (h₁ : s₁.Noted s₂) (h₂ : s₂.Noted s₃) : s₁.Noted s₃ := by
  unfold Noted at h₁ h₂ ⊢
  rw [h₂, h₁]

theorem OnlyTree.made (h : s.OnlyTree s') : s.Made s' := by
  unfold OnlyTree at h
  refine ⟨?_, .inl ?_⟩ <;> rw [h]

/-- Logging a change and writing all records is the end of it. -/
theorem OnlyTree.changed (h : s.OnlyTree s₁) {message : String} {r : Except Fault Unit}
    (hrun : (changed message user?).run s₁ = (r, s')) : s.Made s' := by
  unfold OnlyTree at h
  unfold Act.changed at hrun
  rw [run_bind, run_get] at hrun
  dsimp only at hrun
  rw [run_bind, run_log] at hrun
  dsimp only at hrun
  have hsame := (aside_flush hrun).same
  have hstart : s₁.logged .info "fs" message (s₁.actor user?) =
      { s' with log := (s₁.logged .info "fs" message (s₁.actor user?)).log, store := s.store } := by
    rw [hsame, h]
    rfl
  refine ⟨?_, .inr ⟨_, r, hstart ▸ hrun⟩⟩
  rw [hsame, h]
  rfl

/-- Nothing but the log is different, or a change has been made. The answer is a refusal in the first case
only. -/
def Settled (refusal : α → Prop) (s : Machine) (r : Except Fault α) (s' : Machine) : Prop :=
  s.Noted s' ∨ s.Made s' ∧ ∀ a, r = .ok a → ¬ refusal a

/-- An action that settles everything, whatever comes of it. -/
def Settles (refusal : α → Prop) (m : Act α) : Prop := ∀ ⦃s s' r⦄, m.run s = (r, s') → Settled refusal s r s'

/-- The answer no. -/
abbrev Refused (yes : Bool) : Prop := yes = false

variable {refusal : α → Prop}

theorem settles_pure (a : α) : Settles refusal (pure a) := by
  intro s s' r hrun
  cases hrun
  exact .inl (.refl _)

theorem settles_read {f : Machine → Act α} (hf : ∀ s, Settles refusal (f s)) : Settles refusal (get >>= f) :=
  fun s _ _ hrun => hf s (got hrun)

theorem settles_ofExcept {β : Type} {x : Except Fault β} {f : β → Act α} (hf : ∀ b, Settles refusal (f b)) :
    Settles refusal (Act.ofExcept x >>= f) := by
  intro s s' r hrun
  rcases asked hrun with ⟨e, -, -, rfl⟩ | ⟨b, -, hrun⟩
  · exact .inl (.refl _)
  · exact hf b hrun

theorem settles_ask {β : Type} {question : Machine → Except Fault β} {f : β → Act α} (hf : ∀ b, Settles refusal (f b)) :
    Settles refusal (ask question >>= f) := by
  intro s s' r hrun
  rcases askedOf hrun with ⟨e, -, -, rfl⟩ | ⟨b, -, hrun⟩
  · exact .inl (.refl _)
  · exact hf b hrun

theorem settles_denied {what : String} {a : α} : Settles refusal (denied what user? >>= fun _ => pure a) := by
  intro s s' r hrun
  cases hrun
  exact .inl rfl

/-- An operation that is checked first, and whose change is one of the tree. -/
theorem settles_decide {β : Type} {check : Machine → Except Fault (Verdict β)} {change : β → Act String}
    (hchange : ∀ plan s₀, Keeps (OnlyTree s₀) (change plan)) : Settles Refused (Act.decide check user? change) := by
  refine settles_ask fun v => ?_
  cases v with
  | refused => exact settles_pure _
  | denied what who? => exact settles_denied
  | unchanged => exact settles_pure _
  | granted plan =>
    intro s s' r hrun
    rcases of_run_bind hrun with ⟨e, hplan, rfl⟩ | ⟨message, s₁, hplan, hrun⟩
    · exact .inr ⟨OnlyTree.made (hchange plan s (.refl s) hplan), fun _ he => by cases he⟩
    have h₁ : s.OnlyTree s₁ := hchange plan s (.refl s) hplan
    rcases of_run_bind hrun with ⟨e, hend, rfl⟩ | ⟨u, s₂, hend, hrun⟩
    · exact .inr ⟨h₁.changed hend, fun _ he => by cases he⟩
    · cases hrun
      refine .inr ⟨h₁.changed hend, fun a he => ?_⟩
      cases he
      exact Bool.true_eq_false_eq_False

/-! ## The operations -/

theorem onlyTree_pathOfId {s₀ : Machine} {id : NodeId} : Keeps (OnlyTree s₀) (pathOfId id) := by
  intro s s' r h hrun
  rw [run_pathOfId] at hrun
  cases hrun
  exact h

theorem settles_createNode {path name : String} {kind : NodeKind} {content : Json} {permissions? : Option Json} :
    Settles Refused (createNode path name kind content user? permissions?) :=
  settles_decide fun _ _ => keeps_read fun _ => keeps_bind onlyTree_addNew fun _ =>
    keeps_bind onlyTree_pathOfId fun _ => keeps_pure _

theorem settles_overwriteFile {path : String} {content : Json} : Settles Refused (overwriteFile path content user?) := by
  refine settles_read fun s => settles_ofExcept fun resolved => settles_ofExcept fun n? => ?_
  cases n? with
  | none => exact settles_createNode
  | some n => exact settles_decide fun _ _ => keeps_bind onlyTree_editTree fun _ => keeps_pure _

theorem settles_appendFile {path : String} {content : Json} : Settles Refused (appendFile path content user?) := by
  refine settles_ask fun n? => ?_
  cases n? with
  | none => exact settles_overwriteFile
  | some n =>
    dsimp only
    split
    · exact settles_pure _
    · exact settles_ofExcept fun _ => settles_overwriteFile

theorem settles_deleteNode {path : String} : Settles Refused (deleteNode path user?) :=
  settles_decide fun _ _ => keeps_read fun _ => keeps_bind (keeps_ofExcept _) fun _ => keeps_bind onlyTree_edit fun _ => keeps_pure _

theorem settles_chmod {path mode : String} : Settles Refused (chmod path mode user?) :=
  settles_decide fun _ _ => keeps_read fun _ => keeps_bind onlyTree_editTree fun _ =>
    keeps_bind onlyTree_pathOfId fun _ => keeps_pure _

theorem settles_chown {path owner : String} {group? : Option String} : Settles Refused (chown path owner group? user?) :=
  settles_decide fun _ _ => keeps_read fun _ => keeps_bind onlyTree_editTree fun _ =>
    keeps_bind onlyTree_pathOfId fun _ => keeps_pure _

theorem settles_relocate {n dir : Node} {name : Json} : Settles Refused (relocate n dir name user? source?) :=
  settles_decide fun _ _ => keeps_read fun _ => keeps_bind (keeps_ofExcept _) fun _ => keeps_bind (keeps_ofExcept _) fun _ =>
    keeps_bind onlyTree_editTree fun _ => keeps_bind onlyTree_pathOfId fun _ => keeps_pure _

theorem settles_moveNode {source target : String} : Settles Refused (moveNode source target user?) := by
  refine settles_read fun s => settles_ofExcept fun n? => ?_
  cases n? with
  | none => exact settles_pure _
  | some n =>
    refine settles_ofExcept fun root => ?_
    split
    · exact settles_pure _
    refine settles_ofExcept fun place? => ?_
    split
    · exact settles_relocate
    refine settles_ofExcept fun resolved => settles_ofExcept fun dir? => ?_
    cases dir? with
    | none => exact settles_pure _
    | some dir => exact settles_relocate

theorem settles_moveById {id : NodeId} {path : String} : Settles Refused (moveById id path user? source?) := by
  refine settles_read fun s => settles_ofExcept fun dir? => ?_
  split
  · refine settles_ofExcept fun root => ?_
    split
    · exact settles_pure _
    · exact settles_relocate
  · exact settles_pure _

theorem settles_copyById {id : NodeId} {path : String} {name? : Option String} :
    Settles Refused (copyById id path user? source? name?) :=
  settles_decide fun _ _ => keeps_read fun _ => keeps_bind onlyTree_edit fun _ => keeps_bind onlyTree_editTree fun _ =>
    keeps_bind onlyTree_pathOfId fun _ => keeps_bind onlyTree_pathOfId fun _ => keeps_pure _

/-! ## The trash -/

/-- The trash is found, cannot be made, or is made and written down. Each is an answer. -/
theorem settles_ensureTrash : Settles (fun _ => False) (ensureTrash user?) := by
  refine settles_read fun s => settles_ofExcept fun path => settles_ofExcept fun home? => ?_
  cases home? with
  | none => exact settles_pure _
  | some home =>
    dsimp only
    split
    · exact settles_pure _
    refine settles_ofExcept fun trash? => ?_
    cases trash? with
    | some trash => exact settles_pure _
    | none =>
      refine settles_ofExcept fun place => settles_ofExcept fun may => ?_
      split
      · exact settles_denied
      · intro s₀ s' r hrun
        rw [run_bind, run_addNew] at hrun
        dsimp only at hrun
        rw [run_bind] at hrun
        generalize hplace : "created " ++ _ = message at hrun
        generalize hnew : ({ s₀ with tree := _ } : Machine) = s₂ at hrun
        have h₂ : s₀.OnlyTree s₂ := by
          rw [← hnew]
          exact rfl
        rcases hend : (Act.changed message user?).run s₂ with ⟨y, s₁⟩
        have h₁ := h₂.changed hend
        rw [hend] at hrun
        cases y <;> cases hrun <;> exact .inr ⟨h₁, fun _ _ => id⟩

/-- Emptying the trash gives up on the way, or is written down in the end. -/
theorem settles_emptyTrash : Settles (· = 0) (emptyTrash user?) := by
  refine settles_read fun s => settles_ofExcept fun trash? => ?_
  cases trash? with
  | none => exact settles_pure _
  | some trash =>
    dsimp only
    split
    · exact settles_pure _
    refine settles_ofExcept fun may => ?_
    split
    · exact settles_ofExcept fun _ => settles_denied
    refine settles_ofExcept fun items => ?_
    cases items with
    | nil => exact settles_pure _
    | cons i items =>
      intro s₀ s' r hrun
      have hloop : Keeps (OnlyTree s₀) (forIn (i :: items) PUnit.unit fun i _ =>
          discard (Act.edit (Tree.remove i s.now)) >>= fun _ => pure (.yield PUnit.unit)) :=
        keeps_for fun _ _ => keeps_discard onlyTree_edit
      rcases of_run_bind hrun with ⟨e, hfirst, rfl⟩ | ⟨u, s₁, hfirst, hrun⟩
      · exact .inr ⟨OnlyTree.made (hloop (.refl s₀) hfirst), fun _ he => by cases he⟩
      have h₁ : s₀.OnlyTree s₁ := hloop (.refl s₀) hfirst
      rw [if_pos (by rfl)] at hrun
      rcases of_run_bind hrun with ⟨e, hend, rfl⟩ | ⟨u, s₂, hend, hrun⟩
      · exact .inr ⟨h₁.changed hend, fun _ he => by cases he⟩
      · cases hrun
        refine .inr ⟨h₁.changed hend, fun a he hzero => ?_⟩
        cases he
        cases hzero

/-- Moving into the trash: nothing but the log is different, or the trash has been looked for, and everything
after that is one move. -/
theorem run_moveToTrash {path : String} {r : Except Fault Bool} (hrun : (moveToTrash path user?).run s = (r, s')) :
    s.Noted s' ∨ ∃ x s₁, (ensureTrash user?).run s = (x, s₁) ∧ Settled Refused s₁ r s' := by
  rcases moveToTrash_cases hrun with ⟨hlog, -⟩ | ⟨n, x, s₁, -, hens, hend⟩
  · exact .inl hlog
  refine .inr ⟨x, s₁, hens, ?_⟩
  rcases hend with ⟨rfl, -⟩ | ⟨trash, name, -, -, -, -, hmove⟩
  · exact .inl (.refl _)
  · exact settles_relocate hmove

/-! ## Calls -/

/-- The answers that say that nothing has been done. -/
def Answer.Refusal : Answer → Prop
  | truth yes => Refused yes
  | count n => n = 0

theorem Settled.map {x : Except Fault α} {r : Except Fault Answer} {f : α → Answer} (h : Settled refusal s x s')
    (hf : ∀ a, (f a).Refusal → refusal a) (hr : ∀ b, r = .ok b → ∃ a, x = .ok a ∧ b = f a) : Settled Answer.Refusal s r s' := by
  refine h.imp_right fun ⟨hmade, hno⟩ => ⟨hmade, fun b hb hrefusal => ?_⟩
  obtain ⟨a, ha, rfl⟩ := hr b hb
  exact hno a ha (hf a hrefusal)

theorem run_answer {m : Act α} {f : α → Answer} {r : Except Fault Answer} (hrun : (f <$> m).run s = (r, s')) :
    ∃ x, m.run s = (x, s') ∧ ∀ b, r = .ok b → ∃ a, x = .ok a ∧ b = f a := by
  rw [run_map] at hrun
  rcases hm : m.run s with ⟨x, s₁⟩
  rw [hm] at hrun
  cases x with
  | error e =>
    cases hrun
    exact ⟨_, rfl, fun _ hb => by cases hb⟩
  | ok a =>
    cases hrun
    refine ⟨_, rfl, fun b hb => ?_⟩
    cases hb
    exact ⟨a, rfl, rfl⟩

theorem Settles.answer {m : Act α} {f : α → Answer} (h : Settles refusal m) (hf : ∀ a, (f a).Refusal → refusal a) :
    Settles Answer.Refusal (f <$> m) := by
  intro s s' r hrun
  obtain ⟨x, hx, hr⟩ := run_answer hrun
  exact (h hx).map hf hr

/-- A call settles everything at once, or is one into the trash, which may have been made before. -/
theorem FileCall.settled (c : FileCall) {r : Except Fault Answer} (hrun : (c.run user? source?).run s = (r, s')) :
    Settled Answer.Refusal s r s' ∨
      ∃ path x s₁, c = .moveToTrash path ∧ (ensureTrash user?).run s = (x, s₁) ∧ Settled Answer.Refusal s₁ r s' := by
  have htruth : ∀ yes, (Answer.truth yes).Refusal → Refused yes := fun _ h => h
  cases c
  case moveToTrash path =>
    obtain ⟨x, hx, hr⟩ := run_answer hrun
    rcases run_moveToTrash hx with hn | ⟨y, s₁, hens, h₁⟩
    · exact .inl (.inl hn)
    · exact .inr ⟨path, y, s₁, rfl, hens, h₁.map htruth hr⟩
  case createFile => exact .inl (settles_createNode.answer htruth hrun)
  case createDirectory => exact .inl (settles_createNode.answer htruth hrun)
  case writeFile => exact .inl (settles_overwriteFile.answer htruth hrun)
  case appendFile => exact .inl (settles_appendFile.answer htruth hrun)
  case deleteNode => exact .inl (settles_deleteNode.answer htruth hrun)
  case emptyTrash => exact .inl (settles_emptyTrash.answer (f := .count) (fun _ h => h) hrun)
  case moveNode => exact .inl (settles_moveNode.answer htruth hrun)
  case moveById => exact .inl (settles_moveById.answer htruth hrun)
  case copyById => exact .inl (settles_copyById.answer htruth hrun)
  case chmod => exact .inl (settles_chmod.answer htruth hrun)
  case chown => exact .inl (settles_chown.answer htruth hrun)

/-- A refusal leaves everything as it was but the log. Only where something was to be moved into a trash that was not there, a new
trash may have been made and written down before. -/
theorem FileCall.refused (c : FileCall) {a : Answer} (hrun : (c.run user? source?).run s = (.ok a, s')) (hno : a.Refusal) :
    s.Noted s' ∨ ∃ path place home s₁, c = .moveToTrash path ∧ (s.homePath user?).bind Json.asOwnText = .ok place ∧
      s.tree.lookup place = .ok (some home) ∧ s.tree.childNamed home trashName = .ok none ∧ s.Allows home .write user? ∧
      s.Made s₁ ∧ s₁.tree = s.tree.takeId.2.add ((s.newTrash user?).build s) home.id s.now ∧ s₁.Noted s' := by
  have hnoted : ∀ {s}, Settled Answer.Refusal s (.ok a) s' → s.Noted s' := fun h =>
    h.resolve_right fun h => h.2 a rfl hno
  rcases c.settled hrun with hsettled | ⟨path, x, s₁, rfl, hens, hsettled⟩
  · exact .inl (hnoted hsettled)
  rcases ensureTrash_cases hens with ⟨hlog, -⟩ | ⟨place, home, hplace, hlook, -, hchild, hmay, ha, -⟩
  · exact .inl (Noted.trans hlog (hnoted hsettled))
  rcases settles_ensureTrash hens with hlog | ⟨hmade, -⟩
  · exact .inl (Noted.trans hlog (hnoted hsettled))
  · exact .inr ⟨path, place, home, s₁, rfl, hplace, hlook, hchild, hmay, hmade, ha.tree, hnoted hsettled⟩

/-- A system that has not been started, and in which root has made a directory for its home. -/
def housed : Machine :=
  (Operation.file (.createDirectory "/" "root") (some (.str rootName)) none).after
    (create (.memory []) "aurora" {} { stem := "n" } { seconds := 0 })

theorem housed_reachable : housed.Reachable := Reachable.perform (.first Store.empty_memory) _

/-- Root's home is not moved into the trash that would have to be in it. -/
theorem run_home : ∃ s', ((FileCall.moveToTrash "/root").run (some (.str rootName)) none).run housed = (.ok (.truth false), s') ∧
    housed.tree.lookup "/root/.Trash" = .ok none ∧ s'.tree.lookup "/root/.Trash" ≠ .ok none := by
  have hanswer : ((moveToTrash "/root" (some (.str rootName))).run housed).1 = .ok false := by decide +kernel
  have hbefore : housed.tree.lookup "/root/.Trash" = .ok none := by decide +kernel
  have hafter : ((moveToTrash "/root" (some (.str rootName))).run housed).2.tree.lookup "/root/.Trash" ≠ .ok none := by decide +kernel
  rcases hrun : (moveToTrash "/root" (some (.str rootName))).run housed with ⟨answer, s'⟩
  rw [hrun] at hanswer hafter
  subst hanswer
  refine ⟨s', ?_, hbefore, hafter⟩
  show (Answer.truth <$> moveToTrash "/root" (some (.str rootName))).run housed = _
  rw [run_map, hrun]

theorem refused_home : ∃ s' s₁, housed.Reachable ∧
    ((FileCall.moveToTrash "/root").run (some (.str rootName)) none).run housed = (.ok (.truth false), s') ∧
    Answer.Refusal (.truth false) ∧ housed.Made s₁ ∧ s₁.Noted s' := by
  obtain ⟨s', hrun, hbefore, hafter⟩ := run_home
  rcases FileCall.refused (.moveToTrash "/root") hrun rfl with hlog | ⟨_, _, _, s₁, -, -, -, -, -, hmade, -, hnoted⟩
  · rw [hlog] at hafter
    exact absurd hbefore hafter
  · exact ⟨s', s₁, housed_reachable, hrun, rfl, hmade, hnoted⟩

/-- A refusal does not always leave the files as they were. -/
theorem trash_left : ¬ ∀ (s s' : Machine) (c : FileCall) (user? source? : Option Json) (a : Answer), s.Reachable →
    (c.run user? source?).run s = (.ok a, s') → a.Refusal → s'.tree = s.tree := by
  intro hall
  obtain ⟨s', hrun, hbefore, hafter⟩ := run_home
  rw [hall _ _ _ _ _ _ housed_reachable hrun rfl] at hafter
  exact hafter hbefore

end SimUnix.Machine
