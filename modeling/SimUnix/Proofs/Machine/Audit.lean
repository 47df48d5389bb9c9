/-
What operations on files write down in the log. Whoever changes the tree is named by an entry, and so is everybody who is
refused for want of a right; nothing else is written down.
-/
import SimUnix.Proofs.Machine.Freeze
import SimUnix.Proofs.Machine.Outcome
import SimUnix.Proofs.Machine.Rights
import SimUnix.Proofs.Machine.Spared

namespace SimUnix

/-! ## Entries -/

namespace Log

/-- The newest entry stays, unless the log holds none at all. -/
theorem newest_foldl {log : Log} (hcap : 0 < log.capacity) (es : List LogEntry) (e : LogEntry) :
    ((es ++ [e]).foldl Log.add log).entries.getLast? = some e := by
  have hkept : ∀ (es : List LogEntry) (log : Log), (es.foldl Log.add log).capacity = log.capacity := by
    intro es
    induction es with
    | nil => exact fun _ => rfl
    | cons e es ih => exact fun log => ih (log.add e)
  rw [List.foldl_append]
  show ((_ ++ [e]).drop _).getLast? = some e
  rw [List.getLast?_drop, hkept, if_neg, List.getLast?_concat]
  rw [List.length_append, List.length_singleton]
  omega

end Log

/-- Entries about what somebody does: each tells of a change that is made by the one who acts, or warns of somebody who is
refused, and neither a change nor a refusal goes without an entry. -/
structure Journal (agent : Json) (refuses : Json → Prop) (changed : Prop) (es : List LogEntry) : Prop where
  tells : ∀ e ∈ es, e.level = .info ∧ e.user = agent ∨ e.level = .warning ∧ refuses e.user
  changes : changed → ∃ e ∈ es, e.level = .info
  refusals : (∃ who, refuses who) → ∃ e ∈ es, e.level = .warning

namespace Machine

open Tree Act

variable {α β : Type} {s s₁ s' : Machine} {agent : Json} {refuses refuses₁ refuses₂ : Json → Prop} {changed changed₁ changed₂ : Prop}
  {user? source? : Option Json} {needs : Need → Prop}

/-- The log has got such entries. -/
def Journals (s : Machine) (agent : Json) (refuses : Json → Prop) (changed : Prop) (s' : Machine) : Prop :=
  ∃ es, s'.log = es.foldl Log.add s.log ∧ Journal agent refuses changed es

/-- Nothing is written down where nothing is changed and nobody is refused. -/
theorem journals_silent (hlog : s'.log = s.log) (hnone : ∀ who, ¬ refuses who) (hsame : ¬ changed) : s.Journals agent refuses changed s' :=
  ⟨[], hlog, nofun, fun hc => absurd hc hsame, fun ⟨who, hwho⟩ => absurd hwho (hnone who)⟩

theorem journals_change {e : LogEntry} (hlog : s'.log = s.log.add e) (hlevel : e.level = .info) (huser : e.user = agent)
    (hnone : ∀ who, ¬ refuses who) : s.Journals agent refuses changed s' := by
  refine ⟨[e], hlog, ?_, fun _ => ⟨e, List.mem_singleton_self e, hlevel⟩, fun ⟨who, hwho⟩ => absurd hwho (hnone who)⟩
  simp [hlevel, huser]

theorem journals_refusal {e : LogEntry} (hlog : s'.log = s.log.add e) (hlevel : e.level = .warning) (huser : refuses e.user)
    (hsame : ¬ changed) : s.Journals agent refuses changed s' := by
  refine ⟨[e], hlog, ?_, fun hc => absurd hc hsame, fun _ => ⟨e, List.mem_singleton_self e, hlevel⟩⟩
  simp [hlevel, huser]

/-- What is written down on the way and then is written down in all. -/
theorem Journals.trans (h₁ : s.Journals agent refuses₁ changed₁ s₁) (h₂ : s₁.Journals agent refuses₂ changed₂ s')
    (hrefuses : ∀ who, refuses who ↔ refuses₁ who ∨ refuses₂ who) (hchanged : changed → changed₁ ∨ changed₂) :
    s.Journals agent refuses changed s' := by
  obtain ⟨es₁, hlog₁, htells₁, hchanges₁, hrefusals₁⟩ := h₁
  obtain ⟨es₂, hlog₂, htells₂, hchanges₂, hrefusals₂⟩ := h₂
  refine ⟨es₁ ++ es₂, by rw [List.foldl_append, ← hlog₁, hlog₂], fun e he => ?_, fun hc => ?_, fun ⟨who, hwho⟩ => ?_⟩
  · rcases List.mem_append.1 he with he | he
    · exact (htells₁ e he).imp_right (.imp_right fun h => (hrefuses _).2 (.inl h))
    · exact (htells₂ e he).imp_right (.imp_right fun h => (hrefuses _).2 (.inr h))
  · rcases hchanged hc with h | h
    · exact (hchanges₁ h).imp fun e he => ⟨List.mem_append_left _ he.1, he.2⟩
    · exact (hchanges₂ h).imp fun e he => ⟨List.mem_append_right _ he.1, he.2⟩
  · rcases (hrefuses who).1 hwho with h | h
    · exact (hrefusals₁ ⟨who, h⟩).imp fun e he => ⟨List.mem_append_left _ he.1, he.2⟩
    · exact (hrefusals₂ ⟨who, h⟩).imp fun e he => ⟨List.mem_append_right _ he.1, he.2⟩

theorem Journals.of_iff (h : s.Journals agent refuses₁ changed₁ s') (hrefuses : ∀ who, refuses who ↔ refuses₁ who)
    (hchanged : changed → changed₁) : s.Journals agent refuses changed s' := by
  obtain ⟨es, hlog, htells, hchanges, hrefusals⟩ := h
  exact ⟨es, hlog, fun e he => (htells e he).imp_right (.imp_right (hrefuses _).2), fun hc => hchanges (hchanged hc),
    fun ⟨who, hwho⟩ => hrefusals ⟨who, (hrefuses who).1 hwho⟩⟩

/-! ## Runs -/

/-- A run that comes to an answer leaves another tree. -/
def Alters (s : Machine) (r : Except Fault α) (s' : Machine) : Prop := (∃ a, r = .ok a) ∧ s'.tree ≠ s.tree

theorem not_alters {r : Except Fault α} : ¬ s.Alters r s := fun h => h.2 rfl

/-- A call that is refused to nobody and does nothing. -/
theorem journals_idle {r : Except Fault α} (hnone : ∀ need, ¬ needs need) : s.Journals agent (s.Refuses needs) (s.Alters r s) s :=
  journals_silent rfl (fun _ ⟨need, hneed, _⟩ => hnone need hneed) not_alters

theorem Weighs.of_iff {needs' : Need → Prop} {v : Except Fault (Verdict β)} (h : s.Weighs needs v) (hiff : ∀ need, needs' need ↔ needs need) :
    s.Weighs needs' v := by
  rw [show needs' = needs from funext fun need => propext (hiff need)]
  exact h

/-- Writing the records down leaves the log as it is. -/
theorem log_flush {x : Except Fault Unit} (hrun : Act.flush.run s = (x, s')) : s'.log = s.log := by
  have hrecord : ∀ r : String × Except Fault Json, Keeps (fun t => t.log = s.log) (writeRecord r.1 r.2) := fun r =>
    keeps_bind (keeps_ofExcept _) fun _ => keeps_modify fun _ h => h
  have hrecords : ∀ rs : List (String × Except Fault Json), Keeps (fun t => t.log = s.log) (rs.forM fun r => writeRecord r.1 r.2) := by
    intro rs
    induction rs with
    | nil => exact keeps_pure _
    | cons r rs ih => exact keeps_bind (hrecord r) fun _ => ih
  have hrun := got hrun
  split at hrun
  · exact hrecords _ rfl hrun
  · cases hrun
    rfl

/-- A change is written down once, by the one who acts. -/
theorem log_changed {message : String} {x : Except Fault Unit} (hrun : (Act.changed message user?).run s = (x, s')) :
    s'.log = s.log.add { level := .info, source := "fs", message, user := s.actor user? } := by
  have hrun := got hrun
  rw [run_bind, run_log] at hrun
  exact log_flush hrun

theorem OnlyTree.log (h : s.OnlyTree s') : s'.log = s.log := by
  unfold OnlyTree at h
  rw [h]

theorem OnlyTree.actor (h : s.OnlyTree s') : s'.actor user? = s.actor user? := by
  unfold OnlyTree at h
  unfold Machine.actor
  rw [h]

/-- A change that is written down in the end. -/
theorem journals_changed (h : s.OnlyTree s₁) (hnone : ∀ who, ¬ refuses who) {message : String} {a : α} {r : Except Fault α}
    (hrun : (Act.changed message user? >>= fun _ => pure a : Act α).run s₁ = (r, s')) :
    s.Journals (s.actor user?) refuses changed s' := by
  obtain ⟨x, hend⟩ : ∃ x, (Act.changed message user?).run s₁ = (x, s') := by
    rcases of_run_bind hrun with ⟨e, hend, -⟩ | ⟨_, s₂, hend, hrun⟩
    · exact ⟨_, hend⟩
    · cases hrun
      exact ⟨_, hend⟩
  have hlog := log_changed hend
  rw [h.log, h.actor] at hlog
  exact journals_change hlog rfl rfl hnone

/-- What is checked first is refused to those who lack a right, or done and written down, or there is nothing to be done. -/
theorem journals_decide {check : Machine → Except Fault (Verdict β)} {change : β → Act String} {r : Except Fault Bool}
    (hw : s.Weighs needs (check s)) (hchange : ∀ plan s₀, Keeps (OnlyTree s₀) (change plan))
    (hrun : (Act.decide check user? change).run s = (r, s')) :
    s.Journals (s.actor user?) (s.Refuses needs) (s.Alters r s') s' := by
  have hnobody : (∀ what who?, check s ≠ .ok (.denied what who?)) → ∀ who, ¬ s.Refuses needs who :=
    fun hno who ⟨need, hneed, hlacking, _⟩ => by
      obtain ⟨what, who?, hv⟩ := hw.denied hneed hlacking
      exact hno what who? hv
  rcases askedOf hrun with ⟨e, hv, rfl, rfl⟩ | ⟨v, hv, hrun⟩
  · exact journals_silent rfl (hnobody (by simp [hv])) not_alters
  cases v with
  | refused =>
    cases hrun
    exact journals_silent rfl (hnobody (by simp [hv])) not_alters
  | unchanged =>
    cases hrun
    exact journals_silent rfl (hnobody (by simp [hv])) not_alters
  | denied what who? =>
    obtain ⟨need, hneed, hlacking, rfl⟩ := hw.lacking hv
    cases hrun
    exact journals_refusal rfl rfl ⟨need, hneed, hlacking, rfl⟩ fun h => h.2 rfl
  | granted plan =>
    have hnobody := hnobody (by simp [hv])
    rcases of_run_bind hrun with ⟨e, hplan, rfl⟩ | ⟨message, s₁, hplan, hrun⟩
    · exact journals_silent (hchange plan s (.refl s) hplan).log hnobody fun h => nomatch h.1
    exact journals_changed (hchange plan s (.refl s) hplan) hnobody hrun

/-! ## Files -/

variable {path name : String} {r : Except Fault Bool}

theorem journals_createNode (hl : Linked s.tree) {kind : NodeKind} {content : Json} {permissions? : Option Json}
    (hrun : (createNode path name kind content user? permissions?).run s = (r, s')) :
    s.Journals (s.actor user?) (s.Refuses (s.CreationNeeds path name user?)) (s.Alters r s') s' :=
  journals_decide (weighs_create hl) (fun _ _ => keeps_read fun _ => keeps_bind onlyTree_addNew fun _ =>
    keeps_bind onlyTree_pathOfId fun _ => keeps_pure _) hrun

/-- A path that leads to a node asks for the right to write to it, any other one for the right to make it. -/
theorem writingNeeds_iff {resolved : String} {found? : Option Node} (hres : s.resolve path user? none = .ok resolved)
    (hlook : s.tree.lookup resolved = .ok found?) {need : Need} : s.WritingNeeds path user? need ↔
      match found? with
      | none => s.CreationNeeds (parentOrRoot (Path.split resolved).1) (Path.split resolved).2 user? need
      | some n => n.isDir = false ∧ need = .access n .write user? := by
  have hat : s.nodeAt path user? = .ok found? := bind_ok.2 ⟨resolved, hres, hlook⟩
  constructor
  · rintro (⟨hfound, hfile⟩ | ⟨hres', hfree, hcreation⟩)
    · cases hat.symm.trans hfound
      exact ⟨hfile, rfl⟩
    · cases hres.symm.trans hres'
      cases hlook.symm.trans hfree
      exact hcreation
  · intro h
    rcases found? with _ | n
    · exact .create hres hlook h
    · obtain ⟨hfile, rfl⟩ := h
      exact .write hat hfile

theorem journals_overwriteFile (ht : s.Tidy) (hl : Linked s.tree) (hu : UserArg user?) {content : Json}
    (hrun : (overwriteFile path content user?).run s = (r, s')) :
    s.Journals (s.actor user?) (s.Refuses (s.WritingNeeds path user?)) (s.Alters r s') s' := by
  obtain ⟨resolved, hres⟩ := ht.resolve_ok hu path none
  obtain ⟨found?, hlook⟩ := hl.lookup_ok resolved
  have hneeds (need : Need) : s.WritingNeeds path user? need ↔ _ := writingNeeds_iff hres hlook
  have hrun := (next_given hlook rfl).symm.trans ((next_given hres rfl).symm.trans (got hrun))
  cases found? with
  | none =>
    rw [show s.WritingNeeds path user? = _ from funext fun need => propext (hneeds need)]
    exact journals_createNode hl hrun
  | some n =>
    exact journals_decide ((weighs_write (n := n)).of_iff hneeds)
      (fun _ _ => keeps_bind onlyTree_editTree fun _ => keeps_pure _) hrun

theorem journals_appendFile (ht : s.Tidy) (hl : Linked s.tree) (hu : UserArg user?) {content : String}
    (hrun : (appendFile path content user?).run s = (r, s')) :
    s.Journals (s.actor user?) (s.Refuses (s.WritingNeeds path user?)) (s.Alters r s') s' := by
  obtain ⟨resolved, hres⟩ := ht.resolve_ok hu path none
  obtain ⟨found?, hlook⟩ := hl.lookup_ok resolved
  have hat : s.nodeAt path user? = .ok found? := bind_ok.2 ⟨resolved, hres, hlook⟩
  have hrun := (next_ask hat rfl).symm.trans hrun
  cases found? with
  | none => exact journals_overwriteFile ht hl hu hrun
  | some n =>
    dsimp only at hrun
    split at hrun
    · rename_i hdir
      cases hrun
      refine journals_idle fun need hneed => ?_
      rw [(writingNeeds_iff hres hlook).1 hneed |>.1] at hdir
      cases hdir
    · obtain ⟨-, -, old, hold⟩ := hl.written (bare_some.2 ⟨n, (nodeAt_found hl hat).1, rfl⟩)
      obtain ⟨joined, hjoined⟩ : ∃ joined, appended n.content (.str content) = .ok joined := by
        rw [show n.content = .str old from hold]
        exact ⟨_, rfl⟩
      exact journals_overwriteFile ht hl hu ((next_given hjoined rfl).symm.trans hrun)

theorem journals_deleteNode (hl : Linked s.tree) (hrun : (deleteNode path user?).run s = (r, s')) :
    s.Journals (s.actor user?) (s.Refuses (s.RemovalNeeds path user?)) (s.Alters r s') s' :=
  journals_decide (weighs_remove hl) (fun _ _ => keeps_read fun _ => keeps_bind (keeps_ofExcept _) fun _ =>
    keeps_bind onlyTree_edit fun _ => keeps_pure _) hrun

theorem journals_chmod (hl : Linked s.tree) {mode : String} (hrun : (chmod path mode user?).run s = (r, s')) :
    s.Journals (s.actor user?) (s.Refuses (s.ChmodNeeds path user?)) (s.Alters r s') s' :=
  journals_decide (weighs_chmod hl) (fun _ _ => keeps_read fun _ => keeps_bind onlyTree_editTree fun _ =>
    keeps_bind onlyTree_pathOfId fun _ => keeps_pure _) hrun

theorem journals_chown (hl : Linked s.tree) {owner : String} {group? : Option String}
    (hrun : (chown path owner group? user?).run s = (r, s')) :
    s.Journals (s.actor user?) (s.Refuses (s.ChownNeeds path user?)) (s.Alters r s') s' :=
  journals_decide (weighs_chown hl) (fun _ _ => keeps_read fun _ => keeps_bind onlyTree_editTree fun _ =>
    keeps_bind onlyTree_pathOfId fun _ => keeps_pure _) hrun

/-! ## Moves and copies -/

variable {n dir : Node} {id : NodeId}

theorem journals_relocate (ht : s.Tidy) (hl : Linked s.tree) (hn : s.tree.get? n.id = some n) (hd : s.tree.get? dir.id = some dir)
    (hu : UserArg user?) (hv : UserArg source?) {own : Json} (hrun : (relocate n dir own user? source?).run s = (r, s')) :
    s.Journals (s.actor user?) (s.Refuses (s.RelocationNeeds n dir own user? source?)) (s.Alters r s') s' :=
  journals_decide (weighs_relocate ht hl hn hd hu hv) (fun _ _ => keeps_read fun _ => keeps_bind (keeps_ofExcept _) fun _ =>
    keeps_bind (keeps_ofExcept _) fun _ => keeps_bind onlyTree_editTree fun _ => keeps_bind onlyTree_pathOfId fun _ =>
      keeps_pure _) hrun

/-- The root is nowhere to be moved to, since it lies in no directory. -/
theorem RelocationNeeds.ne_root {own : Json} {need : Need} (h : s.RelocationNeeds n dir own user? source? need) (hl : Linked s.tree)
    (hn : s.tree.get? n.id = some n) {root : Node} (hroot : s.tree.root = .ok root) : n.id ≠ root.id := by
  obtain ⟨parent, hbelow⟩ : ∃ parent, s.tree.parentOf? n = some parent := by
    rcases h with ⟨hm⟩ | ⟨hm⟩ <;> exact ⟨_, hm.below⟩
  intro he
  have hloose := hl.loose_root
  rw [← hl.id_eq (node_ok.1 hroot), ← he] at hloose
  rw [(hl.parentOf_none hn).2 hloose] at hbelow
  cases hbelow

theorem journals_moveNode (ht : s.Tidy) (hl : Linked s.tree) (hu : UserArg user?) {source target : String}
    (hrun : (moveNode source target user?).run s = (r, s')) :
    s.Journals (s.actor user?) (s.Refuses (s.MoveNeeds source target user?)) (s.Alters r s') s' := by
  obtain ⟨n?, hat⟩ := ht.nodeAt_ok hl hu source
  obtain ⟨root, hroot, -⟩ := hl.root_ok
  obtain ⟨place?, hplace⟩ := ht.nodeAt_ok hl hu target
  obtain ⟨resolved, hres⟩ := ht.resolve_ok hu target none
  obtain ⟨dir?, hlook⟩ := hl.lookup_ok (parentOrRoot (Path.split resolved).1)
  have hrun := (next_given hat rfl).symm.trans (got hrun)
  rcases n? with _ | n
  · cases hrun
    exact journals_idle fun _ ⟨hfound, _, _⟩ => by cases hat.symm.trans hfound
  have hn := (nodeAt_found hl hat).1
  have hrun := (next_given hroot rfl).symm.trans hrun
  split at hrun
  · rename_i hisRoot
    cases hrun
    refine journals_idle fun _ ⟨hfound, _, hneeds⟩ => ?_
    cases hat.symm.trans hfound
    exact hneeds.ne_root hl hn hroot (beq_iff_eq.1 hisRoot)
  have hrun := (next_given hplace rfl).symm.trans hrun
  split at hrun
  · rename_i dir hfilter
    obtain ⟨rfl, hdir⟩ := Option.filter_eq_some_iff.1 hfilter
    simp only [Bool.and_eq_true, bne_iff_ne, ne_eq] at hdir
    refine (show s.MoveNeeds source target user? = s.RelocationNeeds n dir n.name user? user? from ?_) ▸
      journals_relocate ht hl hn (nodeAt_found hl hplace).1 hu hu hrun
    refine funext fun need => propext ⟨fun ⟨hfound, hleads, hneeds⟩ => ?_, fun h => .move hat (.into hplace hdir.1 hdir.2) h⟩
    cases hat.symm.trans hfound
    cases hleads with
    | into hfound _ _ =>
      cases hplace.symm.trans hfound
      exact hneeds
    | onto hnowhere _ _ => exact absurd (hnowhere _ hplace hdir.1) hdir.2
  · rename_i hfilter
    have hnowhere : ∀ d, s.nodeAt target user? = .ok (some d) → d.isDir = true → d.id = n.id := fun d hd hisDir => by
      cases hplace.symm.trans hd
      simpa [hisDir] using hfilter
    have hrun := (next_given hlook rfl).symm.trans ((next_given hres rfl).symm.trans hrun)
    have honly : ∀ {need}, s.MoveNeeds source target user? need → ∃ dir, dir? = some dir ∧
        s.RelocationNeeds n dir (.str (Path.split resolved).2) user? user? need := fun ⟨hfound, hleads, hneeds⟩ => by
      cases hat.symm.trans hfound
      cases hleads with
      | into hfound hisDir hother => exact absurd (hnowhere _ hfound hisDir) hother
      | onto _ hres' hlook' =>
        cases hres.symm.trans hres'
        cases hlook.symm.trans hlook'
        exact ⟨_, rfl, hneeds⟩
    rcases dir? with _ | dir
    · cases hrun
      exact journals_idle fun _ hneeds => by obtain ⟨_, hnone, -⟩ := honly hneeds; cases hnone
    · refine (show s.MoveNeeds source target user? = s.RelocationNeeds n dir (.str (Path.split resolved).2) user? user? from ?_) ▸
        journals_relocate ht hl hn (hl.lookup_found hlook).1 hu hu hrun
      refine funext fun need => propext ⟨fun hneeds => ?_, fun h => .move hat (.onto hnowhere hres hlook) h⟩
      obtain ⟨_, hdir, hneeds⟩ := honly hneeds
      cases hdir
      exact hneeds

theorem journals_moveById (ht : s.Tidy) (hl : Linked s.tree) (hu : UserArg user?) (hv : UserArg source?)
    (hrun : (moveById id path user? source?).run s = (r, s')) :
    s.Journals (s.actor user?) (s.Refuses (s.MoveByIdNeeds id path user? source?)) (s.Alters r s') s' := by
  obtain ⟨dir?, hat⟩ := ht.nodeAt_ok hl hu path
  obtain ⟨root, hroot, -⟩ := hl.root_ok
  have hrun := (next_given hat rfl).symm.trans (got hrun)
  split at hrun
  · rename_i n dir hnode
    have hn := hl.get_self hnode
    have hrun := (next_given hroot rfl).symm.trans hrun
    split at hrun
    · rename_i hisRoot
      cases hrun
      refine journals_idle fun _ ⟨hnode', _, hneeds⟩ => ?_
      cases hnode.symm.trans hnode'
      exact hneeds.ne_root hl hn hroot (beq_iff_eq.1 hisRoot)
    · refine (show s.MoveByIdNeeds id path user? source? = s.RelocationNeeds n dir n.name user? source? from ?_) ▸
        journals_relocate ht hl hn (nodeAt_found hl hat).1 hu hv hrun
      refine funext fun need => propext ⟨fun ⟨hnode', hfound, hneeds⟩ => ?_, fun h => .move hnode hat h⟩
      cases hnode.symm.trans hnode'
      cases hat.symm.trans hfound
      exact hneeds
  · rename_i hnothing
    cases hrun
    refine journals_idle fun _ ⟨hnode, hfound, _⟩ => ?_
    cases hat.symm.trans hfound
    exact hnothing _ _ hnode rfl

theorem journals_copyById (ht : s.Tidy) (hl : Linked s.tree) (hu : UserArg user?) (hv : UserArg source?) {name? : Option String}
    (hrun : (copyById id path user? source? name?).run s = (r, s')) :
    s.Journals (s.actor user?) (s.Refuses (s.CopyNeeds id path user? source?)) (s.Alters r s') s' :=
  journals_decide (weighs_copy ht hl hu hv) (fun _ _ => keeps_read fun _ => keeps_bind onlyTree_edit fun _ =>
    keeps_bind onlyTree_editTree fun _ => keeps_bind onlyTree_pathOfId fun _ => keeps_bind onlyTree_pathOfId fun _ =>
      keeps_pure _) hrun

/-! ## The trash -/

/-- The home of whoever acts, which is found or not. -/
theorem Tidy.home_found (ht : s.Tidy) (hl : Linked s.tree) (hu : UserArg user?) : ∃ path found?,
    (s.homePath user?).bind Json.asOwnText = .ok path ∧ s.tree.lookup path = .ok found? := by
  obtain ⟨path, hpath⟩ := ht.homePath hu
  obtain ⟨found?, hfound⟩ := hl.lookup_ok path
  exact ⟨path, found?, by rw [hpath]; rfl, hfound⟩

/-- A trash that has been looked for and a home without one are told apart by what is found in the home. -/
theorem journals_ensureTrash (ht : s.Tidy) (hl : Linked s.tree) (hu : UserArg user?) {r : Except Fault (Option Node)}
    (hrun : (ensureTrash user?).run s = (r, s')) :
    s.Journals (s.actor user?) (s.Refuses (s.EnsuringNeeds user?)) (s.Alters r s') s' := by
  obtain ⟨path, home?, hpath, hlook⟩ := ht.home_found hl hu
  have honly : ∀ {need}, s.EnsuringNeeds user? need → ∃ home, home? = some home ∧ home.isDir = true ∧
      s.tree.childNamed home trashName = .ok none ∧ need = .access home .write user? := by
    rintro _ ⟨hpath', hlook', hdir, hmissing⟩
    cases hpath.symm.trans hpath'
    cases hlook.symm.trans hlook'
    exact ⟨_, rfl, hdir, hmissing, rfl⟩
  have hrun := (next_given hlook rfl).symm.trans ((next_given hpath rfl).symm.trans (got hrun))
  rcases home? with _ | home
  · cases hrun
    exact journals_idle fun _ hneed => by obtain ⟨_, hnone, -⟩ := honly hneed; cases hnone
  dsimp only at hrun
  split at hrun
  · rename_i hfile
    cases hrun
    refine journals_idle fun _ hneed => ?_
    obtain ⟨_, hsame, hdir, -⟩ := honly hneed
    cases hsame
    rw [hdir] at hfile
    cases hfile
  rename_i hdir
  have hhome := (hl.lookup_found hlook).1
  rcases hl.childNamed_cases hhome trashName with ⟨hchild, -⟩ | ⟨trash, hchild, -⟩
  · obtain ⟨place, hplace⟩ := hl.pathOf_ok hhome
    obtain ⟨may, hcan⟩ := ht.can_ok hhome hu .write
    have hrun := (next_given hcan rfl).symm.trans ((next_given hplace rfl).symm.trans ((next_given hchild rfl).symm.trans hrun))
    cases may with
    | false =>
      cases hrun
      exact journals_refusal rfl rfl ⟨_, .make hpath hlook (by simpa using hdir) hchild, hcan, rfl⟩ fun h => h.2 rfl
    | true =>
      simp only [Bool.not_true, Bool.false_eq_true, if_false, run_bind, run_addNew, run_get, run_pure] at hrun
      rcases hlog : (Act.changed ("created " ++ Path.join place trashName) user?).run { s with tree := _ } with ⟨x, s₁⟩
      have hend := log_changed hlog
      rw [hlog] at hrun
      obtain rfl : s₁ = s' := by cases x <;> cases hrun <;> rfl
      refine journals_change hend rfl rfl fun who ⟨need, hneed, hlacking, _⟩ => ?_
      obtain ⟨_, hsame, -, -, rfl⟩ := honly hneed
      cases hsame
      cases hcan.symm.trans hlacking
  · have hrun := (next_given hchild rfl).symm.trans hrun
    cases hrun
    refine journals_idle fun _ hneed => ?_
    obtain ⟨_, hsame, -, hmissing, -⟩ := honly hneed
    cases hsame
    cases hchild.symm.trans hmissing

theorem journals_emptyTrash (ht : s.Tidy) (hl : Linked s.tree) (hu : UserArg user?) {r : Except Fault Nat}
    (hrun : (emptyTrash user?).run s = (r, s')) :
    s.Journals (s.actor user?) (s.Refuses (s.EmptyingNeeds user?)) (s.Alters r s') s' := by
  obtain ⟨home, hhome⟩ := ht.homePath hu
  obtain ⟨trash?, hlook⟩ := hl.lookup_ok (Path.join home trashName)
  have hat : (s.trashPath user?).bind s.tree.lookup = .ok trash? := by
    unfold trashPath
    rw [hhome]
    exact hlook
  have honly : ∀ {need}, s.EmptyingNeeds user? need → ∃ trash, trash? = some trash ∧ trash.isDir = true ∧ need = .access trash .write user? := by
    rintro _ ⟨hat', hdir⟩
    cases hat.symm.trans hat'
    exact ⟨_, rfl, hdir, rfl⟩
  have hrun := (next_given hat rfl).symm.trans (got hrun)
  cases trash? with
  | none =>
    cases hrun
    exact journals_idle fun _ hneed => by obtain ⟨_, hnone, -⟩ := honly hneed; cases hnone
  | some trash =>
    dsimp only at hrun
    split at hrun
    · rename_i hfile
      cases hrun
      refine journals_idle fun _ hneed => ?_
      obtain ⟨_, hsame, hdir, -⟩ := honly hneed
      cases hsame
      rw [hdir] at hfile
      cases hfile
    rename_i hdir
    have htrash := (hl.lookup_found hlook).1
    obtain ⟨place, hplace⟩ := hl.pathOf_ok htrash
    obtain ⟨may, hcan⟩ := ht.can_ok htrash hu .write
    have hrun := (next_given hcan rfl).symm.trans hrun
    cases may with
    | false =>
      have hrun := (next_given hplace rfl).symm.trans hrun
      cases hrun
      exact journals_refusal rfl rfl ⟨_, .write hat (by simpa using hdir), hcan, rfl⟩ fun h => h.2 rfl
    | true =>
      have hnobody : ∀ who, ¬ s.Refuses (s.EmptyingNeeds user?) who := fun who ⟨need, hneed, hlacking, _⟩ => by
        obtain ⟨_, hsame, -, rfl⟩ := honly hneed
        cases hsame
        cases hcan.symm.trans hlacking
      rcases asked hrun with ⟨e, -, rfl, rfl⟩ | ⟨items, -, hrun⟩
      · exact journals_silent rfl hnobody not_alters
      have hloop : Keeps (OnlyTree s) (forIn items PUnit.unit fun i _ =>
          discard (Act.edit (Tree.remove i s.now)) >>= fun _ => pure (.yield PUnit.unit)) :=
        keeps_for fun _ _ => keeps_discard onlyTree_edit
      cases items with
      | nil =>
        cases hrun
        exact journals_silent rfl hnobody not_alters
      | cons i items =>
        rcases of_run_bind hrun with ⟨e, hfirst, rfl⟩ | ⟨u, s₁, hfirst, hrun⟩
        · exact journals_silent (hloop (.refl s) hfirst).log hnobody fun h => nomatch h.1
        rw [if_pos (by rfl)] at hrun
        exact journals_changed (hloop (.refl s) hfirst) hnobody hrun

/-! ## Moving into the trash -/

theorem TrashNeeds.source {need : Need} (h : s.TrashNeeds path user? need) :
    ∃ n parent, s.nodeAt path user? = .ok (some n) ∧ s.tree.parentOf? n = some parent := by
  cases h with
  | leave removal =>
    obtain ⟨hfound, hbelow⟩ := removal
    exact ⟨_, _, hfound, hbelow⟩
  | make hfound hbelow _ => exact ⟨_, _, hfound, hbelow⟩
  | enter hfound _ _ _ _ hmovable => exact ⟨_, _, hfound, hmovable.below⟩

/-- A trash that is there is found at once. -/
theorem run_ensureTrash_has {trash : Node} (h : s.HasTrash user? trash) : (ensureTrash user?).run s = (.ok (some trash), s) := by
  obtain ⟨path, home, hpath, hlook, hdir, hchild⟩ := h
  unfold ensureTrash
  refine next (run_get s) (next_given hpath (next_given hlook ?_))
  dsimp only
  rw [if_neg (by simp [hdir])]
  exact next_given hchild rfl

/-- Who may write to a home may write to the trash that is made there. -/
theorem Allows.write_trash {home trash : Node} (hhome : s.Allows home .write user?) (howner : trash.owner = s.actor user?)
    (hpermissions : trash.permissions = .str "drwx------") : s.Allows trash .write user? := by
  have hfree : s.safeMode = false := Bool.eq_false_iff.2 fun hsafe => not_allows_write hsafe hhome
  obtain ⟨subject, hsubject, -⟩ := bind_ok.1 hhome
  have hname : subject.name = s.actor user? := by
    obtain ⟨u?, -, hsubject⟩ := bind_ok.1 hsubject
    cases hsubject
    rfl
  refine bind_ok.2 ⟨subject, hsubject, ?_⟩
  have hclass : Permission.classOf trash.owner trash.group subject = .ok .owner := by
    unfold Permission.classOf
    rw [if_pos (by simp [howner, hname])]
  unfold Permission.allows
  rw [hfree, hclass, hpermissions, if_neg (by simp)]
  split
  · rfl
  · exact congrArg Except.ok (by decide)

theorem can_standing {m : Node} {access : Access} (h : s.Alike s₁) (hm : m.standing = n.standing) :
    s₁.can m access user? = s.can n access user? := by
  have hpermissions : m.permissions = n.permissions := (congrArg Node.permissions hm :)
  have howner : m.owner = n.owner := (congrArg Node.owner hm :)
  have hgroup : m.group = n.group := (congrArg Node.group hm :)
  unfold can Machine.actor
  rw [h.accounts, h.currentUser, h.safeMode, hpermissions, howner, hgroup]

/-- Whoever has made a trash may write to it, and still to the directories that it could write to before. -/
theorem not_refuses_newTrash (hl : Linked s.tree) {home trash parent : Node} {own : Json} (hhome : s.tree.get? home.id = some home)
    (hmay : s.Allows home .write user?) (ha : Aside { s with tree := s.tree.takeId.2.add ((s.newTrash user?).build s) home.id s.now } s₁)
    (htrash : s₁.tree.get? s.tree.ids.id = some trash) (hparent : s.tree.parentOf? n = some parent) (hleave : s.Allows parent .write user?)
    {who : Json} : ¬ s₁.Refuses (s₁.RelocationNeeds n trash own user? user?) who := by
  have halike : s.Alike s₁ := by
    rw [ha.same]
    exact ⟨rfl, rfl, rfl⟩
  have hisNew : IsNew s.tree ((s.newTrash user?).build s) := newTrash_isNew
  rw [ha.tree] at htrash
  rintro ⟨_, ⟨hmovable⟩ | ⟨hmovable⟩, hlacking, -⟩
  · obtain ⟨hne, hup⟩ : n.parent ≠ .null ∧ s.tree.get? n.parent = some parent := by
      unfold Tree.parentOf? at hparent
      split at hparent
      · cases hparent
      · exact ⟨‹_›, hparent⟩
    have hup₁ := hmovable.below
    unfold Tree.parentOf? at hup₁
    rw [if_neg hne, ha.tree] at hup₁
    rcases get?_add_cases hl hisNew hhome hup₁ with ⟨hnew, -⟩ | ⟨k, hk, hstanding⟩
    · have habsent := hl.new_absent hisNew
      rw [← hnew, skeleton_some.2 ⟨parent, hup, rfl⟩] at habsent
      cases habsent
    · cases hup.symm.trans hk
      have hcan : s₁.Allows _ .write (firstName? user? user?) := (can_standing halike hstanding).trans (can_firstName.trans hleave)
      cases hcan.symm.trans hlacking
  · have hnew := htrash.symm.trans (get?_add_new hl hisNew hhome)
    cases hnew
    have hcan : s.Allows { (s.newTrash user?).build s with parent := home.id } .write user? := hmay.write_trash rfl rfl
    cases ((can_core halike rfl).trans hcan).symm.trans hlacking

/-- Putting something into a trash that is there: it must neither lie above the trash nor be in it already. -/
theorem journals_enterTrash (ht : s.Tidy) (hl : Linked s.tree) (hu : UserArg user?) {trash : Node} (htrash : s.tree.get? trash.id = some trash)
    (hn : s.tree.isAncestor n trash = false → s.tree.get? n.id = some n)
    (hrun : (do
      let t := (← get).tree
      if t.isAncestor n trash || n.parent == trash.id then return false
      let name ← Act.ofExcept (uniqueName t trash n.name.plain)
      relocate n trash name user? user? : Act Bool).run s = (r, s')) :
    s.Journals (s.actor user?) (fun who => s.tree.isAncestor n trash = false ∧ n.parent ≠ trash.id ∧
      ∃ name, uniqueName s.tree trash n.name.plain = .ok name ∧ s.Refuses (s.RelocationNeeds n trash (.str name) user? user?) who)
        (s.Alters r s') s' := by
  have hrun := got hrun
  dsimp only at hrun
  split at hrun
  · rename_i hthere
    cases hrun
    refine journals_silent rfl (fun _ h => ?_) not_alters
    obtain ⟨hapart, hout, -⟩ := h
    simp [hapart, hout] at hthere
  rename_i hthere
  simp only [Bool.or_eq_true, beq_iff_eq, not_or, Bool.not_eq_true] at hthere
  rcases asked hrun with ⟨e, hname, rfl, rfl⟩ | ⟨name, hname, hrun⟩
  · refine journals_silent rfl (fun _ h => ?_) not_alters
    obtain ⟨-, -, _, hname', -⟩ := h
    cases hname.symm.trans hname'
  refine (journals_relocate ht hl (hn hthere.1) htrash hu hu hrun).of_iff (fun who => ⟨?_, fun h => ⟨hthere.1, hthere.2, name, hname, h⟩⟩) id
  rintro ⟨-, -, _, hname', h⟩
  cases hname.symm.trans hname'
  exact h

/-- What may be taken from its directory is refused to those who may not make the trash, or may not put it into the one that is
there. -/
theorem refuses_trash_iff {parent : Node} (hfound : s.nodeAt path user? = .ok (some n)) (hparent : s.tree.parentOf? n = some parent)
    (hmay : s.Allows parent .write user?) {who : Json} : s.Refuses (s.TrashNeeds path user?) who ↔
      s.Refuses (s.EnsuringNeeds user?) who ∨ ∃ trash, s.HasTrash user? trash ∧ s.tree.isAncestor n trash = false ∧
        n.parent ≠ trash.id ∧ ∃ name, uniqueName s.tree trash n.name.plain = .ok name ∧
          s.Refuses (s.RelocationNeeds n trash (.str name) user? user?) who := by
  constructor
  · rintro ⟨need, hneed, hlacking, rfl⟩
    cases hneed with
    | leave hremoval =>
      obtain ⟨hfound', hparent'⟩ := hremoval
      cases hfound.symm.trans hfound'
      cases hparent.symm.trans hparent'
      cases hmay.symm.trans hlacking
    | make _ _ hensuring => exact .inl ⟨_, hensuring, hlacking, rfl⟩
    | enter hfound' hhas hapart hout hname hmovable =>
      cases hfound.symm.trans hfound'
      exact .inr ⟨_, hhas, hapart, hout, _, hname, _, .enter hmovable, hlacking, rfl⟩
  · rintro (⟨need, hneed, hlacking, rfl⟩ | ⟨trash, hhas, hapart, hout, name, hname, need, hneed, hlacking, rfl⟩)
    · exact ⟨need, .make hfound hparent hneed, hlacking, rfl⟩
    · cases hneed with
      | leave hmovable =>
        cases hparent.symm.trans hmovable.below
        cases (can_firstName.trans hmay).symm.trans hlacking
      | enter hmovable => exact ⟨_, .enter hfound hhas hapart hout hname hmovable, hlacking, rfl⟩

/-- Where nothing is found that may be taken, or that somebody may not take, nothing is needed. -/
theorem not_trashNeeds (ht : s.Tidy) (hl : Linked s.tree) (hu : UserArg user?)
    (hgranted : ∀ n, removeVerdict "trash" path user? s ≠ .ok (.granted n))
    (hdenied : ∀ what who?, removeVerdict "trash" path user? s ≠ .ok (.denied what who?)) {need : Need} : ¬ s.TrashNeeds path user? need := by
  intro hneed
  obtain ⟨n, parent, hfound, hparent⟩ := hneed.source
  obtain ⟨place, heq⟩ := removeVerdict_eq hl hfound hparent "trash"
  obtain ⟨may, hmay⟩ := ht.can_ok ((hl.parentOf_iff (nodeAt_found hl hfound).1).1 hparent).1 hu .write
  rw [hmay] at heq
  cases may
  · exact hdenied _ _ heq
  · exact hgranted _ heq

/-- What two steps change together is changed by one of them. -/
theorem Alters.split {α β : Type} {a : α} {r : Except Fault β} (h : s.Alters r s') :
    s.Alters (Except.ok a : Except Fault α) s₁ ∨ s₁.Alters r s' := by
  by_cases hsame : s₁.tree = s.tree
  · exact .inr ⟨h.1, hsame ▸ h.2⟩
  · exact .inl ⟨⟨_, rfl⟩, hsame⟩

/-- What is moved into the trash is refused to those who may not take it from its directory, nor make the trash, nor put something
into it. -/
theorem journals_moveToTrash (hs : s.Sound) (ht : s.Tidy) (hu : UserArg user?) (hrun : (moveToTrash path user?).run s = (r, s')) :
    s.Journals (s.actor user?) (s.Refuses (s.TrashNeeds path user?)) (s.Alters r s') s' := by
  have hl := hs.linked
  rcases askedOf hrun with ⟨e, hv, rfl, rfl⟩ | ⟨v, hv, hrun⟩
  · exact journals_idle fun _ => not_trashNeeds ht hl hu (by simp [hv]) (by simp [hv])
  cases v with
  | refused =>
    cases hrun
    exact journals_idle fun _ => not_trashNeeds ht hl hu (by simp [hv]) (by simp [hv])
  | unchanged =>
    cases hrun
    exact journals_idle fun _ => not_trashNeeds ht hl hu (by simp [hv]) (by simp [hv])
  | denied what who? =>
    obtain ⟨need, hneed, hlacking, rfl⟩ := (weighs_remove hl).lacking hv
    cases hrun
    exact journals_refusal rfl rfl ⟨need, .leave hneed, hlacking, rfl⟩ fun h => h.2 rfl
  | granted n =>
    obtain ⟨hfound, parent, hparent, hmay⟩ := removeVerdict_granted hv
    have hrefuses (who : Json) : s.Refuses (s.TrashNeeds path user?) who ↔ _ := refuses_trash_iff hfound hparent hmay
    dsimp only at hrun
    rw [run_bind] at hrun
    rcases hens : (ensureTrash user?).run s with ⟨x, s₁⟩
    have hfirst := journals_ensureTrash ht hl hu hens
    rw [hens] at hrun
    -- Where there is no trash yet, only making it may be refused.
    have hnew : (∀ trash, ¬ s.HasTrash user? trash) →
        ∀ who, s.Refuses (s.TrashNeeds path user?) who ↔ s.Refuses (s.EnsuringNeeds user?) who := fun hno who =>
      (hrefuses who).trans (or_iff_left fun ⟨trash, hhas, _⟩ => hno trash hhas)
    rcases x with e | _ | trash
    · cases hrun
      exact hfirst.of_iff (hnew fun trash hhas => by cases hens.symm.trans (run_ensureTrash_has hhas)) fun h => nomatch h.1
    · cases hrun
      exact hfirst.of_iff (hnew fun trash hhas => by cases hens.symm.trans (run_ensureTrash_has hhas)) fun h => ⟨⟨_, rfl⟩, h.2⟩
    have ht₁ : s₁.Tidy := (tidy_ensureTrash (P := fun _ => True) hu ⟨ht, trivial⟩ hens).1
    obtain ⟨hrelinks, hfacts⟩ : Relinks (fun _ => False) user? none s s₁ ∧
        ∀ t, (Except.ok (some trash) : Except Fault _) = .ok (some t) → IsTrash s s₁ t := trail_ensureTrash hl hens
    obtain ⟨hthere, -, hothers⟩ := hfacts trash rfl
    have hl₁ : Linked s₁.tree := (hrelinks.sequel hl).linked
    have hn₁ : s₁.tree.isAncestor n trash = false → s₁.tree.get? n.id = some n := fun hapart =>
      hothers (nodeAt_found hl hfound).1 fun hu => by rw [(hl₁.isAncestor_iff hthere).2 hu] at hapart; cases hapart
    have hsecond := journals_enterTrash ht₁ hl₁ hu hthere hn₁ hrun
    rcases ensureTrash_cases hens with ⟨-, hold⟩ | ⟨place, home, hpath, hlook, hdir, hchild, hmake, ha, hget⟩
    · obtain ⟨rfl, hhas⟩ := hold trash rfl
      refine hfirst.trans hsecond (fun who => (hrefuses who).trans (or_congr_right ⟨?_, fun h => ⟨trash, hhas, h⟩⟩)) Alters.split
      rintro ⟨trash', hhas', h⟩
      cases hens.symm.trans (run_ensureTrash_has hhas')
      exact h
    · have hno : ∀ t, ¬ s.HasTrash user? t := by
        rintro t ⟨place', home', hpath', hlook', -, hchild'⟩
        cases hpath.symm.trans hpath'
        cases hlook.symm.trans hlook'
        cases hchild.symm.trans hchild'
      have hactor : s₁.actor user? = s.actor user? := by
        unfold Machine.actor
        rw [ha.same]
      rw [hactor] at hsecond
      refine hfirst.trans hsecond (fun who => (hnew hno who).trans (or_iff_left ?_).symm) Alters.split
      rintro ⟨-, -, name, -, h⟩
      exact not_refuses_newTrash hl (hl.lookup_found hlook).1 hmake ha (hget trash rfl) hparent hmay h

/-! ## Calls -/

theorem Alters.of_answer {x : Except Fault α} {f : α → Answer} {r : Except Fault Answer} (h : s.Alters r s')
    (hr : ∀ b, r = .ok b → ∃ a, x = .ok a ∧ b = f a) : s.Alters x s' := by
  obtain ⟨⟨b, hb⟩, hne⟩ := h
  obtain ⟨a, ha, -⟩ := hr b hb
  exact ⟨⟨a, ha⟩, hne⟩

/-- Whatever call is made, its changes are told and its refusals warned of. -/
theorem FileCall.journals (hs : s.Sound) (ht : s.Tidy) (hu : UserArg user?) (hv : UserArg source?) (c : FileCall)
    {r : Except Fault Answer} (hrun : (c.run user? source?).run s = (r, s')) :
    s.Journals (s.actor user?) (s.Refuses (c.Needs s user? source?)) (s.Alters r s') s' := by
  have hl := hs.linked
  have hanswer : ∀ {α : Type} {x : Except Fault α} {f : α → Answer}, (∀ b, r = .ok b → ∃ a, x = .ok a ∧ b = f a) →
      s.Journals (s.actor user?) (s.Refuses (c.Needs s user? source?)) (s.Alters x s') s' →
        s.Journals (s.actor user?) (s.Refuses (c.Needs s user? source?)) (s.Alters r s') s' := fun hr h =>
    h.of_iff (fun _ => .rfl) fun hc => hc.of_answer hr
  cases c <;> obtain ⟨x, hx, hr⟩ := run_answer hrun <;> refine hanswer hr ?_
  case createFile => exact journals_createNode hl hx
  case createDirectory => exact journals_createNode hl hx
  case writeFile => exact journals_overwriteFile ht hl hu hx
  case appendFile => exact journals_appendFile ht hl hu hx
  case deleteNode => exact journals_deleteNode hl hx
  case moveToTrash => exact journals_moveToTrash hs ht hu hx
  case emptyTrash => exact journals_emptyTrash ht hl hu hx
  case moveNode => exact journals_moveNode ht hl hu hx
  case moveById => exact journals_moveById ht hl hu hv hx
  case copyById => exact journals_copyById ht hl hu hv hx
  case chmod => exact journals_chmod hl hx
  case chown => exact journals_chown hl hx

end Machine

end SimUnix
