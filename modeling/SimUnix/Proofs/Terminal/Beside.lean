/-
What a terminal does beside the tree: it keeps its history in records that have nothing to do with that
of the tree, and changes between sessions.
-/
import SimUnix.Proofs.Terminal.Course

namespace SimUnix

/-! ## Keys of a history -/

namespace Store

/-- The letter after the lead of a key stands in the name of its file, too. -/
theorem fileName_letter {key : String} (h : key.toList[7]? = some 't') : (fileName key).toList[7]? = some 't' := by
  have hlen : 7 < key.toList.length := (List.getElem?_eq_some_iff.1 h).1
  unfold fileName safeKey
  rw [String.toList_append, String.toList_map, List.getElem?_append_left (by simpa using hlen), List.getElem?_map, h]
  rfl

/-- Keys differ from that of the tree where they have another letter after the lead. -/
theorem Apart.of_letter {key : String} (h : key.toList[7]? = some 't') : Apart key := by
  have htree : treeKey.toList[7]? = some 'f' := by decide +kernel
  have hfile : (fileName treeKey).toList[7]? = some 'f' := by decide +kernel
  have hname := fileName_letter h
  have hlen : 7 < (fileName key).toList.length := (List.getElem?_eq_some_iff.1 hname).1
  refine ⟨fun he => ?_, fun he => ?_, fun he => ?_⟩
  · rw [he, htree] at h
    cases h
  · rw [he, hfile] at hname
    cases hname
  · have hne : key ≠ "" := by
      rintro rfl
      cases h
    unfold draftName at he
    rw [if_neg hne] at he
    have hdraft : (fileName key ++ ".tmp").toList[7]? = some 't' := by
      rw [String.toList_append, List.getElem?_append_left hlen, hname]
    rw [he, hfile] at hdraft
    cases hdraft

theorem letter_historyKey (user : String) : (historyKey user).toList[7]? = some 't' := by simp [historyKey, keyLead]

theorem letter_inputKey (user : String) : (inputKey user).toList[7]? = some 't' := by simp [inputKey, keyLead]

theorem apart_historyKey (user : String) : Apart (historyKey user) := .of_letter (letter_historyKey user)

theorem apart_inputKey (user : String) : Apart (inputKey user) := .of_letter (letter_inputKey user)

/-- Whatever the tree is, some records beside its own have been written. -/
def Grows (a b : Store) : Prop := ∀ t, a.Saves t b

theorem grows_write {a b : Store} {key : String} {value : Json} (hk : Apart key) (h : a.write key value = .ok b) : a.Grows b := by
  unfold Store.write at h
  split at h
  · cases h
    exact fun _ => .other .refl hk
  · cases h

end Store

/-! ## Histories -/

/-- A change of a history that only writes records beside that of the tree. -/
def Remember.Harmless (m : Remember Unit) : Prop :=
  ∀ {h h' store store' r}, m.run (h, store) = (r, (h', store')) → store.Grows store'

namespace History

theorem harmless_bind {α : Type} {m : Remember α} {f : α → Remember Unit}
    (hm : ∀ {h h' store store' r}, m.run (h, store) = (r, (h', store')) → store.Grows store') (hf : ∀ a, (f a).Harmless) :
    Remember.Harmless (m >>= f) := by
  intro h h' store store' r hrun
  rcases of_run_bind hrun with ⟨e, hfirst, -⟩ | ⟨a, ⟨h₁, store₁⟩, hfirst, hrun⟩
  · exact hm hfirst
  · exact fun t => (hm hfirst t).trans (hf a hrun t)

theorem harmless_change {f : History → History} : Remember.Harmless (change f) := by
  intro h h' store store' r hrun
  cases hrun
  exact fun _ => .refl

theorem harmless_pure : Remember.Harmless (pure ()) := by
  intro h h' store store' r hrun
  cases hrun
  exact fun _ => .refl

/-- A change of a history that looks at it first. -/
theorem harmless_get {f : History × Store → Remember Unit}
    (hf : ∀ {h h' store store' r}, (f (h, store)).run (h, store) = (r, (h', store')) → store.Grows store') :
    Remember.Harmless (get >>= f) := fun hrun => hf hrun

theorem harmless_put {key : String} {value : Json} (hk : Store.Apart key) : Remember.Harmless (save.put key value) := by
  refine harmless_get fun {h h' store store' r} hrun => ?_
  dsimp only at hrun
  split at hrun
  · cases hrun
    exact fun _ => .refl
  · rename_i b hb
    cases hrun
    exact Store.grows_write hk hb

theorem harmless_save : Remember.Harmless save := by
  refine harmless_get fun {h h' store store' r} hrun => ?_
  dsimp only at hrun
  split at hrun
  · cases hrun
    exact fun _ => .refl
  · exact harmless_bind (harmless_put (Store.apart_historyKey _)) (fun _ => harmless_put (Store.apart_inputKey _)) hrun

theorem harmless_load : Remember.Harmless load := by
  refine harmless_get fun {h h' store store' r} hrun => ?_
  dsimp only at hrun
  split at hrun
  · cases hrun
    exact fun _ => .refl
  · rw [run_bind, run_set] at hrun
    dsimp only at hrun
    split at hrun <;> cases hrun <;> exact fun _ => .refl

theorem harmless_record {line : String} : Remember.Harmless (record line) := by
  refine harmless_bind harmless_change fun _ => ?_
  split
  · exact harmless_bind harmless_change fun _ => harmless_save
  · exact harmless_pure

theorem harmless_add {b : Block} : Remember.Harmless (add b) := harmless_bind harmless_change fun _ => harmless_save

theorem harmless_clear : Remember.Harmless clear := harmless_bind harmless_change fun _ => harmless_save

theorem harmless_switch {user : String} : Remember.Harmless (switch user) := by
  refine harmless_get fun {h h' store store' r} hrun => ?_
  split at hrun
  · exact harmless_bind harmless_save (fun _ => harmless_bind harmless_change fun _ => harmless_load) hrun
  · cases hrun
    exact fun _ => .refl

end History

/-! ## Stations -/

namespace Station

/-- The tree and the tables of users and groups are left alone, and a sound system stays sound. -/
structure Beside (s s' : Station) : Prop where
  tree : s'.machine.tree = s.machine.tree
  accounts : s'.machine.accounts = s.machine.accounts
  sound : s.Sound → s'.Sound

/-- The terminal changes, and of the system nothing but its log, its records and its developer mode. -/
structure Idle (s s' : Station) : Prop where
  machine : s.machine.Idle s'.machine

/-- What is idle leaves the acting users alone, too, and what they have been allowed. -/
structure Still (s s' : Station) : Prop extends Idle s s' where
  sessions : s'.terminal.sessions = s.terminal.sessions
  authorized : s'.terminal.sudoAuthorized = s.terminal.sudoAuthorized

/-- Of the terminal nothing changes but the question that it shows and what its host is asked to do. -/
structure Quiet (s s' : Station) : Prop extends Still s s' where
  directory : s'.terminal.cwd = s.terminal.cwd
  environment : s'.terminal.env = s.terminal.env
  history : s'.terminal.history = s.terminal.history

variable {s s' : Station}

theorem Idle.beside (h : s.Idle s') : s.Beside s' := by
  refine ⟨h.machine.tree, ?_, fun hs => h.machine.sound hs⟩
  rw [h.machine.same]

theorem course_idle : Course Idle where
  refl s := ⟨.refl s.machine⟩
  trans h₁ h₂ := ⟨h₁.machine.trans h₂.machine⟩
  sound h := h.beside.sound

theorem course_still : Course Still where
  refl s := ⟨course_idle.refl s, rfl, rfl⟩
  trans h₁ h₂ := ⟨course_idle.trans h₁.toIdle h₂.toIdle, h₂.sessions.trans h₁.sessions, h₂.authorized.trans h₁.authorized⟩
  sound h := h.beside.sound

theorem idle_terminal {t : Terminal} : s.Idle { s with terminal := t } := ⟨.refl _⟩

theorem still_terminal {t : Terminal} (h : t.sessions = s.terminal.sessions)
    (h' : t.sudoAuthorized = s.terminal.sudoAuthorized) : s.Still { s with terminal := t } := ⟨idle_terminal, h, h'⟩

theorem quiet_machine {m : Machine} (h : s.machine.Idle m) : s.Quiet { s with machine := m } := ⟨⟨⟨h⟩, rfl, rfl⟩, rfl, rfl, rfl⟩

theorem still_history {change : Remember Unit} (hc : change.Harmless) : (Move.history change).Leads Still := by
  intro s s' r _ hrun
  unfold Move.history at hrun
  rw [run_bind, run_get] at hrun
  dsimp only at hrun
  rcases hstep : change.run (s.terminal.history, s.machine.store) with ⟨x, h', store'⟩
  have ha : s.machine.Aside { s.machine with store := store' } := ⟨rfl, hc hstep _⟩
  rw [hstep] at hrun
  dsimp only at hrun
  rw [run_bind, run_set] at hrun
  cases x <;> cases hrun <;> exact ⟨⟨ha.idle⟩, rfl, rfl⟩

/-! ## Moves -/

theorem still_showDiagnostic : showDiagnostic.Leads Still := by
  refine Course.leads_read fun s => ?_
  split
  · exact course_still.leads_bind (Course.leads_terminal fun _ => still_terminal rfl rfl) fun _ =>
      still_history History.harmless_add
  · exact course_still.leads_pure _

theorem still_interrupt {input : String} : (interrupt input).Leads Still := by
  refine Course.leads_read fun s => ?_
  split
  · intro s s' r _ hrun
    cases hrun
    exact course_still.refl s
  · exact course_still.leads_bind (still_history History.harmless_add) fun _ =>
      course_still.leads_bind (still_history History.harmless_record) fun _ => course_still.leads_pure _

theorem still_followUser : followUser.Leads Still := by
  refine Course.leads_read fun s => course_still.leads_bind (still_history History.harmless_switch) fun _ => ?_
  refine course_still.leads_bind (course_still.leads_ask _) fun home => ?_
  exact Course.leads_terminal fun _ => still_terminal rfl rfl

theorem idle_followUser : followUser.Leads Idle := fun _ _ _ hs hrun => (still_followUser hs hrun).toIdle

theorem idle_pushSession {user : String} : (pushSession user).Leads Idle :=
  course_idle.leads_bind (Course.leads_terminal fun _ => idle_terminal) fun _ => idle_followUser

theorem idle_closeSession {position? : Option Int} : (closeSession position?).Leads Idle := by
  refine Course.leads_read fun s => ?_
  split
  · exact course_idle.leads_pure _
  · exact course_idle.leads_bind (Course.leads_terminal fun _ => idle_terminal) fun _ =>
      course_idle.leads_bind idle_followUser fun _ => course_idle.leads_pure _

end Station

end SimUnix
