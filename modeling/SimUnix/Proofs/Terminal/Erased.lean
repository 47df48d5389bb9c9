/-
What is left in the store by a reset that is asked for on a terminal. Every record goes, those of the terminals
among them. But the terminal goes on holding the history that it has read, and saves it when the line is done, and
when it goes over to another user's. So two histories are left: the one that the terminal held when the system was
reset, with all that was in it, and after `sudo` that of the user who acts again, which begins with the line.
-/
import SimUnix.Proofs.Terminal.Hosted
import SimUnix.Proofs.Terminal.Scrollback

namespace SimUnix

/-! ## Stores with the records of some terminals -/

namespace Store

variable {a b : Store} {key user : String} {us : List String}

/-- Of the system's own records, none are listed but those of the state and those of some users' terminals. -/
def OnlyFor (us : List String) (store : Store) : Prop :=
  ∀ key ∈ store.keys, IsOwn key → key ∈ ownKeys ∨ ∃ user ∈ us, KeptFor user key

theorem OnlyFor.writes (h : a.OnlyFor us) (hw : WritesOf user a b) : b.OnlyFor (user :: us) := by
  intro key hkey hown
  rcases hw.keys hkey with hkept | hold
  · exact .inr ⟨user, List.mem_cons_self, hkept⟩
  · exact (h key hold hown).imp_right fun ⟨u, hu, hkept⟩ => ⟨u, List.mem_cons_of_mem _ hu, hkept⟩

theorem OnlyFor.mono {vs : List String} (h : a.OnlyFor us) (hsub : us ⊆ vs) : a.OnlyFor vs :=
  fun key hkey hown => (h key hkey hown).imp_right fun ⟨u, hu, hkept⟩ => ⟨u, hsub hu, hkept⟩

/-- The records of the state have another letter than those of terminals after the lead. -/
theorem ownKeys_letter : ∀ key ∈ ownKeys, key.toList[7]?.any (fun c => isSafe c && c != 't') = true := by decide +kernel

theorem clear_own (hkey : key ∈ ownKeys) {other : String} (hother : other.toList[7]? = some 't') : Clear key other := by
  have hletter := ownKeys_letter key hkey
  rcases hat : key.toList[7]? with _ | c
  · rw [hat] at hletter
    cases hletter
  · rw [hat, Option.any_some, Bool.and_eq_true, bne_iff_ne] at hletter
    exact .of_letter hat hother hletter.1 (by decide) hletter.2

/-- Where no terminal's record has been written for a user, none is found. -/
theorem OnlyFor.absent (h : a.OnlyFor us) (hother : ∀ u ∈ us, safeKey u ≠ safeKey user) {v : Json} :
    a.get (historyKey user) ≠ .ok (some v) ∧ a.get (inputKey user) ≠ .ok (some v) := by
  constructor
  · intro hget
    obtain ⟨key, hkey, hfile⟩ := listed_of_get isOwn_historyKey.ne_empty hget
    rcases h key hkey ((isOwn_of_fileName hfile).2 isOwn_historyKey) with hstate | ⟨u, hu, hkept | hkept⟩
    · exact (clear_own hstate (letter_historyKey user)).files hfile
    · exact hother u hu (fileName_historyKey_iff.1 (hkept.symm.trans hfile))
    · exact clear_history_input.files (hfile.symm.trans hkept)
  · intro hget
    obtain ⟨key, hkey, hfile⟩ := listed_of_get isOwn_inputKey.ne_empty hget
    rcases h key hkey ((isOwn_of_fileName hfile).2 isOwn_inputKey) with hstate | ⟨u, hu, hkept | hkept⟩
    · exact (clear_own hstate (letter_inputKey user)).files hfile
    · exact clear_input_history.files (hfile.symm.trans hkept)
    · exact hother u hu (fileName_inputKey_iff.1 (hkept.symm.trans hfile))

theorem getFilled_absent (h : ∀ v, a.get key ≠ .ok (some v)) {record? : Option Json} (hget : a.getFilled key = .ok record?) :
    record? = none := by
  unfold getFilled at hget
  rcases hfound : a.get key with e | _ | v
  · rw [hfound] at hget
    cases hget
  · rw [hfound] at hget
    cases hget
    rfl
  · exact absurd hfound (h v)

end Store

namespace History

open Store

variable {h h' : History} {a b : Store} {user : String}

theorem storedBlocks_absent (h : ∀ v, a.get (historyKey user) ≠ .ok (some v)) {blocks : List Block}
    (hread : storedBlocks user a = .ok blocks) : blocks = [] := by
  obtain ⟨record?, hget, hread⟩ := bind_ok.1 hread
  cases getFilled_absent h hget
  cases hread
  rfl

theorem storedCommands_absent (h : ∀ v, a.get (inputKey user) ≠ .ok (some v)) {commands : List Json}
    (hread : storedCommands user a = .ok commands) : commands = [] := by
  obtain ⟨record?, hget, hread⟩ := bind_ok.1 hread
  cases getFilled_absent h hget
  cases hread
  rfl

/-- A user of whom there is no record begins with nothing. -/
theorem load_absent (habsent : ∀ v, a.get (historyKey h.user) ≠ .ok (some v) ∧ a.get (inputKey h.user) ≠ .ok (some v))
    (hrun : load.run (h, a) = (.ok (), (h', b))) : h'.blocks = [] ∧ h'.commands = [] := by
  unfold load at hrun
  rw [run_bind, run_get] at hrun
  dsimp only at hrun
  split at hrun
  · cases hrun
  · rename_i hread
    rw [run_bind, run_set] at hrun
    dsimp only at hrun
    split at hrun
    · cases hrun
    · rename_i hread'
      cases hrun
      exact ⟨storedBlocks_absent (fun v => (habsent v).1) hread, storedCommands_absent (fun v => (habsent v).2) hread'⟩

end History

/-! ## Stations after a reset -/

namespace Machine

/-- A system that runs and is in order, on a store whose files are all named for keys. -/
structure Awake (s : Machine) : Prop where
  sound : s.Sound
  filed : s.store.Filed
  running : s.phase = .running
  clock : s.now.Proper

/-- A reset succeeds, and leaves the records of the new state and those of others. -/
theorem Awake.renewed {s : Machine} (h : s.Awake) :
    ∃ new, reset.run s = (.ok (), new) ∧ Store.Renewed new.records s.store new.store := by
  obtain ⟨new, _, hrun, -, hforgotten⟩ :=
    @Sound.forgotten s h.sound h.filed h.running h.clock (.memory []) {} { stem := "" } s.now Store.empty_memory h.clock
  exact ⟨new, hrun, hforgotten.renewed⟩

end Machine

namespace Station

open History

/-- A station since its system has been reset: a new system with its records, beside those of others. -/
structure Renewed (s s' : Station) : Prop where
  system : ∃ new, Machine.reset.run s.machine = (.ok (), new) ∧ s'.machine = { new with store := s'.machine.store }
  written : ∀ r ∈ s'.machine.records, ∃ v, r.2 = .ok v ∧ s'.machine.store.get r.1 = .ok (some (s'.machine.store.echo v))
  spared : ∀ key, ¬ Store.IsOwn key → s'.machine.store.get key = s.machine.store.get key

/-- A station since its system has been reset, when the terminal has taken some notes. Of the terminals' records, there
are none but those of the user whose history was open then, and of the one whose history is open now. -/
structure Erased (notes : List Note) (s s' : Station) : Prop extends Renewed s s' where
  only : s'.machine.store.OnlyFor [s'.terminal.history.user, s.terminal.history.user]
  /-- The history is the one that the terminal held before, or another user's. Then that one has been saved as it was,
  and the other has begun anew. -/
  held : s'.terminal.history = s.terminal.history.after notes ∨
    s'.terminal.history.user ≠ s.terminal.history.user ∧
      (Store.safeKey s.terminal.history.user ≠ Store.safeKey s'.terminal.history.user →
        s.terminal.history.ShownIn s'.machine.store ∧
        ∃ fresh : History, fresh.blocks = [] ∧ fresh.commands = [] ∧ s'.terminal.history = fresh.after notes)

variable {s s₁ s₂ : Station} {notes : List Note} {n : Note}

/-- Only the store changes, and there only the records of one user's terminals. -/
structure Writes (user : String) (s s' : Station) : Prop where
  machine : s'.machine = { s.machine with store := s'.machine.store }
  store : Store.WritesOf user s.machine.store s'.machine.store

theorem Renewed.writes {user : String} (h : s.Renewed s₁) (hw : s₁.Writes user s₂) : s.Renewed s₂ := by
  have hrecords : s₂.machine.records = s₁.machine.records := by
    rw [hw.machine]
    rfl
  refine ⟨?_, fun r hr => ?_, fun key hkey => ?_⟩
  · obtain ⟨new, hrun, hsame⟩ := h.system
    refine ⟨new, hrun, hw.machine.trans ?_⟩
    rw [hsame]
  · rw [hrecords] at hr
    obtain ⟨v, hv, hget⟩ := h.written r hr
    have hstate : r.1 ∈ Store.ownKeys := List.mem_map_of_mem hr
    refine ⟨v, hv, ?_⟩
    rw [hw.store.get (Store.clear_own hstate (Store.letter_historyKey user)) (Store.clear_own hstate (Store.letter_inputKey user)),
      hw.store.echo, hget]
  · rw [hw.store.get (Store.clear_foreign hkey Store.isOwn_historyKey) (Store.clear_foreign hkey Store.isOwn_inputKey), h.spared key hkey]

theorem erased_reset (h : s.machine.Awake) (hrun : Machine.reset.run s.machine = (.ok (), s₁.machine))
    (hhistory : s₁.terminal.history = s.terminal.history) : s.Erased [] s₁ := by
  obtain ⟨new, hnew, hrenewed⟩ := h.renewed
  cases hrun.symm.trans hnew
  refine ⟨⟨⟨_, hrun, rfl⟩, hrenewed.written, hrenewed.spared⟩, fun key hkey hown => ?_, .inl hhistory⟩
  rcases (hrenewed.listed key).1 hkey with hstate | ⟨-, hforeign⟩
  · exact .inl hstate
  · exact absurd hown hforeign

/-- A change of the terminal that leaves the history alone. -/
theorem Erased.congr (h : s.Erased notes s₁) (hmachine : s₂.machine = s₁.machine)
    (hhistory : s₂.terminal.history = s₁.terminal.history) : s.Erased notes s₂ := by
  obtain ⟨⟨hsystem, hwritten, hspared⟩, honly, hheld⟩ := h
  rw [← hhistory] at honly hheld
  rw [← hmachine] at hsystem hwritten hspared honly hheld
  exact ⟨⟨hsystem, hwritten, hspared⟩, honly, hheld⟩

/-- A note goes into the history that is open by then. -/
theorem Erased.note (h : s.Erased notes s₁) (hn : s₁.Noted n s₂) (hmachine : s₂.machine = { s₁.machine with store := s₂.machine.store }) :
    s.Erased (notes ++ [n]) s₂ := by
  have hon := hn.history
  have huser : s₂.terminal.history.user = s₁.terminal.history.user := by rw [hon, Note.on_user]
  have hw : s₁.Writes s₁.terminal.history.user s₂ := ⟨hmachine, hn.others⟩
  refine ⟨h.toRenewed.writes hw, ?_, ?_⟩
  · rw [huser]
    exact (h.only.writes hw.store).mono (by simp)
  · rw [huser, hon]
    refine h.held.imp (fun hsame => ?_) fun ⟨hother, hswitched⟩ => ⟨hother, fun hne => ?_⟩
    · rw [hsame, after_append]
      rfl
    · obtain ⟨hshown, fresh, hblocks, hcommands, hfresh⟩ := hswitched hne
      refine ⟨hshown.writes hw.store hne, fresh, hblocks, hcommands, ?_⟩
      rw [hfresh, after_append]
      rfl

/-- When a session is closed after a reset, the history goes over to that of the user who acts from then on. -/
theorem Erased.follow (h : s.Erased [] s₁) (hheld : s₁.terminal.history = s.terminal.history)
    (hrun : followUser.run s₁ = (.ok (), s₂)) : s.Erased [] s₂ := by
  obtain ⟨-, hswitch, hmachine⟩ := follow_switch hrun
  rw [hheld] at hswitch
  rcases switch_cases hswitch with ⟨-, hhistory, hstore⟩ | ⟨hother, hwrites, hshown, hload⟩
  · refine h.congr ?_ (hhistory.trans hheld.symm)
    rw [hmachine, hstore]
  · have hw : s₁.Writes s.terminal.history.user s₂ := ⟨hmachine, hwrites⟩
    have honly : s₂.machine.store.OnlyFor [s.terminal.history.user] := (h.only.writes hwrites).mono (by simp [hheld])
    have huser : s₂.terminal.history.user = s₁.terminal.user := (load_keeps hload).1
    refine ⟨h.toRenewed.writes hw, honly.mono (by simp), .inr ⟨huser ▸ hother, fun hne => ?_⟩⟩
    rw [huser] at hne
    obtain ⟨hblocks, hcommands⟩ := load_absent (fun v => honly.absent (by simpa using hne)) hload
    exact ⟨hshown, _, hblocks, hcommands, rfl⟩

theorem Erased.close {position? : Option Int} (h : s.Erased [] s₁) (hheld : s₁.terminal.history = s.terminal.history)
    (hrun : (discard (closeSession position?)).run s₁ = (.ok (), s₂)) : s.Erased [] s₂ := by
  rw [run_discard] at hrun
  rcases hclose : (closeSession position?).run s₁ with ⟨e | closed, s₃⟩
  · rw [hclose] at hrun
    cases hrun
  · rw [hclose] at hrun
    cases hrun
    rcases close_cases hclose with ⟨-, rfl⟩ | ⟨-, sessions, hfollow⟩
    · exact h
    · have hbefore : s.Erased [] { s₁ with terminal := { s₁.terminal with sessions } } := h.congr rfl rfl
      exact hbefore.follow hheld hfollow

/-- Nothing is left of what others have typed. -/
theorem Erased.gone {user : String} {v : Json} (h : s.Erased notes s₁) (hheld : Store.safeKey user ≠ Store.safeKey s.terminal.history.user)
    (hopen : Store.safeKey user ≠ Store.safeKey s₁.terminal.history.user) :
    s₁.machine.store.get (Store.historyKey user) ≠ .ok (some v) ∧ s₁.machine.store.get (Store.inputKey user) ≠ .ok (some v) := by
  refine h.only.absent fun u hu => ?_
  rcases List.mem_cons.1 hu with rfl | hu
  · exact hopen.symm
  · rw [List.mem_singleton.1 hu]
    exact hheld.symm

/-- The lines that the terminal held when the system was reset are found in the store again, once its history has been
written. -/
theorem Erased.lines {b : Block} (h : s.Erased [.block b] s₁) (hshown : s₁.terminal.history.ShownIn s₁.machine.store)
    (htexts : ∀ c ∈ s.terminal.history.commands, ∃ t, c = .str t)
    (hown : s₁.terminal.history.user ≠ s.terminal.history.user →
      Store.safeKey s.terminal.history.user ≠ Store.safeKey s₁.terminal.history.user) :
    s₁.machine.store.get (Store.inputKey s.terminal.history.user) = .ok (some (.arr s.terminal.history.commands)) := by
  rcases h.held with hsame | ⟨hother, hswitched⟩
  · rw [hsame] at hshown
    exact ShownIn.texts (h := s.terminal.history.after [.block b]) hshown htexts
  · exact (hswitched (hown hother)).1.texts htexts

end Station

end SimUnix
