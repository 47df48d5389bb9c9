/-
What stands behind a running system. Its store gives back a state that it has been in, or has no tree at
all, so that a system that starts on it goes on from that state or is laid out anew. A property of the tree,
the tables and the clipboard that both keep, and every operation, therefore holds in all states that the
system gets into, restarts included.
-/
import SimUnix.Proofs.Machine.FirstStart

namespace SimUnix

namespace Json

variable {depth : Nat}

theorem IsText.shallow {v : Json} (h : v.IsText) : v.Shallow depth := by
  obtain ⟨s, rfl⟩ := h
  cases depth <;> exact trivial

theorem shallow_int {v : Json} (h : ∃ n, v = .int n) : v.Shallow depth := by
  obtain ⟨n, rfl⟩ := h
  cases depth <;> exact trivial

theorem shallow_obj {fs : List (String × Json)} (h : ∀ f ∈ fs, f.2.Shallow depth) : Shallow (depth + 1) (.obj fs) := h

theorem shallow_arr {xs : List Json} (h : ∀ x ∈ xs, x.Shallow depth) : Shallow (depth + 1) (.arr xs) := h

end Json

variable {depth : Nat}

theorem User.Plain.shallow {u : User} (h : u.Plain) : u.toJson.Shallow (depth + 1) := by
  refine Json.shallow_obj fun f hf => ?_
  simp only [List.mem_cons, List.not_mem_nil, or_false] at hf
  rcases hf with rfl | rfl | rfl | rfl | rfl | rfl | rfl | rfl
  · exact h.name.shallow
  · exact Json.shallow_int h.uid
  · exact Json.shallow_int h.gid
  · exact h.fullName.shallow
  · exact h.passwordDigest.shallow
  · exact h.passwordHint.shallow
  · exact h.home.1.shallow
  · exact h.shell.shallow

theorem Group.Plain.shallow {x : Group} (h : x.Plain) : x.record.Shallow (depth + 2) := by
  refine Json.shallow_obj fun f hf => ?_
  simp only [List.mem_cons, List.not_mem_nil, or_false] at hf
  rcases hf with rfl | rfl | rfl
  · exact h.name.shallow
  · exact Json.shallow_int h.gid
  · exact Json.shallow_arr fun m hm => (h.stored.members m hm).shallow

namespace Machine

open Act

variable {s s' m : Machine} {us : List User} {gs : List Group} {store : Store}

/-! ## Records -/

/-- A store that gives back the records of a state. Reading may give up on a table, if it holds a number that is
too long. -/
def Kept (store : Store) (s : Machine) (us : List User) (gs : List Group) : Prop :=
  ∀ r ∈ s.ownRecords us gs, store.get r.1 = .ok (some (store.echo r.2)) ∨
    r.1 ∈ tableKeys ∧ ∃ e, store.get r.1 = .error e ∧ isUnreadable e = true

/-- What has been flushed is kept. -/
theorem Regular.kept (h : s.Regular) (hl : s.tree.Linked) (hs : s.Lists us gs) : Kept (store.setAll (s.ownRecords us gs)) s us gs := by
  have hkeys : (s.ownRecords us gs).map Prod.fst = Store.ownKeys := rfl
  have hpairs : (s.ownRecords us gs).Pairwise fun a b => Store.Clear a.1 b.1 ∧ Store.Clear b.1 a.1 :=
    List.pairwise_map.1 (hkeys ▸ Store.ownKeys_clear)
  intro r hr
  obtain ⟨before, hecho, hget⟩ := @Store.get_setAll_last _ store hpairs r hr
  have hshort : (Store.fileName r.1).length ≤ Store.maxNameLength :=
    Store.ownKeys_short _ (hkeys ▸ List.mem_map_of_mem hr)
  rw [Store.echo_setAll, hget, ← hecho]
  by_cases hkey : r.1 ∈ tableKeys
  · have hshallow : r.2.Shallow Json.maxDepth := by
      rcases ownRecords_table hr hkey with he | he
      · rw [he]
        refine Json.shallow_arr fun x hx => ?_
        obtain ⟨u, hu, rfl⟩ := List.mem_map.1 hx
        obtain ⟨p, hp, rfl⟩ := List.mem_map.1 (hs.users.mem_iff.1 hu)
        exact (h.accounts.user p hp).2.shallow
      · rw [he]
        refine Json.shallow_arr fun x hx => ?_
        obtain ⟨y, hy, rfl⟩ := List.mem_map.1 hx
        obtain ⟨p, hp, rfl⟩ := List.mem_map.1 (hs.groups.mem_iff.1 hy)
        exact (h.accounts.group p hp).2.shallow
    exact (Store.get_set_shallow hshort hshallow).imp_right fun he => ⟨hkey, he⟩
  · exact .inl (Store.get_set hshort (h.fits_apart hl r hr hkey))

theorem recordOr_error {key : String} {default : Json} {e : Fault} (hget : m.store.get key = .error e) :
    recordOr key default m = .error e := by
  unfold recordOr Store.getFilled
  rw [hget]
  rfl

/-- A store that keeps a state holds all its records, or restoring gives up once the tree is there. -/
theorem Regular.restored (h : s.Regular) (hl : s.tree.Linked) (hs : s.Lists us gs) (hk : Kept m.store s us gs) :
    Held m.store s us gs ∨ ∃ e, isUnreadable e = true ∧ ∃ bootLog,
      restore.run m = (.error e, { m with tree := { s.tree with ids := m.tree.ids }, bootLog }) := by
  have hg : Json.Echoes m.store.echo := m.store.echoes_echo
  have htree : m.store.get Store.treeKey = .ok (some (m.store.echo s.tree.toJson)) :=
    (hk (Store.treeKey, s.tree.toJson) (List.mem_cons_self ..)).resolve_right fun hno =>
      absurd (show Store.treeKey ∈ tableKeys from hno.1) (by decide)
  obtain ⟨fields, hecho, -⟩ := hl.echo hg
  have hof : Tree.ofJson m.tree.ids m.now (m.store.echo s.tree.toJson) = .ok { s.tree with ids := m.tree.ids } :=
    hl.restored_marked h.marked hg
  rw [hecho] at htree hof
  obtain ⟨hus, hgs⟩ := hs.records_ne_nil h.accounts
  have husers := hk (Store.usersKey, .arr (us.map User.toJson)) (by simp [ownRecords])
  have hgroups := hk (Store.groupsKey, .arr (gs.map Group.record)) (by simp [ownRecords])
  rcases husers with husers | ⟨-, e, husers, he⟩
  · rcases hgroups with hgroups | ⟨-, e, hgroups, he⟩
    · left
      intro r hr
      rcases hk r hr with hr | ⟨hkey, e, herror, -⟩
      · exact hr
      · rcases List.mem_cons.1 hkey with hkey | hkey
        · rw [hkey, husers] at herror
          cases herror
        · rw [List.mem_singleton.1 hkey, hgroups] at herror
          cases herror
    · refine .inr ⟨e, he, ?_⟩
      apply Exists.intro
      refine Act.next_ask htree (Act.next_ask hof (Act.next_modify (Act.next_modify ?_)))
      refine Act.next_ask (recordOr_ok husers (truthy_echo_arr hg hus)) (Act.fail_ask ?_)
      exact recordOr_error hgroups
  · refine .inr ⟨e, he, ?_⟩
    apply Exists.intro
    refine Act.next_ask htree (Act.next_ask hof (Act.next_modify (Act.next_modify (Act.fail_ask ?_))))
    exact recordOr_error husers

/-! ## Lasting properties -/

/-- A property that hangs on the tree, the tables and the clipboard only. A system that goes on from a state
that has it has it, too, and so has every system that is laid out anew. -/
structure Lasting (Q : Machine → Prop) : Prop where
  same : ∀ {s s'}, Q s → s'.tree = s.tree → s'.accounts = s.accounts → s'.clipboard = s.clipboard → Q s'
  resumed : ∀ {s s'}, s.tree.Linked → s.Regular → Q s → s.Resumes s' → Q s'
  seeded : ∀ {s s'}, s.Sound → s.now.Proper → seed.run s = (.ok ⟨⟩, s') → Q s'

/-- A state that the store gives back, out of safe mode and with a property. -/
structure Copy (Q : Machine → Prop) (store : Store) (s : Machine) (us : List User) (gs : List Group) : Prop where
  linked : s.tree.Linked
  regular : s.Regular
  free : s.Free
  holds : Q s
  lists : s.Lists us gs
  kept : Kept store s us gs

/-- What a system that starts on the store has to go on from: nothing, or a state with a property. -/
def Backed (Q : Machine → Prop) (store : Store) : Prop := store.get Store.treeKey = .ok none ∨ ∃ s us gs, Copy Q store s us gs

/-- A state in which a property holds, and will hold after a restart. -/
structure Upheld (Q : Machine → Prop) (s : Machine) : Prop where
  sound : s.Sound
  regular : s.Regular
  free : s.Free
  quiet : s.alarmed = false
  holds : Q s
  backed : Backed Q s.store

variable {Q : Machine → Prop}

/-- What a system that starts on the store has to go on from, in safe mode or not: nothing, or a state with a property that has
been written out. -/
def Restorable (Q : Machine → Prop) (store : Store) : Prop :=
  store.get Store.treeKey = .ok none ∨ ∃ s us gs, s.tree.Linked ∧ s.Regular ∧ s.Lists us gs ∧ Kept store s us gs ∧ Q s

theorem Backed.restorable (h : Backed Q store) : Restorable Q store :=
  h.imp_right fun ⟨s, us, gs, hc⟩ => ⟨s, us, gs, hc.linked, hc.regular, hc.lists, hc.kept, hc.holds⟩

/-- Only the phase and the logs are different. -/
theorem Upheld.beside (hQ : Lasting Q) (h : s.Upheld Q) {phase : Phase} {log : Log} {bootLog : List String} :
    Upheld Q { s with phase, log, bootLog } where
  sound := h.sound.same rfl rfl
  regular := ⟨⟨h.regular.marked, h.regular.accounts, h.regular.user, h.regular.clipboard, h.regular.core, h.regular.apps,
    h.regular.failures, h.regular.diagnostic, h.regular.clock⟩, h.regular.indexed⟩
  free := h.free
  quiet := h.quiet
  holds := hQ.same h.holds rfl rfl rfl
  backed := h.backed

/-- Time goes by. -/
theorem Upheld.atTime (hQ : Lasting Q) (h : s.Upheld Q) {now : Time.Stamp} (hnow : now.Proper) : Upheld Q { s with now } where
  sound := h.sound.same rfl rfl
  regular := ⟨⟨h.regular.marked, h.regular.accounts, h.regular.user, h.regular.clipboard, h.regular.core, h.regular.apps,
    h.regular.failures, h.regular.diagnostic, hnow⟩, h.regular.indexed⟩
  free := h.free
  quiet := h.quiet
  holds := hQ.same h.holds rfl rfl rfl
  backed := h.backed

theorem upheld_log (hQ : Lasting Q) {level : Level} {source message : String} {user : Json} :
    Works (Upheld Q) (Act.log level source message user) := fun _ h => ⟨_, _, run_log, h.beside hQ⟩

theorem upheld_phase (hQ : Lasting Q) {phase : Phase} : Works (Upheld Q) (modify fun s => { s with phase }) :=
  fun _ h => ⟨_, _, rfl, h.beside hQ⟩

/-- Flushing succeeds. -/
theorem Regular.run_flush (h : s.Regular) : ∃ s', Act.flush.run s = (.ok ⟨⟩, s') := by
  by_cases hphase : s.phase = .running
  · obtain ⟨us, gs, hs⟩ := h.lists
    exact ⟨_, hs.run_flush hphase⟩
  · refine ⟨s, ?_⟩
    unfold Act.flush
    rw [run_bind, run_get]
    dsimp only
    rw [if_neg hphase]
    rfl

/-- A state in which a property holds is what the store gives back once it has been flushed. -/
theorem backed_flush (hl : s.tree.Linked) (hr : s.Regular) (hf : s.Free) (hq : Q s) (hb : Backed Q s.store) {r : Except Fault Unit}
    (hrun : Act.flush.run s = (r, s')) : Backed Q s'.store := by
  by_cases hphase : s.phase = .running
  · obtain ⟨us, gs, hs⟩ := hr.lists
    cases (hs.run_flush hphase).symm.trans hrun
    exact .inr ⟨s, us, gs, hl, hr, hf, hq, hs, hr.kept hl hs⟩
  · have hrun := Act.got hrun
    rw [if_neg hphase] at hrun
    cases hrun
    exact hb

theorem upheld_flush (hQ : Lasting Q) : Works (Upheld Q) Act.flush := by
  intro s h
  obtain ⟨s', hrun⟩ := h.regular.run_flush
  have ha := aside_flush hrun
  refine ⟨⟨⟩, s', hrun, h.sound.aside ha, (tidy_flush h.regular.tidyWith hrun).regular, h.free.aside ha, ?_, ?_,
    backed_flush h.sound.linked h.regular h.free h.holds h.backed hrun⟩
  · rw [ha.same]
    exact h.quiet
  · rw [ha.same]
    exact hQ.same h.holds rfl rfl rfl

/-! ## Starting -/

/-- Laying out a new system succeeds, and the property holds then. -/
theorem upheld_seed (hQ : Lasting Q) (hs : s.Sound) (hnow : s.now.Proper) (hb : Backed Q s.store) :
    ∃ s', seed.run s = (.ok ⟨⟩, s') ∧ s'.Upheld Q := by
  obtain ⟨s', hrun, hsound, htidy⟩ := run_seed hs hnow
  have hframe : s' = _ := laidOut_seed hrun
  refine ⟨s', hrun, hsound, htidy.regular, safeMode_seed hrun, ?_, hQ.seeded hs hnow hrun, ?_⟩
  · rw [hframe]
    rfl
  · rw [hframe]
    exact hb

/-- Restoring goes on from the state that the store gives back, or finds nothing that it can read. -/
theorem Kept.resumed {c : Machine} (hk : Kept s.store c us gs) (hl : c.tree.Linked) (hr : c.Regular) (hs : c.Lists us gs)
    (hnow : s.now.Proper) :
    (∃ bootLog, restoreOrNote.run s = (.ok true, s.goingOn c us gs bootLog) ∧ (s.goingOn c us gs bootLog).Regular ∧
      Resumes { c with now := s.now } { s.goingOn c us gs bootLog with phase := .running }) ∨
    ∃ s', restoreOrNote.run s = (.ok false, s') ∧ s'.now = s.now ∧ s'.store = s.store := by
  -- the clock has gone on since the state was written
  let c' : Machine := { c with now := s.now }
  have hc' : c'.Regular := ⟨⟨hr.marked, hr.accounts, hr.user, hr.clipboard, hr.core, hr.apps, hr.failures, hr.diagnostic, hnow⟩,
    hr.indexed⟩
  have hlists : c'.Lists us gs := ⟨hs.users, hs.groups, hs.usersJson, hs.groupsJson, hs.read⟩
  rcases hc'.restored hl hlists hk with hheld | ⟨e, he, bootLog, hrestore⟩
  · obtain ⟨bootLog, hrestore⟩ := run_restore hc' hl hlists hheld
    obtain ⟨hresumes, hregular⟩ := hc'.goingOn hlists (m := s) (b := bootLog) rfl
    refine .inl ⟨bootLog, ?_, hregular, hresumes⟩
    unfold restoreOrNote
    rw [run_tryCatch, hrestore]
    rfl
  · right
    unfold restoreOrNote
    rw [run_tryCatch, hrestore]
    dsimp only
    rw [if_pos he]
    exact ⟨_, Act.next Act.run_log (Act.next_modify rfl), rfl, rfl⟩

/-- What is restored has the property, and where nothing is restored a new system can be laid out. -/
theorem restoreOrNote_backed (hQ : Lasting Q) (hs : s.Sound) (hnow : s.now.Proper) (hquiet : s.alarmed = false)
    (hb : Backed Q s.store) : ∃ found s', restoreOrNote.run s = (.ok found, s') ∧
      (found = true → s'.Upheld Q) ∧ (found = false → s'.Sound ∧ s'.now.Proper ∧ Backed Q s'.store) := by
  rcases hb with hnone | ⟨c, us, gs, hc⟩
  · exact ⟨false, s, restoreOrNote_none hnone, (by rintro ⟨⟩), fun _ => ⟨hs, hnow, .inl hnone⟩⟩
  have hsound : ∀ {x s'}, restoreOrNote.run s = (x, s') → s'.Sound := fun hrun =>
    steady_sound.restoreOrNote restoring_sound hs hrun
  rcases hc.kept.resumed hc.linked hc.regular hc.lists hnow with ⟨bootLog, hrun, hregular, hresumes⟩ | ⟨s', hrun, hsame, hstore⟩
  · refine ⟨true, _, hrun, fun _ => ⟨hsound hrun, hregular, hc.free, hquiet, ?_, .inr ⟨c, us, gs, hc⟩⟩, (by rintro ⟨⟩)⟩
    have hc' : Regular { c with now := s.now } := ⟨⟨hc.regular.marked, hc.regular.accounts, hc.regular.user, hc.regular.clipboard,
      hc.regular.core, hc.regular.apps, hc.regular.failures, hc.regular.diagnostic, hnow⟩, hc.regular.indexed⟩
    exact hQ.same (hQ.resumed (s := { c with now := s.now }) hc.linked hc' (hQ.same hc.holds rfl rfl rfl) hresumes) rfl rfl rfl
  · exact ⟨false, s', hrun, (by rintro ⟨⟩), fun _ => ⟨hsound hrun, hsame ▸ hnow, hstore ▸ .inr ⟨c, us, gs, hc⟩⟩⟩

/-- A start leads to a state with the property. -/
theorem upheld_boot (hQ : Lasting Q) (hs : s.Sound) (hnow : s.now.Proper) (hquiet : s.alarmed = false) (hphase : s.phase = .shutdown)
    (hb : Backed Q s.store) : ∃ s', boot.run s = (.ok ⟨⟩, s') ∧ s'.Upheld Q := by
  have hstart : (s.phase != .shutdown) = false := by rw [hphase]; rfl
  let s₀ : Machine := { s with phase := .booting, bootLog := [] }
  have hs₀ : s₀.Sound := hs.same rfl rfl
  have hend : Works (Upheld Q) (do
      modify fun s => { s with phase := .running }
      Act.flush
      Act.log .info "system" "System boot complete") :=
    works_bind (upheld_phase hQ) fun _ => works_bind (upheld_flush hQ) fun _ => upheld_log hQ
  obtain ⟨found, s₁, hrestore, htrue, hfalse⟩ := restoreOrNote_backed hQ hs₀ hnow hquiet hb
  unfold boot
  rw [run_bind, run_get]
  simp only [hstart, Bool.false_eq_true, if_false]
  cases found with
  | true =>
    obtain ⟨_, s₂, hrun, h₂⟩ := hend (htrue rfl)
    exact ⟨s₂, Act.next (run_set ..) (Act.next hrestore hrun), h₂⟩
  | false =>
    obtain ⟨hs₁, hnow₁, hb₁⟩ := hfalse rfl
    obtain ⟨s₂, hseed, h₂⟩ := upheld_seed hQ hs₁ hnow₁ hb₁
    obtain ⟨_, s₃, hrun, h₃⟩ := hend h₂
    exact ⟨s₃, Act.next (run_set ..) (Act.next hrestore (Act.next hseed hrun)), h₃⟩

/-- Only a system that is down can be started. -/
theorem keeps_boot (hQ : Lasting Q) : Keeps (Upheld Q) boot := by
  intro s s' r h hrun
  by_cases hphase : s.phase = .shutdown
  · obtain ⟨s₁, hboot, h₁⟩ := upheld_boot hQ h.sound h.regular.clock h.quiet hphase h.backed
    cases hboot.symm.trans hrun
    exact h₁
  · have hrun := Act.got hrun
    rw [if_pos (by simpa using hphase)] at hrun
    cases hrun
    exact h

/-- A new system on the same store goes on, too. -/
theorem upheld_anew (hQ : Lasting Q) (h : s.Upheld Q) : ∃ s', boot.run s.anew = (.ok ⟨⟩, s') ∧ s'.Upheld Q :=
  upheld_boot hQ h.sound.anew h.regular.clock rfl rfl h.backed

/-- So does a system that starts for the first time. -/
theorem upheld_first (hQ : Lasting Q) {hostname : String} {log : Log} {ids : IdSupply} {now : Time.Stamp} (empty : store.Empty)
    (hnow : now.Proper) : ∃ s', boot.run (create store hostname log ids now) = (.ok ⟨⟩, s') ∧ s'.Upheld Q :=
  upheld_boot hQ (sound_create empty.restores) hnow rfl rfl (.inl empty.get_tree)

/-! ## Stopping and resetting -/

theorem keeps_shutdown (hQ : Lasting Q) : Keeps (Upheld Q) shutdown := by
  refine keeps_read fun s => ?_
  split
  · intro s s' r h hrun
    cases hrun
    exact h
  · exact keeps_bind (upheld_flush hQ).keeps fun _ => keeps_bind (upheld_log hQ).keeps fun _ => (upheld_phase hQ).keeps

/-- A reset leaves no tree in the store but the new one. -/
theorem keeps_reset (hQ : Lasting Q) : Keeps (Upheld Q) reset := by
  intro s s' r h hrun
  have hgone : s.swept.store.get Store.treeKey = .ok none := Store.get_disowned_tree h.sound.restores.unique
  obtain ⟨s₁, hseed, h₁⟩ := upheld_seed hQ h.sound.swept h.regular.clock (.inl hgone)
  rw [run_reset, run_bind, hseed] at hrun
  exact keeps_bind (upheld_phase hQ).keeps
    (fun _ => keeps_bind (upheld_flush hQ).keeps fun _ => (upheld_log hQ).keeps) h₁ hrun

/-! ## Runs -/

/-- The states that a system gets into once it has been started on an empty store: by the operations that are
allowed, and where a new system takes its place on the same store. -/
inductive Runs (allowed : Machine → Operation → Prop) : Machine → Prop
  | first {store : Store} {hostname : String} {log : Log} {ids : IdSupply} {now : Time.Stamp} {s : Machine} {r : Except Fault Unit}
      (empty : store.Empty) (clock : now.Proper) (run : boot.run (create store hostname log ids now) = (r, s)) : Runs allowed s
  | next {s s' : Machine} {op : Operation} {r : Except Fault Unit} (before : Runs allowed s) (may : allowed s op)
      (run : op.run.run s = (r, s')) : Runs allowed s'
  | restart {s s' : Machine} {r : Except Fault Unit} (before : Runs allowed s) (run : boot.run s.anew = (r, s')) : Runs allowed s'

section

variable {allowed : Machine → Operation → Prop}

theorem Runs.begin {store : Store} {hostname : String} {log : Log} {ids : IdSupply} {now : Time.Stamp} (empty : store.Empty)
    (clock : now.Proper) : Runs allowed (Operation.boot.after (create store hostname log ids now)) :=
  .first empty clock (r := (boot.run (create store hostname log ids now)).1) Prod.mk.eta.symm

theorem Runs.fresh : Runs allowed fresh :=
  have hclock : Time.Stamp.Proper { seconds := 0 } := ⟨rfl, by decide, by decide⟩
  .begin Store.empty_memory hclock

theorem Runs.perform (h : Runs allowed s) {op : Operation} (may : allowed s op) : Runs allowed (op.after s) :=
  .next h may (show op.run.run s = ((op.run.run s).1, (op.run.run s).2) from rfl)

theorem Runs.again (h : Runs allowed s) : Runs allowed (Operation.boot.after s.anew) :=
  .restart h (show boot.run s.anew = ((boot.run s.anew).1, (boot.run s.anew).2) from rfl)

/-- A lasting property that the allowed operations keep holds all the time. -/
theorem Runs.upheld (hQ : Lasting Q)
    (hop : ∀ {s s' op r}, s.Upheld Q → allowed s op → op.run.run s = (r, s') → s'.Upheld Q) (h : Runs allowed s) : s.Upheld Q := by
  induction h with
  | first empty clock run =>
    obtain ⟨s', hboot, h⟩ := upheld_first hQ empty clock
    cases hboot.symm.trans run
    exact h
  | next _ may run ih => exact hop ih may run
  | restart _ run ih =>
    obtain ⟨s', hboot, h⟩ := upheld_anew hQ ih
    cases hboot.symm.trans run
    exact h

end

end Machine

end SimUnix
