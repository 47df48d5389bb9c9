/-
Laying out a system again. Whatever has happened to a running system, a reset leaves it like a new one that has
been started for the first time under the same name, but for ids and times, and leaves in its store the records of
that state beside those of others. A start on records that cannot be read does so, too, whatever has been restored by
then; on records that can be read it leads to the state that they tell, and to nothing else.
-/
import SimUnix.Proofs.Machine.Backup
import SimUnix.Proofs.Machine.Lookalike
import SimUnix.Proofs.Store.Renewal

namespace SimUnix

theorem Store.Empty.filed {store : Store} (h : store.Empty) : store.Filed := by
  rintro d rfl name hname
  rw [show d.files = [] from h] at hname
  cases hname

namespace Machine

open Tree Act

variable {s s₁ : Machine}

/-! ## Resets -/

/-- What a reset leaves of a system, beside a system that has been started for the first time: they look alike, no
integrity check has found anything, and the store holds the records of the state and what was not the system's own. -/
structure Forgotten (old first new : Machine) : Prop where
  alike : ∃ P, Pairing P ∧ first.Lookalike P new
  armed : new.alarmed = false
  renewed : Store.Renewed new.records old.store new.store

theorem Lists.records {us : List User} {gs : List Group} (hs : s.Lists us gs) :
    s.records = (s.ownRecords us gs).map fun r => (r.1, .ok r.2) := by
  unfold Machine.records ownRecords
  rw [hs.usersJson, hs.groupsJson]
  rfl

/-- What is done once a new system is laid out, in a phase in which it runs. -/
theorem Good.run_finish (h : s₁.Good) (level : Level) (message : String) : ∃ us gs log,
    Lists { s₁ with phase := .running } us gs ∧
    (do
      modify fun s => { s with phase := .running }
      Act.flush
      Act.log level "system" message : Act Unit).run s₁ = (.ok ⟨⟩, { s₁ with
        phase := .running, log, store := s₁.store.setAll (ownRecords { s₁ with phase := .running } us gs) }) := by
  have hregular : Regular { s₁ with phase := .running } := h.2.inPhase.regular
  obtain ⟨us, gs, hs⟩ := hregular.lists
  exact ⟨us, gs, _, hs, Act.next_modify (Act.next (hs.run_flush rfl) run_log)⟩

/-- The first start of a system lays it out. -/
theorem run_boot_first {store : Store} {hostname : String} {log : Log} {ids : IdSupply} {now : Time.Stamp} (empty : store.Empty) :
    boot.run (create store hostname log ids now) =
      (seed >>= fun _ => do
        modify fun s => { s with phase := .running }
        Act.flush
        Act.log .info "system" "System boot complete").run { create store hostname log ids now with phase := .booting, bootLog := [] } := by
  have hstart : ((create store hostname log ids now).phase != .shutdown) = false := rfl
  unfold boot
  rw [run_bind, run_get]
  simp only [hstart, Bool.false_eq_true, if_false]
  exact Act.next (run_set ..) (Act.next (restoreOrNote_empty empty rfl) rfl)

/-- A reset of a running system forgets everything. -/
theorem Sound.forgotten (h : s.Sound) (hf : s.store.Filed) (running : s.phase = .running) (clock : s.now.Proper)
    {store : Store} {log : Log} {ids : IdSupply} {now : Time.Stamp} (empty : store.Empty) (clock' : now.Proper) :
    ∃ new first, reset.run s = (.ok ⟨⟩, new) ∧ boot.run (create store s.defaultHostname log ids now) = (.ok ⟨⟩, first) ∧
      Forgotten s first new := by
  let a₀ : Machine := { create store s.defaultHostname log ids now with phase := .booting, bootLog := [] }
  have hcreate : (create store s.defaultHostname log ids now).Sound := sound_create empty.restores
  have ha₀ : a₀.Sound := hcreate.same rfl rfl
  obtain ⟨a, hseed, ha⟩ := run_seed ha₀ clock'
  obtain ⟨b, hseed', hapace⟩ : ∃ b, seed.run s.swept = (.ok ⟨⟩, b) ∧ Apace (a₀.tree.ids.Turns s.swept.tree.ids) a b :=
    seed_apace rfl rfl hseed
  obtain ⟨b', hrun, hb⟩ := run_seed h.swept clock
  cases hrun.symm.trans hseed'
  obtain ⟨us, gs, log₁, -, hfirst⟩ := ha.run_finish .info "System boot complete"
  obtain ⟨vs, ks, log₂, hlists, hreset⟩ := hb.run_finish .warning "factory reset"
  have hstart : reset.run s = (seed >>= fun _ => do
      modify fun s => { s with phase := .running }
      Act.flush
      Act.log .warning "system" "factory reset").run s.swept := by rw [run_reset, running]
  refine ⟨_, _, hstart.trans (Act.next hseed' hreset), (run_boot_first empty).trans (Act.next hseed hfirst),
    ⟨_, IdSupply.pairing_turns _ _, hapace.tree.toAlike, ?_⟩, ?_, ?_⟩
  · dsimp only
    rw [hapace.rest]
  · have hframe : b = _ := laidOut_seed hseed'
    dsimp only
    rw [hframe]
    rfl
  · have hstore : b.store = s.store.disowned := by
      have hframe : b = _ := laidOut_seed hseed'
      rw [hframe]
      rfl
    have hregular : Regular { b with phase := .running } := hb.2.inPhase.regular
    have hlegible : b.accounts.Legible := legible_seed hseed'
    have hlinked : b.tree.Linked := hb.1.linked
    have hfits := hregular.fits hlinked hlegible hlists
    show Store.Renewed (records { b with phase := .running }) _ (b.store.setAll _)
    rw [hlists.records, hstore]
    exact Store.renewed_setAll h.restores.unique hf rfl hfits

/-! ## Reading the records -/

/-- What the records of a store say, read into a system: nothing where they have no tree. -/
def recorded (s : Machine) : Except Fault (Option Machine) := do
  match (← s.store.get Store.treeKey).getD .null with
  | .null => .ok none
  | record =>
    let tree ← Tree.ofJson s.tree.ids s.now record
    let usersRecord ← recordOr Store.usersKey (.arr []) s
    let groupsRecord ← recordOr Store.groupsKey (.arr []) s
    let users ← Accounts.readUsers usersRecord
    let groups ← Accounts.readGroups groupsRecord
    let accounts := Accounts.completed { users, groups }
    let _ ← accounts.sortedUsers
    let clipboardRecord ← recordOr Store.clipboardKey .null s
    let clipboard ← Clipboard.ofJson clipboardRecord
    let appsRecord ← recordOr Store.appsKey (Json.texts coreApps) s
    let apps ← appsRecord.items
    let session ← recordOr Store.sessionKey (.obj []) s
    let currentUser ← session.fieldOr "user" .null
    let safeMode ← flagField "safe_mode" session
    let failures ← itemsField "integrity_failures" session
    let diagnostic ← itemsField "integrity_diagnostic" session
    let developerMode ← flagField "developer_mode" session
    .ok (some { s with
      tree, accounts, clipboard, apps, currentUser, safeMode, failures, diagnostic, developerMode })

section

variable {α : Type} {x : Except Fault α} {read : Except Fault (Option Machine)} {f : α → Except Fault (Option Machine)}
  {g : α → Act Bool}

end

/-- A system that begins to start. -/
def starting (s : Machine) : Machine := { s with phase := .booting, bootLog := [] }

/-- What is done once it is known whether anything could be restored. -/
def settle (found : Bool) : Act Unit := do
  if !found then seed
  modify fun s => { s with phase := .running }
  Act.flush
  Act.log .info "system" "System boot complete"

/-- The store has all records of the state, written over what it had before. -/
def WrittenOver (store : Store) (s : Machine) : Prop :=
  ∃ rs, s.records = rs.map (fun r => (r.1, .ok r.2)) ∧ s.store = store.setAll rs

/-- A system that runs in a state that has been read. -/
def RunsAs (t s : Machine) : Prop := s = { t with phase := .running, store := s.store, log := s.log, bootLog := s.bootLog }

/-- A system that has been laid out in place of what its records do not tell: it looks like one that has been started
for the first time, its arena is one tree, and all its records are written over the old ones. -/
structure Reseeded (m first s : Machine) : Prop where
  running : s.phase = .running
  alike : ∃ P, Pairing P ∧ first.Lookalike P s
  tree : s.tree.OneTree
  written : s.WrittenOver m.store

/-- How a start ends, by what the records of the system say. -/
inductive Started (m first : Machine) : Except Fault Unit → Machine → Prop
  | restored {t s : Machine} (read : m.starting.recorded = .ok (some t)) (runs : t.RunsAs s) (written : s.WrittenOver m.store) :
      Started m first (.ok ⟨⟩) s
  | unwritten {t s : Machine} {e : Fault} (read : m.starting.recorded = .ok (some t)) (runs : t.RunsAs s)
      (cannot : ∃ r ∈ s.records, r.2 = .error e) : Started m first (.error e) s
  | reseeded {s : Machine} (unread : m.starting.recorded = .ok none ∨ ∃ e, m.starting.recorded = .error e ∧ isUnreadable e = true)
      (new : m.Reseeded first s) : Started m first (.ok ⟨⟩) s
  | givenUp {e : Fault} {s : Machine} (fault : m.starting.recorded = .error e) (other : isUnreadable e = false)
      (booting : s.phase = .booting) : Started m first (.error e) s

theorem Lists.withAccounts {us : List User} {gs : List Group} (hs : s.Lists us gs) {t : Machine} (h : t.accounts = s.accounts) :
    t.Lists us gs := ⟨h ▸ hs.users, h ▸ hs.groups, h ▸ hs.usersJson, h ▸ hs.groupsJson, hs.read⟩

/-- A system that has not been started, on a record of its tree that tells no root. -/
def rootless : Machine := create (.memory [(Store.treeKey, .obj [])]) "aurora" {} { stem := "n" } { seconds := 0 }

end Machine

end SimUnix
