/-
A system with its terminals on a store in which others keep records, too. Whatever they keep there, what is done
to the system and what is typed on its terminals, a reset leaves the system like a new one, and the records of the
others as they are.
-/
import SimUnix.Proofs.Machine.Reseeding
import SimUnix.Proofs.Machine.Stock
import SimUnix.Proofs.Terminal.Life

namespace SimUnix

theorem Store.stable_filed : Store.Stable Store.Filed := ⟨Store.Filed.set, Store.Filed.delete⟩

/-- A record that is not the system's own has nothing to do with that of the tree. -/
theorem Store.apart_of_foreign {key : String} (h : ¬ IsOwn key) : Apart key := by
  have htree : IsOwn treeKey := (ownKeys_plain treeKey List.mem_cons_self).2
  exact ⟨fun he => h (he ▸ htree), fun he => h ((isOwn_of_fileName he).2 htree), fileName_ne_draftName.symm⟩

/-- A system in whose store someone has written a record. -/
def Machine.holding (s : Machine) (key : String) (value : Json) : Machine := { s with store := s.store.set key value }

theorem Machine.phase_holding (s : Machine) (key : String) (value : Json) : (s.holding key value).phase = s.phase := rfl

theorem Machine.now_holding (s : Machine) (key : String) (value : Json) : (s.holding key value).now = s.now := rfl

namespace World

variable {w w' : World}

/-- The states that a system and its terminals get into from an empty store, by operations of any kind, by
restarts and by what is typed, while new systems take the place of the old one, and others write to the store, too,
under any key but that of the tree, and remove from it what they like. -/
inductive Hosted : World → Prop
  | first {store : Store} {hostname : String} {log : Log} {ids : IdSupply} {now : Time.Stamp} (empty : store.Empty) :
      Hosted { machine := Machine.create store hostname log ids now }
  | next {w w' : World} (before : Hosted w) (move : Moves (fun _ => True) w w') : Hosted w'
  | anew {w : World} (before : Hosted w) : Hosted { machine := w.machine.anew }
  | write {w : World} {key : String} {value : Json} {store : Store} (before : Hosted w) (apart : Store.Apart key)
      (run : w.machine.store.write key value = .ok store) : Hosted { w with machine := { w.machine with store } }
  | remove {w : World} {key : String} {store : Store} (before : Hosted w) (run : w.machine.store.remove key = .ok store) : Hosted { w with machine := { w.machine with store } }

/-- All of that may happen where nobody else keeps records. -/
theorem Reachable.hosted (h : w.Reachable) : w.Hosted := by
  induction h with
  | first empty => exact .first empty
  | operate _ run ih => exact ih.next (.operate trivial run)
  | restart _ ih => exact ih.anew
  | opens _ run ih => exact ih.next (.opens run)
  | start _ there run ih => exact ih.next (.start there run)
  | submit _ there run ih => exact ih.next (.submit there run)
  | abandon _ there run ih => exact ih.next (.abandon there run)
  | interrupt _ there run ih => exact ih.next (.interrupt there run)

/-- What others write leaves the system in order, and all files are named for keys. -/
theorem Hosted.attended (h : w.Hosted) : w.Attended ∧ w.machine.store.Filed := by
  induction h with
  | first empty => exact ⟨⟨Machine.sound_create empty.restores, fun _ hv => by cases hv⟩, empty.filed⟩
  | next _ move ih =>
    obtain ⟨hleads, hattended⟩ := move.leads (fun _ _ => trivial) ih.1
    have hstocked : Machine.Stocked Store.Filed _ := hleads.stocked Store.stable_filed ⟨ih.1.machine, ih.2⟩
    exact ⟨hattended, hstocked.stock⟩
  | anew _ ih => exact ⟨⟨ih.1.machine.anew, fun _ hv => by cases hv⟩, ih.2⟩
  | write _ apart run ih =>
    unfold Store.write at run
    split at run <;> cases run
    have hs := ih.1.machine
    exact ⟨⟨⟨hs.linked, hs.gathered, hs.restores.set_apart apart⟩, ih.1.windows⟩, ih.2.set⟩
  | remove _ run ih =>
    unfold Store.remove at run
    split at run <;> cases run
    have hs := ih.1.machine
    exact ⟨⟨⟨hs.linked, hs.gathered, hs.restores.delete⟩, ih.1.windows⟩, ih.2.delete⟩

/-- Wherever a running system has got to, a reset leaves it like a new one that has been started for the first
time under the same name, and the records of others as they were. -/
theorem Hosted.forget (h : w.Hosted) (running : w.machine.phase = .running) (clock : w.machine.now.Proper) {store : Store}
    {log : Log} {ids : IdSupply} {now : Time.Stamp} (empty : store.Empty) (clock' : now.Proper) :
    ∃ new first, Machine.reset.run w.machine = (.ok ⟨⟩, new) ∧
      Machine.boot.run (Machine.create store w.machine.defaultHostname log ids now) = (.ok ⟨⟩, first) ∧
      Machine.Forgotten w.machine first new :=
  h.attended.1.machine.forgotten h.attended.2 running clock empty clock'

/-- Others can write any record of their own whose file can have its name. -/
theorem Hosted.keep (h : w.Hosted) {key : String} {value : Json} (foreign : ¬ Store.IsOwn key)
    (short : (Store.draftName key).length ≤ Store.maxNameLength) :
    Hosted { w with machine := w.machine.holding key value } := by
  have htakes : w.machine.store.takesName (Store.draftName key) = true := by
    cases w.machine.store with
    | memory _ => rfl
    | files _ => exact decide_eq_true short
  exact h.write (Store.apart_of_foreign foreign) (if_pos htakes)

/-- A new system on a store in which someone has kept a record. -/
def shared : World := { fresh with machine := fresh.machine.holding "notes" (.str "keep") }

theorem hosted_shared : shared.Hosted :=
  have hforeign : ¬ Store.IsOwn "notes" := by
    unfold Store.IsOwn
    decide
  fresh_reachable.hosted.keep hforeign (by decide +kernel)

theorem running_shared : shared.machine.phase = .running := by
  unfold shared
  rw [Machine.phase_holding]
  unfold fresh
  exact Machine.ready_fresh.running

theorem clock_shared : shared.machine.now.Proper := by
  unfold shared
  rw [Machine.now_holding]
  unfold fresh
  exact Machine.ready_fresh.regular.clock

theorem forget_shared : shared.Hosted ∧ shared.machine.phase = .running ∧ shared.machine.now.Proper ∧
    Store.Empty (.memory []) ∧ Time.Stamp.Proper { seconds := 0 } ∧
    ∃ new first, Machine.reset.run shared.machine = (.ok ⟨⟩, new) ∧
      Machine.boot.run (Machine.create (.memory []) shared.machine.defaultHostname {} { stem := "m" } { seconds := 0 }) =
        (.ok ⟨⟩, first) ∧
      Machine.Forgotten shared.machine first new :=
  have hclock : Time.Stamp.Proper { seconds := 0 } := ⟨rfl, by decide, by decide⟩
  ⟨hosted_shared, running_shared, clock_shared, Store.empty_memory, hclock,
    hosted_shared.forget running_shared clock_shared Store.empty_memory hclock⟩

end World

end SimUnix
