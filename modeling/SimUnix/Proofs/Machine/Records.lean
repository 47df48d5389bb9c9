/-
What a store gives back. A record that has been written is read as it was, and the six records that keep
the state do not get in each other's way.
-/
import SimUnix.Machine.Lifecycle
import SimUnix.Proofs.Account.Restore
import SimUnix.Proofs.Machine.Aside

namespace SimUnix

namespace Store

variable {store : Store} {key other : String} {v w : Json}

/-! ## One record -/

/-- How a store gives back a value: a store in memory as it is, one of files as its text is read. -/
def echo : Store → Json → Json
  | memory _ => id
  | files _ => Json.normal

theorem echoes_echo : ∀ store : Store, Json.Echoes store.echo
  | memory _ => Json.echoes_id
  | files _ => Json.echoes_normal

theorem echo_set : (store.set key v).echo = store.echo := by cases store <;> rfl

theorem takesName_set {name : String} : (store.set key v).takesName name = store.takesName name := by cases store <;> rfl

/-- Memory gives back any value. -/
theorem get_set_memory {records : Keyed String Json} : ((memory records).set key v).get key = .ok (some v) := by
  show Except.ok (Keyed.get? (Keyed.put records key v) key) = _
  rw [Keyed.get?_put, if_pos rfl]

/-- What is written is read back. -/
theorem get_set (hname : (fileName key).length ≤ maxNameLength) (hfits : v.Fits Json.maxDepth) :
    (store.set key v).get key = .ok (some (store.echo v)) := by
  cases store with
  | memory records => exact get_set_memory
  | files d =>
    have htakes : ∀ d : Directory, (files d).takesName (fileName key) = true := fun _ => decide_eq_true hname
    have hfile : Keyed.get? ((d.files.drop (draftName key)).put (fileName key) v.toText) (fileName key) = some v.toText := by
      rw [Keyed.get?_put, if_pos rfl]
    unfold Store.get Store.set
    simp only [htakes, Bool.not_true, Bool.false_eq_true, if_false, hfile, Json.parse_written hfits, bind, Except.bind]
    rfl

/-- What is written is read back, or reading gives up on a number that is too long. -/
theorem get_set_shallow (hname : (fileName key).length ≤ maxNameLength) (hv : v.Shallow Json.maxDepth) :
    (store.set key v).get key = .ok (some (store.echo v)) ∨
      ∃ e, (store.set key v).get key = .error e ∧ Machine.isUnreadable e = true := by
  cases store with
  | memory records => exact .inl get_set_memory
  | files d =>
    have htakes : ∀ d : Directory, (files d).takesName (fileName key) = true := fun _ => decide_eq_true hname
    have hfile : Keyed.get? ((d.files.drop (draftName key)).put (fileName key) v.toText) (fileName key) = some v.toText := by
      rw [Keyed.get?_put, if_pos rfl]
    unfold Store.get Store.set
    simp only [htakes, Bool.not_true, Bool.false_eq_true, if_false, hfile]
    rcases hparse : Json.parse v.toText with e | _ | w
    · obtain ⟨count, rfl⟩ := Json.parse_shallow hv hparse
      exact .inr ⟨_, rfl, rfl⟩
    · exact .inr ⟨_, rfl, rfl⟩
    · cases Json.parse_toText hparse
      exact .inl rfl

/-- A key whose record stays as it is when another one is written. -/
structure Clear (key other : String) : Prop where
  keys : key ≠ other
  files : fileName key ≠ fileName other
  drafts : fileName key ≠ draftName other

theorem get_set_other (h : Clear key other) : (store.set other v).get key = store.get key := by
  unfold Store.get
  rw [takesName_set]
  cases store with
  | memory records =>
    have hget : Keyed.get? (Keyed.put records other v) key = Keyed.get? records key := by
      rw [Keyed.get?_put, if_neg h.keys]
    unfold Store.set
    simp only [hget]
  | files d =>
    have hget : Keyed.get? ((d.files.drop (draftName other)).put (fileName other) v.toText) (fileName key) =
        d.files.get? (fileName key) := by
      rw [Keyed.get?_put, if_neg h.files, Keyed.get?_drop_of_ne _ h.drafts]
    unfold Store.set
    simp only [hget]

/-! ## The records of the system -/

/-- The keys of the records that keep the state. -/
def ownKeys : List String := [treeKey, usersKey, groupsKey, clipboardKey, appsKey, sessionKey]

theorem ownKeys_short : ∀ key ∈ ownKeys, (fileName key).length ≤ maxNameLength := by decide +kernel

theorem ownKeys_clear : ownKeys.Pairwise fun a b => Clear a b ∧ Clear b a := by
  have hclear : ∀ {a b : String}, (a ≠ b ∧ fileName a ≠ fileName b ∧ fileName a ≠ draftName b) → Clear a b :=
    fun h => ⟨h.1, h.2.1, h.2.2⟩
  have hpairs : ownKeys.Pairwise fun a b => (a ≠ b ∧ fileName a ≠ fileName b ∧ fileName a ≠ draftName b) ∧
      (b ≠ a ∧ fileName b ≠ fileName a ∧ fileName b ≠ draftName a) := by decide +kernel
  exact hpairs.imp fun h => ⟨hclear h.1, hclear h.2⟩

/-- Writing records one after the other. -/
def setAll (store : Store) (rs : List (String × Json)) : Store := rs.foldl (fun store r => store.set r.1 r.2) store

theorem echo_setAll : ∀ {rs : List (String × Json)} {store : Store}, (store.setAll rs).echo = store.echo
  | [], _ => rfl
  | r :: rs, store => (@echo_setAll rs (store.set r.1 r.2)).trans echo_set

theorem get_setAll_other : ∀ {rs : List (String × Json)} {store : Store}, (∀ r ∈ rs, Clear key r.1) →
    (store.setAll rs).get key = store.get key
  | [], _, _ => rfl
  | r :: _, _, h => (get_setAll_other fun q hq => h q (List.mem_cons_of_mem _ hq)).trans
    (get_set_other (h r (List.mem_cons_self ..)))

/-- Of some records that do not get in each other's way each is read as if it had been written last. -/
theorem get_setAll_last : ∀ {rs : List (String × Json)} {store : Store}, rs.Pairwise (fun a b => Clear a.1 b.1 ∧ Clear b.1 a.1) →
    ∀ r ∈ rs, ∃ before : Store, before.echo = store.echo ∧ (store.setAll rs).get r.1 = (before.set r.1 r.2).get r.1
  | q :: rs, store, hp, r, hr => by
    obtain ⟨hq, hp⟩ := List.pairwise_cons.1 hp
    rcases List.mem_cons.1 hr with rfl | hr
    · -- what is written after it keeps clear of it
      exact ⟨store, rfl, get_setAll_other fun x hx => (hq x hx).1⟩
    · obtain ⟨before, hecho, hget⟩ := @get_setAll_last rs (store.set q.1 q.2) hp r hr
      exact ⟨before, hecho.trans echo_set, hget⟩

/-- Each of some records that do not get in each other's way is read back. -/
theorem get_setAll {rs : List (String × Json)} (hp : rs.Pairwise (fun a b => Clear a.1 b.1 ∧ Clear b.1 a.1))
    (hfits : ∀ r ∈ rs, (fileName r.1).length ≤ maxNameLength ∧ r.2.Fits Json.maxDepth) :
    ∀ r ∈ rs, (store.setAll rs).get r.1 = .ok (some (store.echo r.2)) := by
  intro r hr
  obtain ⟨before, hecho, hget⟩ := get_setAll_last hp r hr
  rw [hget, get_set (hfits r hr).1 (hfits r hr).2, hecho]

end Store

namespace Act

variable {s : Machine}

theorem run_then {α β : Type} {m : Act α} {f : α → Act β} {a : α} {s' : Machine} (h : m.run s = (.ok a, s')) :
    (m >>= f).run s = (f a).run s' := by
  rw [run_bind, h]

variable {α β : Type} {r : Except Fault β × Machine}

/-- One step of a run, and what follows it. -/
theorem next {m : Act α} {f : α → Act β} {a : α} {s' : Machine} (h : m.run s = (.ok a, s')) (hr : (f a).run s' = r) :
    (m >>= f).run s = r := (run_then h).trans hr

theorem next_ask {question : Machine → Except Fault α} {f : α → Act β} {a : α} (h : question s = .ok a)
    (hr : (f a).run s = r) : (ask question >>= f).run s = r := next (by rw [run_ask, h]) hr

/-- A question that fails ends a run. -/
theorem fail_ask {question : Machine → Except Fault α} {f : α → Act β} {e : Fault} (h : question s = .error e) :
    (ask question >>= f).run s = (.error e, s) := by
  rw [run_bind, run_ask, h]

theorem next_given {x : Except Fault α} {f : α → Act β} {a : α} (h : x = .ok a) (hr : (f a).run s = r) :
    (ofExcept x >>= f).run s = r := next (by rw [run_ofExcept, h]) hr

theorem next_modify {change : Machine → Machine} {f : PUnit → Act β} (hr : (f ⟨⟩).run (change s) = r) :
    (modify change >>= f).run s = r := next (run_modify ..) hr

theorem run_writeAll : ∀ {rs : List (String × Json)} {s : Machine},
    ((rs.map fun r => (r.1, (.ok r.2 : Except Fault Json))).forM fun r => writeRecord r.1 r.2).run s =
      (.ok ⟨⟩, { s with store := s.store.setAll rs })
  | [], _ => rfl
  | r :: rs, s => by
    have hcons : (((r :: rs).map fun r => (r.1, (.ok r.2 : Except Fault Json))).forM fun r => writeRecord r.1 r.2) =
        (writeRecord r.1 (.ok r.2) >>= fun _ =>
          (rs.map fun r => (r.1, (.ok r.2 : Except Fault Json))).forM fun r => writeRecord r.1 r.2) := rfl
    rw [hcons, run_then run_writeRecord, run_writeAll]
    rfl

end Act

end SimUnix
