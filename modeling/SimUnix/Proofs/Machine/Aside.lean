/-
What happens beside the tree: log entries are added, and records are written to the store. Whatever
is written under the key of the tree is the tree as it is.
-/
import SimUnix.Machine.Files
import SimUnix.Proofs.Action

namespace SimUnix

/-! ## Writing records -/

namespace Store

/-- A key whose record has nothing to do with that of the tree. -/
structure Apart (key : String) : Prop where
  other : key ≠ treeKey
  file : fileName key ≠ fileName treeKey
  draft : draftName key ≠ fileName treeKey

/-- A store after some records have been written while the tree was `t`. -/
inductive Saves (t : Tree) (a : Store) : Store → Prop
  | refl : Saves t a a
  | tree {b : Store} : Saves t a b → Saves t a (b.set treeKey t.toJson)
  | other {b : Store} {key : String} {value : Json} : Saves t a b → Apart key → Saves t a (b.set key value)

theorem Saves.trans {t : Tree} {a b c : Store} (h₁ : Saves t a b) (h₂ : Saves t b c) : Saves t a c := by
  induction h₂ with
  | refl => exact h₁
  | tree _ ih => exact ih.tree
  | other _ hk ih => exact ih.other hk

theorem apart_usersKey : Apart usersKey := by constructor <;> decide +kernel
theorem apart_groupsKey : Apart groupsKey := by constructor <;> decide +kernel
theorem apart_clipboardKey : Apart clipboardKey := by constructor <;> decide +kernel
theorem apart_appsKey : Apart appsKey := by constructor <;> decide +kernel
theorem apart_sessionKey : Apart sessionKey := by constructor <;> decide +kernel

end Store

namespace Machine

/-- A system that differs in its log and its records only. -/
structure Aside (s s' : Machine) : Prop where
  same : s' = { s with log := s'.log, store := s'.store }
  saves : s.store.Saves s.tree s'.store

theorem Aside.refl (s : Machine) : s.Aside s := ⟨rfl, .refl⟩

theorem Aside.tree {s s' : Machine} (h : s.Aside s') : s'.tree = s.tree := by rw [h.same]

theorem Aside.trans {s₁ s₂ s₃ : Machine} (h₁ : s₁.Aside s₂) (h₂ : s₂.Aside s₃) : s₁.Aside s₃ := by
  refine ⟨?_, h₁.saves.trans (h₁.tree ▸ h₂.saves)⟩
  rw [h₂.same, h₁.same]

theorem aside_logged {s : Machine} {level : Level} {source message : String} {user : Json} :
    s.Aside (s.logged level source message user) := ⟨rfl, .refl⟩

/-- Where nothing but the log is different, the records are as before. -/
theorem aside_of_log {s s' : Machine} (h : s' = { s with log := s'.log }) : s.Aside s' := by
  rw [h]
  exact ⟨rfl, .refl⟩

end Machine

namespace Act

open Machine

variable {s s' : Machine}

theorem run_log {level : Level} {source message : String} {user : Json} :
    (log level source message user).run s = (.ok ⟨⟩, s.logged level source message user) := rfl

theorem run_ofExcept {α : Type} {x : Except Fault α} : (ofExcept x).run s = (x, s) := by
  cases x <;> rfl

theorem run_ask {α : Type} {question : Machine → Except Fault α} :
    (ask question).run s = (question s, s) := by
  unfold ask
  simp only [run_bind, run_get, run_ofExcept]

/-- A question on the way either fails, and nothing happens, or is answered. -/
theorem asked {α β : Type} {x : Except Fault α} {f : α → Act β} {r : Except Fault β}
    (h : (ofExcept x >>= f).run s = (r, s')) :
    (∃ e, x = .error e ∧ r = .error e ∧ s' = s) ∨ ∃ a, x = .ok a ∧ (f a).run s = (r, s') := by
  rw [run_bind, run_ofExcept] at h
  cases x with
  | error e =>
    cases h
    exact .inl ⟨e, rfl, rfl, rfl⟩
  | ok a => exact .inr ⟨a, rfl, h⟩

/-- A question to the state on the way either fails, and nothing happens, or is answered. -/
theorem askedOf {α β : Type} {question : Machine → Except Fault α} {f : α → Act β} {r : Except Fault β}
    (h : (ask question >>= f).run s = (r, s')) :
    (∃ e, question s = .error e ∧ r = .error e ∧ s' = s) ∨ ∃ a, question s = .ok a ∧ (f a).run s = (r, s') := by
  rw [run_bind, run_ask] at h
  rcases hq : question s with e | a
  · rw [hq] at h
    cases h
    exact .inl ⟨e, rfl, rfl, rfl⟩
  · rw [hq] at h
    exact .inr ⟨a, rfl, h⟩

/-- The state as it is. -/
theorem got {β : Type} {f : Machine → Act β} {r : Except Fault β} (h : (get >>= f).run s = (r, s')) :
    (f s).run s = (r, s') := h

theorem run_writeRecord {key : String} {value : Except Fault Json} : (writeRecord key value).run s =
    match value with
    | .ok v => (.ok ⟨⟩, { s with store := s.store.set key v })
    | .error e => (.error e, s) := by
  unfold writeRecord
  simp only [run_bind, run_ofExcept, run_modify]
  cases value <;> rfl

/-- A record of the system: that of its tree, or one that has nothing to do with it. -/
def Proper (t : Tree) (r : String × Except Fault Json) : Prop :=
  (r.1 = Store.treeKey ∧ r.2 = .ok t.toJson) ∨ Store.Apart r.1

theorem proper_records : ∀ r ∈ s.records, Proper s.tree r := by
  intro r hr
  unfold Machine.records at hr
  simp only [List.mem_cons, List.not_mem_nil, or_false] at hr
  rcases hr with rfl | rfl | rfl | rfl | rfl | rfl
  · exact .inl ⟨rfl, rfl⟩
  · exact .inr Store.apart_usersKey
  · exact .inr Store.apart_groupsKey
  · exact .inr Store.apart_clipboardKey
  · exact .inr Store.apart_appsKey
  · exact .inr Store.apart_sessionKey

theorem aside_writeRecord {r : String × Except Fault Json} {x : Except Fault PUnit} (hp : Proper s.tree r)
    (hrun : (writeRecord r.1 r.2).run s = (x, s')) : s.Aside s' := by
  rw [run_writeRecord] at hrun
  split at hrun
  · rename_i v hv
    cases hrun
    refine ⟨rfl, ?_⟩
    rcases hp with ⟨hkey, hval⟩ | hapart
    · rw [hval] at hv
      cases hv
      rw [hkey]
      exact .tree .refl
    · exact .other .refl hapart
  · cases hrun
    exact .refl _

theorem aside_writeRecords {t : Tree} {x : Except Fault PUnit} : ∀ {rs : List (String × Except Fault Json)}
    {s : Machine}, s.tree = t → (∀ r ∈ rs, Proper t r) →
      (rs.forM fun r => writeRecord r.1 r.2).run s = (x, s') → s.Aside s'
  | [], s, _, _, hrun => by
    cases hrun
    exact .refl _
  | r :: rs, s, ht, hp, hrun => by
    have hcons : ((r :: rs).forM fun r => writeRecord r.1 r.2) =
        (writeRecord r.1 r.2 >>= fun _ => rs.forM fun r => writeRecord r.1 r.2) := rfl
    rw [hcons, run_bind] at hrun
    rcases hfirst : (writeRecord r.1 r.2).run s with ⟨y, s₁⟩
    have h₁ := aside_writeRecord (ht ▸ hp r (List.mem_cons_self ..)) hfirst
    rw [hfirst] at hrun
    cases y with
    | error e =>
      cases hrun
      exact h₁
    | ok u =>
      exact h₁.trans (aside_writeRecords (h₁.tree.trans ht) (fun q hq => hp q (List.mem_cons_of_mem _ hq)) hrun)

/-- Bringing the records up to date touches nothing else. -/
theorem aside_flush {x : Except Fault PUnit} (hrun : flush.run s = (x, s')) : s.Aside s' := by
  unfold flush at hrun
  simp only [run_bind, run_get] at hrun
  split at hrun
  · exact aside_writeRecords rfl proper_records hrun
  · cases hrun
    exact .refl _

/-- Records are written if all of them can be made. -/
theorem writes_iff : ∀ {rs : List (String × Except Fault Json)} {s : Machine},
    (∃ s', (rs.forM fun r => writeRecord r.1 r.2).run s = (.ok ⟨⟩, s')) ↔ ∀ r ∈ rs, ∃ v, r.2 = .ok v
  | [], s => ⟨fun _ => nofun, fun _ => ⟨s, rfl⟩⟩
  | r :: rs, s => by
    have hcons : ((r :: rs).forM fun r => writeRecord r.1 r.2) =
        (writeRecord r.1 r.2 >>= fun _ => rs.forM fun r => writeRecord r.1 r.2) := rfl
    rw [hcons, run_bind, run_writeRecord, List.forall_mem_cons]
    rcases r.2 with e | v
    · constructor
      · rintro ⟨_, h⟩
        cases h
      · rintro ⟨⟨_, h⟩, -⟩
        cases h
    · simp only [Except.ok.injEq, exists_eq', true_and]
      exact writes_iff

/-- The tables of users and groups are all that can be in the way of bringing the records up to date. -/
theorem flush_iff : (∃ s', flush.run s = (.ok ⟨⟩, s')) ↔
    (s.phase = .running → (∃ us, s.accounts.usersJson = .ok us) ∧ ∃ gs, s.accounts.groupsJson = .ok gs) := by
  unfold flush
  simp only [run_bind, run_get]
  split
  · rename_i hphase
    rw [writes_iff]
    simp [records, hphase]
  · rename_i hphase
    simp [hphase, run_pure]

/-- Whether the records can be written does not depend on the tree. -/
theorem flush_tree {t : Tree} : (∃ s', flush.run { s with tree := t } = (.ok ⟨⟩, s')) ↔ ∃ s', flush.run s = (.ok ⟨⟩, s') :=
  (flush_iff (s := { s with tree := t })).trans (flush_iff (s := s)).symm

/-- Nor is anything else in the way of writing down a change. -/
theorem changed_iff {message : String} {user? : Option Json} :
    (∃ s', (changed message user?).run s = (.ok ⟨⟩, s')) ↔ ∃ s', flush.run s = (.ok ⟨⟩, s') := by
  unfold changed
  simp only [run_bind, run_get, run_log]
  rw [flush_iff, flush_iff]
  rfl

theorem aside_changed {message : String} {user? : Option Json} {x : Except Fault PUnit}
    (hrun : (changed message user?).run s = (x, s')) : s.Aside s' := by
  unfold changed at hrun
  simp only [run_bind, run_get, run_log] at hrun
  exact aside_logged.trans (aside_flush hrun)

theorem run_denied {what : String} {user? : Option Json} : (denied what user?).run s =
    (.ok ⟨⟩, s.logged .warning "fs" ("permission denied: " ++ what) (s.actor user?)) := rfl

end Act

end SimUnix
