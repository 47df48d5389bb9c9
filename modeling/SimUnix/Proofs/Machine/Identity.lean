/-
Users and groups over whole runs. Whatever is asked of the tables, by whomever, and however often the system
is stopped, started or reset on the way, numbers and memberships are right, and every user knows its groups.
-/
import SimUnix.Proofs.Machine.Backup

namespace SimUnix.Machine

open Tree Act

variable {Q : Machine → Prop} {s s' : Machine} {user? : Option Json}

/-! ## Changes of the tables -/

/-- What is known of a state while the tables are being changed: a property may be broken, but the store is not touched. -/
structure Pending (Q : Machine → Prop) (s : Machine) : Prop where
  sound : s.Sound
  tidy : s.Tidy
  free : s.Free
  quiet : s.alarmed = false
  backed : Backed Q s.store

/-- Bringing everything up to date succeeds. What holds once the files are written holds then. -/
theorem Pending.committed (hQ : Lasting Q) (h : s.Pending Q) {message : String} {actor : Json}
    (hsync : ∀ {s'}, syncFiles.run { s with accounts := s.accounts.reindexed } = (.ok ⟨⟩, s') → Q s') :
    ∃ s', (committed message actor).run s = (.ok ⟨⟩, s') ∧ s'.Upheld Q := by
  have hset : Good { s with accounts := s.accounts.reindexed } :=
    ⟨h.sound.same rfl rfl, h.tidy.withAccounts h.tidy.accounts.reindexed, Accounts.reindexed_reindexed⟩
  obtain ⟨_, s₁, hrun, hgood⟩ := works_syncFiles hset
  have hframe : s₁ = { s with accounts := s.accounts.reindexed, tree := s₁.tree } :=
    onlyTree_syncFiles (.refl _) hrun
  have h₁ : s₁.Upheld Q := by
    refine ⟨hgood.1, hgood.2.regular, ?_, ?_, hsync hrun, ?_⟩
    · rw [hframe]
      exact h.free
    · rw [hframe]
      exact h.quiet
    · rw [hframe]
      exact h.backed
  obtain ⟨_, s₂, hend, h₂⟩ := works_bind (upheld_log hQ) (fun _ => upheld_flush hQ) h₁
  exact ⟨s₂, Act.next_modify (Act.next hrun hend), h₂⟩

/-- A change of the tables keeps a property that holds once the files of the new tables are written. -/
theorem upheld_table (hQ : Lasting Q) {c : TableCall} (hc : c.Proper)
    (hmade : ∀ {s s' : Machine} {accounts t message}, s.Upheld Q → c.change s.accounts = .ok (some accounts) →
      c.finish.run { s with accounts } = (.ok message, { s with accounts, tree := t }) →
        syncFiles.run { s with accounts := accounts.reindexed, tree := t } = (.ok ⟨⟩, s') → Q s') :
    Keeps (Upheld Q) (c.operation user?).run := by
  intro s s' r h hrun
  rcases c.run_cases hc h.sound h.regular.toTidy hrun with hlog | ⟨accounts, t, message, actor, x, hchange, hfinish, hs, ht, hcommit⟩
  · rw [hlog]
    exact h.beside hQ
  · have hpending : Pending Q { s with accounts, tree := t } := ⟨hs, ht, h.free, h.quiet, h.backed⟩
    obtain ⟨s₁, hrun₁, h₁⟩ := hpending.committed hQ fun hsync => hmade h hchange hfinish hsync
    cases hrun₁.symm.trans hcommit
    exact h₁

/-- A property of the tables is kept if their changes keep it, and if it does not matter which groups the users know. -/
theorem upheld_accounts {P : Accounts → Prop} (hP : Lasting fun s => P s.accounts)
    (hchange : ∀ {c : TableCall} {a a' : Accounts}, a.InOrder → P a → c.change a = .ok (some a') → P a')
    (hreindexed : ∀ {a : Accounts}, P a → P a.reindexed) {c : TableCall} (hc : c.Proper) :
    Keeps (Upheld fun s => P s.accounts) (c.operation user?).run := by
  refine upheld_table hP hc fun {s s' accounts t message} h hmade _ hsync => ?_
  have hframe : s' = { s with accounts := accounts.reindexed, tree := s'.tree } := onlyTree_syncFiles (.refl _) hsync
  have hnew : P accounts := hchange h.regular.accounts h.holds hmade
  rw [hframe]
  exact hreindexed hnew

/-! ## Numbers and memberships -/

theorem First.numbered {a : Accounts} (h : First a) : a.Numbered := by
  obtain ⟨b, c, hnext, hinsert, hupdate, rfl⟩ := h
  have horder : rootOnly.InOrder := Accounts.initial_inOrder.updateUsers fun u hu =>
    ⟨rfl, hu.name, hu.uid, hu.gid, hu.fullName, ⟨_, rfl⟩, hu.passwordHint, hu.home, hu.shell⟩
  have hroot : rootOnly.Numbered := Accounts.initial_numbered.updateUsers fun u => ⟨rfl, rfl⟩
  have hb : b.Numbered := hroot.insertUser rfl rfl rfl (horder.unused hnext) hinsert
  have hfound : b.user? firstUser.name = some firstUser := Accounts.user?_insertUser hinsert
  unfold Accounts.updateGroup at hupdate
  split at hupdate
  · cases hupdate
    exact (hb.join hfound).reindexed
  · cases hupdate

theorem lasting_numbered : Lasting fun s => s.accounts.Numbered where
  same h _ ha _ := ha ▸ h
  resumed _ _ h hr := h.same hr.accounts.1
  seeded _ _ hrun := (first_seed hrun).numbered

theorem numbered_table {c : TableCall} (hc : c.Proper) : Keeps (Upheld fun s => s.accounts.Numbered) (c.operation user?).run :=
  upheld_accounts lasting_numbered (fun ha hn h => TableCall.numbered ha hn h) Accounts.Numbered.reindexed hc

/-! ## Runs -/

/-- What may be asked of users and groups, and the ways in which a system ends and begins. -/
def Operation.Administrative : Operation → Prop
  | addUser new _ => new.passwordHint.IsText
  | updateUser _ _ _ | deleteUser _ _ | addGroup _ _ _ | addToGroup _ _ _ | removeFromGroup _ _ _ | deleteGroup _ _ => True
  | boot | shutdown | reset => True
  | clock now => now.Proper
  | _ => False

/-- They keep what every change of the tables keeps, and what lasts. -/
theorem Operation.Administrative.upheld {op : Operation} (hop : op.Administrative) (hQ : Lasting Q)
    (htable : ∀ {c : TableCall} {user? : Option Json}, c.Proper → Keeps (Upheld Q) (c.operation user?).run) : Keeps (Upheld Q) op.run := by
  cases op
  case addUser new _ => exact htable (c := .addUser new) hop
  case updateUser name c _ => exact htable (c := .updateUser name c) trivial
  case deleteUser name _ => exact htable (c := .deleteUser name) trivial
  case addGroup name members _ => exact htable (c := .addGroup name members) trivial
  case addToGroup user group _ => exact htable (c := .addToGroup user group) trivial
  case removeFromGroup user group _ => exact htable (c := .removeFromGroup user group) trivial
  case deleteGroup name _ => exact htable (c := .deleteGroup name) trivial
  case boot => exact keeps_boot hQ
  case shutdown => exact keeps_shutdown hQ
  case reset => exact keeps_reset hQ
  case clock now => exact keeps_modify fun _ h => h.atTime hQ hop
  all_goals exact hop.elim

theorem Operation.Administrative.numbered {op : Operation} (hop : op.Administrative) :
    Keeps (Upheld fun s => s.accounts.Numbered) op.run := hop.upheld lasting_numbered numbered_table

/-- Users and groups are consistent in all states that administration, restarts and resets lead to. -/
theorem runs_consistent (h : Runs (fun _ op => op.Administrative) s) : s.accounts.Consistent := by
  have hup := h.upheld lasting_numbered fun hup hop hrun => hop.numbered hup hrun
  exact hup.holds.consistent hup.regular.accounts hup.regular.indexed

/-- A new user, a group of which it is a member, and a restart. -/
theorem runs_consistent_restarted :
    (Operation.boot.after ((Operation.addGroup "staff" ["alice"] (some "root")).after
      ((Operation.addUser { name := "alice" } (some "root")).after fresh)).anew).accounts.Consistent :=
  have hnew : (Operation.addUser { name := "alice" } (some "root")).Administrative := ⟨"", rfl⟩
  have hstaff : (Operation.addGroup "staff" ["alice"] (some "root")).Administrative := trivial
  runs_consistent ((Runs.fresh.perform hnew).perform hstaff).again

end SimUnix.Machine
