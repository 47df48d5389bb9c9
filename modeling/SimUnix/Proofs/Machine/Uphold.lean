/-
What users do between starts and stops. Sessions, calls on files and pastes leave a state that is written to
the store as it is, or not at all, so that a lasting property is kept as soon as it is kept by the state.
-/
import SimUnix.Proofs.Machine.Backup
import SimUnix.Proofs.Machine.Outcome

namespace SimUnix.Machine

open Tree Act

variable {Q : Machine → Prop} {s s₁ s' : Machine} {user? source? : Option Json}

/-! ## Changes -/

/-- A change that has not been written to the store. -/
theorem Upheld.changed (h : s.Upheld Q) (hs : s'.Sound) (hr : s'.Regular) (hf : s'.safeMode = s.safeMode)
    (ha : s'.alarmed = s.alarmed) (hq : Q s') (hstore : s'.store = s.store) : s'.Upheld Q :=
  ⟨hs, hr, hf.trans h.free, ha.trans h.quiet, hq, hstore ▸ h.backed⟩

/-- What has been made has been written to the store as it is, or the store is as before. -/
theorem Made.upheld (hm : s.Made s') (h : s.Upheld Q) (hQ : Lasting Q) (hs : s'.Sound) (hr : s'.Regular) (hq : Q s') :
    s'.Upheld Q := by
  have hf : s'.Free := by
    unfold Free
    rw [hm.same]
    exact h.free
  have ha : s'.alarmed = false := by
    rw [hm.same]
    exact h.quiet
  rcases hm.writes with hstore | ⟨log, x, hrun⟩
  · exact ⟨hs, hr, hf, ha, hq, hstore ▸ h.backed⟩
  · let m : Machine := { s' with log, store := s.store }
    have hr' : m.Regular := ⟨⟨hr.marked, hr.accounts, hr.user, hr.clipboard, hr.core, hr.apps, hr.failures, hr.diagnostic,
      hr.clock⟩, hr.indexed⟩
    have hl' : m.tree.Linked := hs.linked
    exact ⟨hs, hr, hf, ha, hq, backed_flush hl' hr' hf (hQ.same hq rfl rfl rfl) h.backed hrun⟩

theorem Settled.upheld {α : Type} {refusal : α → Prop} {r : Except Fault α} (hm : Settled refusal s r s') (h : s.Upheld Q)
    (hQ : Lasting Q) (hs : s'.Sound) (hr : s'.Regular) (hq : Q s') : s'.Upheld Q := by
  rcases hm with hn | ⟨hmade, -⟩
  · rw [hn]
    exact h.beside hQ
  · exact hmade.upheld h hQ hs hr hq

/-- The tables and the clipboard are as before. -/
theorem Settled.same {α : Type} {refusal : α → Prop} {r : Except Fault α} (hm : Settled refusal s r s') :
    s'.accounts = s.accounts ∧ s'.clipboard = s.clipboard := by
  rcases hm with hn | ⟨hmade, -⟩
  · rw [hn]
    exact ⟨rfl, rfl⟩
  · rw [hmade.same]
    exact ⟨rfl, rfl⟩

/-! ## Sessions -/

theorem upheld_setSessionUser (hQ : Lasting Q) {name? : Option String} : Keeps (Upheld Q) (setSessionUser name?) :=
  keeps_bind (keeps_modify fun _ h => h.changed (h.sound.same rfl rfl) h.regular.tidyWith.withUser.regular rfl rfl
    (hQ.same h.holds rfl rfl rfl) rfl) fun _ => (upheld_flush hQ).keeps

theorem upheld_login (hQ : Lasting Q) {user password : String} : Keeps (Upheld Q) (login user password) := by
  refine keeps_read fun s => ?_
  split
  · exact keeps_bind (upheld_setSessionUser hQ) fun _ => keeps_bind (upheld_log hQ).keeps fun _ => keeps_pure _
  · exact keeps_bind (upheld_log hQ).keeps fun _ => keeps_pure _

theorem upheld_logout (hQ : Lasting Q) : Keeps (Upheld Q) logout := by
  refine keeps_read fun s => keeps_bind (upheld_setSessionUser hQ) fun _ => ?_
  split
  · exact keeps_pure _
  · exact (upheld_log hQ).keeps

/-! ## Calls -/

/-- A call keeps a lasting property that everything keeps that may be done on behalf of its users. -/
theorem upheld_call (hQ : Lasting Q) {c : FileCall} (hc : (Operation.file c user? source?).Proper)
    {r : Except Fault Answer} (hrun : (c.run user? source?).run s = (r, s')) (h : s.Upheld Q)
    (hkeep : ∀ {s₁}, Trail c.keepers user? (c.leaver? user? source?) s s₁ → Q { s with tree := s₁.tree }) : s'.Upheld Q := by
  have htrail := c.trail h.sound.linked hrun
  have hs' : s'.Sound := htrail.sound h.sound
  have hr' : s'.Regular := (tidy_call hc h.regular.tidyWith hrun).regular
  have hq : ∀ {s₁}, Trail c.keepers user? (c.leaver? user? source?) s s₁ → s₁.accounts = s.accounts ∧ s₁.clipboard = s.clipboard → Q s₁ :=
    fun htrail hsame => hQ.same (hkeep htrail) rfl hsame.1 hsame.2
  rcases c.settled hrun with hsettled | ⟨path, x, s₁, rfl, hens, hsettled⟩
  · exact hsettled.upheld h hQ hs' hr' (hq htrail hsettled.same)
  · -- the trash has been looked for in the first step, and what is moved has been moved in the second one
    have hfirst := settles_ensureTrash hens
    have hrelinks : Relinks (FileCall.keepers (.moveToTrash path)) user? (FileCall.leaver? user? source? (.moveToTrash path)) s s₁ :=
      (trail_ensureTrash h.sound.linked hens).1
    have hs₁ : s₁.Sound := hrelinks.sound h.sound
    have hr₁ : s₁.Regular := (tidy_ensureTrash hc h.regular.tidyWith hens).regular
    have h₁ : s₁.Upheld Q := hfirst.upheld h hQ hs₁ hr₁ (hq (.inl hrelinks) hfirst.same)
    have hsame : s'.accounts = s.accounts ∧ s'.clipboard = s.clipboard :=
      ⟨hsettled.same.1.trans hfirst.same.1, hsettled.same.2.trans hfirst.same.2⟩
    exact hsettled.upheld h₁ hQ hs' hr' (hq htrail hsame)

/-! ## Pastes -/

/-- Pasting an item is a call for the user who pastes, where the item leaves its place by the permission of
the one who has picked it. -/
theorem run_pasteItem {kind : PasteKind} {dir : String} {i : ClipboardItem} {r : Except Fault Bool}
    (hrun : (pasteItem kind dir user? i).run s = (r, s')) :
    s' = s ∨ ∃ c x, (c = .moveById i.node dir ∨ c = .copyById i.node dir none) ∧
      (FileCall.run user? (some i.user) c).run s = (x, s') := by
  have hcall : ∀ {c : FileCall} {m : Act Bool}, FileCall.run user? (some i.user) c = .truth <$> m → m.run s = (r, s') →
      ∃ x, (FileCall.run user? (some i.user) c).run s = (x, s') := by
    intro c m hc hm
    rw [hc, run_map, hm]
    cases r <;> exact ⟨_, rfl⟩
  unfold pasteItem at hrun
  split at hrun
  · cases hrun
    exact .inl rfl
  · cases kind
    case cut =>
      obtain ⟨x, hx⟩ := hcall (c := .moveById i.node dir) rfl hrun
      exact .inr ⟨_, x, .inl rfl, hx⟩
    case copy =>
      obtain ⟨x, hx⟩ := hcall (c := .copyById i.node dir none) rfl hrun
      exact .inr ⟨_, x, .inr rfl, hx⟩

end SimUnix.Machine
