/-
What everything that is done for somebody writes down in the log: calls on files, pastes, changes of users and groups, and
sessions. Only the clipboard is filled and emptied without a word.
-/
import SimUnix.Proofs.Machine.Audit
import SimUnix.Proofs.Machine.Authority
import SimUnix.Proofs.Machine.Written
import SimUnix.Proofs.Terminal.Authority

namespace SimUnix

namespace Machine

open Tree Act

variable {s s₁ s' : Machine} {user? source? : Option Json} {kind : PasteKind} {dir : String} {items : List ClipboardItem}

/-! ## Pastes -/

/-- The call by which an item is pasted. -/
def pasteCall (kind : PasteKind) (dir : String) (i : ClipboardItem) : FileCall :=
  match kind with
  | .cut => .moveById i.node dir
  | .copy => .copyById i.node dir none

/-- An item is refused to somebody when its turn comes. -/
def PasteRefuses (s : Machine) (kind : PasteKind) (dir : String) (user? : Option Json) (items : List ClipboardItem) (who : Json) : Prop :=
  ∃ before i after count s₁, items = before ++ i :: after ∧ (pasteItems kind dir user? before).run s = (.ok count, s₁) ∧
    s₁.Refuses ((pasteCall kind dir i).Needs s₁ user? (some i.user)) who

theorem pasteRefuses_nil {who : Json} : ¬ s.PasteRefuses kind dir user? [] who := by
  rintro ⟨before, i, after, _, _, hitems, -⟩
  cases before <;> cases hitems

theorem run_pasteItems_cons {i : ClipboardItem} {rest : List ClipboardItem} {arrived : Bool}
    (hfirst : (pasteItem kind dir user? i).run s = (.ok arrived, s₁)) {r : Except Fault Nat} :
    (pasteItems kind dir user? (i :: rest)).run s = (r, s') ↔
      ∃ x, (pasteItems kind dir user? rest).run s₁ = (x, s') ∧ r = x.map fun others => if arrived then others + 1 else others := by
  have hcons : (pasteItems kind dir user? (i :: rest)).run s =
      (pasteItems kind dir user? rest >>= fun others => pure (if arrived then others + 1 else others) : Act Nat).run s₁ :=
    next hfirst rfl
  rw [hcons, run_bind]
  rcases (pasteItems kind dir user? rest).run s₁ with ⟨e | n, s₂⟩
  · constructor
    · rintro ⟨⟩
      exact ⟨_, rfl, rfl⟩
    · rintro ⟨_, ⟨⟩, rfl⟩
      rfl
  · constructor
    · rintro ⟨⟩
      exact ⟨_, rfl, rfl⟩
    · rintro ⟨_, ⟨⟩, rfl⟩
      rfl

/-- Of several items the first one may be refused, or one of the others once it has had its turn. -/
theorem pasteRefuses_cons {i : ClipboardItem} {rest : List ClipboardItem} {who : Json} :
    s.PasteRefuses kind dir user? (i :: rest) who ↔ s.Refuses ((pasteCall kind dir i).Needs s user? (some i.user)) who ∨
      ∃ arrived s₁, (pasteItem kind dir user? i).run s = (.ok arrived, s₁) ∧ s₁.PasteRefuses kind dir user? rest who := by
  constructor
  · rintro ⟨before, j, after, count, s₂, hitems, hbefore, hrefuses⟩
    rcases before with _ | ⟨k, before⟩
    · cases hitems
      cases hbefore
      exact .inl hrefuses
    · cases hitems
      rcases of_run_bind hbefore with ⟨e, -, he⟩ | ⟨arrived, s₁, hfirst, -⟩
      · cases he
      obtain ⟨x, hrest, hx⟩ := (run_pasteItems_cons hfirst).1 hbefore
      rcases x with e | n
      · cases hx
      · exact .inr ⟨arrived, s₁, hfirst, before, j, after, n, s₂, rfl, hrest, hrefuses⟩
  · rintro (hrefuses | ⟨arrived, s₁, hfirst, before, j, after, n, s₂, rfl, hrest, hrefuses⟩)
    · exact ⟨[], i, rest, 0, s, rfl, rfl, hrefuses⟩
    · exact ⟨i :: before, j, after, _, s₂, rfl, (run_pasteItems_cons hfirst).2 ⟨_, hrest, rfl⟩, hrefuses⟩

theorem journals_pasteItem (ht : s.Tidy) (hl : Linked s.tree) (hu : UserArg user?) {i : ClipboardItem} (hi : i.node.IsText ∧ i.user.IsText)
    {r : Except Fault Bool} (hrun : (pasteItem kind dir user? i).run s = (r, s')) :
    s.Journals (s.actor user?) (s.Refuses ((pasteCall kind dir i).Needs s user? (some i.user))) (s.Alters r s') s' := by
  have hsource : UserArg (some i.user) := fun u hu => by
    cases hu
    exact .inr hi.2
  have hkey : ¬ (!i.node.isKey) = true := by
    obtain ⟨text, htext⟩ := hi.1
    rw [htext]
    exact Bool.false_ne_true
  unfold pasteItem at hrun
  rw [if_neg hkey] at hrun
  cases kind with
  | cut => exact journals_moveById ht hl hu hsource hrun
  | copy => exact journals_copyById ht hl hu hsource hrun

theorem actor_pasteItem (hl : Linked s.tree) {i : ClipboardItem} {r : Except Fault Bool}
    (hrun : (pasteItem kind dir user? i).run s = (r, s')) : s'.actor user? = s.actor user? := by
  have halike := (trail_pasteItem hl hrun).alike
  unfold actor
  rw [halike.currentUser]

/-- Items are pasted one after the other, and each leaves its entries. -/
theorem journals_pasteItems (hu : UserArg user?) : ∀ {items : List ClipboardItem} {s : Machine} {r : Except Fault Nat},
    s.Sound → s.Tidy → (∀ i ∈ items, i.node.IsText ∧ i.user.IsText) → (pasteItems kind dir user? items).run s = (r, s') →
      s.Journals (s.actor user?) (s.PasteRefuses kind dir user? items) (s.Alters r s') s'
  | [], s, r, _, _, _, hrun => by
    cases hrun
    exact journals_silent rfl (fun _ => pasteRefuses_nil) not_alters
  | i :: rest, s, r, hs, ht, hitems, hrun => by
    have hl := hs.linked
    rcases hfirst : (pasteItem kind dir user? i).run s with ⟨x, s₁⟩
    have hjournal := journals_pasteItem ht hl hu (hitems i List.mem_cons_self) hfirst
    cases x with
    | error e =>
      have hend : (pasteItems kind dir user? (i :: rest)).run s = (.error e, s₁) := by
        unfold pasteItems
        rw [run_bind, hfirst]
      cases hend.symm.trans hrun
      refine hjournal.of_iff (fun who => pasteRefuses_cons.trans (or_iff_left ?_)) fun h => nomatch h.1
      rintro ⟨arrived, s₂, hfirst', -⟩
      cases hfirst.symm.trans hfirst'
    | ok arrived =>
      obtain ⟨y, hrest, rfl⟩ := (run_pasteItems_cons hfirst).1 hrun
      have hs₁ : s₁.Sound := (trail_pasteItem hl hfirst).sound hs
      have ht₁ : s₁.Tidy := (tidy_pasteItem (P := fun _ => True) hu ⟨ht, trivial⟩ hfirst).1
      have hothers := journals_pasteItems hu hs₁ ht₁ (fun j hj => hitems j (List.mem_cons_of_mem _ hj)) hrest
      rw [actor_pasteItem hl hfirst] at hothers
      refine hjournal.trans hothers (fun who => pasteRefuses_cons.trans (or_congr_right ⟨?_, fun h => ⟨_, _, hfirst, h⟩⟩)) ?_
      · rintro ⟨_, _, hfirst', h⟩
        cases hfirst.symm.trans hfirst'
        exact h
      · rintro ⟨⟨n, hn⟩, hne⟩
        by_cases hsame : s₁.tree = s.tree
        · refine .inr ⟨?_, hsame ▸ hne⟩
          rcases y with e | m
          · cases hn
          · exact ⟨m, rfl⟩
        · exact .inl ⟨⟨_, rfl⟩, hsame⟩

/-- Emptying the clipboard writes nothing down. -/
theorem log_clearClipboard {r : Except Fault Unit} (hrun : clearClipboard.run s = (r, s')) : s'.log = s.log ∧ s'.tree = s.tree := by
  unfold clearClipboard at hrun
  rw [run_bind, run_modify] at hrun
  dsimp only at hrun
  exact ⟨(log_flush hrun).trans rfl, (aside_flush hrun).tree⟩

theorem journals_paste (hs : s.Sound) (ht : s.Tidy) (hu : UserArg user?) {r : Except Fault Nat} (hrun : (paste dir user?).run s = (r, s')) :
    s.Journals (s.actor user?) (s.PasteRefuses s.clipboard.kind dir user? s.clipboard.items) (s.Alters r s') s' := by
  rcases of_run_bind (got hrun) with ⟨e, hitems, rfl⟩ | ⟨count, s₁, hitems, hrun⟩
  · exact (journals_pasteItems hu hs ht ht.clipboard hitems).of_iff (fun _ => .rfl) fun h => nomatch h.1
  have hjournal := journals_pasteItems hu hs ht ht.clipboard hitems
  have hend : s'.log = s₁.log ∧ s'.tree = s₁.tree := by
    split at hrun
    · rcases of_run_bind hrun with ⟨e, hclear, -⟩ | ⟨_, s₂, hclear, hrun⟩
      · exact log_clearClipboard hclear
      · cases hrun
        exact log_clearClipboard hclear
    · cases hrun
      exact ⟨rfl, rfl⟩
  obtain ⟨es, hlog, hes⟩ := hjournal
  have hpasted : s.Journals _ _ (s.Alters (.ok count : Except Fault Nat) s₁) s' := ⟨es, hend.1.trans hlog, hes⟩
  exact hpasted.of_iff (fun _ => .rfl) fun h => ⟨⟨count, rfl⟩, hend.2 ▸ h.2⟩

/-! ## Users and groups -/

/-- Somebody may not change the tables: in safe mode nobody may, and otherwise whoever is no administrator. -/
def Barred (s : Machine) (user? : Option Json) : Prop := s.safeMode = true ∨ ¬ s.accounts.Administers (s.petitioner user?)

/-- How somebody who asks for a change of the tables is named: nobody by a question mark. -/
def shownPetitioner (s : Machine) (user? : Option Json) : Json := if (s.petitioner user?).truthy then s.petitioner user? else "?"

/-- Whoever administers the system is told from everybody else. -/
theorem Regular.mayAdminister_iff (h : s.Regular) {name : Json} (hname : name = .null ∨ name.IsText) :
    s.mayAdminister name = .ok true ↔ s.accounts.Administers name := by
  constructor
  · intro hmay
    obtain ⟨b, hb, hadmin⟩ := h.mayAdminister hname
    exact hadmin (Except.ok.inj (hb.symm.trans hmay))
  · intro hadmin
    rcases hname with rfl | ⟨text, rfl⟩
    · obtain ⟨u, hu, -⟩ := hadmin
      obtain ⟨hnull, hplain⟩ := h.accounts.filedUsers.get? hu
      obtain ⟨text, htext⟩ := hplain.name
      rw [hnull] at htext
      cases htext
    · exact congrArg Except.ok ((Accounts.isAdmin_iff h.accounts h.indexed).2 hadmin)

/-- Who is barred is warned of by name. -/
theorem run_authorize_barred (h : s.Regular) (hu : UserArg user?) (action : String) (hbarred : s.Barred user?) :
    ∃ message, (authorize action user?).run s = (.ok none, s.logged .warning "auth" message (s.shownPetitioner user?)) := by
  unfold authorize
  rw [run_bind, run_get]
  dsimp only
  split
  · exact ⟨_, rfl⟩
  rename_i hfree
  have hno : ¬ s.accounts.Administers (s.petitioner user?) := hbarred.resolve_left hfree
  obtain ⟨b, hmay, hadmin⟩ := h.mayAdminister (h.toTidy.petitioner hu)
  rw [Bool.eq_false_iff.2 fun hb => hno (hadmin hb)] at hmay
  exact ⟨_, next_ask hmay rfl⟩

/-- Everybody else is let through without a word. -/
theorem run_authorize_free (h : s.Regular) (hu : UserArg user?) (action : String) (hfree : ¬ s.Barred user?) :
    (authorize action user?).run s = (.ok (some (s.petitioner user?)), s) := by
  unfold Barred at hfree
  push Not at hfree
  unfold authorize
  rw [run_bind, run_get]
  dsimp only
  rw [if_neg hfree.1]
  exact next_ask ((h.mayAdminister_iff (h.toTidy.petitioner hu)).2 hfree.2) rfl

/-- Bringing everything up to date is written down once. -/
theorem log_committed (hs : s.Sound) (ht : s.Tidy) {message : String} {actor : Json} {r : Except Fault Unit}
    (hrun : (committed message actor).run s = (r, s')) : s'.log = s.log.add { level := .info, source := "auth", message, user := actor } := by
  obtain ⟨-, s₁, hsync, hframe, -⟩ := saved_committed hs ht hrun
  have hflush : Act.flush.run (s₁.logged .info "auth" message actor) = (r, s') :=
    (next_modify (next hsync (next run_log rfl)) : (committed message actor).run s = _).symm.trans hrun
  rw [log_flush hflush, hframe]
  rfl

/-- Whatever change of users and groups is asked for, it is told if it is made, and whoever is barred is warned of. -/
theorem TableCall.journals {c : TableCall} (hc : c.Proper) (hs : s.Sound) (hr : s.Regular) (hu : UserArg user?) {x : Except Fault Bool}
    (hrun : (c.perform user?).run s = (x, s')) : s.Journals (s.petitioner user?)
      (fun who => s.Barred user? ∧ who = s.shownPetitioner user?) (s' ≠ { s with log := s'.log }) s' := by
  rw [c.perform_eq] at hrun
  by_cases hbarred : s.Barred user?
  · obtain ⟨message, hauth⟩ := run_authorize_barred hr hu c.action hbarred
    cases (next hauth rfl : (administer c.action user? c.change c.finish).run s = _).symm.trans hrun
    exact journals_refusal rfl rfl ⟨hbarred, rfl⟩ fun h => h rfl
  have hnobody : ∀ who, ¬ (s.Barred user? ∧ who = s.shownPetitioner user?) := fun _ h => hbarred h.1
  have hrun := (next (run_authorize_free hr hu c.action hbarred) rfl).symm.trans hrun
  rcases askedOf hrun with ⟨e, -, -, rfl⟩ | ⟨accounts?, hchange, hrun⟩
  · exact journals_silent rfl hnobody fun h => h rfl
  cases accounts? with
  | none =>
    cases hrun
    exact journals_silent rfl hnobody fun h => h rfl
  | some accounts =>
    have hset : TidyWith (fun _ => True) { s with accounts } :=
      ⟨hr.toTidy.withAccounts (c.orders hc hr.accounts hchange), trivial⟩
    have hsound : Sound { s with accounts } := hs.same rfl rfl
    obtain ⟨message, t, hfinish, htidy⟩ := c.run_finish hsound hset
    have hrun := (next_modify (next hfinish rfl)).symm.trans hrun
    obtain ⟨y, hcommit⟩ : ∃ y, (committed message (s.petitioner user?)).run { s with accounts, tree := t } = (y, s') := by
      rcases of_run_bind hrun with ⟨e, hcommit, -⟩ | ⟨_, s₁, hcommit, hrun⟩
      · exact ⟨_, hcommit⟩
      · cases hrun
        exact ⟨_, hcommit⟩
    exact journals_change (log_committed (c.sound_finish hsound hfinish) htidy.1 hcommit) rfl rfl hnobody

/-! ## Sessions -/

/-- Getting a user for the session, or none, writes nothing down. -/
theorem log_setSessionUser (hr : s.Regular) (name? : Option String) :
    ∃ s', (setSessionUser name?).run s = (.ok ⟨⟩, s') ∧ s'.log = s.log ∧ s'.tree = s.tree ∧ s'.accounts = s.accounts ∧
      s'.currentUser = Json.text? name? := by
  have hsession : TidyWith _ { s with currentUser := Json.text? name? } := hr.tidyWith.withUser
  obtain ⟨s', hflush⟩ := hsession.regular.run_flush
  have hsame := (aside_flush hflush).same
  exact ⟨s', next_modify hflush, (log_flush hflush).trans rfl, by rw [hsame], by rw [hsame], by rw [hsame]⟩

/-- Whoever has logged in is told, and who has not is warned of. -/
theorem journals_login (hr : s.Regular) {user password : String} {x : Except Fault Bool} (hrun : (login user password).run s = (x, s')) :
    s.Journals (.str user) (fun who => s.accounts.verify user password = false ∧ who = .str user) (s' ≠ { s with log := s'.log }) s' := by
  have hrun := got hrun
  split at hrun
  · rename_i hverify
    obtain ⟨s₁, hset, hlog, -⟩ := log_setSessionUser hr (some user)
    have hrun := (next hset rfl).symm.trans hrun
    cases hrun
    exact journals_change (congrArg (Log.add · _) hlog) rfl rfl fun who h => by rw [hverify] at h; cases h.1
  · rename_i hverify
    cases hrun
    exact journals_refusal rfl rfl ⟨by simpa using hverify, rfl⟩ fun h => h rfl

/-- Whoever has logged out is told. -/
theorem journals_logout (hr : s.Regular) {x : Except Fault Unit} (hrun : logout.run s = (x, s')) :
    s.Journals s.currentUser (fun _ => False) (s'.tree ≠ s.tree ∨ s'.accounts ≠ s.accounts ∨ s'.currentUser ≠ s.currentUser) s' := by
  have hrun := got hrun
  obtain ⟨s₁, hset, hlog, htree, haccounts, huser⟩ := log_setSessionUser hr none
  have hrun := (next hset rfl).symm.trans hrun
  split at hrun
  · rename_i hnobody
    cases hrun
    refine journals_silent hlog (fun _ => id) ?_
    rw [htree, haccounts, huser, hnobody]
    simp [Json.text?]
  · cases hrun
    exact journals_change (congrArg (Log.add · _) hlog) rfl rfl fun _ => id

/-! ## Operations -/

/-- Operations that are done for somebody: calls on files, pastes, changes of users and groups, and sessions. Whoever is named in
them is named by a text. -/
def Operation.Signed : Operation → Prop
  | file _ user? source? => UserArg user? ∧ UserArg source?
  | addUser new user? => new.passwordHint.IsText ∧ UserArg user?
  | paste _ user? | updateUser _ _ user? | deleteUser _ user? | addGroup _ _ user? | addToGroup _ _ user? | removeFromGroup _ _ user?
  | deleteGroup _ user? => UserArg user?
  | login _ _ | logout => True
  | _ => False

/-- The one for whom an operation is done. -/
def Operation.agent (s : Machine) : Operation → Json
  | file _ user? _ | paste _ user? => s.actor user?
  | addUser _ user? | updateUser _ _ user? | deleteUser _ user? | addGroup _ _ user? | addToGroup _ _ user? | removeFromGroup _ _ user?
  | deleteGroup _ user? => s.petitioner user?
  | login user _ => .str user
  | logout => s.currentUser
  | _ => systemUser

/-- An operation is refused to somebody: for want of a right to a node, as no administrator, in safe mode, or with a wrong
password. -/
def Operation.RefusesTo (s : Machine) : Operation → Json → Prop
  | file c user? source? => s.Refuses (c.Needs s user? source?)
  | paste dir user? => s.PasteRefuses s.clipboard.kind dir user? s.clipboard.items
  | addUser _ user? | updateUser _ _ user? | deleteUser _ user? | addGroup _ _ user? | addToGroup _ _ user? | removeFromGroup _ _ user?
  | deleteGroup _ user? => fun who => s.Barred user? ∧ who = s.shownPetitioner user?
  | login user password => fun who => s.accounts.verify user password = false ∧ who = .str user
  | _ => fun _ => False

/-- Other nodes, other users and groups, or another user of the session. -/
def Differs (s s' : Machine) : Prop := s'.tree ≠ s.tree ∨ s'.accounts ≠ s.accounts ∨ s'.currentUser ≠ s.currentUser

theorem Differs.not_logged (h : s.Differs s') : s' ≠ { s with log := s'.log } := by
  rintro heq
  rw [heq] at h
  rcases h with h | h | h <;> exact h rfl

theorem Alike.differs (h : s.Alike s') (hd : s.Differs s') : s'.tree ≠ s.tree :=
  hd.resolve_right fun h' => h'.elim (· h.accounts) (· h.currentUser)

theorem Trail.alike {keepers : NodeId → Prop} {leaver? : Option Json} (h : Trail keepers user? leaver? s s') : s.Alike s' := by
  rcases h with h | ⟨t, -, ha⟩
  · exact h.alike
  · rw [ha.same]
    exact ⟨rfl, rfl, rfl⟩

/-- Whoever pastes, users and sessions stay as they are. -/
theorem alike_pasteItems : ∀ {items : List ClipboardItem} {s : Machine} {r : Except Fault Nat}, s.Sound →
    (pasteItems kind dir user? items).run s = (r, s') → s.Alike s'
  | [], s, r, _, hrun => by
    cases hrun
    exact ⟨rfl, rfl, rfl⟩
  | i :: rest, s, r, hs, hrun => by
    rcases of_run_bind hrun with ⟨e, hfirst, rfl⟩ | ⟨arrived, s₁, hfirst, hrest⟩
    · exact (trail_pasteItem hs.linked hfirst).alike
    have hfirst' := trail_pasteItem hs.linked hfirst
    obtain ⟨x, hrest, -⟩ := (run_pasteItems_cons hfirst).1 hrun
    have h := alike_pasteItems (hfirst'.sound hs) hrest
    have h' := hfirst'.alike
    exact ⟨h.accounts.trans h'.accounts, h.currentUser.trans h'.currentUser, h.safeMode.trans h'.safeMode⟩

theorem alike_paste (hs : s.Sound) {r : Except Fault Nat} (hrun : (paste dir user?).run s = (r, s')) : s.Alike s' := by
  rcases of_run_bind (got hrun) with ⟨e, hitems, rfl⟩ | ⟨count, s₁, hitems, hrun⟩
  · exact alike_pasteItems hs hitems
  have halike := alike_pasteItems hs hitems
  have hclear : ∀ {x : Except Fault Unit} {s₂ : Machine}, clearClipboard.run s₁ = (x, s₂) → s.Alike s₂ := fun {x s₂} hclear => by
    unfold clearClipboard at hclear
    rw [run_bind, run_modify] at hclear
    dsimp only at hclear
    rw [(aside_flush hclear).same]
    exact ⟨halike.accounts, halike.currentUser, halike.safeMode⟩
  split at hrun
  · rcases of_run_bind hrun with ⟨e, hrun, -⟩ | ⟨_, s₂, hrun', hrun⟩
    · exact hclear hrun
    · cases hrun
      exact hclear hrun'
  · cases hrun
    exact halike

/-- An operation leaves the entries of what it does. -/
theorem Alters.of_discard {α : Type} {m : Act α} {r : Except Fault Unit} {x : Except Fault α} (hrun : (discard m).run s = (r, s'))
    (hm : m.run s = (x, s')) (hr : r = .ok ⟨⟩) (hne : s'.tree ≠ s.tree) : s.Alters x s' := by
  rw [run_discard, hm] at hrun
  cases x with
  | error e =>
    cases hrun
    cases hr
  | ok a => exact ⟨⟨a, rfl⟩, hne⟩

theorem Operation.journals {op : Operation} (hsigned : op.Signed) (hs : s.Sound) (hr : s.Regular) {r : Except Fault Unit}
    (hrun : op.run.run s = (r, s')) : s.Journals (op.agent s) (op.RefusesTo s) (r = .ok ⟨⟩ ∧ s.Differs s') s' := by
  have htable : ∀ (c : TableCall) (user? : Option Json), c.Proper → UserArg user? → (discard (c.perform user?)).run s = (r, s') →
      s.Journals (s.petitioner user?) (fun who => s.Barred user? ∧ who = s.shownPetitioner user?) (r = .ok ⟨⟩ ∧ s.Differs s') s' := by
    intro c user? hc hu hrun
    obtain ⟨x, hx⟩ := of_run_discard hrun
    exact (c.journals hc hs hr hu hx).of_iff (fun _ => .rfl) fun h => h.2.not_logged
  cases op
  case file c user? source? =>
    obtain ⟨x, hx⟩ := of_run_discard hrun
    have halike : s.Alike s' := (c.trail hs.linked hx).alike
    exact (c.journals hs hr.toTidy hsigned.1 hsigned.2 hx).of_iff (fun _ => .rfl) fun h => .of_discard hrun hx h.1 (halike.differs h.2)
  case paste dir user? =>
    obtain ⟨x, hx⟩ := of_run_discard hrun
    exact (journals_paste hs hr.toTidy hsigned hx).of_iff (fun _ => .rfl) fun h =>
      .of_discard hrun hx h.1 ((alike_paste hs hx).differs h.2)
  case login user password =>
    obtain ⟨x, hx⟩ := of_run_discard hrun
    exact (journals_login hr hx).of_iff (fun _ => .rfl) fun h => h.2.not_logged
  case logout => exact (journals_logout hr hrun).of_iff (fun _ => .rfl) fun h => h.2
  case addUser new user? => exact htable (.addUser new) user? hsigned.1 hsigned.2 hrun
  case updateUser name change user? => exact htable (.updateUser name change) user? trivial hsigned hrun
  case deleteUser name user? => exact htable (.deleteUser name) user? trivial hsigned hrun
  case addGroup name members user? => exact htable (.addGroup name members) user? trivial hsigned hrun
  case addToGroup user group user? => exact htable (.addToGroup user group) user? trivial hsigned hrun
  case removeFromGroup user group user? => exact htable (.removeFromGroup user group) user? trivial hsigned hrun
  case deleteGroup name user? => exact htable (.deleteGroup name) user? trivial hsigned hrun
  all_goals exact hsigned.elim

end Machine

namespace World

open Machine

/-- Whatever is done for somebody leaves its entries in the log, of which the newest stays as long as the log holds any. If nodes, users
and groups or the user of the session are others once it is done, an entry tells of it by the name of the one for whom it was done; if
somebody is refused, an entry warns of somebody who is; and there are no other entries. -/
theorem Living.audits {w : World} (h : w.Living) {op : Operation} (hsigned : op.Signed) {r : Except Fault Unit} {s' : Machine}
    (hrun : op.run.run w.machine = (r, s')) : ∃ es, s'.log = es.foldl Log.add w.machine.log ∧
      (0 < w.machine.log.capacity → ∀ e, es.getLast? = some e → s'.log.entries.getLast? = some e) ∧
        Journal (op.agent w.machine) (op.RefusesTo w.machine) (r = .ok ⟨⟩ ∧ w.machine.Differs s') es := by
  obtain ⟨hattended, hregular⟩ := h.attended
  obtain ⟨es, hlog, hjournal⟩ := op.journals hsigned hattended.machine hregular hrun
  refine ⟨es, hlog, fun hcap e he => ?_, hjournal⟩
  obtain ⟨front, rfl⟩ := List.getLast?_eq_some_iff.1 he
  rw [hlog]
  exact Log.newest_foldl hcap front e

/-- Root asks for a new group in safe mode. -/
theorem audits_guarded : guarded.Living ∧ (Operation.addGroup "staff" [rootName] (some (.str rootName))).Signed ∧
    ∃ s', (Operation.addGroup "staff" [rootName] (some (.str rootName))).run.run guarded.machine = (.ok ⟨⟩, s') ∧
      ∃ es : List LogEntry, s'.log = es.foldl Log.add guarded.machine.log ∧
        (0 < guarded.machine.log.capacity → ∀ e, es.getLast? = some e → s'.log.entries.getLast? = some e) ∧
          ∃ e ∈ es, e.level = .warning ∧ e.user = .str rootName := by
  have hshown : ∀ s : Machine, s.shownPetitioner (some (.str rootName)) = .str rootName := fun s => rfl
  obtain ⟨s', hrun⟩ : ∃ s', (authorize s!"add group staff" (some (.str rootName))).run guarded.machine = (.ok none, s') :=
    run_authorize_refused (.inl safeMode_guarded)
  have hrun : (Operation.addGroup "staff" [rootName] (some (.str rootName))).run.run guarded.machine = (.ok ⟨⟩, s') :=
    Act.next (Act.next hrun rfl) rfl
  have hsigned : (Operation.addGroup "staff" [rootName] (some (.str rootName))).Signed := userArg_some rootName
  obtain ⟨es, hlog, hnewest, hjournal⟩ := living_guarded.audits hsigned hrun
  obtain ⟨e, he, hlevel⟩ := hjournal.refusals ⟨.str rootName, .inl safeMode_guarded, (hshown _).symm⟩
  refine ⟨living_guarded, hsigned, s', hrun, es, hlog, hnewest, e, he, hlevel, ?_⟩
  rcases hjournal.tells e he with ⟨hinfo, -⟩ | ⟨-, -, huser⟩
  · rw [hlevel] at hinfo
    cases hinfo
  · exact huser.trans (hshown _)

/-- What is put on the clipboard is written down nowhere. -/
theorem pick_unnoted : furnished.Reachable ∧ 0 < furnished.machine.log.capacity ∧
    ∃ s', (Operation.pick [.str "n2"] .copy (some (.str rootName))).run.run furnished.machine = (.ok ⟨⟩, s') ∧
      s'.clipboard ≠ furnished.machine.clipboard ∧ s'.log = furnished.machine.log :=
  ⟨furnished_reachable, by decide +kernel, _, rfl, by decide +kernel, rfl⟩

end World

end SimUnix
