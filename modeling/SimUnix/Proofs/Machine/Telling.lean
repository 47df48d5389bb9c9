/-
What can always be told. In a tidy system users, their homes, and the owners and permissions of nodes are texts, so that
no question gives up which a user asks who is named by a text: where a path leads, what may be done with a node, what
is in a directory, and whether a node may be moved.
-/
import SimUnix.Proofs.Account.Order
import SimUnix.Proofs.Machine.Moving
import SimUnix.Proofs.Machine.Tidy

namespace SimUnix.Machine

open Tree Act

variable {s : Machine} {user? source? : Option Json} {n dir : Node} {path name : String}

/-! ## Users -/

/-- Of two users who may be named either may be the one who acts. -/
theorem userArg_firstName (hu : UserArg user?) (hv : UserArg source?) : UserArg (firstName? user? source?) :=
  fun _ hname => .inr (firstName_isText hu hv hname)

theorem find_text {v : Json} (h : v.IsText) : s.accounts.find v = .ok (s.accounts.user? v) := by
  obtain ⟨text, rfl⟩ := h
  rfl

/-- Whether a user may access a node. -/
theorem Tidy.can_ok (h : s.Tidy) (hn : s.tree.get? n.id = some n) (hu : UserArg user?) (access : Access) :
    ∃ may, s.can n access user? = .ok may := by
  obtain ⟨-, ⟨group, hgroup⟩, ⟨permissions, hpermissions⟩, -⟩ : n.Marked := Keyed.All.get? h.marked hn
  have hsubject : s.accounts.subject (s.actor user?) =
      .ok { name := s.actor user?, groups := ((s.accounts.user? (s.actor user?)).map User.groups).getD [] } := by
    unfold Accounts.subject
    rw [find_text (h.actor hu)]
    rfl
  unfold Machine.can Permission.allows Permission.classOf
  simp only [hsubject, hgroup, hpermissions, Json.isKey, Permission.flagsOf, bind, Except.bind, Bool.not_true, Bool.false_eq_true, if_false]
  split_ifs <;> exact ⟨_, rfl⟩

/-! ## Paths -/

/-- The home of a user is a text. -/
theorem Tidy.homePath (h : s.Tidy) (hu : UserArg user?) : ∃ home, s.homePath user? = .ok (.str home) := by
  unfold Machine.homePath
  dsimp only
  rw [find_text (h.actor hu)]
  rcases huser : s.accounts.user? (s.actor user?) with _ | u
  · exact ⟨_, rfl⟩
  · obtain ⟨⟨home, hhome⟩, -⟩ := (h.accounts.filedUsers.get? huser).2.home
    exact ⟨home, congrArg Except.ok hhome⟩

theorem Tidy.resolve_ok (h : s.Tidy) (hu : UserArg user?) (path : String) (cwd? : Option String) :
    ∃ resolved, s.resolve path user? cwd? = .ok resolved := by
  obtain ⟨home, hhome⟩ := h.homePath hu
  unfold Machine.resolve
  rw [hhome]
  split_ifs <;> exact ⟨_, rfl⟩

theorem Tidy.nodeAt_ok (h : s.Tidy) (hl : Linked s.tree) (hu : UserArg user?) (path : String) :
    ∃ found?, s.nodeAt path user? = .ok found? := by
  obtain ⟨resolved, hresolved⟩ := h.resolve_ok hu path none
  obtain ⟨found?, hfound⟩ := hl.lookup_ok resolved
  exact ⟨found?, bind_ok.2 ⟨resolved, hresolved, hfound⟩⟩

theorem Tidy.relocateVerdict_ok (h : s.Tidy) (hl : Linked s.tree) (hn : s.tree.get? n.id = some n)
    (hd : s.tree.get? dir.id = some dir) (hu : UserArg user?) (hv : UserArg source?) :
    ∃ v, relocateVerdict n dir (.str name) user? source? s = .ok v := by
  unfold relocateVerdict
  split
  · exact ⟨_, rfl⟩
  rename_i parent hparent
  have hp := ((hl.parentOf_iff hn).1 hparent).1
  obtain ⟨mayLeave, hleave⟩ := h.can_ok hp (userArg_firstName hv hu) .write
  obtain ⟨may, hmay⟩ := h.can_ok hd hu .write
  obtain ⟨place, hplace⟩ := hl.pathOf_ok hn
  obtain ⟨target, htarget⟩ := hl.pathOf_ok hd
  rcases hl.childNamed_cases hd (.str name) with ⟨hc, -⟩ | ⟨c, hc, -⟩
  all_goals
    simp only [validName, hc, hleave, hmay, hplace, htarget, bind, Except.bind]
    split_ifs <;> exact ⟨_, rfl⟩

end SimUnix.Machine
