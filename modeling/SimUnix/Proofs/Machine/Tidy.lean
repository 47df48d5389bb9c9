/-
The operations leave a state that the records can hold. What they put into the tree is marked with texts
and with readings of the clock, since users and groups have texts for names.
-/
import SimUnix.Proofs.Machine.Restart
import SimUnix.Proofs.Machine.Operations

namespace SimUnix.Machine

open Tree Act

/-- A tidy state whose tables have a property. -/
def TidyWith (P : Accounts → Prop) (s : Machine) : Prop := s.Tidy ∧ P s.accounts

variable {P : Accounts → Prop} {s s' : Machine} {user? source? : Option Json}

theorem Regular.tidyWith (h : s.Regular) : s.TidyWith Accounts.Indexed := ⟨h.toTidy, h.indexed⟩

theorem TidyWith.regular (h : s.TidyWith Accounts.Indexed) : s.Regular := { h.1 with indexed := h.2 }

theorem Tidy.aside (h : s.Tidy) (ha : s.Aside s') : s'.Tidy := by
  rw [ha.same]
  exact ⟨h.marked, h.accounts, h.user, h.clipboard, h.core, h.apps, h.failures, h.diagnostic, h.clock⟩

theorem TidyWith.aside (h : s.TidyWith P) (ha : s.Aside s') : s'.TidyWith P :=
  ⟨h.1.aside ha, by rw [ha.same]; exact h.2⟩

/-- A change of the tree that leaves its nodes marked. -/
theorem TidyWith.tree (h : s.TidyWith P) {t : Tree} (ht : t.Marked) : TidyWith P { s with tree := t } :=
  ⟨⟨ht, h.1.accounts, h.1.user, h.1.clipboard, h.1.core, h.1.apps, h.1.failures, h.1.diagnostic, h.1.clock⟩, h.2⟩

/-! ## Names -/

/-- A user who may be named in an operation: by a text, or not at all. -/
def UserArg (user? : Option Json) : Prop := ∀ u ∈ user?, u = .null ∨ u.IsText

theorem userArg_some (user : String) : UserArg (some user) := by
  intro u hu
  cases hu
  exact .inr ⟨_, rfl⟩

theorem userArg_none : UserArg none := fun _ hu => by cases hu

theorem firstName_isText {a b : Option Json} {name : Json} (ha : UserArg a) (hb : UserArg b) (h : firstName? a b = some name) :
    name.IsText := by
  have hpick : ∀ {c : Option Json}, UserArg c → c.filter Json.truthy = some name → name.IsText := by
    intro c hc hsome
    obtain ⟨rfl, htruthy⟩ := Option.filter_eq_some_iff.1 hsome
    rcases hc name rfl with rfl | ht
    · cases htruthy
    · exact ht
  unfold firstName? at h
  rcases Option.or_eq_some_iff.1 h with h | ⟨-, h⟩
  · exact hpick ha h
  · exact hpick hb h

/-- Whoever acts has a text for a name. -/
theorem Tidy.actor (h : s.Tidy) (hu : UserArg user?) : (s.actor user?).IsText := by
  unfold Machine.actor
  rcases hname : firstName? user? (some s.currentUser) with _ | name
  · exact ⟨_, rfl⟩
  · refine firstName_isText hu ?_ hname
    intro u hu
    cases hu
    exact h.user

/-- So has every group that a node may belong to. -/
theorem Tidy.groupName (h : s.Tidy) {gid : Json} : (s.accounts.groupName gid).IsText := by
  unfold Accounts.groupName
  split
  · rename_i g hg
    obtain ⟨p, hp, rfl⟩ := List.mem_map.1 (List.mem_of_find?_eq_some hg)
    exact (h.accounts.group p hp).2.name
  · exact ⟨_, rfl⟩

theorem Tidy.primaryGroup (h : s.Tidy) {user : Json} : (s.primaryGroup user).IsText := by
  unfold Machine.primaryGroup
  split
  · exact h.groupName
  · exact ⟨_, rfl⟩

/-! ## Building blocks -/

theorem tidy_log {level : Level} {source message : String} {user : Json} :
    Keeps (TidyWith P) (Act.log level source message user) := keeps_log fun h ha => h.aside ha

theorem tidy_flush : Keeps (TidyWith P) Act.flush := fun _ _ _ h hrun => h.aside (aside_flush hrun)

theorem tidy_changed {message : String} : Keeps (TidyWith P) (changed message user?) :=
  fun _ _ _ h hrun => h.aside (aside_changed hrun)

theorem tidy_denied {what : String} : Keeps (TidyWith P) (denied what user?) := fun _ _ _ h hrun => by
  rw [run_denied] at hrun
  cases hrun
  exact h.aside aside_logged

theorem tidy_pathOfId {id : NodeId} : Keeps (TidyWith P) (pathOfId id) := fun _ _ _ h hrun => by
  rw [run_pathOfId] at hrun
  cases hrun
  exact h

/-- A new node that is marked with texts. -/
structure NewNode.Labelled (new : NewNode) : Prop where
  owner : new.owner.IsText
  group : new.group.IsText
  permissions : new.permissions.IsText

theorem tidy_addNew {new : NewNode} {parent : NodeId} (hn : new.Labelled) : Keeps (TidyWith P) (addNew new parent) := by
  intro s s' r h hrun
  rw [run_addNew] at hrun
  cases hrun
  exact h.tree (Tree.Marked.add (t := s.tree.takeId.2) h.1.marked
    ⟨hn.owner, hn.group, hn.permissions, h.1.clock, h.1.clock⟩ h.1.clock)

theorem tidy_editTree {change : Tree → Tree} (hc : ∀ t : Tree, t.Marked → (change t).Marked) :
    Keeps (TidyWith P) (Act.editTree change) := by
  intro s s' r h hrun
  rw [run_editTree] at hrun
  cases hrun
  exact h.tree (hc _ h.1.marked)

theorem tidy_edit {α : Type} {change : Edit α} (hc : ∀ {t t' : Tree} {r}, t.Marked → change.run t = (r, t') → t'.Marked) :
    Keeps (TidyWith P) (Act.edit change) := by
  intro s s' r h hrun
  rw [run_edit] at hrun
  cases hrun
  exact h.tree (hc h.1.marked rfl)

/-- An operation that is checked first, where its change keeps an invariant that logging and flushing do. -/
theorem tidy_decide {α : Type} {check : Machine → Except Fault (Verdict α)} {change : α → Act String}
    (hc : ∀ plan ⦃s s' r⦄, s.TidyWith P → check s = .ok (.granted plan) → (change plan).run s = (r, s') → s'.TidyWith P) :
    Keeps (TidyWith P) (Act.decide check user? change) := by
  intro s s' r h hrun
  rcases run_decide hrun with ha | ⟨plan, x, s₁, hv, hchange, ha⟩
  · exact h.aside ha
  · exact (hc plan h hv hchange).aside ha

/-! ## Files -/

theorem tidy_createNode {path name : String} {kind : NodeKind} {content : Json} {permissions? : Option Json} (hu : UserArg user?)
    (hp : UserArg permissions?) : Keeps (TidyWith P) (createNode path name kind content user? permissions?) := by
  refine tidy_decide fun dir s s' r h _ hrun => ?_
  have hperm : ((permissions?.filter Json.truthy).getD (defaultPermissions kind)).IsText := by
    rcases hf : permissions?.filter Json.truthy with _ | p
    · exact ⟨_, rfl⟩
    · obtain ⟨rfl, htruthy⟩ := Option.filter_eq_some_iff.1 hf
      rcases hp p rfl with rfl | ht
      · cases htruthy
      · exact ht
  have hnew : NewNode.Labelled {
      name, kind, content, owner := s.actor user?, group := s.primaryGroup (s.actor user?)
      permissions := (permissions?.filter Json.truthy).getD (defaultPermissions kind) } :=
    ⟨h.1.actor hu, h.1.primaryGroup, hperm⟩
  exact (keeps_bind (tidy_addNew hnew) fun id => keeps_bind tidy_pathOfId fun _ => keeps_pure _) h (got hrun)

theorem tidy_overwriteFile {path : String} {content : Json} (hu : UserArg user?) :
    Keeps (TidyWith P) (overwriteFile path content user?) := by
  refine keeps_get fun s s' r h hrun => ?_
  have hnow := h.1.clock
  refine (keeps_bind (keeps_ofExcept _) fun resolved => keeps_bind (keeps_ofExcept _) fun n? => ?_) h hrun
  split
  · exact tidy_createNode hu userArg_none
  · refine tidy_decide fun id s₁ s' r h _ hrun => ?_
    refine (keeps_bind (tidy_editTree fun t ht => ?_) fun _ => keeps_pure _) h hrun
    exact ht.update fun _ hn => ⟨hn.owner, hn.group, hn.permissions, hn.created, hnow⟩

theorem tidy_appendFile {path : String} {content : Json} (hu : UserArg user?) :
    Keeps (TidyWith P) (appendFile path content user?) := by
  refine keeps_bind (keeps_ask _) fun n? => ?_
  split
  · exact tidy_overwriteFile hu
  · split
    · exact keeps_pure _
    · exact keeps_bind (keeps_ofExcept _) fun _ => tidy_overwriteFile hu

theorem tidy_remove {n : Node} {now : Time.Stamp} (hnow : now.Proper) : Keeps (TidyWith P) (Act.edit (Tree.remove n now)) :=
  tidy_edit fun ht hrun => ht.remove hnow hrun

theorem tidy_deleteNode {path : String} : Keeps (TidyWith P) (deleteNode path user?) := by
  refine tidy_decide fun n s s' r h _ hrun => ?_
  refine (keeps_bind (keeps_ofExcept _) fun place => keeps_bind (tidy_remove h.1.clock) fun _ => keeps_pure _) h (got hrun)

theorem tidy_chmod {path mode : String} : Keeps (TidyWith P) (chmod path mode user?) := by
  refine tidy_decide fun ⟨n, permissions⟩ s s' r h _ hrun => ?_
  have hnow := h.1.clock
  refine (keeps_bind (tidy_editTree fun t ht => ?_) fun _ => keeps_bind tidy_pathOfId fun _ => keeps_pure _) h (got hrun)
  exact ht.update fun _ hn => ⟨hn.owner, hn.group, ⟨_, rfl⟩, hn.created, hnow⟩

theorem tidy_chown {path owner : String} {group? : Option String} : Keeps (TidyWith P) (chown path owner group? user?) := by
  refine tidy_decide fun n s s' r h _ hrun => ?_
  have hnow := h.1.clock
  refine (keeps_bind (tidy_editTree fun t ht => ?_) fun _ => keeps_bind tidy_pathOfId fun _ => keeps_pure _) h (got hrun)
  refine ht.update fun _ hn => ⟨⟨_, rfl⟩, ?_, hn.permissions, hn.created, hnow⟩
  cases group? with
  | none => exact hn.group
  | some g => exact ⟨g, rfl⟩

/-! ## Moving and copying -/

theorem tidy_relocate {n dest : Node} {name : Json} : Keeps (TidyWith P) (relocate n dest name user? source?) := by
  refine tidy_decide fun d s s' r h _ hrun => ?_
  rcases asked (got hrun) with ⟨e, -, -, rfl⟩ | ⟨origin, -, hrun⟩
  · exact h
  rcases asked hrun with ⟨e, -, -, rfl⟩ | ⟨t, hdetach, hrun⟩
  · exact h
  have ht : t.Marked := h.1.marked.detach h.1.clock hdetach
  refine (keeps_bind (tidy_editTree fun _ _ => ?_) fun _ => keeps_bind tidy_pathOfId fun _ => keeps_pure _) h hrun
  exact Tree.Marked.relinked ht h.1.clock

theorem tidy_moveNode {source target : String} : Keeps (TidyWith P) (moveNode source target user?) := by
  refine keeps_read fun s => keeps_bind (keeps_ofExcept _) fun n? => ?_
  split
  · exact keeps_pure _
  · refine keeps_bind (keeps_ofExcept _) fun root => ?_
    split
    · exact keeps_pure _
    · refine keeps_bind (keeps_ofExcept _) fun place? => ?_
      split
      · exact tidy_relocate
      · refine keeps_bind (keeps_ofExcept _) fun resolved => keeps_bind (keeps_ofExcept _) fun dest? => ?_
        split
        · exact keeps_pure _
        · exact tidy_relocate

theorem tidy_moveById {id : NodeId} {path : String} : Keeps (TidyWith P) (moveById id path user? source?) := by
  refine keeps_read fun s => keeps_bind (keeps_ofExcept _) fun dest? => ?_
  split
  · refine keeps_bind (keeps_ofExcept _) fun root => ?_
    split
    · exact keeps_pure _
    · exact tidy_relocate
  · exact keeps_pure _

/-- What is copied is a node of the tree. -/
theorem copyVerdict_node {id : NodeId} {path : String} {name? : Option String} {n dir : Node} {name : Json}
    (hv : copyVerdict id path user? source? name? s = .ok (.granted (n, dir, name))) : s.tree.get? id = some n := by
  unfold copyVerdict at hv
  obtain ⟨dest?, -, hv⟩ := bind_ok.1 hv
  split at hv
  · rename_i m d hget
    dsimp only at hv
    split at hv
    · cases hv
    obtain ⟨mayRead, -, hv⟩ := bind_ok.1 hv
    split at hv
    · obtain ⟨_, -, hv⟩ := bind_ok.1 hv
      cases hv
    obtain ⟨mayWrite, -, hv⟩ := bind_ok.1 hv
    split at hv
    · obtain ⟨_, -, hv⟩ := bind_ok.1 hv
      cases hv
    obtain ⟨copy?, -, hv⟩ := bind_ok.1 hv
    split at hv <;> cases hv
    exact hget
  · cases hv

theorem tidy_copyById {id : NodeId} {path : String} {name? : Option String} (hu : UserArg user?) :
    Keeps (TidyWith P) (copyById id path user? source? name?) := by
  refine tidy_decide fun ⟨n, dir, name⟩ s s' r h hv hrun => ?_
  have hn : n.Marked := Keyed.All.get? h.1.marked (copyVerdict_node hv)
  have hnew : NewOwner.Plain { owner? := some (s.actor user?), group? := some (s.primaryGroup (s.actor user?)) } := by
    have hpick : ∀ {new v : Json}, new.IsText → v.IsText → (replaced (some new) v).IsText := by
      intro new v hnew hv
      unfold replaced
      rcases hf : (some new).filter Json.truthy with _ | w
      · exact hv
      · obtain ⟨heq, -⟩ := Option.filter_eq_some_iff.1 hf
        cases heq
        exact hnew
    exact fun v hv => ⟨hpick (h.1.actor hu) hv, hpick h.1.primaryGroup hv⟩
  have hnow := h.1.clock
  refine (keeps_bind (I := TidyWith P) (fun s₁ s' r h₁ hrun => ?_) fun copy => keeps_bind (tidy_editTree fun t ht => ?_) fun _ =>
    keeps_bind tidy_pathOfId fun _ => keeps_bind tidy_pathOfId fun _ => keeps_pure _) h (got hrun)
  · rw [run_edit] at hrun
    cases hrun
    exact h₁.tree (h₁.1.marked.clone hn hnew hnow rfl)
  · exact Tree.Marked.hung ht hnow

/-! ## The trash and the clipboard -/

theorem tidy_ensureTrash (hu : UserArg user?) : Keeps (TidyWith P) (ensureTrash user?) := by
  refine keeps_get fun s s' r h hrun => ?_
  have hnew : NewNode.Labelled {
      name := trashName, kind := .directory, owner := s.actor user?, group := s.primaryGroup (s.actor user?)
      permissions := "drwx------" } := ⟨h.1.actor hu, h.1.primaryGroup, ⟨_, rfl⟩⟩
  refine (keeps_bind (keeps_ofExcept _) fun path => keeps_bind (keeps_ofExcept _) fun home? => ?_) h hrun
  split
  · exact keeps_pure _
  · refine keeps_cond (fun _ => keeps_pure _) fun _ => keeps_bind (keeps_ofExcept _) fun trash? => ?_
    split
    · exact keeps_pure _
    · refine keeps_bind (keeps_ofExcept _) fun place => keeps_bind (keeps_ofExcept _) fun may => ?_
      refine keeps_cond (fun _ => keeps_bind tidy_denied fun _ => keeps_pure _) fun _ => ?_
      exact keeps_bind (tidy_addNew hnew) fun id => keeps_bind tidy_changed fun _ => keeps_read fun _ => keeps_pure _

theorem tidy_moveToTrash {path : String} (hu : UserArg user?) : Keeps (TidyWith P) (moveToTrash path user?) := by
  refine keeps_bind (keeps_ask _) fun v => ?_
  split
  · exact keeps_pure _
  · exact keeps_pure _
  · exact keeps_bind tidy_denied fun _ => keeps_pure _
  · refine keeps_bind (tidy_ensureTrash hu) fun trash? => ?_
    split
    · exact keeps_pure _
    · refine keeps_read fun s => keeps_cond (fun _ => keeps_pure _) fun _ => ?_
      exact keeps_bind (keeps_ofExcept _) fun name => tidy_relocate

theorem tidy_emptyTrash : Keeps (TidyWith P) (emptyTrash user?) := by
  refine keeps_get fun s s' r h hrun => ?_
  have hnow := h.1.clock
  refine (keeps_bind (keeps_ofExcept _) fun trash? => ?_) h hrun
  split
  · exact keeps_pure _
  · refine keeps_cond (fun _ => keeps_pure _) fun _ => keeps_bind (keeps_ofExcept _) fun may => ?_
    refine keeps_cond (fun _ => ?_) fun _ => ?_
    · exact keeps_bind (keeps_ofExcept _) fun _ => keeps_bind tidy_denied fun _ => keeps_pure _
    · refine keeps_bind (keeps_ofExcept _) fun items => keeps_bind (keeps_for fun _ _ => keeps_discard (tidy_remove hnow)) fun _ => ?_
      exact keeps_cond (fun _ => keeps_bind tidy_changed fun _ => keeps_pure _) fun _ => keeps_pure _

end SimUnix.Machine
