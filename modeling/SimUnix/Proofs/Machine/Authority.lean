/-
No change without authority. What the relinks of an operation do to the nodes of before was allowed to
the user at the beginning already: a directory only gets other children if the user may write to it,
and a node only changes its place or is dropped if the user may write to the directory that held it, or
held what was dropped together with it.
-/
import SimUnix.Proofs.Machine.Operations

namespace SimUnix.Machine

open Tree Skeleton

variable {keepers : NodeId → Prop} {s s₁ s' : Machine} {user? leaver? : Option Json} {t : Tree} {a : NodeId}

/-! ## Relinks -/

/-- A node that the user may write. -/
def MayFill (s : Machine) (user? : Option Json) (a : NodeId) : Prop :=
  ∃ n, s.tree.get? a = some n ∧ s.Allows n .write user?

/-- A node in a directory that the user may write. -/
def MayPlace (s : Machine) (user? : Option Json) (a : NodeId) : Prop :=
  ∃ n dir, s.tree.get? a = some n ∧ s.tree.parentOf? n = some dir ∧ s.Allows dir .write user?

/-- A node that is in a directory that the user may write, or lies below one that is. -/
def MayDrop (s : Machine) (user? : Option Json) (a : NodeId) : Prop :=
  ∃ top, s.tree.skeleton.Under top a ∧ MayPlace s user? top

/-- A change of the tree for which the user had the authority. -/
structure Lawful (s : Machine) (user? : Option Json) (t : Tree) : Prop
    extends Reshaped (MayFill s user?) (MayPlace s user?) s.tree t where
  gone : ∀ {a n}, s.tree.get? a = some n → t.get? a = none → MayDrop s user? a

theorem Lawful.refl : Lawful s user? s.tree := ⟨.refl, fun hn ha => by rw [hn] at ha; cases ha⟩

/-- What a relink does, one of the two users may do: the one who acts may write to the directories that are
entered, and to those from which something is dropped, the other one to those that are left. -/
theorem Relink.reshaped (h : Linked s.tree) (hr : Relink keepers s user? leaver? t) :
    Reshaped (fun a => MayFill s user? a ∨ MayFill s leaver? a) (MayPlace s leaver?) s.tree t ∧
      ∀ {a n}, s.tree.get? a = some n → t.get? a = none → MayDrop s user? a := by
  have hkept : ∀ {t' : Tree}, (∀ {a n}, s.tree.get? a = some n → ∃ m, t'.get? a = some m) →
      ∀ {a n}, s.tree.get? a = some n → t'.get? a = none → MayDrop s user? a := by
    intro t' hkeep a n hn ha
    obtain ⟨m, hm⟩ := hkeep hn
    rw [hm] at ha
    cases ha
  cases hr with
  | @create new dir name content there _ named _ written _ may =>
    have hnew : IsNew s.tree (new.build s) := build_isNew named written
    exact ⟨reshaped_add h hnew (.inl ⟨dir, there, may⟩), hkept fun hn => keeps_add h hnew hn⟩
  | @move n parent dir name t₁ node below there _ _ _ _ mayLeave may unlinked =>
    obtain ⟨hp, -⟩ := (h.parentOf_iff node).1 below
    refine ⟨reshaped_move below unlinked ⟨n, parent, node, below, mayLeave⟩ (.inr ⟨parent, hp, mayLeave⟩)
      (.inl ⟨dir, there, may⟩), ?_⟩
    refine hkept fun hn => ?_
    obtain ⟨n₁, hn₁⟩ := keeps_detach unlinked hn
    obtain ⟨n₂, hn₂⟩ := keeps_hung hn₁
    exact keeps_update hn₂
  | @remove n parent count _ node below may run =>
    obtain ⟨hp, hab⟩ := (h.parentOf_iff node).1 below
    rcases h.run_remove node below run with ⟨e, -, he, -⟩ | ⟨nodes, -, -, hrem⟩
    · cases he
    · refine ⟨reshaped_removed h hab hrem (.inl ⟨parent, hp, may⟩), fun {a m} hm ha => ⟨n.id, ?_, n, parent, node, below, may⟩⟩
      by_contra hu
      have hb := hrem.bare a hu
      unfold Tree.bare at hb
      rw [hm, ha] at hb
      cases hb
  | @copy n dir new name id t₁ node there _ _ _ _ may run =>
    obtain ⟨hg, hc, -⟩ := run_clone h node run
    have hfresh := (hc id rfl).fresh
    have hhung : Reshaped (fun a => MayFill s user? a ∨ MayFill s leaver? a) (fun a => s.tree.get? a = none) s.tree
        (t₁.hung id name dir.id s.now) := hg.reshaped.hung hfresh (.inl ⟨dir, there, may⟩)
    refine ⟨hhung.imp (fun _ hmay => hmay) fun hn hnone => ?_, hkept fun hn => keeps_hung (hg.old hn)⟩
    rw [hn] at hnone
    cases hnone
  | strand node _ run =>
    obtain ⟨hg, -, -⟩ := run_clone h node run
    exact ⟨hg.reshaped, hkept fun hn => ⟨_, hg.old hn⟩⟩

/-- A relink of one user is made with authority. -/
theorem Relink.lawful (h : Linked s.tree) (hr : Relink keepers s user? user? t) : Lawful s user? t := by
  obtain ⟨hreshaped, hgone⟩ := hr.reshaped h
  exact ⟨hreshaped.imp (fun _ hmay => hmay.elim id id) fun _ hmay => hmay, hgone⟩

/-- What was allowed to the user half way was allowed at the beginning, or the node could have been
taken away then. -/
theorem Lawful.may_drop (h : Linked s.tree) (h₁ : Linked s₁.tree) (hl : Lawful s user? s₁.tree) {top : NodeId}
    (hu : s₁.tree.skeleton.Under top a) {n : Node} (hn : s.tree.get? a = some n) :
    MayDrop s user? a ∨ s.tree.skeleton.Under top a := by
  induction hu generalizing n with
  | refl => exact .inr .refl
  | @tail b a hub hba ih =>
    obtain ⟨m, hm, hbm⟩ := h₁.present_above hba
    obtain ⟨n₁, hn₁⟩ := present_of_above hba
    have hparent : n₁.parent = b := by
      obtain ⟨x, hx, hp, -⟩ := hba
      rw [skeleton_some.2 ⟨n₁, hn₁, rfl⟩] at hx
      cases hx
      exact hp
    by_cases hsame : n₁.parent = n.parent
    · have hne : n.parent ≠ .null := by
        rw [← hsame, hparent]
        exact h₁.forest.ne_null (skeleton_some.2 ⟨m, hm, rfl⟩)
      have hab : s.tree.skeleton.Above b a := by
        rw [← hparent, hsame]
        exact .of_parent (skeleton_some.2 ⟨n, hn, rfl⟩) hne
      obtain ⟨q, hq, -⟩ := h.present_above hab
      rcases ih hq with ⟨top', hu', hmay⟩ | hu'
      · exact .inl ⟨top', hu'.tail hab, hmay⟩
      · exact .inr (hu'.tail hab)
    · exact .inl ⟨a, .refl, hl.place hn hn₁ (.inr hsame)⟩

/-- Authority half way in the directory of a node is authority at the beginning. -/
theorem Lawful.may_place (h : Linked s.tree) (hl : Lawful s user? s₁.tree) (halike : s.Alike s₁) {n : Node}
    (hn : s.tree.get? a = some n) (hmay : MayPlace s₁ user? a) : MayPlace s user? a := by
  obtain ⟨n₁, dir₁, hn₁, hp₁, hwrite⟩ := hmay
  by_cases hsame : n₁.parent = n.parent
  · unfold Tree.parentOf? at hp₁
    split at hp₁
    · cases hp₁
    · rename_i hne
      rw [hsame] at hne hp₁
      obtain ⟨y, hy, -⟩ := h.forest.up (skeleton_some.2 ⟨n, hn, rfl⟩) hne
      obtain ⟨dir, hdir, -⟩ := skeleton_some.1 hy
      have hdir : s.tree.get? n.parent = some dir := hdir
      refine ⟨n, dir, hn, ?_, ?_⟩
      · unfold Tree.parentOf?
        rw [if_neg hne, hdir]
      · exact (can_core halike (hl.core hdir hp₁)).symm.trans hwrite
  · exact hl.place hn hn₁ (.inr hsame)

theorem Lawful.may_fill (hl : Lawful s user? s₁.tree) (halike : s.Alike s₁) {n : Node} (hn : s.tree.get? a = some n)
    (hmay : MayFill s₁ user? a) : MayFill s user? a := by
  obtain ⟨n₁, hn₁, hwrite⟩ := hmay
  exact ⟨n, hn, (can_core halike (hl.core hn hn₁)).symm.trans hwrite⟩

/-- A lawful change after a lawful change is one change, and lawful. -/
theorem Lawful.trans (h : Linked s.tree) (h₁ : Linked s₁.tree) (halike : s.Alike s₁) (hids : s.tree.ids.Later s₁.tree.ids)
    (hl : Lawful s user? s₁.tree) (hl₁ : Lawful s₁ user? t) : Lawful s user? t := by
  have hstays : ∀ {a n n'}, s.tree.get? a = some n → t.get? a = some n' → ∃ n₁, s₁.tree.get? a = some n₁ := by
    intro a n n' hn hn'
    rcases ha : s₁.tree.get? a with _ | n₁
    · -- an id that has been dropped is never given again
      obtain ⟨k, hk, rfl⟩ := (hl₁.born hn' ha).earlier hids
      have hfresh := h.fresh hk
      rw [skeleton_some.2 ⟨n, hn, rfl⟩] at hfresh
      cases hfresh
    · exact ⟨n₁, rfl⟩
  refine ⟨⟨fun hn hn' => ?_, fun {a n n'} hn hn' hne => ?_, fun {a n n'} hn hn' hne => ?_, fun {a m} hm ha => ?_⟩,
    fun {a n} hn ha => ?_⟩
  · obtain ⟨n₁, hn₁⟩ := hstays hn hn'
    exact (hl₁.core hn₁ hn').trans (hl.core hn hn₁)
  · obtain ⟨n₁, hn₁⟩ := hstays hn hn'
    by_cases he : n₁.children = n.children
    · exact hl.may_fill halike hn (hl₁.children hn₁ hn' (he ▸ hne))
    · exact hl.children hn hn₁ he
  · obtain ⟨n₁, hn₁⟩ := hstays hn hn'
    by_cases he : n₁.name = n.name ∧ n₁.parent = n.parent
    · exact hl.may_place h halike hn (hl₁.place hn₁ hn' (he.1 ▸ he.2 ▸ hne))
    · exact hl.place hn hn₁ (not_and_or.1 he)
  · rcases ha₁ : s₁.tree.get? a with _ | m₁
    · exact (hl₁.born hm ha₁).earlier hids
    · exact hl.born ha₁ ha
  · rcases ha₁ : s₁.tree.get? a with _ | n₁
    · exact hl.gone hn ha₁
    · obtain ⟨top, hu, hmay⟩ := hl₁.gone ha₁ ha
      rcases hl.may_drop h h₁ hu hn with hdrop | hu
      · exact hdrop
      · have htop : ∃ m, s.tree.get? top = some m := by
          rcases Relation.ReflTransGen.cases_head hu with rfl | ⟨b, hb, -⟩
          · exact ⟨n, hn⟩
          · obtain ⟨m, hm, -⟩ := h.present_above hb
            exact ⟨m, hm⟩
        obtain ⟨m, hm⟩ := htop
        exact ⟨top, hu, hl.may_place h halike hm hmay⟩

theorem Relinks.alike (hr : Relinks keepers user? leaver? s s') : s.Alike s' := by
  induction hr with
  | refl => exact ⟨rfl, rfl, rfl⟩
  | aside _ ha ih =>
    rw [ha.same]
    exact ⟨ih.accounts, ih.currentUser, ih.safeMode⟩
  | relink _ _ ih => exact ⟨ih.accounts, ih.currentUser, ih.safeMode⟩

/-- Relinks one after the other are made with authority. -/
theorem Relinks.lawful (h : Linked s.tree) (hr : Relinks keepers user? user? s s') : Lawful s user? s'.tree := by
  induction hr with
  | refl => exact .refl
  | aside _ ha ih =>
    rw [ha.tree]
    exact ih
  | relink hbefore hrel ih =>
    have hseq := hbefore.sequel h
    exact ih.trans h hseq.linked hbefore.alike hseq.ids (hrel.lawful hseq.linked)

/-! ## Calls -/

/-- What a call that is made for a user may do to a node that stays. Content and children change only if
the user may write to the node, name and parent only if the user may write to the directory that held
it, the permissions only for its owner or root and the owner and the group only for root, both not in
safe mode. Nothing else changes but the time of the last change. -/
structure Altered (s : Machine) (user : String) (n n' : Node) : Prop where
  content : n'.content ≠ n.content → s.Allows n .write (some user)
  children : n'.children ≠ n.children → s.Allows n .write (some user)
  place : n'.name ≠ n.name ∨ n'.parent ≠ n.parent →
    ∃ dir, s.tree.parentOf? n = some dir ∧ s.Allows dir .write (some user)
  permissions : n'.permissions ≠ n.permissions → s.safeMode = false ∧ (user = rootName ∨ n.owner = .str user)
  owner : n'.owner ≠ n.owner ∨ n'.group ≠ n.group → s.safeMode = false ∧ user = rootName
  rest : n'.id = n.id ∧ n'.kind = n.kind ∧ n'.created = n.created

/-- The user had the authority for everything that has happened to the nodes of before. One that is gone
lay in a directory that the user may write to, or below a node that did. -/
def Authorized (s : Machine) (user : String) (t : Tree) : Prop :=
  ∀ a n, s.tree.get? a = some n →
    (∃ n', t.get? a = some n' ∧ Altered s user n n') ∨
      t.get? a = none ∧ ∃ top ∈ s.tree.lineage n, ∃ dir, s.tree.parentOf? top = some dir ∧ s.Allows dir .write (some user)

variable {user : String}

theorem Lawful.authorized (h : Linked s.tree) (hl : Lawful s (some user) t) : Authorized s user t := by
  intro a n hn
  rcases ha : t.get? a with _ | n'
  · obtain ⟨top, hu, m, dir, hm, hp, hmay⟩ := hl.gone hn ha
    have hmem : top ∈ idsOf (s.tree.lineage n) := (h.mem_lineage (h.get_self hn)).2 (h.id_eq hn ▸ hu)
    obtain ⟨m', hin, rfl⟩ := List.mem_map.1 hmem
    obtain ⟨hm', -⟩ := h.chain_sound (h.get_self hn) hin
    rw [hm] at hm'
    cases hm'
    exact .inr ⟨rfl, m, hin, dir, hp, hmay⟩
  · have hcore := hl.core hn ha
    refine .inl ⟨n', rfl, fun hne => ?_, fun hne => ?_, fun hne => ?_, fun hne => ?_, fun hne => ?_, ?_⟩
    · exact absurd (congrArg Node.content hcore) hne
    · obtain ⟨m, hm, hmay⟩ := hl.children hn ha hne
      rw [hn] at hm
      cases hm
      exact hmay
    · obtain ⟨m, dir, hm, hp, hmay⟩ := hl.place hn ha hne
      rw [hn] at hm
      cases hm
      exact ⟨dir, hp, hmay⟩
    · exact absurd (congrArg Node.permissions hcore) hne
    · rcases hne with hne | hne
      · exact absurd (congrArg Node.owner hcore) hne
      · exact absurd (congrArg Node.group hcore) hne
    · have hfield : ∀ {β : Type} (field : Node → β), field n'.core = field n.core := fun field => congrArg field hcore
      exact ⟨hfield Node.id, hfield Node.kind, hfield Node.created⟩

theorem altered_refl {n : Node} : Altered s user n n :=
  ⟨fun h => absurd rfl h, fun h => absurd rfl h, fun h => by rcases h with h | h <;> exact absurd rfl h,
    fun h => absurd rfl h, fun h => by rcases h with h | h <;> exact absurd rfl h, rfl, rfl, rfl⟩

/-- A change of one node is authorized if it is for that node. -/
theorem authorized_update {n : Node} {f : Node → Node} (hn : s.tree.get? n.id = some n)
    (hf : Altered s user n (f n)) : Authorized s user (s.tree.update n.id f) := by
  intro a m hm
  left
  rw [get?_update, hm]
  split
  · rename_i ha
    rw [ha, hn] at hm
    cases hm
    exact ⟨_, rfl, hf⟩
  · exact ⟨m, rfl, altered_refl⟩

/-- A user who is named is the one who acts. -/
theorem actor_named (hu : user ≠ "") : s.actor (some user) = .str user := by
  have htruthy : (Json.str user).truthy = true := by simpa [Json.truthy] using hu
  unfold actor firstName?
  rw [Option.filter_some_pos htruthy]
  rfl

theorem Revision.authorized (hu : user ≠ "") (hr : Revision s (some user) t) : Authorized s user t := by
  cases hr with
  | @write n _ node _ may =>
    have hr : Altered s user n n := altered_refl
    exact authorized_update node ⟨fun _ => may, hr.children, hr.place, hr.permissions, hr.owner, hr.rest⟩
  | @chmod n _ node calm may =>
    rw [actor_named hu] at may
    have hr : Altered s user n n := altered_refl
    have hmay : user = rootName ∨ n.owner = .str user := may.imp (fun hroot => Json.str.inj hroot) id
    exact authorized_update node ⟨hr.content, hr.children, hr.place, fun _ => ⟨calm, hmay⟩, hr.owner, hr.rest⟩
  | @chown n _ _ node calm may =>
    rw [actor_named hu] at may
    have hr : Altered s user n n := altered_refl
    exact authorized_update node
      ⟨hr.content, hr.children, hr.place, hr.permissions, fun _ => ⟨calm, Json.str.inj may⟩, hr.rest⟩

theorem leaver_named (hu : user ≠ "") (c : FileCall) : c.leaver? (some user) none = some (.str user) := by
  have htruthy : (Json.str user).truthy = true := by simpa [Json.truthy] using hu
  have hsome : (some (Json.str user)).filter Json.truthy = some (Json.str user) := Option.filter_some_pos htruthy
  unfold FileCall.leaver? firstName?
  split <;> rw [hsome] <;> rfl

/-- Whatever a call does that is made for a named user, the user had the authority for it. -/
theorem FileCall.authorized (h : Linked s.tree) (hu : user ≠ "") (c : FileCall) {r : Except Fault Answer}
    (hrun : (c.run (some user) none).run s = (r, s')) : Authorized s user s'.tree := by
  have htrail := c.trail h hrun
  rw [leaver_named hu] at htrail
  rcases htrail with hr | ⟨t, hrev, ha⟩
  · exact (hr.lawful h).authorized h
  · rw [ha.tree]
    exact hrev.authorized hu

end SimUnix.Machine
