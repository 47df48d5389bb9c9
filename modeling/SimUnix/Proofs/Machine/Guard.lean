/-
Nodes that only root may change. Where a node and all directories above it belong to root and only their
owner may write to them, nothing that is done for another user reaches the node: it keeps its place, its
marks and its content, and stays guarded.
-/
import SimUnix.Proofs.Machine.Authority
import SimUnix.Proofs.Tree.Standing

namespace SimUnix

/-- A node that only root may write to: it belongs to root, and nobody but the owner may. -/
structure Node.Barred (n : Node) : Prop where
  owner : n.owner = .str rootName
  flags : ∃ flags, Permission.flagsOf n.permissions = .ok flags ∧ ∀ c : Class, c ≠ .owner → Permission.grants flags c .write = false

theorem Node.Barred.of_standing {n n' : Node} (h : n.Barred) (hs : n'.standing = n.standing) : n'.Barred := by
  have howner : n'.owner = n.owner := show n'.standing.owner = n.standing.owner by rw [hs]
  have hperm : n'.permissions = n.permissions := show n'.standing.permissions = n.standing.permissions by rw [hs]
  exact ⟨howner.trans h.owner, hperm ▸ h.flags⟩

namespace Tree

variable {F : NodeId → Prop} {t t' : Tree} {a b : NodeId}

/-- Nodes that only root may change: each one is barred, and so are all directories above it. -/
structure Guarded (F : NodeId → Prop) (t : Tree) : Prop where
  barred : ∀ {a}, F a → ∃ n, t.get? a = some n ∧ n.Barred
  above : ∀ {a b}, F a → t.skeleton.Above b a → F b

theorem Guarded.under (h : t.Guarded F) (ha : F a) (hu : t.skeleton.Under b a) : F b := by
  induction hu using Relation.ReflTransGen.head_induction_on with
  | refl => exact ha
  | head hab _ ih => exact h.above ih hab

/-- Guarded nodes that nobody has touched are guarded. -/
theorem Guarded.untouched (h : t.Guarded F) (hs : Untouched F t t') : t'.Guarded F := by
  refine ⟨fun ha => ?_, fun {a b} ha hab => ?_⟩
  · obtain ⟨n, hn, hbarred⟩ := h.barred ha
    obtain ⟨n', hn', hstand, -⟩ := hs _ _ ha hn
    exact ⟨n', hn', hbarred.of_standing hstand⟩
  · obtain ⟨n, hn, -⟩ := h.barred ha
    obtain ⟨n', hn', hstand, -⟩ := hs _ _ ha hn
    obtain ⟨x, hx, hp, hne⟩ := hab
    rw [skeleton_some.2 ⟨n', hn', rfl⟩] at hx
    cases hx
    exact h.above ha ⟨n.joint, skeleton_some.2 ⟨n, hn, rfl⟩, (standing_place hstand).2.2.symm.trans hp, hne⟩

end Tree

namespace Machine

open Tree Skeleton

variable {F keepers : NodeId → Prop} {s s' : Machine} {user? leaver? : Option Json} {t : Tree}

/-- Whoever may write to a barred node is root. -/
theorem root_of_barred {n : Node} (h : n.Barred) (hmay : s.Allows n .write user?) : s.actor user? = rootName := by
  unfold Allows can at hmay
  obtain ⟨subject, hsubject, hmay⟩ := bind_ok.1 hmay
  have hname : subject.name = s.actor user? := by
    obtain ⟨found?, -, hsubject⟩ := bind_ok.1 hsubject
    cases hsubject
    rfl
  obtain ⟨flags, hflags, hgrants⟩ := h.flags
  rw [← hname]
  by_contra hne
  have hno : (subject.name == Json.str rootName) = false := by simpa using hne
  have hother : (n.owner == subject.name) = false := by simpa [h.owner] using fun he => hne he.symm
  unfold Permission.allows at hmay
  rw [hno, Bool.and_false] at hmay
  split at hmay
  · cases hmay
  · simp only [Bool.false_eq_true, if_false] at hmay
    obtain ⟨c, hc, hmay⟩ := bind_ok.1 hmay
    rw [hflags] at hmay
    have hclass : c ≠ .owner := by
      unfold Permission.classOf at hc
      rw [hno, hother] at hc
      simp only [Bool.or_self, Bool.false_eq_true, if_false] at hc
      split at hc
      · cases hc
      · split at hc <;> cases hc <;> exact Class.noConfusion
    have htrue : Permission.grants flags c .write = true := Except.ok.inj hmay
    rw [hgrants c hclass] at htrue
    cases htrue

/-- Nobody but root may take a guarded node from its place. -/
theorem root_of_place {a : NodeId} (h : Linked s.tree) (hg : s.tree.Guarded F) (ha : F a) (hmay : MayPlace s user? a) :
    s.actor user? = rootName := by
  obtain ⟨n, dir, hn, hp, hmay⟩ := hmay
  obtain ⟨hdir, hab⟩ := (h.parentOf_iff (h.get_self hn)).1 hp
  rw [h.id_eq hn] at hab
  obtain ⟨m, hm, hbarred⟩ := hg.barred (hg.above ha hab)
  cases hdir.symm.trans hm
  exact root_of_barred hbarred hmay

/-- A relink for others than root does not touch guarded nodes. -/
theorem Relink.untouched (h : Linked s.tree) (hg : s.tree.Guarded F) (hu : s.actor user? ≠ rootName) (hl : s.actor leaver? ≠ rootName)
    (hr : Relink keepers s user? leaver? t) : Untouched F s.tree t := by
  obtain ⟨hreshaped, hgone⟩ := hr.reshaped h
  refine hreshaped.untouched (fun a ha hmay => hl (root_of_place h hg ha hmay)) fun a n ha hn hnone => ?_
  obtain ⟨top, hunder, hmay⟩ := hgone hn hnone
  exact hu (root_of_place h hg (hg.under ha hunder) hmay)

/-- Nor does a revision. -/
theorem Revision.untouched (hg : s.tree.Guarded F) (hu : s.actor user? ≠ rootName) (hr : Revision s user? t) : Untouched F s.tree t := by
  have hupdate : ∀ {m : Node} {f : Node → Node}, s.tree.get? m.id = some m → (m.Barred → s.actor user? = rootName) →
      Untouched F s.tree (s.tree.update m.id f) := by
    intro m f hm hroot a n ha hn
    rw [get?_update, if_neg]
    · exact ⟨n, hn, rfl, rfl⟩
    · rintro rfl
      obtain ⟨k, hk, hbarred⟩ := hg.barred ha
      cases hk.symm.trans hm
      exact hu (hroot hbarred)
  cases hr with
  | write node _ may => exact hupdate node fun hb => root_of_barred hb may
  | chmod node _ may => exact hupdate node fun hb => may.elim id fun ho => ho.symm.trans hb.owner
  | chown node _ may => exact hupdate node fun _ => may

theorem Alike.actor (h : s.Alike s') : s'.actor user? = s.actor user? := by
  unfold Machine.actor
  rw [h.currentUser]

/-- However many relinks there are. -/
theorem Relinks.untouched (h : Linked s.tree) (hg : s.tree.Guarded F) (hu : s.actor user? ≠ rootName) (hl : s.actor leaver? ≠ rootName)
    (hr : Relinks keepers user? leaver? s s') : Untouched F s.tree s'.tree := by
  induction hr with
  | refl => exact .refl
  | aside _ ha ih =>
    rw [ha.tree]
    exact ih
  | relink hbefore hrel ih =>
    have hsame := hbefore.alike
    exact ih.trans (hrel.untouched (hbefore.sequel h).linked (hg.untouched ih) (hsame.actor ▸ hu) (hsame.actor ▸ hl))

/-- What is done on behalf of others than root does not touch guarded nodes. -/
theorem Trail.untouched (h : Linked s.tree) (hg : s.tree.Guarded F) (hu : s.actor user? ≠ rootName) (hl : s.actor leaver? ≠ rootName)
    (hr : Trail keepers user? leaver? s s') : Untouched F s.tree s'.tree := by
  rcases hr with hr | ⟨t, hrev, ha⟩
  · exact hr.untouched h hg hu hl
  · rw [ha.tree]
    exact hrev.untouched hg hu

end Machine

end SimUnix
