/-
A copy node by node. Every node below the one that is copied has a copy with an id of its own, which differs in
the owner, the group and the times only, and lists the copies of the children in their order. Copies are made
in the order of a walk, and nothing else is made.
-/
import SimUnix.Proofs.Account.Restore
import SimUnix.Proofs.Tree.Copy

namespace SimUnix

namespace Tree

open Skeleton

variable {t₀ t t₁ t₂ t' : Tree} {n m c dir : Node} {a b id : NodeId} {new : NewOwner} {now : Time.Stamp} {name : Json}

/-! ## Pairs of nodes and copies -/

/-- The ids of nodes with those of their copies. -/
abbrev Pairs := Keyed NodeId NodeId

/-- The listed ids are those of the copies, in the same order. -/
abbrev Pairs.Lists (pairs : Pairs) (kids copies : List NodeId) : Prop := List.Forall₂ (fun a b => (a, b) ∈ pairs) kids copies

theorem Pairs.Lists.mono {pairs more : Pairs} {kids copies : List NodeId} (h : pairs.Lists kids copies) (hsub : pairs ⊆ more) :
    more.Lists kids copies := h.imp fun _ _ hp => hsub hp

/-- Where every node has one copy only, the ids of the copies are given by a function. -/
theorem Pairs.renaming {pairs : Pairs} (h : pairs.keys.Nodup) : ∃ f : NodeId → NodeId, ∀ p ∈ pairs, f p.1 = p.2 := by
  refine ⟨fun a => (pairs.get? a).getD .null, fun p hp => ?_⟩
  have hget : pairs.get? p.1 = some p.2 := (Keyed.get?_iff_mem h).2 hp
  dsimp only
  rw [hget]
  rfl

theorem Pairs.Lists.eq_map {pairs : Pairs} {kids copies : List NodeId} {f : NodeId → NodeId} (h : pairs.Lists kids copies)
    (hf : ∀ p ∈ pairs, f p.1 = p.2) : copies = kids.map f := by
  induction h with
  | nil => rfl
  | cons hp _ ih => rw [List.map_cons, hf _ hp, ih]

/-- What has been made of a node `n` of the tree `t₀` in the course of copying it, from a tree `t` to a tree `t'`: a copy
without a parent, which lists the copies of some children, and below it the copies of what is below those. -/
structure Doubled (t₀ t t' : Tree) (new : NewOwner) (now : Time.Stamp) (n : Node) (id : NodeId) (done : List NodeId)
    (pairs : Pairs) : Prop where
  once : (id :: pairs.values).Nodup
  fresh : ∀ b ∈ id :: pairs.values, t.get? b = none
  all : ∀ {b m}, t'.get? b = some m → t.get? b = none → b ∈ id :: pairs.values
  top : ∃ copies, t'.get? id = some { blankCopy n new now id with children := copies } ∧ pairs.Lists done copies
  below : ∀ p ∈ pairs, ∃ m parent copies, t₀.get? p.1 = some m ∧
    t'.get? p.2 = some { blankCopy m new now p.2 with parent, children := copies } ∧
      (m.parent, parent) ∈ (n.id, id) :: pairs ∧ pairs.Lists m.children copies

/-- A copy without children has been made. -/
theorem doubled_nil (h : Linked t) (hn : t.get? n.id = some n) :
    Doubled t₀ t (t.takeId.2.insert (blankCopy n new now t.ids.id)) new now n t.ids.id [] [] := by
  have hf := h.filled_nil hn new now
  have hget : ∀ b, (t.takeId.2.insert (blankCopy n new now t.ids.id)).get? b =
      if b = t.ids.id then some (blankCopy n new now t.ids.id) else t.get? b := fun b => get?_insert
  refine ⟨List.nodup_singleton _, fun b hb => ?_, fun {b m} hm hb => ?_, ⟨[], ?_, .nil⟩, nofun⟩
  · rw [List.mem_singleton.1 hb]
    exact hf.fresh
  · rw [hget] at hm
    split at hm
    · rename_i heq
      exact List.mem_singleton.2 heq
    · rw [hb] at hm
      cases hm
  · rw [hget, if_pos rfl]
    rfl

theorem Doubled.present {done : List NodeId} {pairs : Pairs} (h : Doubled t₀ t t' new now n id done pairs)
    (hb : b ∈ id :: pairs.values) : ∃ q, t'.get? b = some q := by
  rcases List.mem_cons.1 hb with rfl | hb
  · obtain ⟨copies, htop, -⟩ := h.top
    exact ⟨_, htop⟩
  · obtain ⟨p, hp, rfl⟩ := List.mem_map.1 hb
    obtain ⟨m, parent, copies, -, hm, -⟩ := h.below p hp
    exact ⟨_, hm⟩

/-- What was there before the next node has been copied is none of its copies. -/
theorem Doubled.apart {done kids : List NodeId} {pairs more : Pairs} {k : NodeId} (h : Doubled t₀ t t₁ new now n id done pairs)
    (hmore : Doubled t₀ t₁ t₂ new now c k kids more) (hb : b ∈ id :: pairs.values) : b ∉ k :: more.values := by
  intro hm
  obtain ⟨q, hq⟩ := h.present hb
  rw [hmore.fresh b hm] at hq
  cases hq

/-- The copy of one more child is linked to that of the parent. -/
theorem Doubled.graft {done : List NodeId} {doneNodes : List Node} {pairs more : Pairs} {k : NodeId} (h₀ : Linked t₀)
    (h : Doubled t₀ t t₁ new now n id done pairs) (hf : Filled t t₁ n id doneNodes) (hg : Grown t₁ t₂)
    (hn : t₀.get? n.id = some n) (hc : t₀.get? c.id = some c) (hkid : c.id ∈ n.children)
    (hmore : Doubled t₀ t₁ t₂ new now c k c.children more) :
    Doubled t₀ t (t₂.graft k id) new now n id (done ++ [c.id]) (pairs ++ (c.id, k) :: more) := by
  obtain ⟨copies, htop, hcopies⟩ := h.top
  obtain ⟨kids, hktop, hkids⟩ := hmore.top
  have hapart : ∀ b ∈ id :: pairs.values, b ∉ k :: more.values := fun b hb => h.apart hmore hb
  have hne : k ≠ id := fun he => hapart id List.mem_cons_self (he ▸ List.mem_cons_self)
  have hvalues : id :: Keyed.values (pairs ++ (c.id, k) :: more) = (id :: pairs.values) ++ (k :: more.values) := by
    simp [Keyed.values]
  have hsub₁ : pairs ⊆ pairs ++ (c.id, k) :: more := List.subset_append_left ..
  have hsub₂ : (c.id, k) :: more ⊆ pairs ++ (c.id, k) :: more := List.subset_append_right ..
  -- Linking changes the two nodes that it links only.
  have hsame : ∀ {b}, b ≠ id → b ≠ k → (t₂.graft k id).get? b = t₂.get? b := fun hid hk => by
    rw [get?_graft hne, if_neg hid, if_neg hk]
  refine ⟨?_, fun b hb => ?_, fun {b m} hm hb => ?_, ⟨copies ++ [k], ?_, ?_⟩, fun p hp => ?_⟩
  · rw [hvalues]
    exact List.nodup_append.2 ⟨h.once, hmore.once, fun b hb b' hb' he => hapart b hb (he ▸ hb')⟩
  · rw [hvalues] at hb
    rcases List.mem_append.1 hb with hb | hb
    · exact h.fresh b hb
    · exact hf.toGrown.absent (hmore.fresh b hb)
  · rw [hvalues]
    obtain ⟨q, hq⟩ := present_of_graft hne hm
    rcases hb₁ : t₁.get? b with _ | q₁
    · exact List.mem_append_right _ (hmore.all hq hb₁)
    · exact List.mem_append_left _ (h.all hb₁ hb)
  · rw [get?_graft hne, if_pos rfl, hg.old htop]
    rfl
  · exact List.rel_append (hcopies.mono hsub₁) (.cons (List.mem_append_right _ List.mem_cons_self) .nil)
  · rcases List.mem_append.1 hp with hp | hp
    · obtain ⟨m, parent, ks, hm, hcopy, hparent, hks⟩ := h.below p hp
      have hin : p.2 ∈ pairs.values := List.mem_map_of_mem hp
      have hid : p.2 ≠ id := fun he => (List.nodup_cons.1 h.once).1 (he ▸ hin)
      have hk : p.2 ≠ k := fun he => hapart p.2 (List.mem_cons_of_mem _ hin) (he ▸ List.mem_cons_self)
      exact ⟨m, parent, ks, hm, by rw [hsame hid hk, hg.old hcopy], List.cons_subset_cons _ hsub₁ hparent, hks.mono hsub₁⟩
    rcases List.mem_cons.1 hp with rfl | hp
    · have hparent : c.parent = n.id := by
        obtain ⟨x, hx, hpar, -⟩ := (h₀.above_iff hn).2 hkid
        rw [skeleton_some.2 ⟨c, hc, rfl⟩] at hx
        cases hx
        exact hpar
      refine ⟨c, id, kids, hc, ?_, by rw [hparent]; exact List.mem_cons_self, hkids.mono fun _ hp => hsub₂ (List.mem_cons_of_mem _ hp)⟩
      rw [get?_graft hne, if_neg hne, if_pos rfl, hktop]
      rfl
    · obtain ⟨m, parent, ks, hm, hcopy, hparent, hks⟩ := hmore.below p hp
      have hin : p.2 ∈ more.values := List.mem_map_of_mem hp
      have hk : p.2 ≠ k := fun he => (List.nodup_cons.1 hmore.once).1 (he ▸ hin)
      have hid : p.2 ≠ id := fun he => hapart id List.mem_cons_self (he ▸ List.mem_cons_of_mem _ hin)
      exact ⟨m, parent, ks, hm, by rw [hsame hid hk, hcopy], List.mem_cons_of_mem _ (hsub₂ hparent),
        hks.mono fun _ hp => hsub₂ (List.mem_cons_of_mem _ hp)⟩

/-! ## Copying a subtree -/

/-- Copying children one after the other, where copying one of them doubles everything below it. -/
theorem doubled_copyBelow {depth : Nat} (h₀ : Linked t₀) (h : Linked t) (hg₀ : Grown t₀ t)
    (ih : ∀ {t t' : Tree} {c : Node} {id : NodeId}, Linked t → Grown t₀ t → t₀.get? c.id = some c →
      (cloneDown new now depth c).run t = (.ok id, t') → ∃ nodes pairs, t₀.walkDown depth c = .ok nodes ∧
        idsOf nodes = c.id :: pairs.keys ∧ Doubled t₀ t t' new now c id c.children pairs)
    (hn : t₀.get? n.id = some n) : ∀ {cs done : List Node} {t₁ : Tree} {u : PUnit} {pairs : Pairs}, Filled t t₁ n id done →
      Doubled t₀ t t₁ new now n id (idsOf done) pairs → (∀ c ∈ cs, t₀.get? c.id = some c ∧ c.id ∈ n.children) →
      (done ++ cs).Pairwise (fun o c => o.name ≠ c.name) → (copyBelow new now depth id cs).run t₁ = (.ok u, t') →
      ∃ walks more, cs.mapM (t₀.walkDown depth) = .ok walks ∧ idsOf walks.flatten = Keyed.keys more ∧
        Doubled t₀ t t' new now n id (idsOf (done ++ cs)) (pairs ++ more)
  | [], done, t₁, u, pairs, _, hd, _, _, hrun => by
    cases hrun
    refine ⟨[], [], rfl, rfl, ?_⟩
    rwa [List.append_nil, List.append_nil]
  | c :: cs, done, t₁, u, pairs, hf, hd, hin, hnames, hrun => by
    obtain ⟨hc, hkid⟩ := hin c List.mem_cons_self
    rw [copyBelow] at hrun
    rcases of_run_bind hrun with ⟨e, -, he⟩ | ⟨k, t₂, hchild, hrun⟩
    · cases he
    have hg₁ : Grown t₀ t₁ := hg₀.trans hf.toGrown
    obtain ⟨hg, hcopy, -⟩ := run_cloneDown hf.linked (hg₁.old hc) hchild
    obtain ⟨nodes, more, hwalk, hids, hdouble⟩ := ih hf.linked hg₁ hc hchild
    have hnew : ∀ o ∈ done, o.name ≠ c.name := fun o ho => (List.pairwise_append.1 hnames).2.2 o ho c List.mem_cons_self
    have hnext := hf.graft (hg₀.old hn) (hg₀.old hc) hg (hcopy k rfl) hkid hnew
    have hgraft := hd.graft h₀ hf hg hn hc hkid hdouble
    rw [List.append_cons] at hnames ⊢
    have hdone : idsOf done ++ [c.id] = idsOf (done ++ [c]) := by simp [idsOf]
    rw [hdone] at hgraft
    obtain ⟨walks, rest, hwalks, hrest, hlast⟩ :=
      doubled_copyBelow h₀ h hg₀ ih hn hnext hgraft (fun o ho => hin o (List.mem_cons_of_mem _ ho)) hnames hrun
    refine ⟨nodes :: walks, (c.id, k) :: more ++ rest, ?_, ?_, ?_⟩
    · rw [List.mapM_cons, hwalk, hwalks]
      rfl
    · have hflat : idsOf (nodes :: walks).flatten = idsOf nodes ++ idsOf walks.flatten := by simp [idsOf]
      rw [hflat, hids, hrest]
      simp [Keyed.keys]
    · rw [← List.append_assoc]
      exact hlast

theorem childrenOf_eq {cs : List Node} (hids : cs.map Node.id = n.children) (hget : ∀ c ∈ cs, t.get? c.id = some c) :
    t.childrenOf n = .ok cs := by
  unfold childrenOf
  rw [mapM_ok, ← hids, List.forall₂_map_left_iff]
  exact List.forall₂_same.2 fun c hc => node_ok.2 (hget c hc)

/-- Copying a node doubles everything that a walk from it meets. -/
theorem doubled_cloneDown (h₀ : Linked t₀) : ∀ {depth : Nat} {n : Node} {t t' : Tree} {id : NodeId}, Linked t → Grown t₀ t →
    t₀.get? n.id = some n → (cloneDown new now depth n).run t = (.ok id, t') → ∃ nodes pairs, t₀.walkDown depth n = .ok nodes ∧
      idsOf nodes = n.id :: Keyed.keys pairs ∧ Doubled t₀ t t' new now n id n.children pairs
  | 0, _, _, _, _, _, _, _, hrun => by cases hrun
  | depth + 1, n, t, t', id, h, hg₀, hn, hrun => by
    have hf := h.filled_nil (hg₀.old hn) new now
    obtain ⟨cs, hcs, hids, hin, hnames⟩ := (hg₀.trans hf.toGrown).childrenOf h₀ hn
    rw [run_cloneDown_succ] at hrun
    simp only [hcs] at hrun
    rcases hloop : (copyBelow new now depth t.ids.id cs).run _ with ⟨u, t₂⟩
    rw [hloop] at hrun
    cases u with
    | error e => cases hrun
    | ok u =>
      cases hrun
      obtain ⟨walks, more, hwalks, hkeys, hdouble⟩ := doubled_copyBelow h₀ h hg₀ (doubled_cloneDown h₀) hn hf
        (doubled_nil h (hg₀.old hn)) hin hnames hloop
      refine ⟨n :: walks.flatten, more, ?_, by rw [← hkeys]; rfl, ?_⟩
      · unfold walkDown
        exact bind_ok.2 ⟨cs, childrenOf_eq hids fun c hc => (hin c hc).1, bind_ok.2 ⟨walks, hwalks, rfl⟩⟩
      · have hdone : idsOf ([] ++ cs) = n.children := hids
        rw [hdone] at hdouble
        exact hdouble

/-- A walk that is made does not go as deep as it may. -/
theorem not_deep : ∀ {depth : Nat} {n : Node} {nodes : List Node}, Linked t → t.get? n.id = some n → t.walkDown depth n = .ok nodes →
    ¬ Deep t depth n.id
  | 0, _, _, _, _, hwalk, _ => by cases hwalk
  | depth + 1, n, nodes, h, hn, hwalk, ⟨c, hab, hdeep⟩ => by
    unfold walkDown at hwalk
    obtain ⟨cs, hcs, hwalk⟩ := bind_ok.1 hwalk
    obtain ⟨walks, hwalks, -⟩ := bind_ok.1 hwalk
    obtain ⟨cs', hcs', hids, hget⟩ := h.childrenOf_ok hn
    cases hcs.symm.trans hcs'
    obtain ⟨k, hk, rfl⟩ := List.mem_map.1 (hids ▸ (h.above_iff hn).1 hab)
    obtain ⟨below, hbelow⟩ := mapM_item hwalks k hk
    exact not_deep h (hget k hk) hbelow hdeep

/-- What a walk gets through can be copied. -/
theorem Linked.clone_ok (h : Linked t) (hn : t.get? n.id = some n) {nodes : List Node} (hwalk : t.walk n = .ok nodes) :
    ∃ id t', (clone n new now).run t = (.ok id, t') := by
  rcases hrun : (clone n new now).run t with ⟨e | id, t'⟩
  · exact absurd ((run_cloneDown h hn hrun).fault e rfl).1 (not_deep h hn hwalk)
  · exact ⟨id, t', rfl⟩

/-- A walk from a node without children meets nothing else. -/
theorem walk_leaf (hnil : n.children = []) : t.walk n = .ok [n] := by
  unfold walk
  rw [show min (t.size + 1) maxDepth = min t.size 959 + 1 by unfold maxDepth; omega]
  unfold walkDown childrenOf
  rw [hnil]
  rfl

/-- Links without a circle end somewhere: a node has no children, and a walk from it meets nothing else. -/
theorem Linked.exists_leaf (h : Linked t) : ∃ n, t.get? n.id = some n ∧ t.walk n = .ok [n] := by
  obtain ⟨x, hx, -⟩ := h.rooted
  obtain ⟨r, hr, -⟩ := skeleton_some.1 hx
  by_contra! hno
  have hchild : ∀ {a n}, t.get? a = some n → n.children ≠ [] := fun {a n} hn hnil => hno n (h.get_self hn) (walk_leaf hnil)
  have hdeep : ∀ k {a n}, t.get? a = some n → Deep t k a := by
    intro k
    induction k with
    | zero => exact fun _ => trivial
    | succ k ih =>
      intro a n hn
      obtain ⟨c, hc⟩ := List.exists_mem_of_ne_nil _ (hchild hn)
      have hab := (h.above_iff hn).2 hc
      obtain ⟨m, hm⟩ := present_of_above hab
      exact ⟨c, hab, ih hm⟩
  have hlt := h.deep_lt (hdeep t.size hr) ⟨r, hr⟩ List.nodup_nil (by simp)
  simp at hlt

end Tree

/-! ## A copy that is hung below a directory -/

/-- The copy of a node that belongs to somebody else, where `f` gives the ids of the copies. -/
def Node.copied (n : Node) (f : NodeId → NodeId) (owner group : Json) (now : Time.Stamp) : Node :=
  { n with id := f n.id, parent := f n.parent, children := n.children.map f, owner, group, created := now, modified := now }

namespace Tree

/-- A tree with a copy of a node, and of everything that a walk from it meets, below a directory. The copies have ids that
no node had, and differ from the nodes of which they are made in the owner, the group and the times only; the one at the
top is called by a name of its own. Of the nodes of before only the directory is different: it has one more child. -/
structure Duplicates (t t' : Tree) (nodes : List Node) (n dir : Node) (name owner group : Json) (now : Time.Stamp)
    (f : NodeId → NodeId) : Prop where
  once : (nodes.map fun m => f m.id).Nodup
  fresh : ∀ m ∈ nodes, t.get? (f m.id) = none
  top : t'.get? (f n.id) = some { n.copied f owner group now with name, parent := dir.id }
  below : ∀ m ∈ nodes, m ≠ n → t'.get? (f m.id) = some (m.copied f owner group now)
  all : ∀ {a m}, t'.get? a = some m → t.get? a = none → ∃ o ∈ nodes, a = f o.id
  old : ∀ {a m}, t.get? a = some m →
    t'.get? a = some (if a = dir.id then { m with children := m.children ++ [f n.id], modified := now } else m)

variable {t t' : Tree} {n dir : Node} {id : NodeId} {now : Time.Stamp} {name owner group : Json}

theorem replaced_truthy {v old : Json} (h : v.truthy = true) : replaced (some v) old = v := by
  unfold replaced
  rw [Option.filter_some_pos h]
  rfl

/-- The copy that is made for somebody with a name and a group. -/
theorem copied_eq {m : Node} {f : NodeId → NodeId} (howner : owner.truthy = true) (hgroup : group.truthy = true) :
    { blankCopy m { owner? := some owner, group? := some group } now (f m.id) with
      parent := f m.parent, children := m.children.map f } = m.copied f owner group now := by
  unfold blankCopy Node.copied
  rw [replaced_truthy howner, replaced_truthy hgroup]

section

variable {nodes : List Node} {pairs : Pairs} {f : NodeId → NodeId}

/-- The copies have the ids that a function gives them. -/
theorem Covers.renaming (id : NodeId) (hcovers : Covers t n.id nodes) (hids : idsOf nodes = n.id :: pairs.keys) :
    ∃ f : NodeId → NodeId, (∀ p ∈ (n.id, id) :: pairs, f p.1 = p.2) ∧ (nodes.map fun m => f m.id) = id :: pairs.values := by
  have hkeys : idsOf nodes = Keyed.keys ((n.id, id) :: pairs) := hids
  obtain ⟨f, hf⟩ := Pairs.renaming (hkeys ▸ hcovers.once)
  refine ⟨f, hf, ?_⟩
  have hall : ((n.id, id) :: pairs).map (fun p => f p.1) = ((n.id, id) :: pairs).map Prod.snd := List.map_congr_left hf
  have hnodes : (nodes.map fun m => f m.id) = (idsOf nodes).map f := by simp [idsOf]
  rw [hnodes, hkeys]
  simpa [Keyed.keys, Keyed.values] using hall

/-- A node that is met below the topmost one has been copied as it is. -/
theorem Doubled.copied (hdouble : Doubled t t t' { owner? := some owner, group? := some group } now n id n.children pairs)
    (hcovers : Covers t n.id nodes) (hids : idsOf nodes = n.id :: pairs.keys) (hn : t.get? n.id = some n)
    (howner : owner.truthy = true) (hgroup : group.truthy = true) (hf : ∀ p ∈ (n.id, id) :: pairs, f p.1 = p.2) {m : Node}
    (hm : m ∈ nodes) (hne : m ≠ n) : f m.id ∈ pairs.values ∧ t'.get? (f m.id) = some (m.copied f owner group now) := by
  have hget := hcovers.get m hm
  have hin : m.id ∈ n.id :: pairs.keys := hids ▸ List.mem_map_of_mem hm
  obtain ⟨p, hp, hid⟩ : ∃ p ∈ pairs, p.1 = m.id := by
    refine List.mem_map.1 ((List.mem_cons.1 hin).resolve_left fun he => hne ?_)
    rw [he, hn] at hget
    exact (Option.some.inj hget).symm
  obtain ⟨m', parent, kids, hm', hcopy, hparent, hkids⟩ := hdouble.below p hp
  rw [hid, hget] at hm'
  cases hm'
  have hpair : f m.id = p.2 := hid ▸ hf p (List.mem_cons_of_mem _ hp)
  obtain rfl : f m.parent = parent := hf _ hparent
  have hf' : ∀ p ∈ pairs, f p.1 = p.2 := fun p hp => hf p (List.mem_cons_of_mem _ hp)
  rw [hkids.eq_map hf', ← hpair, copied_eq howner hgroup] at hcopy
  exact ⟨hpair ▸ List.mem_map_of_mem hp, hcopy⟩

end

/-- The copy of a subtree is exact. -/
theorem Linked.duplicates (h : Linked t) (name : Json) (hn : t.get? n.id = some n) (hd : t.get? dir.id = some dir)
    (howner : owner.truthy = true) (hgroup : group.truthy = true)
    (hrun : (clone n { owner? := some owner, group? := some group } now).run t = (.ok id, t')) :
    ∃ nodes f, t.walk n = .ok nodes ∧ Duplicates t (t'.hung id name dir.id now) nodes n dir name owner group now f := by
  obtain ⟨hg, hcopy, -⟩ := run_clone h hn hrun
  obtain ⟨nodes, pairs, hwalk, hids, hdouble⟩ := doubled_cloneDown h h (.refl h) hn hrun
  have hcovers : Covers t n.id nodes := h.covers_of_walkDown hn hwalk
  obtain ⟨f, hf, hcopies⟩ := hcovers.renaming id hids
  have hid : f n.id = id := hf _ List.mem_cons_self
  -- No copy is the directory or any other node that was there before.
  have hnew : ∀ {a m}, t.get? a = some m → a ∉ id :: pairs.values := fun hm hin => by
    rw [hdouble.fresh _ hin] at hm
    cases hm
  have hne : id ≠ dir.id := fun he => hnew hd (he ▸ List.mem_cons_self)
  have hmade : ∀ {b}, b ∈ id :: pairs.values → ∃ m ∈ nodes, b = f m.id := fun hb => by
    obtain ⟨m, hm, he⟩ := List.mem_map.1 (hcopies.symm ▸ hb)
    exact ⟨m, hm, he.symm⟩
  refine ⟨nodes, f, hwalk, ⟨hcopies ▸ hdouble.once, fun m hm => ?_, ?_, fun m hm hmn => ?_, fun {a m} hm ha => ?_,
    fun {a m} hm => ?_⟩⟩
  · have hin : f m.id ∈ nodes.map fun m => f m.id := List.mem_map_of_mem hm
    exact hdouble.fresh _ (hcopies ▸ hin)
  · obtain ⟨kids, htop, hkids⟩ := hdouble.top
    rw [hkids.eq_map fun p hp => hf p (List.mem_cons_of_mem _ hp)] at htop
    rw [hid, get?_hung hne, if_neg hne, if_pos rfl, htop, ← copied_eq howner hgroup, hid]
    rfl
  · obtain ⟨hin, hcopy⟩ := hdouble.copied hcovers hids hn howner hgroup hf hm hmn
    have hdir : f m.id ≠ dir.id := fun he => hnew hd (he ▸ List.mem_cons_of_mem _ hin)
    have htop : f m.id ≠ id := fun he => (List.nodup_cons.1 hdouble.once).1 (he ▸ hin)
    rw [get?_hung hne, if_neg hdir, if_neg htop, hcopy]
  · have hdir : a ≠ dir.id := by
      rintro rfl
      rw [hd] at ha
      cases ha
    rw [get?_hung hne, if_neg hdir] at hm
    split at hm
    · rename_i he
      exact hmade (he ▸ List.mem_cons_self)
    · exact hmade (hdouble.all hm ha)
  · rw [hid]
    exact (hcopy id rfl).hung_old hg hd hm

end Tree

end SimUnix
