/-
Pastes in every living state. Copies are made one after the other, too, and each adds as many nodes as it copies; only a
copy that would go too deep ends a paste before its time, and it leaves what has been made of it.
-/
import SimUnix.Proofs.Machine.Pasting
import SimUnix.Proofs.Terminal.Relocation

namespace SimUnix

namespace Tree

variable {t t' : Tree} {n dir : Node} {nodes : List Node} {name owner group : Json} {now : Time.Stamp} {f : NodeId → NodeId}
  {id : NodeId} {new : NewOwner} {e : Fault}

/-- A copy adds as many nodes as a walk from the original meets. -/
theorem Duplicates.size (h : Linked t) (h' : Linked t') (hcopy : Duplicates t t' nodes n dir name owner group now f) :
    t'.size = t.size + nodes.length := by
  have hperm : t'.nodes.keys.Perm (t.nodes.keys ++ nodes.map fun m => f m.id) := by
    refine (List.perm_ext_iff_of_nodup h'.unique (List.nodup_append.2 ⟨h.unique, hcopy.once, ?_⟩)).2 fun a => ?_
    · rintro a ha _ hb rfl
      obtain ⟨m, hm⟩ := mem_keys_iff.1 ha
      obtain ⟨o, ho, rfl⟩ := List.mem_map.1 hb
      cases (hcopy.fresh o ho).symm.trans hm
    · rw [List.mem_append, mem_keys_iff, mem_keys_iff]
      constructor
      · rintro ⟨m, hm⟩
        rcases ha : t.get? a with _ | o
        · obtain ⟨o, ho, rfl⟩ := hcopy.all hm ha
          exact .inr (List.mem_map_of_mem ho)
        · exact .inl ⟨o, rfl⟩
      · rintro (⟨m, hm⟩ | hm)
        · exact ⟨_, hcopy.old hm⟩
        · obtain ⟨o, ho, rfl⟩ := List.mem_map.1 hm
          by_cases hon : o = n
          · exact ⟨_, hon ▸ hcopy.top⟩
          · exact ⟨_, hcopy.below o ho hon⟩
  have hlen := hperm.length_eq
  unfold Keyed.keys at hlen
  rw [List.length_append, List.length_map, List.length_map, List.length_map] at hlen
  exact hlen

/-- A copy is given up only on a way down as long as none may be. -/
theorem Linked.deep_of_clone (h : Linked t) (hn : t.get? n.id = some n) (hrun : (clone n new now).run t = (.error e, t')) :
    Deep t maxDepth n.id := by
  have hdeep : Deep t (min (t.size + 1) maxDepth) n.id := ((run_cloneDown h hn hrun).fault e rfl).1
  have hlt := h.deep_lt hdeep ⟨n, hn⟩ List.nodup_nil (by simp)
  rwa [show min (t.size + 1) maxDepth = maxDepth by simp only [List.length_nil] at hlt; omega] at hdeep

end Tree

namespace Machine

open Tree Act

variable {s s₁ s' : Machine} {user? source? : Option Json} {path : String} {id : NodeId} {n : Node}

/-! ## Additions -/

/-- Nodes have been added. All nodes of before are there, each with its children and perhaps with more of them. -/
structure Augments (s s' : Machine) : Prop where
  same : s.Retreed s'
  kept : ∀ {a m}, s.tree.get? a = some m → ∃ m', s'.tree.get? a = some m' ∧
    m' = { m with children := m'.children, modified := m'.modified } ∧ m.children <+: m'.children

theorem Aside.augments (h : s.Aside s') : s.Augments s' :=
  ⟨h.retreed, fun {_ m} hm => ⟨m, h.tree ▸ hm, rfl, List.prefix_rfl⟩⟩

theorem Augments.trans (h : s.Augments s₁) (h' : s₁.Augments s') : s.Augments s' := by
  refine ⟨h.same.trans h'.same, fun hm => ?_⟩
  obtain ⟨m₁, hm₁, hsame₁, hkids₁⟩ := h.kept hm
  obtain ⟨m', hm', hsame', hkids'⟩ := h'.kept hm₁
  exact ⟨m', hm', by rw [hsame', hsame₁], hkids₁.trans hkids'⟩

/-- Whatever comes of a copy, only the tree, the log and the records are different. -/
theorem retreed_copyById {name? : Option String} {r : Except Fault Bool}
    (hrun : (copyById id path user? source? name?).run s = (r, s')) : s.Retreed s' := by
  rcases settles_copyById hrun with hnoted | ⟨hmade, -⟩
  · unfold Noted at hnoted
    unfold Retreed
    rw [hnoted]
  · exact hmade.same

/-- A copy that has been made is added. -/
theorem augments_copyById (h : Linked s.tree) {name? : Option String}
    (hrun : (copyById id path user? source? name?).run s = (.ok true, s')) : s.Augments s' := by
  obtain ⟨n, dir, name, copy, t, hv, hclone, htree⟩ := copyById_accepted hrun
  obtain ⟨hget, hfound, -⟩ := copyVerdict_granted h hv
  obtain ⟨hg, hcopy, -⟩ := run_clone h (h.get_self hget) hclone
  have hd := (nodeAt_found h hfound).1
  refine ⟨retreed_copyById hrun, fun {a m} hm => ⟨_, htree ▸ (hcopy copy rfl).hung_old hg hd hm, ?_, ?_⟩⟩
  · split <;> rfl
  · split
    · exact List.prefix_append ..
    · exact List.prefix_rfl

/-! ## One copy -/

theorem copyVerdict_ok (hr : s.Tidy) (hl : Linked s.tree) (hu : UserArg user?) (hv : UserArg source?) :
    ∃ v, copyVerdict id path user? source? none s = .ok v := by
  obtain ⟨dir?, hat⟩ := hr.nodeAt_ok hl hu path
  unfold copyVerdict
  rw [hat]
  dsimp only [bind, Except.bind]
  rcases hget : s.tree.get? id with _ | n
  · exact ⟨_, rfl⟩
  rcases dir? with _ | dir
  · exact ⟨_, rfl⟩
  have hn := hl.get_self hget
  have hd := (nodeAt_found hl hat).1
  obtain ⟨mayRead, hread⟩ := hr.can_ok hn (userArg_firstName hv hu) .read
  obtain ⟨may, hmay⟩ := hr.can_ok hd hu .write
  obtain ⟨place, hplace⟩ := hl.pathOf_ok hn
  obtain ⟨target, htarget⟩ := hl.pathOf_ok hd
  obtain ⟨own, hown⟩ : ∃ own, copyName n dir none s = .ok (some own) := copyName_ok hl hd
  simp only [hread, hmay, hplace, htarget, hown]
  split_ifs <;> exact ⟨_, rfl⟩

theorem extent_eq {t : Tree} {nodes : List Node} (hget : t.get? id = some n) (hwalk : t.walk n = .ok nodes) :
    extent t id = nodes.length := by
  have hmet : (t.node id).bind t.walk = .ok nodes := by rw [node_ok.2 hget]; exact hwalk
  unfold extent
  rw [hmet]

/-- A copy that has been made adds what a walk from the original meets. -/
theorem copyById_adds (hs : s.Sound) (hr : s.Regular) (hn : s.accounts.Numbered)
    (hrun : (copyById id path user? source? none).run s = (.ok true, s')) :
    s.Augments s' ∧ s'.tree.size = s.tree.size + extent s.tree id := by
  have hl := hs.linked
  have hl' : Linked s'.tree := ((trail_copyById hl hrun).sound hs).linked
  obtain ⟨n, dir, name, copy, t, hv, hclone, htree⟩ := copyById_accepted hrun
  obtain ⟨hget, hfound, -⟩ := copyVerdict_granted hl hv
  obtain ⟨nodes, f, hwalk, hcopy⟩ :=
    hl.duplicates name (hl.get_self hget) (nodeAt_found hl hfound).1 actor_truthy (primaryGroup_truthy hr hn) hclone
  rw [← htree] at hcopy
  refine ⟨augments_copyById hl hrun, ?_⟩
  rw [hcopy.size hl hl', extent_eq hget hwalk]

/-- How a copy ends: it is refused, or made, or given up since it would go too deep. -/
inductive CopyEnds (id : NodeId) (s s' : Machine) : Except Fault Bool → Prop
  | refused (size : s'.tree.size = s.tree.size) : CopyEnds id s s' (.ok false)
  | made (size : s'.tree.size = s.tree.size + extent s.tree id) : CopyEnds id s s' (.ok true)
  | tooDeep {e : Fault} {n : Node} (there : s.tree.get? id = some n) (deep : Deep s.tree maxDepth id) : CopyEnds id s s' (.error e)

theorem copyById_ends (hs : s.Sound) (hr : s.Regular) (hn : s.accounts.Numbered) (hu : UserArg user?) (hv : UserArg source?)
    {r : Except Fault Bool} (hrun : (copyById id path user? source? none).run s = (r, s')) : s.Augments s' ∧ CopyEnds id s s' r := by
  have hl := hs.linked
  obtain ⟨v, hverdict⟩ : ∃ v, copyVerdict id path user? source? none s = .ok v := copyVerdict_ok hr.toTidy hl hu hv
  cases v with
  | refused =>
    cases hrun.symm.trans (next_ask hverdict rfl)
    exact ⟨(Aside.refl s).augments, .refused rfl⟩
  | denied what who? =>
    cases hrun.symm.trans (next_ask hverdict rfl)
    exact ⟨aside_logged.augments, .refused rfl⟩
  | unchanged => exact absurd hverdict copyVerdict_changes
  | granted plan =>
    obtain ⟨n, dir, name⟩ := plan
    obtain ⟨hget, hfound, -⟩ := copyVerdict_granted hl hverdict
    have hid := hl.id_eq hget
    have hself := hl.get_self hget
    rcases hclone : (clone n { owner? := some (s.actor user?), group? := some (s.primaryGroup (s.actor user?)) } s.now).run s.tree
      with ⟨e | copy, t⟩
    · have hgiven : (copyById id path user? source? none).run s = (.error e, { s with tree := t }) := by
        refine next_ask hverdict ?_
        simp only [run_bind, run_get, run_edit, hclone]
      cases hrun.symm.trans hgiven
      obtain ⟨hgrown, -⟩ := run_clone hl hself hclone
      exact ⟨⟨rfl, fun {_ m} hm => ⟨m, hgrown.old hm, rfl, List.prefix_rfl⟩⟩, .tooDeep hget (hid ▸ hl.deep_of_clone hself hclone)⟩
    · obtain ⟨nodes, f, hwalk, -⟩ :=
        hl.duplicates name hself (nodeAt_found hl hfound).1 actor_truthy (primaryGroup_truthy hr hn) hclone
      obtain ⟨s₁, hmade⟩ := copyById_granted hs hr.run_flush hverdict hwalk
      cases hrun.symm.trans hmade
      obtain ⟨haugments, hsize⟩ := copyById_adds hs hr hn hmade
      exact ⟨haugments, .made hsize⟩

/-! ## Copy after copy -/

/-- The copy of an item would go too deep, once the items before it have been pasted. -/
def GoesTooDeep (path : String) (user? : Option Json) (items : List ClipboardItem) (s : Machine) : Prop :=
  ∃ before i after arrivals s₁ n, items = before ++ i :: after ∧ (pasteEach .copy path user? before).run s = (.ok arrivals, s₁) ∧
    s₁.tree.get? i.node = some n ∧ Deep s₁.tree maxDepth i.node

/-- How copies end that are made one after the other: together they add as many nodes as they copy, each in the tree that it
finds; or one of them would go too deep. -/
inductive CopiesEnd (path : String) (user? : Option Json) (items : List ClipboardItem) (s s' : Machine) :
    Except Fault (List Arrival) → Prop
  | made {arrivals : List Arrival} (each : arrivals.map Arrival.item = items)
      (size : s'.tree.size = s.tree.size + ((arrivals.filter Arrival.arrived).map Arrival.size).sum) :
      CopiesEnd path user? items s s' (.ok arrivals)
  | tooDeep {e : Fault} (deep : GoesTooDeep path user? items s) : CopiesEnd path user? items s s' (.error e)

/-- The tables are in order, and the numbers are right. -/
abbrev Counted (s : Machine) : Prop := s.TidyWith fun a => a.Indexed ∧ a.Numbered

theorem Counted.regular (h : s.Counted) : s.Regular := TidyWith.regular ⟨h.1, h.2.1⟩

theorem of_run_pasteNoted {kind : PasteKind} {i : ClipboardItem} {r : Except Fault Arrival}
    (hrun : (pasteNoted kind path user? i).run s = (r, s')) : ∃ r', (pasteItem kind path user? i).run s = (r', s') ∧
      r = r'.map fun arrived => { item := i, arrived, size := extent s.tree i.node } := by
  rcases of_run_bind (Act.got hrun) with ⟨e, hitem, rfl⟩ | ⟨arrived, s₁, hitem, hrun⟩
  · exact ⟨_, hitem, rfl⟩
  · cases hrun
    exact ⟨_, hitem, rfl⟩

theorem run_pasteEach_cons {kind : PasteKind} {i : ClipboardItem} {rest : List ClipboardItem} {r : Except Fault (List Arrival)}
    (hrun : (pasteEach kind path user? (i :: rest)).run s = (r, s')) :
    (∃ e, r = .error e ∧ (pasteItem kind path user? i).run s = (.error e, s')) ∨ ∃ arrived s₁ r', (pasteItem kind path user? i).run s = (.ok arrived, s₁) ∧
      (pasteEach kind path user? rest).run s₁ = (r', s') ∧ r = r'.map ({ item := i, arrived, size := extent s.tree i.node } :: ·) := by
  unfold pasteEach at hrun ⊢
  rw [List.mapM_cons] at hrun
  rcases of_run_bind hrun with ⟨e, hfirst, rfl⟩ | ⟨x, s₁, hfirst, hrun⟩
  · obtain ⟨r' | arrived, hitem, he⟩ := of_run_pasteNoted hfirst <;> cases he
    exact .inl ⟨_, rfl, hitem⟩
  · obtain ⟨r' | arrived, hitem, he⟩ := of_run_pasteNoted hfirst <;> cases he
    rcases of_run_bind hrun with ⟨e, hrest, rfl⟩ | ⟨others, s₂, hrest, hrun⟩
    · exact .inr ⟨arrived, s₁, _, hitem, hrest, rfl⟩
    · cases hrun
      exact .inr ⟨arrived, s₁, _, hitem, hrest, rfl⟩

theorem pasteEach_copy_ends (hu : UserArg user?) : ∀ {items : List ClipboardItem} {s s' : Machine} {r : Except Fault (List Arrival)},
    s.Sound → s.Counted → (∀ i ∈ items, i.node.IsText ∧ i.user.IsText) → (pasteEach .copy path user? items).run s = (r, s') →
      s.Augments s' ∧ CopiesEnd path user? items s s' r
  | [], s, s', r, _, _, _, hrun => by
    cases hrun
    exact ⟨(Aside.refl s).augments, .made rfl rfl⟩
  | i :: rest, s, s', r, hs, hc, hitems, hrun => by
    obtain ⟨⟨⟨text, htext⟩, hsource⟩, hrest⟩ := List.forall_mem_cons.1 hitems
    have hkey : ¬ (!i.node.isKey) = true := by
      rw [htext]
      exact Bool.false_ne_true
    have hcopy : pasteItem .copy path user? i = copyById i.node path user? (some i.user) none := if_neg hkey
    have hends : ∀ {r s₁}, (pasteItem .copy path user? i).run s = (r, s₁) → s.Augments s₁ ∧ CopyEnds i.node s s₁ r := fun hitem =>
      copyById_ends hs hc.regular hc.2.2 hu (fun u hu => by cases hu; exact .inr hsource) (hcopy ▸ hitem)
    rcases run_pasteEach_cons hrun with ⟨e, rfl, hitem⟩ | ⟨arrived, s₁, r', hitem, hothers, rfl⟩
    · obtain ⟨haugments, hend⟩ := hends hitem
      cases hend with
      | tooDeep there deep => exact ⟨haugments, .tooDeep ⟨[], i, rest, [], s, _, rfl, rfl, there, deep⟩⟩
    obtain ⟨haugments, hend⟩ := hends hitem
    have hs₁ : s₁.Sound := (trail_pasteItem hs.linked hitem).sound hs
    have hc₁ : s₁.Counted := tidy_pasteItem hu hc hitem
    obtain ⟨haugments', hends'⟩ := pasteEach_copy_ends hu hs₁ hc₁ hrest hothers
    refine ⟨haugments.trans haugments', ?_⟩
    cases hends' with
    | tooDeep deep =>
      obtain ⟨before, j, after, arrivals, s₂, n, rfl, hbefore, there, hdeep⟩ := deep
      exact .tooDeep ⟨i :: before, j, after, _, s₂, n, rfl, run_pasteEach_next hitem hbefore, there, hdeep⟩
    | made hmap hsize =>
      refine .made (congrArg (i :: ·) hmap) ?_
      rw [hsize]
      cases hend with
      | refused same => rw [same, List.filter_cons_of_neg (by simp)]
      | made grown =>
        rw [grown, List.filter_cons_of_pos rfl, List.map_cons, List.sum_cons]
        exact Nat.add_assoc ..

theorem run_paste_copy (hkind : s.clipboard.kind = .copy) {r : Except Fault (List Arrival)}
    (hrun : (pasteEach .copy path user? s.clipboard.items).run s = (r, s')) :
    (paste path user?).run s = (r.map (List.countP Arrival.arrived), s') := by
  have hitems : (pasteItems .copy path user? s.clipboard.items).run s = (r.map (List.countP Arrival.arrived), s') := by
    rw [pasteItems_eq, run_map, hrun]
    cases r <;> rfl
  unfold paste
  rw [run_bind, run_get]
  dsimp only
  rw [hkind, run_bind, hitems]
  cases r <;> rfl

/-- What is picked goes onto the clipboard, each node on behalf of the same user. -/
theorem clipboard_pick {nodes : List NodeId} {kind : PasteKind} : ((Operation.pick nodes kind source?).after s).clipboard =
    { items := nodes.map fun node => { node, user := s.actor source? }, kind } := by
  have hrun : (Operation.pick nodes kind source?).run.run s = Act.flush.run { s with clipboard :=
    { items := nodes.map fun node => { node, user := s.actor source? }, kind } } := rfl
  unfold Operation.after
  rw [hrun, (aside_flush (Prod.mk.eta.symm :)).same]

end Machine

namespace World

open Machine Tree

/-- Pastes lose nothing, whatever one user has picked, whoever pastes it and wherever to. A paste of what has been cut always
comes to its end. It keeps all nodes, with all but their places; each item that it counts lies in the directory then, each other
one where it lay; and the clipboard is emptied if anything has been counted. A paste of copies keeps all nodes where they are and
leaves the clipboard alone. It adds as many nodes as each original had below it when it was copied; or it is given up at an item
whose copy would go deeper than any copy may. -/
theorem Living.paste_conserves {w : World} (h : w.Living) {ids : List NodeId} {kind : PasteKind} {source : Json}
    (hpicked : w.machine.clipboard = { items := ids.map fun node => { node, user := source }, kind }) (path : String)
    (user? : Option String) :
    (kind = .cut → ∃ arrivals s₁ s', (pasteEach .cut path (user?.map .str) w.machine.clipboard.items).run w.machine = (.ok arrivals, s₁) ∧
      (paste path (user?.map .str)).run w.machine = (.ok (arrivals.countP Arrival.arrived), s') ∧
        CutPasted path (user?.map .str) arrivals w.machine s') ∧
    (kind = .copy → ∃ r s', (pasteEach .copy path (user?.map .str) w.machine.clipboard.items).run w.machine = (r, s') ∧
      (paste path (user?.map .str)).run w.machine = (r.map (List.countP Arrival.arrived), s') ∧
        s'.clipboard = w.machine.clipboard ∧ w.machine.Augments s' ∧
          CopiesEnd path (user?.map .str) w.machine.clipboard.items w.machine s' r) := by
  obtain ⟨hw, hr⟩ := h.attended
  have hs := hw.machine
  have hactor : UserArg (user?.map .str) := fun u hu => by
    obtain ⟨name, -, rfl⟩ := Option.map_eq_some_iff.1 hu
    exact .inr ⟨name, rfl⟩
  refine ⟨fun hkind => run_paste_cut hs hr hactor (hkind ▸ hpicked), fun hkind => ?_⟩
  rcases hrun : (pasteEach .copy path (user?.map .str) w.machine.clipboard.items).run w.machine with ⟨r, s'⟩
  obtain ⟨haugments, hends⟩ := pasteEach_copy_ends hactor hs ⟨hr.toTidy, hr.indexed, h.numbered⟩ hr.clipboard hrun
  refine ⟨r, s', rfl, run_paste_copy (by rw [hpicked, hkind]) hrun, ?_, haugments, hends⟩
  rw [haugments.same]

/-- A new system, in which root has cut the home of the user, a directory in it, and the home again. -/
def loaded : World := { fresh with machine := (Operation.pick ["n53", "n54", "n53"] .cut (some (.str rootName))).after fresh.machine }

theorem living_loaded : loaded.Living := by
  have hproper : (Operation.pick ["n53", "n54", "n53"] .cut (some (.str rootName))).Proper :=
    ⟨by simp [Json.IsText], userArg_some rootName⟩
  exact .next (.started Store.empty_memory ⟨rfl, by decide, by decide⟩) (.perform hproper)

/-- Root pastes all of it into another directory. -/
theorem pasted_loaded : loaded.Living ∧
    loaded.machine.clipboard = { items := ["n53", "n54", "n53"].map fun node => { node, user := .str rootName }, kind := .cut } ∧
      ∃ arrivals s', (paste "/tmp" (some (.str rootName))).run loaded.machine = (.ok (arrivals.countP Arrival.arrived), s') ∧
        CutPasted "/tmp" (some (.str rootName)) arrivals loaded.machine s' := by
  have hpicked : loaded.machine.clipboard =
      { items := ["n53", "n54", "n53"].map fun node => { node, user := .str rootName }, kind := .cut } := clipboard_pick
  obtain ⟨arrivals, -, s', -, hrun, hpasted⟩ := (living_loaded.paste_conserves hpicked "/tmp" (some rootName)).1 rfl
  exact ⟨living_loaded, hpicked, arrivals, s', hrun, hpasted⟩

end World

end SimUnix
