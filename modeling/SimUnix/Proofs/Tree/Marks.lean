/-
The marks of a node: owner, group and permissions, which are texts wherever a node is made here, and
the times, which are readings of a clock. Every change of the tree keeps its nodes marked, and a tree in
order whose nodes are marked is restored from its record exactly.
-/
import SimUnix.Proofs.Json.Legible
import SimUnix.Proofs.Time.Stamp

namespace SimUnix

/-! ## Tables whose values have a property -/

namespace Keyed

variable {κ α : Type} [DecidableEq κ] {P : α → Prop} {table : Keyed κ α} {key : κ}

/-- Every value has a property. -/
def All (P : α → Prop) (table : Keyed κ α) : Prop := ∀ p ∈ table, P p.2

theorem All.get? (h : All P table) {a : α} (ha : table.get? key = some a) : P a := by
  unfold Keyed.get? at ha
  rw [List.lookup_eq_some_iff] at ha
  obtain ⟨l₁, l₂, rfl, -⟩ := ha
  exact h (key, a) (by simp)

theorem All.put (h : All P table) {a : α} (ha : P a) : All P (Keyed.put table key a) := by
  induction table with
  | nil =>
    intro p hp
    rw [List.mem_singleton.1 hp]
    exact ha
  | cons q rest ih =>
    have hrest : All P rest := fun p hp => h p (List.mem_cons_of_mem _ hp)
    intro p hp
    unfold Keyed.put at hp
    split at hp
    · rcases List.mem_cons.1 hp with rfl | hp
      · exact ha
      · exact hrest p hp
    · rcases List.mem_cons.1 hp with rfl | hp
      · exact h _ (List.mem_cons_self ..)
      · exact ih hrest p hp

theorem All.update (h : All P table) {f : α → α} (hf : ∀ a, P a → P (f a)) : All P (Keyed.update table key f) := by
  induction table with
  | nil => exact h
  | cons q rest ih =>
    have hrest : All P rest := fun p hp => h p (List.mem_cons_of_mem _ hp)
    intro p hp
    unfold Keyed.update at hp
    split at hp
    · rcases List.mem_cons.1 hp with rfl | hp
      · exact hf _ (h _ (List.mem_cons_self ..))
      · exact hrest p hp
    · rcases List.mem_cons.1 hp with rfl | hp
      · exact h _ (List.mem_cons_self ..)
      · exact ih hrest p hp

theorem All.drop (h : All P table) : All P (Keyed.drop table key) := by
  induction table with
  | nil => exact h
  | cons q rest ih =>
    have hrest : All P rest := fun p hp => h p (List.mem_cons_of_mem _ hp)
    intro p hp
    unfold Keyed.drop at hp
    split at hp
    · exact hrest p hp
    · rcases List.mem_cons.1 hp with rfl | hp
      · exact h _ (List.mem_cons_self ..)
      · exact ih hrest p hp

end Keyed

/-- A value that is a text. -/
def Json.IsText (v : Json) : Prop := ∃ s, v = .str s

/-- What a node is marked with. -/
structure Node.Marked (n : Node) : Prop where
  owner : n.owner.IsText
  group : n.group.IsText
  permissions : n.permissions.IsText
  created : n.created.Proper
  modified : n.modified.Proper

namespace Tree

/-- Every node is marked. -/
def Marked (t : Tree) : Prop := t.nodes.All Node.Marked

variable {t t' : Tree} {n : Node} {now : Time.Stamp} {id parent : NodeId}

/-! ## Changes -/

theorem marked_empty {ids : IdSupply} (hnow : now.Proper) : Marked (Tree.empty ids now) := by
  intro p hp
  rw [List.mem_singleton.1 hp]
  exact ⟨⟨_, rfl⟩, ⟨_, rfl⟩, ⟨_, rfl⟩, hnow, hnow⟩

theorem Marked.update (h : Marked t) {f : Node → Node} (hf : ∀ n, n.Marked → (f n).Marked) : Marked (t.update id f) :=
  Keyed.All.update h hf

theorem Marked.insert (h : Marked t) (hn : n.Marked) : Marked (t.insert n) := Keyed.All.put h hn

theorem Marked.attach (h : Marked t) (hnow : now.Proper) : Marked (t.attach id parent now) :=
  (h.update (f := fun n => { n with parent }) fun _ hn => ⟨hn.owner, hn.group, hn.permissions, hn.created, hn.modified⟩).update
    fun _ hn => ⟨hn.owner, hn.group, hn.permissions, hn.created, hnow⟩

theorem Marked.add (h : Marked t) (hn : n.Marked) (hnow : now.Proper) : Marked (t.add n parent now) :=
  (h.insert hn).attach hnow

theorem Marked.detach (h : Marked t) (hnow : now.Proper) (hd : t.detach n now = .ok t') : Marked t' := by
  have hfree : ∀ {t : Tree}, Marked t → Marked (t.update n.id fun n => { n with parent := .null }) := fun h =>
    h.update fun _ hn => ⟨hn.owner, hn.group, hn.permissions, hn.created, hn.modified⟩
  unfold Tree.detach at hd
  split at hd
  · cases hd
    exact hfree h
  · split at hd
    · cases hd
      exact hfree (h.update fun _ hn => ⟨hn.owner, hn.group, hn.permissions, hn.created, hnow⟩)
    · cases hd

theorem Marked.drop (h : Marked t) {r : Except Fault Unit} (hrun : (drop id).run t = (r, t')) : Marked t' := by
  unfold Tree.drop at hrun
  rw [run_bind, run_get] at hrun
  dsimp only at hrun
  split at hrun
  · cases hrun
    exact Keyed.All.drop h
  · cases hrun
    exact h

theorem Marked.drops : ∀ {ns : List Node} {t : Tree} {r : Except Fault Unit}, Marked t →
    (ns.forM fun victim => Tree.drop victim.id).run t = (r, t') → Marked t'
  | [], _, _, h, hrun => by
    cases hrun
    exact h
  | n :: ns, t, _, h, hrun => by
    have hcons : ((n :: ns).forM fun victim => Tree.drop victim.id) =
        (Tree.drop n.id >>= fun _ => ns.forM fun victim => Tree.drop victim.id) := rfl
    rw [hcons] at hrun
    rcases of_run_bind hrun with ⟨e, hfirst, -⟩ | ⟨u, t₁, hfirst, hrun⟩
    · exact h.drop hfirst
    · exact (h.drop hfirst).drops hrun

theorem Marked.remove (h : Marked t) (hnow : now.Proper) {r : Except Fault Nat} (hrun : (Tree.remove n now).run t = (r, t')) :
    Marked t' := by
  unfold Tree.remove at hrun
  simp only [run_bind, run_get, run_liftExcept] at hrun
  rcases hwalk : t.walk n with e | doomed
  · rw [hwalk] at hrun
    cases hrun
    exact h
  rw [hwalk] at hrun
  simp only at hrun
  rcases hdetach : t.detach n now with e | t₁
  · rw [hdetach] at hrun
    cases hrun
    exact h
  rw [hdetach] at hrun
  simp only [run_set] at hrun
  have h₁ : Marked t₁ := h.detach hnow hdetach
  rcases hdrops : (doomed.forM fun victim => Tree.drop victim.id).run t₁ with ⟨x, t₂⟩
  have h₂ := h₁.drops hdrops
  rw [hdrops] at hrun
  cases x <;> cases hrun <;> exact h₂

/-- What mapping makes comes from one of the items. -/
theorem of_mem_mapM {α β : Type} {f : α → Except Fault β} {b : β} : ∀ {xs : List α} {ys : List β}, xs.mapM f = .ok ys →
    b ∈ ys → ∃ a ∈ xs, f a = .ok b := by
  intro xs ys h hb
  induction mapM_ok.1 h with
  | nil => cases hb
  | @cons x y xs ys hy hys ih =>
    rcases List.mem_cons.1 hb with rfl | hb
    · exact ⟨x, List.mem_cons_self .., hy⟩
    · obtain ⟨a, ha, hf⟩ := ih (mapM_ok.2 hys) hb
      exact ⟨a, List.mem_cons_of_mem _ ha, hf⟩

theorem Marked.childrenOf (h : Marked t) {cs : List Node} (hcs : t.childrenOf n = .ok cs) : ∀ c ∈ cs, c.Marked := by
  intro c hc
  obtain ⟨k, -, hk⟩ := of_mem_mapM hcs hc
  exact Keyed.All.get? h (node_ok.1 hk)

theorem Marked.graft (h : Marked t) : Marked (t.graft id parent) :=
  (h.update (f := fun n => { n with parent }) fun _ hn =>
    ⟨hn.owner, hn.group, hn.permissions, hn.created, hn.modified⟩).update
      fun _ hn => ⟨hn.owner, hn.group, hn.permissions, hn.created, hn.modified⟩

/-- New owners and groups that are texts, where the old ones are. -/
def NewOwner.Plain (new : NewOwner) : Prop :=
  ∀ v : Json, v.IsText → (replaced new.owner? v).IsText ∧ (replaced new.group? v).IsText

mutual
/-- A copy is marked like what it copies, but for its new owner and group. -/
theorem Marked.cloneDown {new : NewOwner} (hnew : new.Plain) (hnow : now.Proper) : ∀ {depth : Nat} {n : Node} {t t' : Tree}
    {r : Except Fault NodeId}, Marked t → n.Marked → (Tree.cloneDown new now depth n).run t = (r, t') → Marked t'
  | 0, _, _, _, _, h, _, hrun => by
    cases hrun
    exact h
  | depth + 1, n, t, t', r, h, hn, hrun => by
    have h₁ : Marked (t.takeId.2.insert (blankCopy n new now t.ids.id)) :=
      Marked.insert (t := t.takeId.2) h ⟨(hnew _ hn.owner).1, (hnew _ hn.group).2, hn.permissions, hnow, hnow⟩
    rw [run_cloneDown_succ] at hrun
    dsimp only at hrun
    rcases hcs : (t.takeId.2.insert (blankCopy n new now t.ids.id)).childrenOf n with e | cs
    · rw [hcs] at hrun
      cases hrun
      exact h₁
    · rw [hcs] at hrun
      dsimp only at hrun
      rcases hbelow : (Tree.copyBelow new now depth t.ids.id cs).run (t.takeId.2.insert (blankCopy n new now t.ids.id)) with ⟨x, t₂⟩
      have h₂ := Marked.copyBelow hnew hnow h₁ (h₁.childrenOf hcs) hbelow
      rw [hbelow] at hrun
      cases x <;> cases hrun <;> exact h₂

theorem Marked.copyBelow {new : NewOwner} (hnew : new.Plain) (hnow : now.Proper) : ∀ {depth : Nat} {id : NodeId}
    {cs : List Node} {t t' : Tree} {r : Except Fault PUnit}, Marked t → (∀ c ∈ cs, c.Marked) →
      (Tree.copyBelow new now depth id cs).run t = (r, t') → Marked t'
  | _, _, [], _, _, _, h, _, hrun => by
    cases hrun
    exact h
  | depth, id, c :: cs, t, t', r, h, hcs, hrun => by
    rw [Tree.copyBelow] at hrun
    have hc := hcs c (List.mem_cons_self ..)
    rcases of_run_bind hrun with ⟨e, hfirst, -⟩ | ⟨k, t₁, hfirst, hrun⟩
    · exact Marked.cloneDown hnew hnow h hc hfirst
    · have h₁ := Marked.cloneDown hnew hnow h hc hfirst
      exact Marked.copyBelow hnew hnow h₁.graft (fun d hd => hcs d (List.mem_cons_of_mem _ hd)) hrun
end

theorem Marked.clone {new : NewOwner} (h : Marked t) (hn : n.Marked) (hnew : new.Plain) (hnow : now.Proper)
    {r : Except Fault NodeId} (hrun : (Tree.clone n new now).run t = (r, t')) : Marked t' := by
  unfold Tree.clone at hrun
  simp only [run_bind, run_get] at hrun
  exact Marked.cloneDown hnew hnow h hn hrun

theorem Marked.hung (h : Marked t) (hnow : now.Proper) {name : Json} : Marked (t.hung id name parent now) :=
  Marked.attach (h.update fun _ hn => ⟨hn.owner, hn.group, hn.permissions, hn.created, hn.modified⟩) hnow

theorem Marked.relinked (h : Marked t) (hnow : now.Proper) {name : Json} : Marked (t.relinked id name parent now) :=
  (h.hung hnow).update fun _ hn => ⟨hn.owner, hn.group, hn.permissions, hn.created, hnow⟩

/-! ## Restoring -/

variable {g : Json → Json} {ids : IdSupply}

/-- A marked node of a tree in order comes back from its record as it was. -/
theorem Linked.comes_back (h : Linked t) (hg : Json.Echoes g) (hn : t.get? n.id = some n) (hm : n.Marked) :
    Node.ofJson now (g n.toJson) = .ok n := by
  have htext : ∀ {a m}, t.get? a = some m → a.IsText := fun hm => (h.written (bare_some.2 ⟨_, hm, rfl⟩)).id
  have hx : t.skeleton n.id = some n.joint := skeleton_some.2 ⟨n, hn, rfl⟩
  have hkids : n.children.map g = n.children := map_texts hg fun k hk => by
    obtain ⟨m, hm⟩ := present_of_above (h.forest.above_of_mem hx hk)
    exact htext hm
  have hparent : g n.parent = n.parent := by
    by_cases hp : n.parent = .null
    · rw [hp, hg.null]
    · obtain ⟨y, hy, -⟩ := h.forest.up hx hp
      obtain ⟨m, hm, -⟩ := skeleton_some.1 hy
      obtain ⟨s, hs⟩ := htext hm
      have hs : n.parent = .str s := hs
      rw [hs, hg.str]
  obtain ⟨⟨own, hown⟩, ⟨name, hname⟩, ⟨text, hcont⟩⟩ := h.written (bare_some.2 ⟨n, hn, rfl⟩)
  obtain ⟨⟨owner, howner⟩, ⟨group, hgroup⟩, ⟨permissions, hperm⟩, hcreated, hmodified⟩ := hm
  have hcreated' := Time.Stamp.parse_toText hcreated
  have hmodified' := Time.Stamp.parse_toText hmodified
  have hkeys : ["id", "name", "type", "owner", "group", "permissions", "content", "children", "parent_id",
    "created", "modified"].Nodup := by decide
  have hobj : g n.toJson = .obj (n.toJson.fields.map fun f => (f.1, g f.2)) := hg.obj n.toJson.fields hkeys
  have hkind : NodeKind.ofJson (.str n.kind.name) = .ok n.kind := by cases n.kind <;> rfl
  obtain ⟨id, nm, kind, ow, gr, pe, co, children, parent, created, modified⟩ := n
  have hname : nm = .str name := hname
  have hcont : co = .str text := hcont
  dsimp only at hown howner hgroup hperm hkids hparent hcreated' hmodified' hkind
  subst hown howner hgroup hperm hname hcont
  rw [hobj]
  simp only [Node.toJson, Json.fields, List.map_cons, List.map_nil, hg.arr, hkids, hparent, hg.str]
  unfold Node.ofJson
  simp only [Json.require, Json.fieldOr, Json.field?, List.lookup_cons, String.reduceBEq, Except.map, Option.getD_some, bind,
    Except.bind, hkind, Json.items, Node.stampField, Json.asText, hcreated', hmodified']

/-- The nodes of a tree in order come back one after the other. -/
theorem restoreNodes_marked (h : Linked t) (hg : Json.Echoes g) : ∀ {nodes done : Keyed NodeId Node},
    (done.keys ++ nodes.keys).Nodup → (∀ p ∈ nodes, t.get? p.2.id = some p.2 ∧ p.2.id = p.1 ∧ p.2.Marked) →
      (nodes.map fun p => g p.2.toJson).foldlM (restoreNode now) done = .ok (done ++ nodes)
  | [], done, _, _ => by
    rw [List.append_nil]
    rfl
  | p :: nodes, done, hnd, hin => by
    obtain ⟨hget, hid, hm⟩ := hin p (List.mem_cons_self ..)
    have hkeys : Keyed.keys (p :: nodes) = p.1 :: Keyed.keys nodes := rfl
    rw [hkeys] at hnd
    -- no two nodes have one id, so that none overwrites another on its way back
    have hnew : p.2.id ∉ done.keys := by
      rw [hid]
      intro hmem
      exact (List.nodup_append.1 hnd).2.2 _ hmem _ (List.mem_cons_self ..) rfl
    obtain ⟨own, hown⟩ := (h.written (bare_some.2 ⟨p.2, hget, rfl⟩)).id
    have hkey : p.2.id.isKey = true := by rw [hown]; rfl
    have hnode : restoreNode now done (g p.2.toJson) = .ok (done ++ [p]) := by
      unfold restoreNode
      rw [h.comes_back hg hget hm]
      show (if p.2.id.isKey then .ok (done.put p.2.id p.2) else .error Fault.wrongShape : Except Fault _) = _
      rw [if_pos hkey, Keyed.put_new hnew, hid]
    have hkeys' : Keyed.keys (done ++ [p]) = done.keys ++ [p.1] := List.map_append
    rw [List.map_cons, List.foldlM_cons, hnode]
    show (nodes.map fun p => g p.2.toJson).foldlM (restoreNode now) (done ++ [p]) = _
    rw [restoreNodes_marked h hg (by rw [hkeys', List.append_assoc]; exact hnd)
      fun q hq => hin q (List.mem_cons_of_mem _ hq), List.append_assoc]
    rfl

/-- A tree in order whose nodes are marked is restored from its record as it was. -/
theorem Linked.restored_marked (h : Linked t) (hm : Marked t) (hg : Json.Echoes g) :
    Tree.ofJson ids now (g t.toJson) = .ok { t with ids } := by
  obtain ⟨fields, hecho, hvalues⟩ := h.echo hg
  have hin : ∀ p ∈ t.nodes, t.get? p.2.id = some p.2 ∧ p.2.id = p.1 ∧ p.2.Marked := by
    intro p hp
    have hget : t.get? p.1 = some p.2 := get?_of_mem h.unique hp
    exact ⟨h.get_self hget, h.id_eq hget, hm p hp⟩
  have hfresh : (Keyed.keys ([] : Keyed NodeId Node) ++ t.nodes.keys).Nodup := h.unique
  have hnodes : (t.nodes.map fun p => g p.2.toJson).foldlM (restoreNode now) [] = .ok t.nodes := restoreNodes_marked h hg hfresh hin
  obtain ⟨x, hx, -⟩ := h.rooted
  obtain ⟨root, hroot, -⟩ := skeleton_some.1 hx
  obtain ⟨own, hown⟩ : t.rootId.IsText := (h.written (bare_some.2 ⟨_, hroot, rfl⟩)).id
  have hkey : t.rootId.isKey = true := by rw [hown]; rfl
  have hhas : t.nodes.has t.rootId = true := by
    unfold Keyed.has
    rw [show t.nodes.get? t.rootId = some root from hroot]
    rfl
  rw [hecho]
  unfold Tree.ofJson
  simp only [Json.require, List.lookup_cons, String.reduceBEq, bind, Except.bind, nodeRecords, hvalues]
  rw [hnodes]
  simp only [hkey, hhas, Bool.not_true, Bool.false_eq_true, if_false, if_true]

end Tree

end SimUnix
