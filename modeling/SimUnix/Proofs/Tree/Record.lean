/-
The record of a tree in order, as it was written or as it was read from its text, restores a tree with
the same skeleton.
-/
import SimUnix.Proofs.Json.RoundTrip
import SimUnix.Proofs.Tree.Copy
import SimUnix.Tree.Record

namespace SimUnix

/-! ## Records with different keys -/

theorem Keyed.put_new {κ α : Type} [DecidableEq κ] {k : κ} {v : α} : ∀ {table : Keyed κ α}, k ∉ table.keys →
    Keyed.put table k v = table ++ [(k, v)]
  | [], _ => rfl
  | (k', v') :: rest, hk => by
    obtain ⟨hne, hk⟩ := not_or.1 (mt List.mem_cons.2 hk)
    have hbeq : (k' == k) = false := beq_eq_false_iff_ne.2 (Ne.symm hne)
    rw [Keyed.put, hbeq]
    show (k', v') :: Keyed.put rest k v = _
    rw [Keyed.put_new hk]
    rfl

theorem Json.normalFields_nodup : ∀ {fs read : List (String × Json)}, (Keyed.keys (read ++ fs)).Nodup →
    normalFields read fs = read ++ fs.map fun f => (f.1, f.2.normal)
  | [], read, _ => by
    rw [normalFields, List.map_nil, List.append_nil]
  | (k, x) :: fs, read, hnd => by
    have hkeys : Keyed.keys (read ++ (k, x) :: fs) = Keyed.keys read ++ k :: Keyed.keys fs := List.map_append
    have hk : k ∉ Keyed.keys read := by
      rw [hkeys] at hnd
      intro hm
      exact (List.nodup_append.1 hnd).2.2 k hm k (List.mem_cons_self ..) rfl
    have hkeys' : Keyed.keys ((read ++ [(k, x.normal)]) ++ fs) = Keyed.keys (read ++ (k, x) :: fs) := by
      simp [Keyed.keys]
    rw [normalFields, Keyed.put_new hk, normalFields_nodup (hkeys' ▸ hnd), List.append_assoc]
    rfl

/-! ## Nodes -/

/-- How a value comes back from a store: as it was written, or as it was read from its text. -/
structure Json.Echoes (g : Json → Json) : Prop where
  null : g .null = .null
  bool : ∀ b, g (.bool b) = .bool b
  int : ∀ n, g (.int n) = .int n
  str : ∀ s, g (.str s) = .str s
  arr : ∀ xs, g (.arr xs) = .arr (xs.map g)
  obj : ∀ fs : List (String × Json), (Keyed.keys fs).Nodup → g (.obj fs) = .obj (fs.map fun f => (f.1, g f.2))

theorem Json.echoes_id : Echoes id := by
  constructor <;> intros <;> simp

theorem Json.echoes_normal : Echoes normal where
  null := rfl
  bool _ := rfl
  int _ := rfl
  str _ := rfl
  arr xs := by
    have hitems : ∀ xs, normalItems xs = xs.map normal := by
      intro xs
      induction xs with
      | nil => rfl
      | cons x xs ih => rw [normalItems, ih, List.map_cons]
    rw [normal, hitems]
  obj fs hnd := by
    have hread : (Keyed.keys ([] ++ fs)).Nodup := hnd
    rw [normal, normalFields_nodup hread]
    rfl

namespace Tree

open Skeleton

variable {t t' : Tree} {n n' : Node} {g : Json → Json} {now : Time.Stamp} {ids : IdSupply}

/-- A node that has come back from its record. -/
structure Back (n n' : Node) : Prop where
  joint : n'.joint = n.joint
  content : n'.content = n.content

theorem ofJson_back (hg : Json.Echoes g) (hid : g n.id = n.id) (hname : g n.name = n.name)
    (hcont : g n.content = n.content) (hkids : n.children.map g = n.children) (hparent : g n.parent = n.parent)
    (h : Node.ofJson now (g n.toJson) = .ok n') : Back n n' := by
  have hkeys : ["id", "name", "type", "owner", "group", "permissions", "content", "children", "parent_id",
    "created", "modified"].Nodup := by decide
  have hobj : g n.toJson = .obj (n.toJson.fields.map fun f => (f.1, g f.2)) := hg.obj n.toJson.fields hkeys
  rw [hobj] at h
  simp only [Node.toJson, Json.fields, List.map_cons, List.map_nil, hid, hname, hcont, hg.arr, hkids, hparent,
    hg.str] at h
  unfold Node.ofJson at h
  obtain ⟨id, h₁, h⟩ := bind_ok.1 h
  obtain ⟨name, h₂, h⟩ := bind_ok.1 h
  obtain ⟨type, h₃, h⟩ := bind_ok.1 h
  obtain ⟨kind, h₄, h⟩ := bind_ok.1 h
  obtain ⟨owner, -, h⟩ := bind_ok.1 h
  obtain ⟨group, -, h⟩ := bind_ok.1 h
  obtain ⟨permissions, -, h⟩ := bind_ok.1 h
  obtain ⟨content, h₅, h⟩ := bind_ok.1 h
  obtain ⟨list, h₆, h⟩ := bind_ok.1 h
  obtain ⟨children, h₇, h⟩ := bind_ok.1 h
  obtain ⟨parent, h₈, h⟩ := bind_ok.1 h
  obtain ⟨created, -, h⟩ := bind_ok.1 h
  obtain ⟨modified, -, h⟩ := bind_ok.1 h
  cases h
  simp only [Json.require, List.lookup_cons, String.reduceBEq, Except.ok.injEq] at h₁ h₂ h₃
  simp only [Json.fieldOr, Json.field?, List.lookup_cons, String.reduceBEq, Except.map, Option.getD_some, Except.ok.injEq]
    at h₅ h₆ h₈
  subst h₁ h₂ h₃ h₅ h₆ h₈
  cases h₇
  have hkind : kind = n.kind := by
    cases hk : n.kind <;> rw [hk] at h₄ <;> cases h₄ <;> rfl
  subst hkind
  exact ⟨rfl, rfl⟩

/-- Values that are texts come back as they are. -/
theorem map_texts (hg : Json.Echoes g) {xs : List Json} (hx : ∀ x ∈ xs, ∃ s, x = .str s) : xs.map g = xs := by
  induction xs with
  | nil => rfl
  | cons x xs ih =>
    obtain ⟨s, rfl⟩ := hx x (List.mem_cons_self ..)
    rw [List.map_cons, hg.str, ih fun y hy => hx y (List.mem_cons_of_mem _ hy)]

/-- Every node of a tree in order comes back from its record. -/
theorem Linked.back (h : Linked t) (hg : Json.Echoes g) (hn : t.get? n.id = some n)
    (hof : Node.ofJson now (g n.toJson) = .ok n') : Back n n' := by
  have htext : ∀ {a m}, t.get? a = some m → ∃ s, a = .str s :=
    fun hm => (h.written (bare_some.2 ⟨_, hm, rfl⟩)).id
  obtain ⟨⟨own, hown⟩, ⟨name, hname⟩, ⟨text, htext'⟩⟩ := h.written (bare_some.2 ⟨n, hn, rfl⟩)
  have hx : t.skeleton n.id = some n.joint := skeleton_some.2 ⟨n, hn, rfl⟩
  refine ofJson_back hg (by rw [hown, hg.str]) ?_ ?_ (map_texts hg ?_) ?_ hof
  · have hname : n.name = .str name := hname
    rw [hname, hg.str]
  · have htext' : n.content = .str text := htext'
    rw [htext', hg.str]
  · intro k hk
    obtain ⟨m, hm⟩ := present_of_above (h.forest.above_of_mem hx hk)
    exact htext hm
  · by_cases hp : n.parent = .null
    · rw [hp, hg.null]
    · obtain ⟨y, hy, -⟩ := h.forest.up hx hp
      obtain ⟨m, hm, -⟩ := skeleton_some.1 hy
      obtain ⟨s, hs⟩ := htext hm
      have hs : n.parent = .str s := hs
      rw [hs, hg.str]

/-! ## Trees -/

/-- Two arenas with the same ids, each node come back from its record. -/
abbrev Backs (nodes nodes' : Keyed NodeId Node) : Prop :=
  List.Forall₂ (fun p q => q.1 = p.1 ∧ Back p.2 q.2) nodes nodes'

theorem get?_of_mem {p : NodeId × Node} : ∀ {nodes : Keyed NodeId Node}, nodes.keys.Nodup → p ∈ nodes →
    nodes.get? p.1 = some p.2
  | q :: nodes, hnd, hp => by
    obtain ⟨hq, hnd⟩ := List.nodup_cons.1 hnd
    unfold Keyed.get?
    rw [List.lookup_cons]
    rcases List.mem_cons.1 hp with rfl | hp
    · rw [beq_self_eq_true]
    · have hne : (p.1 == q.1) = false := beq_eq_false_iff_ne.2 fun he => hq (he ▸ List.mem_map_of_mem hp)
      rw [hne]
      exact get?_of_mem hnd hp

theorem Backs.keys : ∀ {nodes nodes' : Keyed NodeId Node}, Backs nodes nodes' → nodes'.keys = nodes.keys
  | _, _, .nil => rfl
  | _, _, .cons h hs => by
    exact congrArg₂ List.cons h.1 (Backs.keys hs)

theorem Backs.joints : ∀ {nodes nodes' : Keyed NodeId Node} {a : NodeId}, Backs nodes nodes' →
    (Keyed.get? nodes' a).map Node.joint = (Keyed.get? nodes a).map Node.joint
  | _, _, _, .nil => rfl
  | p :: nodes, q :: nodes', a, .cons h hs => by
    unfold Keyed.get?
    rw [List.lookup_cons, List.lookup_cons, h.1]
    split
    · exact congrArg some h.2.joint
    · exact Backs.joints hs

theorem Backs.get_of : ∀ {nodes nodes' : Keyed NodeId Node} {a : NodeId}, Backs nodes nodes' →
    Keyed.get? nodes' a = some n' → ∃ n, Keyed.get? nodes a = some n ∧ Back n n'
  | _, _, _, .nil, hn => by cases hn
  | p :: nodes, q :: nodes', a, .cons h hs, hn => by
    unfold Keyed.get? at hn ⊢
    rw [List.lookup_cons, h.1] at hn
    rw [List.lookup_cons]
    split at hn
    · cases hn
      exact ⟨p.2, rfl, h.2⟩
    · exact Backs.get_of hs hn

/-- The nodes of a tree in order come back one after the other. -/
theorem restoreNodes (h : Linked t) (hg : Json.Echoes g) : ∀ {nodes done restored : Keyed NodeId Node},
    (done.keys ++ nodes.keys).Nodup → (∀ p ∈ nodes, t.get? p.2.id = some p.2 ∧ p.2.id = p.1) →
      (nodes.map fun p => g p.2.toJson).foldlM (restoreNode now) done = .ok restored →
        ∃ nodes', restored = done ++ nodes' ∧ Backs nodes nodes'
  | [], done, restored, _, _, hr => by
    cases hr
    exact ⟨[], (List.append_nil _).symm, .nil⟩
  | p :: nodes, done, restored, hnd, hin, hr => by
    rw [List.map_cons, List.foldlM_cons] at hr
    obtain ⟨done', hnode, hr⟩ := bind_ok.1 hr
    obtain ⟨hget, hid⟩ := hin p (List.mem_cons_self ..)
    unfold restoreNode at hnode
    obtain ⟨n', hof, hnode⟩ := bind_ok.1 hnode
    have hback := h.back hg hget hof
    have hid' : n'.id = p.1 := (congrArg Joint.id hback.joint).trans hid
    have hkeys : Keyed.keys (p :: nodes) = p.1 :: Keyed.keys nodes := rfl
    rw [hkeys] at hnd
    have hnew : n'.id ∉ done.keys := by
      rw [hid']
      intro hm
      exact (List.nodup_append.1 hnd).2.2 _ hm _ (List.mem_cons_self ..) rfl
    split at hnode
    · rw [Keyed.put_new hnew] at hnode
      cases hnode
      have hkeys' : Keyed.keys (done ++ [(n'.id, n')]) = done.keys ++ [p.1] := by
        rw [← hid']
        exact List.map_append
      obtain ⟨nodes', rfl, hbacks⟩ := restoreNodes h hg (by rw [hkeys', List.append_assoc]; exact hnd)
        (fun q hq => hin q (List.mem_cons_of_mem _ hq)) hr
      exact ⟨(n'.id, n') :: nodes', by rw [List.append_assoc]; rfl, .cons ⟨hid', hback⟩ hbacks⟩
    · cases hnode

/-- The record of a tree in order holds each node under a key of its own. -/
theorem Linked.echo (h : Linked t) (hg : Json.Echoes g) : ∃ fields : List (String × Json),
    g t.toJson = .obj [("root_id", t.rootId), ("nodes", .obj fields)] ∧
      fields.map Prod.snd = t.nodes.map fun p => g p.2.toJson := by
  have htext : ∀ {a m}, t.get? a = some m → ∃ s, a = .str s :=
    fun hm => (h.written (bare_some.2 ⟨_, hm, rfl⟩)).id
  let fields : List (String × Json) := t.nodes.map fun p => (p.1.keyText, p.2.toJson)
  have hkeys : (Keyed.keys fields).Nodup := by
    have heq : Keyed.keys fields = t.nodes.keys.map Json.keyText := by
      simp [fields, Keyed.keys, Function.comp_def]
    rw [heq]
    refine h.unique.map_on ?_
    intro a ha b hb he
    obtain ⟨m, hm⟩ := mem_keys_iff.1 ha
    obtain ⟨m', hm'⟩ := mem_keys_iff.1 hb
    obtain ⟨x, rfl⟩ := htext hm
    obtain ⟨y, rfl⟩ := htext hm'
    exact congrArg Json.str he
  have hroot : g t.rootId = t.rootId := by
    obtain ⟨x, hx, -⟩ := h.rooted
    obtain ⟨m, hm, -⟩ := skeleton_some.1 hx
    obtain ⟨r, hr⟩ := htext hm
    rw [hr, hg.str]
  have htree : t.toJson = .obj [("root_id", t.rootId), ("nodes", .obj fields)] := rfl
  have htwo : ["root_id", "nodes"].Nodup := by decide
  refine ⟨fields.map fun f => (f.1, g f.2), ?_, ?_⟩
  · rw [htree, hg.obj [("root_id", t.rootId), ("nodes", .obj fields)] htwo]
    simp only [List.map_cons, List.map_nil, hroot, hg.obj fields hkeys]
  · simp [fields, Function.comp_def]

theorem Backs.skeleton (h : Backs t.nodes t'.nodes) : t'.skeleton = t.skeleton := funext fun _ => Backs.joints h

/-- A tree that is restored from the record of one in order is in order, with the same links. -/
theorem Linked.restored (h : Linked t) (hg : Json.Echoes g) (hids : t.ids.Later ids)
    (hr : Tree.ofJson ids now (g t.toJson) = .ok t') : Linked t' ∧ t'.skeleton = t.skeleton ∧ t'.rootId = t.rootId := by
  obtain ⟨fields, hecho, hvalues⟩ := h.echo hg
  rw [hecho] at hr
  unfold Tree.ofJson at hr
  obtain ⟨rootId, hroot, hr⟩ := bind_ok.1 hr
  obtain ⟨list, hlist, hr⟩ := bind_ok.1 hr
  obtain ⟨records, hrecords, hr⟩ := bind_ok.1 hr
  obtain ⟨nodes, hnodes, hdone⟩ := bind_ok.1 hr
  clear hr
  simp only [Json.require, List.lookup_cons, String.reduceBEq, Except.ok.injEq] at hroot hlist
  subst hroot hlist
  cases hrecords
  rw [hvalues] at hnodes
  have hin : ∀ p ∈ t.nodes, t.get? p.2.id = some p.2 ∧ p.2.id = p.1 := by
    intro p hp
    have hget : t.get? p.1 = some p.2 := get?_of_mem h.unique hp
    exact ⟨h.get_self hget, h.id_eq hget⟩
  have hfresh : (Keyed.keys ([] : Keyed NodeId Node) ++ t.nodes.keys).Nodup := h.unique
  obtain ⟨nodes', heq, hbacks⟩ := restoreNodes h hg hfresh hin hnodes
  rw [List.nil_append] at heq
  subst heq
  split at hdone
  · cases hdone
  split at hdone
  · cases hdone
    have hσ : Tree.skeleton { rootId := t.rootId, nodes, ids } = t.skeleton := Backs.skeleton hbacks
    refine ⟨⟨?_, ?_, ?_, ?_, ?_⟩, hσ, rfl⟩
    · exact hbacks.keys ▸ h.unique
    · exact hσ ▸ h.forest
    · exact hσ ▸ h.rooted
    · intro a b hb
      obtain ⟨n', hn', rfl⟩ := bare_some.1 hb
      obtain ⟨n, hn, hback⟩ := Backs.get_of hbacks hn'
      obtain ⟨hid, ⟨name, hname⟩, ⟨text, htext⟩⟩ := h.written (bare_some.2 ⟨n, hn, rfl⟩)
      have hsame : n'.name = n.name := congrArg Joint.name hback.joint
      exact ⟨hid, ⟨name, hsame.trans hname⟩, ⟨text, hback.content.trans htext⟩⟩
    · intro k hk
      rw [hσ]
      exact (h.later hids).fresh hk
  · cases hdone

end Tree

end SimUnix
