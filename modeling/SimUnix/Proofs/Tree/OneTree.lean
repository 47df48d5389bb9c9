/-
What it means for an arena to be one tree, said of nodes, parents and lists of children alone. A tree
in order is one as soon as no node but the root is without a parent.
-/
import SimUnix.Proofs.Tree.Copy
import SimUnix.Proofs.Tree.Lookup

namespace SimUnix.Tree

open Skeleton

variable {t : Tree} {r : Node} {nodes : List Node} {a : NodeId}

/-- The links of an arena agree. Every node is kept once and under its own id; the root is there, has
no parent and is listed nowhere; whatever has a parent is listed by it exactly once and by no other
node; every child that is listed is there; every way up ends; and no two children of a node share a name. -/
structure Orderly (t : Tree) : Prop where
  once : t.nodes.keys.Nodup
  keyed : ∀ {id n}, t.get? id = some n → n.id = id
  root : ∃ r, t.get? t.rootId = some r ∧ r.parent = .null
  top : ∀ {id n}, t.get? id = some n → t.rootId ∉ n.children
  up : ∀ {id n}, t.get? id = some n → n.parent ≠ .null → ∃ p, t.get? n.parent = some p ∧ p.children.count id = 1
  alone : ∀ {id n q m}, t.get? id = some n → t.get? q = some m → id ∈ m.children → q = n.parent
  down : ∀ {id n c}, t.get? id = some n → c ∈ n.children → ∃ m, t.get? c = some m
  ends : ∀ {id n}, t.get? id = some n → ∃ r, (t.lineage n).getLast? = some r ∧ r.parent = .null
  names : ∀ {id n c d m k}, t.get? id = some n → c ∈ n.children → d ∈ n.children → t.get? c = some m →
    t.get? d = some k → m.name = k.name → c = d

/-- The arena is one tree: every node but the root has a parent, every way up ends at the root, and a
walk from the root meets as many nodes as there are. A walk may be too deep to be made; one that goes
as deep as there are nodes never is. -/
structure OneTree (t : Tree) : Prop extends Orderly t where
  hung : ∀ {id n}, t.get? id = some n → id ≠ t.rootId → n.parent ≠ .null
  rooted : ∀ {id n}, t.get? id = some n → ∃ r, (t.lineage n).getLast? = some r ∧ r.id = t.rootId
  spanned : ∃ r nodes, t.root = .ok r ∧ t.walkDown (t.size + 1) r = .ok nodes ∧ nodes.length = t.size
  walked : ∀ {r nodes}, t.root = .ok r → t.walk r = .ok nodes → nodes.length = t.size

/-- Without stray nodes everything lies below the root. -/
theorem Linked.under_root (h : Linked t) (hw : Whole t) {n : Node} (hn : t.get? a = some n) : t.skeleton.Under t.rootId a := by
  obtain ⟨r, hr, -, hl⟩ := h.lineage_last (h.get_self hn)
  have hmem : r.id ∈ idsOf (t.lineage n) := List.mem_map_of_mem (List.mem_of_getLast? hr)
  rw [← hw hl, ← h.id_eq hn]
  exact (h.mem_lineage (h.get_self hn)).1 hmem

end SimUnix.Tree
