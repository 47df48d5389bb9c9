/-
Names that lead from one node down to another. In a forest they lead to one node at most, and below a node
without a parent each node has one list of names. What each rewiring does to them: hanging a node somewhere
brings everything below it there, and unlinking it takes everything away.
-/
import SimUnix.Proofs.Tree.Forest
import Mathlib.Data.List.Induction

namespace SimUnix.Skeleton

variable {σ τ : Skeleton} {a b c d p top : NodeId} {x : Joint} {name : String} {names rest way : List String}

/-! ## Ways down -/

/-- A node hangs below another one under a name. -/
def Hangs (σ : Skeleton) (d c : NodeId) (name : String) : Prop := σ.Above d c ∧ ∃ x, σ c = some x ∧ x.name = .str name

/-- Names that lead down from one node to another. -/
def Lies (σ : Skeleton) : NodeId → List String → NodeId → Prop
  | a, [], b => b = a
  | a, name :: rest, b => ∃ c, σ.Hangs a c name ∧ σ.Lies c rest b

theorem lies_append : ∀ {names : List String} {a : NodeId},
    σ.Lies a (names ++ rest) b ↔ ∃ c, σ.Lies a names c ∧ σ.Lies c rest b
  | [], a => by
    constructor
    · exact fun h => ⟨a, rfl, h⟩
    · rintro ⟨c, rfl, h⟩
      exact h
  | name :: names, a => by
    constructor
    · rintro ⟨c, hc, h⟩
      obtain ⟨d, hd, hb⟩ := lies_append.1 h
      exact ⟨d, ⟨c, hc, hd⟩, hb⟩
    · rintro ⟨d, ⟨c, hc, hd⟩, hb⟩
      exact ⟨c, hc, lies_append.2 ⟨d, hd, hb⟩⟩

/-- The last name is that of the node itself. -/
theorem lies_snoc : σ.Lies a (names ++ [name]) b ↔ ∃ d, σ.Lies a names d ∧ σ.Hangs d b name := by
  rw [lies_append]
  constructor
  · rintro ⟨d, hd, c, hc, rfl⟩
    exact ⟨d, hd, hc⟩
  · rintro ⟨d, hd, hb⟩
    exact ⟨d, hd, b, hb, rfl⟩

theorem Lies.under : ∀ {names : List String} {a : NodeId}, σ.Lies a names b → σ.Under a b
  | [], _, h => h ▸ .refl
  | _ :: _, _, ⟨_, hc, h⟩ => (h.under).head hc.1

/-- Siblings have different names. -/
theorem Forest.sibling (hF : Forest σ) (hc : σ.Hangs d c name) (hb : σ.Hangs d b name) : c = b := by
  obtain ⟨hdc, x, hx, hxname⟩ := hc
  obtain ⟨hdb, y, hy, hyname⟩ := hb
  obtain ⟨z, hz, hcz⟩ := hF.mem_of_above hdc
  obtain ⟨w, hw, hbw⟩ := hF.mem_of_above hdb
  cases hz.symm.trans hw
  exact hF.names hz hcz hbw hx hy (hxname.trans hyname.symm)

/-- Names lead to one node at most. -/
theorem Lies.node (hF : Forest σ) : ∀ {names : List String} {a : NodeId}, σ.Lies a names b → σ.Lies a names c → b = c
  | [], _, hb, hc => hb.trans hc.symm
  | _ :: _, _, ⟨_, hk, hb⟩, ⟨_, hl, hc⟩ => hb.node hF (hF.sibling hk hl ▸ hc)

theorem Hangs.unique {other : String} (h : σ.Hangs d c name) (h' : σ.Hangs p c other) : d = p ∧ name = other := by
  obtain ⟨hd, x, hx, hname⟩ := h
  obtain ⟨hp, y, hy, hname'⟩ := h'
  cases hx.symm.trans hy
  exact ⟨hd.unique hp, Json.str.inj (hname.symm.trans hname')⟩

/-- A node has one list of names below a node that has no parent. -/
theorem Lies.unique (hl : σ.Loose top) (h : σ.Lies top names b) (h' : σ.Lies top way b) : names = way := by
  induction names using List.reverseRecOn generalizing b way with
  | nil =>
    cases h
    rcases List.eq_nil_or_concat way with rfl | ⟨more, last, rfl⟩
    · rfl
    · obtain ⟨d, -, hd⟩ := lies_snoc.1 (List.concat_eq_append ▸ h')
      exact absurd hd.1 hl.not_above
  | append_singleton names name ih =>
    obtain ⟨d, hd, hb⟩ := lies_snoc.1 h
    rcases List.eq_nil_or_concat way with rfl | ⟨more, last, rfl⟩
    · cases h'
      exact absurd hb.1 hl.not_above
    · rw [List.concat_eq_append] at h' ⊢
      obtain ⟨p, hp, hb'⟩ := lies_snoc.1 h'
      obtain ⟨rfl, rfl⟩ := hb.unique hb'
      rw [ih hd hp]

/-- Where all names are texts, each node below another one has names. -/
theorem lies_of_under (htexts : ∀ {k x}, σ k = some x → ∃ s : String, x.name = .str s) (hu : σ.Under a b) : ∃ names, σ.Lies a names b := by
  induction hu with
  | refl => exact ⟨[], rfl⟩
  | tail _ hdb ih =>
    obtain ⟨names, hd⟩ := ih
    obtain ⟨x, hx, -⟩ := id hdb
    obtain ⟨name, hname⟩ := htexts hx
    exact ⟨names ++ [name], lies_snoc.2 ⟨_, hd, hdb, x, hx, hname⟩⟩

/-- A node lies below another one exactly if its names go on where those of the other one end. -/
theorem under_iff_starts (hF : Forest σ) (htexts : ∀ {k x}, σ k = some x → ∃ s : String, x.name = .str s) (hl : σ.Loose top)
    (hc : σ.Lies top way c) (hb : σ.Lies top names b) : σ.Under c b ↔ way <+: names := by
  constructor
  · intro hu
    obtain ⟨rest, hrest⟩ := lies_of_under htexts hu
    exact ⟨rest, (lies_append.2 ⟨c, hc, hrest⟩).unique hl hb⟩
  · rintro ⟨rest, rfl⟩
    obtain ⟨d, hd, hrest⟩ := lies_append.1 hb
    exact hd.node hF hc ▸ hrest.under

/-! ## What the rewirings do -/

theorem hangs_put (hnew : σ x.id = none) (hp : x.parent = .null) : (σ.put x).Hangs d c name ↔ σ.Hangs d c name := by
  unfold Hangs
  rw [above_put hnew hp]
  refine and_congr_right fun ⟨y, hy, _⟩ => ?_
  rw [put_old hnew hy, hy]

theorem hangs_rename {given : Json} (hl : σ.Loose p) : (σ.rename p given).Hangs d c name ↔ σ.Hangs d c name := by
  unfold Hangs
  rw [above_rename]
  refine and_congr_right fun hab => ?_
  have hne : c ≠ p := by
    rintro rfl
    exact hl.not_above hab
  obtain ⟨y, hy, -⟩ := hab
  rw [rename_some hy, if_neg hne, hy]

theorem hangs_link (hx : σ c = some x) (hxp : x.parent = .null) (hp : p ≠ .null) {last : String} (hlast : x.name = .str last) :
    (σ.link c p).Hangs d b name ↔ (b = c ∧ d = p ∧ name = last) ∨ σ.Hangs d b name := by
  have hname : ∀ {y}, (∃ z, σ.link c p b = some z ∧ z.name = .str y) ↔ ∃ z, σ b = some z ∧ z.name = .str y := by
    intro y
    unfold link
    constructor
    · rintro ⟨_, hz, hy⟩
      obtain ⟨w, hw, rfl⟩ := Option.map_eq_some_iff.1 hz
      exact ⟨w, hw, hy⟩
    · rintro ⟨w, hw, hy⟩
      exact ⟨_, Option.map_eq_some_iff.2 ⟨w, hw, rfl⟩, hy⟩
  unfold Hangs
  rw [above_link ⟨x, hx, hxp⟩ hp, hname]
  constructor
  · rintro ⟨⟨rfl, rfl⟩ | hab, z, hz, hy⟩
    · cases hx.symm.trans hz
      exact .inl ⟨rfl, rfl, Json.str.inj (hy.symm.trans hlast)⟩
    · exact .inr ⟨hab, z, hz, hy⟩
  · rintro (⟨rfl, rfl, rfl⟩ | ⟨hab, hz⟩)
    · exact ⟨.inl ⟨rfl, rfl⟩, x, hx, hlast⟩
    · exact ⟨.inr hab, hz⟩

theorem hangs_unlink : (σ.unlink c p).Hangs d b name ↔ b ≠ c ∧ σ.Hangs d b name := by
  unfold Hangs
  rw [above_unlink, and_assoc]
  refine and_congr_right fun _ => and_congr_right fun ⟨y, hy, _⟩ => ?_
  rw [unlink_some hy, hy]
  simp only [Option.some.injEq, exists_eq_left']

theorem hangs_prune : (σ.prune c).Hangs d b name ↔ ¬ σ.Under c b ∧ σ.Hangs d b name := by
  unfold Hangs
  rw [above_prune, and_assoc]
  refine and_congr_right fun hu => and_congr_right fun _ => ?_
  simp only [prune_eq_some, hu, not_false_eq_true, true_and]

/-- Where the same nodes hang below each other, the same names lead to them. -/
theorem lies_congr (h : ∀ {d c name}, τ.Hangs d c name ↔ σ.Hangs d c name) : ∀ {names : List String} {a : NodeId},
    τ.Lies a names b ↔ σ.Lies a names b
  | [], _ => Iff.rfl
  | _ :: _, _ => exists_congr fun _ => and_congr h (lies_congr h)

/-- A node that is hung below another one brings everything below it there. -/
theorem lies_link (hl : σ.Loose top) (hx : σ c = some x) (hxp : x.parent = .null) (hp : p ≠ .null) {last : String}
    (hlast : x.name = .str last) (hu : ¬ σ.Under c p) (hway : σ.Lies top way p) :
    (σ.link c p).Lies top names b ↔ σ.Lies top names b ∨ ∃ rest, names = way ++ [last] ++ rest ∧ σ.Lies c rest b := by
  have hangs : ∀ {d b name}, (σ.link c p).Hangs d b name ↔ (b = c ∧ d = p ∧ name = last) ∨ σ.Hangs d b name :=
    hangs_link hx hxp hp hlast
  induction names using List.reverseRecOn generalizing b with
  | nil => exact ⟨.inl, fun h => h.resolve_right fun ⟨rest, he, _⟩ => by simp at he⟩
  | append_singleton names name ih =>
    rw [lies_snoc]
    constructor
    · rintro ⟨d, hd, hb⟩
      replace hd := ih.1 hd
      rcases hangs.1 hb with ⟨rfl, rfl, rfl⟩ | hb
      · -- the node itself, whose way ends where the new parent lies
        rcases hd with hd | ⟨rest, -, hd⟩
        · exact .inr ⟨[], by rw [hd.unique hl hway, List.append_nil], rfl⟩
        · exact absurd hd.under hu
      · rcases hd with hd | ⟨rest, rfl, hd⟩
        · exact .inl (lies_snoc.2 ⟨d, hd, hb⟩)
        · exact .inr ⟨rest ++ [name], List.append_assoc .., lies_snoc.2 ⟨d, hd, hb⟩⟩
    · rintro (h | ⟨rest, he, h⟩)
      · obtain ⟨d, hd, hb⟩ := lies_snoc.1 h
        exact ⟨d, ih.2 (.inl hd), hangs.2 (.inr hb)⟩
      · rcases List.eq_nil_or_concat rest with rfl | ⟨more, final, rfl⟩
        · rw [List.append_nil] at he
          obtain ⟨rfl, hend⟩ := List.append_inj' he rfl
          obtain rfl := List.singleton_inj.1 hend
          cases h
          exact ⟨p, ih.2 (.inl hway), hangs.2 (.inl ⟨rfl, rfl, rfl⟩)⟩
        · rw [List.concat_eq_append] at h he
          obtain ⟨d, hd, hb⟩ := lies_snoc.1 h
          rw [← List.append_assoc] at he
          obtain ⟨rfl, hend⟩ := List.append_inj' he rfl
          obtain rfl := List.singleton_inj.1 hend
          exact ⟨d, ih.2 (.inr ⟨more, rfl, hd⟩), hangs.2 (.inr hb)⟩

/-- Where a node and everything below it are cut off, names lead to all other nodes as before. -/
theorem lies_cut (hcut : ∀ {d b name}, ¬ σ.Under c d → (τ.Hangs d b name ↔ ¬ σ.Under c b ∧ σ.Hangs d b name))
    (htop : ¬ σ.Under c top) : τ.Lies top names b ↔ σ.Lies top names b ∧ ¬ σ.Under c b := by
  induction names using List.reverseRecOn generalizing b with
  | nil => exact ⟨fun h => ⟨h, h.symm ▸ htop⟩, And.left⟩
  | append_singleton names name ih =>
    rw [lies_snoc, lies_snoc]
    constructor
    · rintro ⟨d, hd, hb⟩
      obtain ⟨hd, hout⟩ := ih.1 hd
      obtain ⟨hb, hangs⟩ := (hcut hout).1 hb
      exact ⟨⟨d, hd, hangs⟩, hb⟩
    · rintro ⟨⟨d, hd, hangs⟩, hb⟩
      have hout : ¬ σ.Under c d := fun hu => hb (hu.tail hangs.1)
      exact ⟨d, ih.2 ⟨hd, hout⟩, (hcut hout).2 ⟨hb, hangs⟩⟩

/-- Names lead down from a node that has been unlinked as before. -/
theorem lies_unlink (hF : Forest σ) : (σ.unlink c p).Lies c rest b ↔ σ.Lies c rest b := by
  induction rest using List.reverseRecOn generalizing b with
  | nil => exact Iff.rfl
  | append_singleton rest name ih =>
    rw [lies_snoc, lies_snoc]
    refine exists_congr fun d => ?_
    rw [ih, hangs_unlink]
    refine and_congr_right fun hd => and_iff_right_of_imp fun hangs => ?_
    rintro rfl
    exact hF.not_above_under hangs.1 hd.under

end SimUnix.Skeleton
