/-
The files of users and groups as tables: a line for each entry, cut into fields at colons. They can be read back
like that if and only if no field holds a colon or a line feed, and then they tell everything that the tables hold
but for the passwords.
-/
import SimUnix.Proofs.Account.Texts
import SimUnix.Proofs.Tree.Path

namespace SimUnix

namespace Text

variable {sep c : Char} {s p glue : String} {pieces : List String}

/-! ## Cutting and joining -/

/-- What is joined holds what the pieces hold, and separators between them. -/
theorem of_mem_intercalate : ∀ {parts : List (List Char)}, c ∈ [sep].intercalate parts → c = sep ∨ ∃ p ∈ parts, c ∈ p
  | [], h => by cases h
  | [p], h => .inr ⟨p, by simp, by simpa using h⟩
  | p :: q :: rest, h => by
    rw [List.intercalate_cons_cons, List.mem_append, List.mem_append] at h
    rcases h with (h | h) | h
    · exact .inr ⟨p, by simp, h⟩
    · exact .inl (by simpa using h)
    · rcases of_mem_intercalate h with h | ⟨r, hr, h⟩
      · exact .inl h
      · exact .inr ⟨r, List.mem_cons_of_mem _ hr, h⟩

theorem mem_intercalate {p : List Char} (hc : c ∈ p) : ∀ {parts : List (List Char)}, p ∈ parts → c ∈ [sep].intercalate parts
  | [], h => by cases h
  | [_], h => by
    obtain rfl := List.mem_singleton.1 h
    simpa using hc
  | q :: r :: rest, h => by
    rw [List.intercalate_cons_cons, List.mem_append, List.mem_append]
    rcases List.mem_cons.1 h with rfl | h
    · exact .inl (.inl hc)
    · exact .inr (mem_intercalate hc h)

/-- Any other character than the separator comes from the pieces. -/
theorem not_mem_joinWith (hglue : glue.toList = [sep]) (hc : c ≠ sep) :
    c ∉ (joinWith glue pieces).toList ↔ ∀ p ∈ pieces, c ∉ p.toList := by
  unfold joinWith
  rw [String.toList_intercalate, hglue]
  constructor
  · intro h p hp hin
    exact h (mem_intercalate hin (List.mem_map_of_mem hp))
  · intro h hin
    rcases of_mem_intercalate hin with he | ⟨cs, hcs, hin⟩
    · exact hc he
    · obtain ⟨p, hp, rfl⟩ := List.mem_map.1 hcs
      exact h p hp hin

/-- Cutting what was joined gives the pieces back. -/
theorem split_joinWith (hglue : glue.toList = [sep]) (hne : pieces ≠ []) (h : ∀ p ∈ pieces, sep ∉ p.toList) :
    split sep (joinWith glue pieces) = pieces := by
  unfold split joinWith
  rw [String.toList_intercalate, hglue, splitChars_intercalate (by simpa using hne) (by simpa using h)]
  simp

/-- A piece holds no separator, and nothing that is not in what was cut. -/
theorem of_mem_split (hp : p ∈ split sep s) : sep ∉ p.toList ∧ ∀ c ∈ p.toList, c ∈ s.toList := by
  obtain ⟨cs, hcs, rfl⟩ := List.mem_map.1 hp
  rw [String.toList_ofList]
  refine ⟨not_mem_splitChars sep _ cs hcs, fun c hc => ?_⟩
  rw [← intercalate_splitChars sep s.toList]
  exact mem_intercalate hc hcs

/-! ## Tables -/

/-- The lines of a text, each cut at colons. -/
def columns (s : String) : List (List String) := (lines s).map (split ':')

/-- What can stand in a field of a line. -/
def Clean (field : String) : Prop := ':' ∉ field.toList ∧ '\n' ∉ field.toList

instance (field : String) : Decidable (Clean field) := inferInstanceAs (Decidable (_ ∧ _))

/-- Whatever the text is, no field of a line holds a colon or a line feed. -/
theorem clean_of_columns {row : List String} {field : String} (hrow : row ∈ columns s) (hfield : field ∈ row) : Clean field := by
  obtain ⟨line, hline, rfl⟩ := List.mem_map.1 hrow
  obtain ⟨hcolon, hpart⟩ := of_mem_split hfield
  exact ⟨hcolon, fun hbreak => (of_mem_split hline).1 (hpart _ hbreak)⟩

theorem columns_joined {rows : List (List String)} (hrows : rows ≠ []) (hfields : ∀ row ∈ rows, row ≠ []) :
    columns (joinLines (rows.map (joinWith ":"))) = rows ↔ ∀ row ∈ rows, ∀ field ∈ row, Clean field := by
  constructor
  · intro hback row hrow field hfield
    exact clean_of_columns (hback ▸ hrow) hfield
  · intro hclean
    have hlines : lines (joinLines (rows.map (joinWith ":"))) = rows.map (joinWith ":") := by
      refine split_joinWith rfl (by simpa using hrows) ?_
      intro line hline
      obtain ⟨row, hrow, rfl⟩ := List.mem_map.1 hline
      exact (not_mem_joinWith rfl (by decide)).2 fun field hfield => (hclean row hrow field hfield).2
    unfold columns
    rw [hlines, List.map_map]
    refine (List.map_congr_left fun row hrow => ?_).trans (List.map_id rows)
    exact split_joinWith rfl (hfields row hrow) fun field hfield => (hclean row hrow field hfield).1

/-- The names in a field that lists names; an empty field lists none. -/
def listed (field : String) : List String := if field = "" then [] else split ',' field

theorem listed_joinWith (h : ∀ p ∈ pieces, p ≠ "" ∧ ',' ∉ p.toList) : listed (joinWith "," pieces) = pieces := by
  unfold listed
  cases pieces with
  | nil => rfl
  | cons p rest =>
    have hsome : joinWith "," (p :: rest) ≠ "" := by
      intro he
      obtain ⟨c, cs, hp⟩ := List.exists_cons_of_ne_nil fun he => (h p List.mem_cons_self).1 (String.toList_eq_nil_iff.1 he)
      have hin : c ∈ (joinWith "," (p :: rest)).toList := by
        unfold joinWith
        rw [String.toList_intercalate]
        exact mem_intercalate (hp ▸ List.mem_cons_self) List.mem_cons_self
      rw [he] at hin
      cases hin
    rw [if_neg hsome]
    exact split_joinWith rfl (List.cons_ne_nil _ _) fun q hq => (h q hq).2

end Text

/-! ## Entries -/

/-- What the line of a user shows. -/
def User.fields (u : User) : List String :=
  [u.name.plain, "x", u.uid.plain, u.gid.plain, u.fullName.plain, u.home.plain, u.shell.plain]

/-- The names of the members in order. -/
def Group.memberNames (x : Group) : List String := x.stored.members.map Json.plain

/-- What the line of a group shows. -/
def Group.fields (x : Group) : List String := [x.name.plain, "x", x.gid.plain, Text.joinWith "," x.memberNames]

theorem User.fileLine_eq (u : User) : u.fileLine = Text.joinWith ":" u.fields := rfl

/-- The members are listed in order, each once. -/
theorem Group.Plain.memberNames {x : Group} (h : x.Plain) :
    (x.memberNames.map Json.str).Perm x.members ∧ x.memberNames.Pairwise (· ≤ ·) := by
  obtain ⟨ms, hms, hperm, horder⟩ := Json.sortedBy_texts (k := id) h.members
  have hstored : x.memberNames = ms.map Json.plain := by
    unfold Group.memberNames Group.stored Group.sortedMembers
    rw [hms]
    rfl
  have htext : ∀ m ∈ ms, m = .str m.plain := by
    intro m hm
    obtain ⟨t, rfl⟩ := h.members m (hperm.mem_iff.1 hm)
    rfl
  rw [hstored, List.map_map]
  constructor
  · have hback : ms.map (Json.str ∘ Json.plain) = ms := (List.map_congr_left fun m hm => (htext m hm).symm).trans (List.map_id ms)
    rwa [hback]
  · refine List.pairwise_map.2 (horder.imp_of_mem fun {m n} hm hn hle => ?_)
    rw [id, id, htext m hm, htext n hn] at hle
    exact hle

theorem Group.Plain.line_eq {x : Group} (h : x.Plain) : x.line = Text.joinWith ":" x.fields := by
  obtain ⟨ms, hms, hperm, -⟩ := Json.sortedBy_texts (k := id) h.members
  have htexts : ms.mapM Json.asText = .ok (ms.map Json.plain) := by
    refine Accounts.mapM_ok_map fun m hm => ?_
    obtain ⟨t, rfl⟩ := h.members m (hperm.mem_iff.1 hm)
    rfl
  unfold Group.line Group.fileLine Group.fields Group.memberNames Group.stored Group.sortedMembers
  rw [hms]
  simp only [bind, Except.bind, htexts, Except.toOption, Option.getD_some]

/-! ## What may stand in a line -/

/-- A number is written with its digits, after a minus if it is negative. -/
theorem toList_int (n : Int) : 0 ≤ n ∧ (toString n).toList = Nat.toDigits 10 n.natAbs ∨
    n < 0 ∧ (toString n).toList = '-' :: Nat.toDigits 10 n.natAbs := by
  cases n with
  | ofNat k => exact .inl ⟨Int.natCast_nonneg k, Nat.toList_repr⟩
  | negSucc k =>
    refine .inr ⟨Int.negSucc_lt_zero k, ?_⟩
    show ("-" ++ (k + 1).repr).toList = _
    rw [String.toList_append, Nat.toList_repr]
    rfl

theorem not_mem_digits {n : Nat} {c : Char} (hc : c.isDigit = false) : c ∉ Nat.toDigits 10 n := by
  intro h
  rw [Nat.isDigit_of_mem_toDigits (by decide) (by decide) h] at hc
  cases hc

theorem clean_int (n : Int) : Text.Clean (Json.plain (.int n)) := by
  have hmark : ∀ c : Char, c ≠ '-' → c.isDigit = false → c ∉ (toString n).toList := by
    intro c hminus hno
    rcases toList_int n with ⟨-, h⟩ | ⟨-, h⟩ <;> rw [h]
    · exact not_mem_digits hno
    · simp [hminus, not_mem_digits hno]
  exact ⟨hmark ':' (by decide) (by decide), hmark '\n' (by decide) (by decide)⟩

/-- Different numbers are written differently. -/
theorem toString_int_inj {m n : Int} (h : toString m = toString n) : m = n := by
  have hlist : (toString m).toList = (toString n).toList := congrArg String.toList h
  have hdigits : ∀ {j k : Nat}, Nat.toDigits 10 j = Nat.toDigits 10 k → j = k := fun {j k} he =>
    toString_inj (String.toList_inj.1 (Nat.toList_repr.trans (he.trans Nat.toList_repr.symm)))
  have hminus : ∀ k : Nat, '-' ∉ Nat.toDigits 10 k := fun k => not_mem_digits (by decide)
  rcases toList_int m with ⟨hm, hmlist⟩ | ⟨hm, hmlist⟩ <;> rcases toList_int n with ⟨hn, hnlist⟩ | ⟨hn, hnlist⟩ <;>
    rw [hmlist, hnlist] at hlist
  · have habs := hdigits hlist
    omega
  · exact absurd (hlist ▸ List.mem_cons_self) (hminus m.natAbs)
  · exact absurd (hlist ▸ List.mem_cons_self) (hminus n.natAbs)
  · have habs := hdigits (List.cons.inj hlist).2
    omega

/-- The numbers of a user can always stand in a line. -/
theorem User.Plain.clean_iff {u : User} (h : u.Plain) : (∀ field ∈ u.fields, Text.Clean field) ↔
    Text.Clean u.name.plain ∧ Text.Clean u.fullName.plain ∧ Text.Clean u.home.plain ∧ Text.Clean u.shell.plain := by
  obtain ⟨m, hm⟩ := h.uid
  obtain ⟨n, hn⟩ := h.gid
  have hmark : Text.Clean "x" := by decide
  simp [User.fields, hm, hn, clean_int, hmark]

theorem Group.Plain.clean_iff {x : Group} (h : x.Plain) : (∀ field ∈ x.fields, Text.Clean field) ↔
    Text.Clean x.name.plain ∧ ∀ name ∈ x.memberNames, Text.Clean name := by
  obtain ⟨n, hn⟩ := h.gid
  have hmark : Text.Clean "x" := by decide
  have hmembers : Text.Clean (Text.joinWith "," x.memberNames) ↔ ∀ name ∈ x.memberNames, Text.Clean name := by
    unfold Text.Clean
    rw [Text.not_mem_joinWith rfl (by decide), Text.not_mem_joinWith rfl (by decide), ← forall₂_and]
  simp [Group.fields, hn, clean_int, hmark, hmembers]

/-! ## From the lines back to the entries -/

/-- A user without what no line shows: the password, and the groups, which are listed with the groups. -/
def User.shown (u : User) : User := { u with passwordDigest := "", passwordHint := "", groups := [] }

theorem Json.IsText.plain_inj {v w : Json} (hv : v.IsText) (hw : w.IsText) (h : v.plain = w.plain) : v = w := by
  obtain ⟨_, rfl⟩ := hv
  obtain ⟨_, rfl⟩ := hw
  exact congrArg Json.str h

theorem Json.plain_int_inj {v w : Json} (hv : ∃ m, v = .int m) (hw : ∃ n, w = .int n) (h : v.plain = w.plain) : v = w := by
  obtain ⟨_, rfl⟩ := hv
  obtain ⟨_, rfl⟩ := hw
  exact congrArg Json.int (toString_int_inj h)

theorem User.Plain.shown_eq {u v : User} (hu : u.Plain) (hv : v.Plain) (h : u.fields = v.fields) : u.shown = v.shown := by
  simp only [User.fields, List.cons.injEq, and_true, true_and] at h
  obtain ⟨hname, huid, hgid, hfull, hhome, hshell⟩ := h
  unfold User.shown
  rw [hu.name.plain_inj hv.name hname, Json.plain_int_inj hu.uid hv.uid huid, Json.plain_int_inj hu.gid hv.gid hgid,
    hu.fullName.plain_inj hv.fullName hfull, hu.home.1.plain_inj hv.home.1 hhome, hu.shell.plain_inj hv.shell hshell]

theorem Group.Plain.same_of_fields {x y : Group} (hx : x.Plain) (hy : y.Plain) (hxnames : ∀ m ∈ x.memberNames, m ≠ "" ∧ ',' ∉ m.toList)
    (hynames : ∀ m ∈ y.memberNames, m ≠ "" ∧ ',' ∉ m.toList) (h : x.fields = y.fields) : x.Same y := by
  simp only [Group.fields, List.cons.injEq, and_true, true_and] at h
  obtain ⟨hname, hgid, hmembers⟩ := h
  have hnames : x.memberNames = y.memberNames := by
    rw [← Text.listed_joinWith hxnames, hmembers, Text.listed_joinWith hynames]
  refine ⟨hx.name.plain_inj hy.name hname, Json.plain_int_inj hx.gid hy.gid hgid, ?_⟩
  exact hx.memberNames.1.symm.trans (hnames ▸ hy.memberNames.1)

/-- Tables that show the same rows hold the same under every name. -/
theorem Keyed.rel_of_rows {α β : Type} {s t : Keyed Json α} {name : α → Json} {P : α → Prop} {R : α → α → Prop} {row : α → β}
    (hs : Filed name P s) (ht : Filed name P t) {xs ys : List α} (hxs : xs.Perm s.values) (hys : ys.Perm t.values)
    (hrows : xs.map row = ys.map row)
    (hrow : ∀ {x y}, x ∈ s.values → y ∈ t.values → row x = row y → name x = name y ∧ R x y) (k : Json) :
    Option.Rel R (s.get? k) (t.get? k) := by
  -- a row of one table is a row of the other one
  have hpass : ∀ {u v : Keyed Json α} {zs ws : List α} {x : α}, zs.Perm u.values → ws.Perm v.values → zs.map row = ws.map row →
      x ∈ u.values → ∃ y ∈ v.values, row y = row x := by
    intro u v zs ws x hzs hws he hx
    have hin : row x ∈ ws.map row := he ▸ List.mem_map_of_mem (hzs.mem_iff.2 hx)
    obtain ⟨y, hy, hsame⟩ := List.mem_map.1 hin
    exact ⟨y, hws.mem_iff.1 hy, hsame⟩
  rcases hx : s.get? k with _ | x
  · rcases hy : t.get? k with _ | y
    · exact .none
    · obtain ⟨hyin, rfl⟩ := ht.get?_iff.1 hy
      obtain ⟨x, hxin, hsame⟩ := hpass hys hxs hrows.symm hyin
      rw [hs.get?_iff.2 ⟨hxin, (hrow hxin hyin hsame).1⟩] at hx
      cases hx
  · obtain ⟨hxin, rfl⟩ := hs.get?_iff.1 hx
    obtain ⟨y, hyin, hsame⟩ := hpass hxs hys hrows hxin
    obtain ⟨hname, hR⟩ := hrow hxin hyin hsame.symm
    rw [ht.get?_iff.2 ⟨hyin, hname.symm⟩]
    exact .some hR

namespace Accounts

variable {a b : Accounts}

/-- The lines of a table show the rows of its entries, if and only if all that they show can stand in a line. -/
theorem columns_lines {α : Type} {table : Keyed Json α} (honce : table.keys.Nodup) {k : Json} (hsome : table.has k = true)
    {xs : List α} (hperm : xs.Perm table.values) {line : α → String} {fields : α → List String}
    (hline : ∀ x ∈ table.values, line x = Text.joinWith ":" (fields x)) (hfields : ∀ x, fields x ≠ []) :
    Text.columns (Text.joinLines (xs.map line)) = xs.map fields ↔ ∀ x ∈ table.values, ∀ field ∈ fields x, Text.Clean field := by
  have hrows : xs.map fields ≠ [] := by
    obtain ⟨x, hx⟩ := Keyed.has_iff.1 hsome
    have hin : x ∈ xs := hperm.mem_iff.2 (List.mem_map_of_mem ((Keyed.get?_iff_mem honce).1 hx))
    exact List.ne_nil_of_mem (List.mem_map_of_mem hin)
  have hlines : xs.map line = (xs.map fields).map (Text.joinWith ":") := by
    rw [List.map_map]
    exact List.map_congr_left fun x hx => hline x (hperm.mem_iff.1 hx)
  have hcells : ∀ row ∈ xs.map fields, row ≠ [] := by
    intro row hrow
    obtain ⟨x, -, rfl⟩ := List.mem_map.1 hrow
    exact hfields x
  rw [hlines, Text.columns_joined hrows hcells]
  simp only [List.forall_mem_map, hperm.mem_iff]

/-- The file of users has a line for each user in the order of their numbers, with the seven fields of the user, if and only if
they can all stand in a line. -/
theorem InOrder.usersColumns (h : a.InOrder) : ∃ (us : List User) (U : String), us.Perm a.users.values ∧
    (us.Pairwise fun u v => u.uid.Ascends v.uid) ∧ a.usersText = .ok U ∧
      (Text.columns U = us.map User.fields ↔ ∀ u ∈ a.users.values, ∀ field ∈ u.fields, Text.Clean field) := by
  obtain ⟨us, hperm, horder, htext⟩ := h.usersText
  refine ⟨us, _, hperm, horder, htext, columns_lines h.users h.root hperm (fun u _ => u.fileLine_eq) fun u => ?_⟩
  exact List.cons_ne_nil _ _

/-- The file of groups likewise, with four fields. -/
theorem InOrder.groupsColumns (h : a.InOrder) : ∃ (gs : List Group) (G : String), gs.Perm a.groups.values ∧
    (gs.Pairwise fun x y => x.gid.Ascends y.gid) ∧ a.groupsText = .ok G ∧
      (Text.columns G = gs.map Group.fields ↔ ∀ x ∈ a.groups.values, ∀ field ∈ x.fields, Text.Clean field) := by
  obtain ⟨gs, hperm, horder, htext⟩ := h.groupsText
  have hroot : a.groups.has (.str rootName) = true := h.system (rootName, 0) (by decide)
  refine ⟨gs, _, hperm, horder, htext, columns_lines h.groups hroot hperm (fun x hx => (h.plain_group x hx).line_eq) fun x => ?_⟩
  exact List.cons_ne_nil _ _

/-- The file of users tells everything but the passwords. -/
theorem InOrder.users_recovered (ha : a.InOrder) (hb : b.InOrder) (hca : ∀ u ∈ a.users.values, ∀ field ∈ u.fields, Text.Clean field)
    (hcb : ∀ u ∈ b.users.values, ∀ field ∈ u.fields, Text.Clean field) (hU : a.usersText = b.usersText) (name : Json) :
    Option.Rel (fun u v => u.shown = v.shown) (a.user? name) (b.user? name) := by
  obtain ⟨us, U, hus, -, hutext, hucolumns⟩ := ha.usersColumns
  obtain ⟨vs, V, hvs, -, hvtext, hvcolumns⟩ := hb.usersColumns
  cases hutext.symm.trans (hU.trans hvtext)
  have hrows : us.map User.fields = vs.map User.fields := (hucolumns.2 hca).symm.trans (hvcolumns.2 hcb)
  refine Keyed.rel_of_rows ha.filedUsers hb.filedUsers hus hvs hrows (fun {u v} hu hv he => ?_) name
  have hshown := (ha.plain_user u hu).shown_eq (hb.plain_user v hv) he
  have hname := congrArg User.name hshown
  exact ⟨hname, hshown⟩

/-- The file of groups tells everything, where the names of the members can be listed. -/
theorem InOrder.groups_recovered (ha : a.InOrder) (hb : b.InOrder) (hca : ∀ x ∈ a.groups.values, ∀ field ∈ x.fields, Text.Clean field)
    (hcb : ∀ x ∈ b.groups.values, ∀ field ∈ x.fields, Text.Clean field)
    (hma : ∀ x ∈ a.groups.values, ∀ m ∈ x.memberNames, m ≠ "" ∧ ',' ∉ m.toList)
    (hmb : ∀ x ∈ b.groups.values, ∀ m ∈ x.memberNames, m ≠ "" ∧ ',' ∉ m.toList) (hG : a.groupsText = b.groupsText) (name : Json) :
    Option.Rel Group.Same (a.group? name) (b.group? name) := by
  obtain ⟨xs, X, hxs, -, hxtext, hxcolumns⟩ := ha.groupsColumns
  obtain ⟨ys, Y, hys, -, hytext, hycolumns⟩ := hb.groupsColumns
  cases hxtext.symm.trans (hG.trans hytext)
  have hrows : xs.map Group.fields = ys.map Group.fields := (hxcolumns.2 hca).symm.trans (hycolumns.2 hcb)
  refine Keyed.rel_of_rows ha.filedGroups hb.filedGroups hxs hys hrows (fun {x y} hx hy he => ?_) name
  have hsame := (ha.plain_group x hx).same_of_fields (hb.plain_group y hy) (hma x hx) (hmb y hy) he
  exact ⟨hsame.name, hsame⟩

end Accounts

end SimUnix
