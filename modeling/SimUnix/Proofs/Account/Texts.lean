/-
The files of users and groups. Their texts list every entry in the order of the numbers, so that they do not
depend on the order in which the tables hold them, nor on anything but what the lines show.
-/
import SimUnix.Proofs.Account.Numbers

namespace SimUnix

/-! ## Entries in any order -/

namespace Keyed

variable {κ α γ : Type} [DecidableEq κ] {s t : Keyed κ α}

/-- Tables whose entries look the same, each under its name, show the same. -/
theorem shown_perm {φ : α → γ} (hs : s.keys.Nodup) (ht : t.keys.Nodup)
    (h : ∀ k, Option.Rel (fun x y => φ x = φ y) (s.get? k) (t.get? k)) : (s.values.map φ).Perm (t.values.map φ) := by
  have hnodup : ∀ {u : Keyed κ α}, u.keys.Nodup → (u.map fun p => (p.1, φ p.2)).Nodup := by
    intro u hu
    refine List.Nodup.of_map Prod.fst ?_
    rw [List.map_map]
    exact hu
  have hmem : ∀ {u : Keyed κ α}, u.keys.Nodup → ∀ k c, (k, c) ∈ u.map (fun p => (p.1, φ p.2)) ↔ ∃ x, u.get? k = some x ∧ φ x = c := by
    intro u hu k c
    rw [List.mem_map]
    constructor
    · rintro ⟨p, hp, he⟩
      cases he
      exact ⟨p.2, (get?_iff_mem hu).2 hp, rfl⟩
    · rintro ⟨x, hx, rfl⟩
      exact ⟨(k, x), (get?_iff_mem hu).1 hx, rfl⟩
  have hsame : (s.map fun p => (p.1, φ p.2)).Perm (t.map fun p => (p.1, φ p.2)) := by
    refine (List.perm_ext_iff_of_nodup (hnodup hs) (hnodup ht)).2 fun ⟨k, c⟩ => ?_
    rw [hmem hs, hmem ht]
    constructor
    · rintro ⟨x, hx, rfl⟩
      obtain ⟨y, hy, he⟩ := rel_to (h k) hx
      exact ⟨y, hy, he.symm⟩
    · rintro ⟨y, hy, rfl⟩
      obtain ⟨x, hx, he⟩ := rel_of (h k) hy
      exact ⟨x, hx, he⟩
  have hvalues := hsame.map Prod.snd
  unfold values
  rwa [List.map_map, List.map_map] at hvalues ⊢

end Keyed

/-- Entries that look the same under the same names have the same lines, in the order of their numbers. -/
theorem lines_eq {α : Type} {s t : Keyed Json α} {number : α → Json} {line : α → String} (hs : s.keys.Nodup) (ht : t.keys.Nodup)
    (hsame : ∀ k, Option.Rel (fun x y => number x = number y ∧ line x = line y) (s.get? k) (t.get? k))
    (honce : ∀ k l x y, s.get? k = some x → s.get? l = some y → number x = number y → k = l) {xs ys : List α}
    (hxs : xs.Perm s.values) (hys : ys.Perm t.values) (hxorder : xs.Pairwise fun x y => (number x).Ascends (number y))
    (hyorder : ys.Pairwise fun x y => (number x).Ascends (number y)) : xs.map line = ys.map line := by
  let shown (x : α) : Json × String := (number x, line x)
  have hperm : (xs.map shown).Perm (ys.map shown) := by
    have hshown := Keyed.shown_perm (φ := shown) hs ht fun k => rel_imp (fun h => Prod.ext h.1 h.2) (hsame k)
    exact (hxs.map shown).trans (hshown.trans (hys.map shown).symm)
  -- two entries with one number are the same, so that there is only one way to list them
  have hdiffer : ∀ p ∈ xs.map shown, ∀ q ∈ xs.map shown, p.1 = q.1 → p = q := by
    intro p hp q hq he
    obtain ⟨x, hx, rfl⟩ := List.mem_map.1 hp
    obtain ⟨y, hy, rfl⟩ := List.mem_map.1 hq
    obtain ⟨⟨k, x⟩, hk, rfl⟩ := List.mem_map.1 (hxs.mem_iff.1 hx)
    obtain ⟨⟨l, y⟩, hl, rfl⟩ := List.mem_map.1 (hxs.mem_iff.1 hy)
    have hk := (Keyed.get?_iff_mem hs).2 hk
    have hl := (Keyed.get?_iff_mem hs).2 hl
    rw [honce k l x y hk hl he, hl] at hk
    cases hk
    rfl
  have hxsorted : (xs.map shown).Pairwise fun p q => p.1.Ascends q.1 := List.pairwise_map.2 hxorder
  have hysorted : (ys.map shown).Pairwise fun p q => p.1.Ascends q.1 := List.pairwise_map.2 hyorder
  have hshown : xs.map shown = ys.map shown := List.Perm.eq_of_pairwise
    (fun p q hp hq h h' => hdiffer p hp q (hperm.mem_iff.2 hq) (h.antisymm h')) hxsorted hysorted hperm
  have hlines := congrArg (List.map Prod.snd) hshown
  rwa [List.map_map, List.map_map] at hlines

/-! ## The texts -/

/-- The line of a group whose members can be put in order. -/
def Group.line (x : Group) : String := x.fileLine.toOption.getD ""

theorem Group.Plain.fileLine {x : Group} (h : x.Plain) : x.fileLine = .ok x.line := by
  obtain ⟨ms, hms, hperm, -⟩ := Json.sortedBy_texts (k := id) h.members
  have htexts : ms.mapM Json.asText = .ok (ms.map fun m => m.asText.toOption.getD "") := by
    refine Accounts.mapM_ok_map fun m hm => ?_
    obtain ⟨t, rfl⟩ := h.members m (hperm.mem_iff.1 hm)
    rfl
  obtain ⟨line, hline⟩ : ∃ line, x.fileLine = .ok line := by
    apply Exists.intro
    unfold Group.fileLine Group.sortedMembers
    rw [hms]
    simp only [bind, Except.bind, htexts]
    rfl
  unfold Group.line
  rw [hline]
  rfl

/-- Groups that are the same but for the order of their members have the same line. -/
theorem Group.Same.line {x y : Group} (h : x.Same y) (hx : x.Plain) (hy : y.Plain) : y.line = x.line := by
  obtain ⟨ms, hms, hmperm, hmorder⟩ := Json.sortedBy_texts (k := id) hx.members
  obtain ⟨ns, hns, hnperm, hnorder⟩ := Json.sortedBy_texts (k := id) hy.members
  have hsame : ms = ns := List.Perm.eq_of_pairwise (fun _ _ _ _ h h' => h.antisymm h') hmorder hnorder
    (hmperm.trans (h.members.trans hnperm.symm))
  unfold Group.line Group.fileLine Group.sortedMembers
  rw [hms, hns, hsame, h.name, h.gid]

namespace Accounts

variable {a b : Accounts}

theorem InOrder.plain_user (h : a.InOrder) : ∀ u ∈ a.users.values, u.Plain := by
  intro u hu
  obtain ⟨p, hp, rfl⟩ := List.mem_map.1 hu
  exact (h.user p hp).2

theorem InOrder.plain_group (h : a.InOrder) : ∀ x ∈ a.groups.values, x.Plain := by
  intro x hx
  obtain ⟨p, hp, rfl⟩ := List.mem_map.1 hx
  exact (h.group p hp).2

/-- The file of users has a line for each user, in the order of their numbers. -/
theorem InOrder.usersText (h : a.InOrder) : ∃ us : List User, us.Perm a.users.values ∧
    (us.Pairwise fun u v => u.uid.Ascends v.uid) ∧ a.usersText = .ok (Text.joinLines (us.map User.fileLine)) := by
  obtain ⟨us, hus, hperm, horder⟩ := Json.sortedBy_numbers fun u hu => (h.plain_user u hu).uid
  refine ⟨us, hperm, horder, ?_⟩
  unfold Accounts.usersText User.fileText User.sorted
  rw [hus]
  rfl

/-- The file of groups has a line for each group, in the order of their numbers. -/
theorem InOrder.groupsText (h : a.InOrder) : ∃ gs : List Group, gs.Perm a.groups.values ∧
    (gs.Pairwise fun x y => x.gid.Ascends y.gid) ∧ a.groupsText = .ok (Text.joinLines (gs.map Group.line)) := by
  obtain ⟨gs, hgs, hperm, horder⟩ := Json.sortedBy_numbers fun x hx => (h.plain_group x hx).gid
  have hlines : gs.mapM Group.fileLine = .ok (gs.map Group.line) :=
    mapM_ok_map fun x hx => (h.plain_group x (hperm.mem_iff.1 hx)).fileLine
  refine ⟨gs, hperm, horder, ?_⟩
  unfold Accounts.groupsText Group.fileText Group.sorted
  simp only [hgs, bind, Except.bind, hlines]

/-- Users with the same numbers and lines have the same file. -/
theorem usersText_of_lines (ha : a.InOrder) (hb : b.InOrder) (hn : a.Numbered)
    (hsame : ∀ k, Option.Rel (fun u v => u.uid = v.uid ∧ u.fileLine = v.fileLine) (a.user? k) (b.user? k)) :
    b.usersText = a.usersText := by
  obtain ⟨us, hus, huorder, hutext⟩ := ha.usersText
  obtain ⟨vs, hvs, hvorder, hvtext⟩ := hb.usersText
  have honce : ∀ k l u v, a.users.get? k = some u → a.users.get? l = some v → u.uid = v.uid → k = l :=
    fun _ _ _ _ hu hv he => hn.uids hu hv he
  have hlines : us.map User.fileLine = vs.map User.fileLine :=
    @lines_eq User a.users b.users User.uid User.fileLine ha.users hb.users hsame honce us vs hus hvs huorder hvorder
  rw [hutext, hvtext, hlines]

/-- The same users have the same file. -/
theorem Same.usersText (hab : a.Same b) (ha : a.InOrder) (hb : b.InOrder) (hn : a.Numbered) : b.usersText = a.usersText := by
  refine usersText_of_lines ha hb hn fun k => rel_imp (fun {u v} h => ?_) (hab.user k)
  have huid := congrArg User.uid h.rest
  have hline := congrArg User.fileLine h.rest
  exact ⟨huid, hline⟩

/-- The same groups have the same file. -/
theorem Same.groupsText (hab : a.Same b) (ha : a.InOrder) (hb : b.InOrder) (hn : a.Numbered) : b.groupsText = a.groupsText := by
  obtain ⟨gs, hgs, hgorder, hgtext⟩ := ha.groupsText
  obtain ⟨ks, hks, hkorder, hktext⟩ := hb.groupsText
  have hsame : ∀ k, Option.Rel (fun x y => x.gid = y.gid ∧ x.line = y.line) (a.group? k) (b.group? k) := by
    intro k
    have hrel := hab.group k
    rcases hx : a.group? k with _ | x <;> rcases hy : b.group? k with _ | y <;> rw [hx, hy] at hrel <;> cases hrel
    · exact .none
    · rename_i hs
      exact .some ⟨hs.gid, (hs.line (ha.filedGroups.get? hx).2 (hb.filedGroups.get? hy).2).symm⟩
  have honce : ∀ k l x y, a.groups.get? k = some x → a.groups.get? l = some y → x.gid = y.gid → k = l :=
    fun _ _ _ _ hx hy he => hn.gids hx hy he
  have hlines : gs.map Group.line = ks.map Group.line :=
    lines_eq ha.groups hb.groups hsame honce hgs hks hgorder hkorder
  rw [hgtext, hktext, hlines]

end Accounts

end SimUnix
