/-
The laws of paths. Whatever is asked for resolves to a canonical path; a canonical path stands for itself; and a path that goes on
may be resolved in two steps, with the place that its first part leads to as the working directory of the rest. What a canonical path
leads to has this path; and the path of a node leads back to it as long as the tree is in order and all names may be given.
-/
import SimUnix.Proofs.Machine.Refine
import SimUnix.Proofs.Machine.Telling
import SimUnix.Proofs.Terminal.Life

namespace SimUnix

open Text

/-! ## Expansion -/

namespace Path

variable {path more : String}

/-- A path that leads through the home of the user who asks. -/
def Tilde (path : String) : Prop := path = "~" ∨ startsWith path "~/" = true

theorem toList_step : (path ++ "/" ++ more).toList = path.toList ++ '/' :: more.toList := by simp

/-- Whether a path leads through a home is told by what stands before any slash in it. -/
theorem tilde_append (more : String) (hne : path ≠ "") : Tilde (path ++ "/" ++ more) ↔ Tilde path := by
  obtain ⟨c, cs, hcs⟩ := List.exists_cons_of_ne_nil fun he => hne (String.toList_eq_nil_iff.1 he)
  have hlong : path ++ "/" ++ more ≠ "~" := fun he => by
    have hlist := congrArg (fun s : String => s.toList.length) he
    simp only [toList_step, hcs, List.length_append, List.length_cons] at hlist
    have : "~".toList.length = 1 := rfl
    omega
  have hone : path = "~" ↔ c = '~' ∧ cs = [] := by
    rw [← String.toList_inj, hcs]
    exact List.cons.injEq .. ▸ Iff.rfl
  have hlead : "~/".toList = ['~', '/'] := rfl
  unfold Tilde startsWith
  rw [toList_step, hone, hlead, hcs]
  -- A tilde alone gets its slash from what follows.
  rcases cs with _ | ⟨d, cs⟩ <;> simp [hlong, @eq_comm _ '~']

theorem absolute_append (hne : path ≠ "") : startsWith (path ++ "/" ++ more) "/" = startsWith path "/" := by
  obtain ⟨c, cs, hcs⟩ := List.exists_cons_of_ne_nil fun he => hne (String.toList_eq_nil_iff.1 he)
  unfold startsWith
  rw [toList_step, hcs]
  rfl

theorem dropFirst_append (hne : path ≠ "") : dropFirst 1 (path ++ "/" ++ more) = dropFirst 1 path ++ "/" ++ more := by
  obtain ⟨c, cs, hcs⟩ := List.exists_cons_of_ne_nil fun he => hne (String.toList_eq_nil_iff.1 he)
  rw [← String.toList_inj]
  simp [dropFirst, hcs]

end Path

namespace Machine

open Path

variable {s : Machine} {path more : String} {user? : Option Json} {cwd? : Option String}

/-- The path that is brought into canonical form: what a tilde stands for, or the working directory, is put before it. -/
def expand (s : Machine) (path : String) (user? : Option Json) (cwd? : Option String) : Except Fault String :=
  if path = "~" ∨ startsWith path "~/" then
    (s.homePath user?).bind fun home => home.asText.map (· ++ dropFirst 1 path)
  else if startsWith path "/" then .ok path
  else .ok ((cwd?.filter (· != "")).getD root ++ "/" ++ path)

theorem resolve_eq : s.resolve path user? cwd? = (s.expand path user? cwd?).map normalize := by
  unfold resolve expand
  split
  · cases s.homePath user? with
    | error e => rfl
    | ok home => cases h : home.asText <;> simp [bind, Except.bind, Except.map, h]
  · split <;> rfl

/-- A path that goes on expands as its first part does. -/
theorem expand_append (hne : path ≠ "") :
    s.expand (path ++ "/" ++ more) user? cwd? = (s.expand path user? cwd?).map (· ++ "/" ++ more) := by
  have htilde := tilde_append more hne
  unfold Tilde at htilde
  unfold expand
  rw [absolute_append hne, dropFirst_append hne]
  simp only [htilde]
  split
  · cases s.homePath user? with
    | error e => rfl
    | ok home => cases h : home.asText <;> simp [Except.bind, Except.map, h, String.append_assoc]
  · split <;> simp [Except.map, String.append_assoc]

/-- A relative path is taken from the working directory. -/
theorem resolve_relative {place : String} (hplace : place ≠ "") (hslash : ¬ startsWith path "/" = true)
    (htilde : ¬ startsWith path "~" = true) : s.resolve path user? (some place) = .ok (normalize (place ++ "/" ++ path)) := by
  have hhome : ¬ (path = "~" ∨ startsWith path "~/" = true) := by
    rintro (rfl | hlead)
    · exact htilde rfl
    · exact htilde (List.isPrefixOf_iff_prefix.2 ((List.prefix_append ['~'] ['/']).trans (List.isPrefixOf_iff_prefix.1 hlead)))
  unfold resolve
  rw [if_neg hhome, if_neg hslash, Option.filter_eq_some_iff.2 ⟨rfl, by simpa using hplace⟩]
  rfl

end Machine

/-! ## The laws -/

namespace World

open Machine Path

/-- The laws of paths: what is resolved is canonical, and is found for every path and every user in a state that a system
comes to; canonical paths stay as they are; the rest of a path is resolved from where its first part leads; and splitting a
path and joining a name undo each other. -/
structure Resolves (w : World) : Prop where
  found : w.Living → ∀ path user? cwd?, UserArg user? → ∃ place, w.machine.resolve path user? cwd? = .ok place
  canonical : ∀ path user? cwd? place, w.machine.resolve path user? cwd? = .ok place → Canonical place
  stays : ∀ path user? cwd?, Canonical path → w.machine.resolve path user? cwd? = .ok path
  steps : ∀ path more user? cwd?, path ≠ "" → ¬ startsWith more "/" = true → ¬ startsWith more "~" = true →
    w.machine.resolve (path ++ "/" ++ more) user? cwd? =
      (w.machine.resolve path user? cwd?).bind fun place => w.machine.resolve more user? (some place)
  joined : ∀ path, Canonical path → path ≠ root → join (split path).1 (split path).2 = path
  parted : ∀ path name, Canonical path → Path.validName name = true → split (join path name) = (path, name)

theorem resolves (w : World) : w.Resolves where
  found hw path _ cwd? hu := hw.attended.2.toTidy.resolve_ok hu path cwd?
  canonical _ _ _ _ hres := canonical_iff.2 (resolve_normal hres)
  stays path user? cwd? hpath := by
    obtain ⟨names, hvalid, rfl⟩ := canonical_iff.1 hpath
    exact resolve_ofComponents hvalid
  steps path more user? cwd? hne hslash htilde := by
    rw [resolve_eq, resolve_eq, expand_append hne]
    cases w.machine.expand path user? cwd? with
    | error e => rfl
    | ok whole =>
      have hplace : normalize whole ≠ "" := ofComponents_ne_empty
      -- The rest starts from the canonical form of what the first part expands to.
      calc Except.ok (normalize (whole ++ "/" ++ more))
        _ = .ok (normalize (normalize whole ++ "/" ++ more)) := congrArg Except.ok (normalize_append whole more).symm
        _ = w.machine.resolve more user? (some (normalize whole)) := (resolve_relative hplace hslash htilde).symm
  joined _ hpath hne := hpath.join_split hne
  parted _ _ hpath hname := hpath.split_join hname

/-- Root's home in safe mode, a climb above the root of a path that a user goes on with, and a name in a directory. -/
theorem resolves_guarded :
    (∃ place, guarded.machine.resolve "~//./x/" (some (.str rootName)) none = .ok place ∧ Canonical place) ∧
    guarded.machine.resolve ("~x/.." ++ "/" ++ "../../b") none (some "/tmp") =
      (guarded.machine.resolve "~x/.." none (some "/tmp")).bind (fun place => guarded.machine.resolve "../../b" none (some place)) ∧
    guarded.machine.resolve "/a/b" none (some "c") = .ok "/a/b" ∧ join (split "/a/b").1 (split "/a/b").2 = "/a/b" ∧
    split (join "/a/b" "c") = ("/a/b", "c") := by
  have hlaws := resolves guarded
  have hpath : Canonical "/a/b" := canonical_iff.2 ⟨["a", "b"], by unfold Valid; decide, rfl⟩
  obtain ⟨place, hplace⟩ := hlaws.found living_guarded "~//./x/" _ none (userArg_some rootName)
  exact ⟨⟨place, hplace, hlaws.canonical _ _ _ _ hplace⟩,
    hlaws.steps _ _ _ _ (by decide) (by decide) (by decide), hlaws.stays _ _ _ hpath,
    hlaws.joined _ hpath (by decide), hlaws.parted _ _ hpath (by decide)⟩

end World

/-! ## Paths and nodes -/

namespace Machine

open Path Tree

variable {s : Machine} {n : Node} {user? : Option Json} {names : List String}

theorem nodeAt_eq : s.nodeAt (ofComponents names) user? = s.tree.lookup (normalize (ofComponents names)) := by
  have htilde : ¬ (ofComponents names = "~" ∨ startsWith (ofComponents names) "~/" = true) := by
    have hlead : (ofComponents names).toList = '/' :: _ := toList_ofComponents
    rintro (he | hs)
    · rw [he] at hlead
      cases hlead
    · unfold startsWith at hs
      rw [hlead] at hs
      cases hs
  unfold nodeAt resolve
  rw [if_neg htilde, if_pos startsWith_ofComponents]
  rfl

/-- The path of a node is resolved to it exactly if the node is rooted and all names on the way may be given. -/
theorem nodeAt_names_iff (h : Linked s.tree) (hn : s.tree.get? n.id = some n) (hnames : s.tree.namesOf n = names.map Json.str) :
    s.nodeAt (ofComponents names) user? = .ok (some n) ↔ s.tree.Rooted n ∧ Valid names := by
  rw [nodeAt_eq]
  constructor
  · intro hl
    obtain ⟨valid, hvalid, hnormal⟩ := normalize_valid (ofComponents names)
    have hsame : names = valid := by
      refine List.map_injective_iff.2 (fun _ _ => Json.str.inj) ?_
      rw [← hnames, h.namesOf_lookup hl, hnormal, components_ofComponents hvalid]
    exact ⟨h.lookup_rooted hl, hsame ▸ hvalid⟩
  · rintro ⟨hrooted, hvalid⟩
    rw [normalize_ofComponents hvalid]
    exact (h.lookup_names_iff hn hnames).2 ⟨hrooted, components_ofComponents hvalid⟩

/-- The path of every node leads to it. -/
def Found (s : Machine) (user? : Option Json) : Prop := ∀ {id n}, s.tree.get? id = some n →
  ∃ path, s.tree.pathOf n = .ok path ∧ s.tree.lookup path = .ok (some n) ∧ s.nodeAt path user? = .ok (some n)

/-- All nodes of a tree in order are rooted. -/
theorem rooted_of_wellFormed (h : WellFormed s.tree) (hw : Whole s.tree) (hn : s.tree.get? n.id = some n) : s.tree.Rooted n := by
  refine ⟨h.under_root hw hn, fun b hb hne => ?_⟩
  -- a node above another one has a child, on the way to it
  obtain he | ⟨c, hc, -⟩ := Relation.ReflTransGen.cases_head hb
  · exact absurd he hne
  obtain ⟨d, hd, hmem⟩ := h.present_above hc
  exact ⟨d.joint, skeleton_some.2 ⟨d, hd, rfl⟩, h.shaped.directories (skeleton_some.2 ⟨d, hd, rfl⟩) (List.ne_nil_of_mem hmem)⟩

theorem names_of_wellFormed (h : WellFormed s.tree) (hn : s.tree.get? n.id = some n) (hnames : s.tree.namesOf n = names.map Json.str) :
    Valid names := by
  intro name hname
  have hmem : Json.str name ∈ s.tree.namesOf n := hnames ▸ List.mem_map_of_mem hname
  obtain ⟨m, hm, he⟩ := List.mem_map.1 (List.mem_reverse.1 hmem)
  obtain ⟨hline, hp⟩ := List.mem_filter.1 hm
  obtain ⟨hget, -⟩ := h.chain_sound hn hline
  obtain ⟨own, hown, hvalid⟩ := h.shaped.named (skeleton_some.2 ⟨m, hget, rfl⟩) (bne_iff_ne.1 hp)
  cases he.symm.trans hown
  exact hvalid

/-- Every node is found at its path exactly if the tree is well-formed and nothing but the root is without a parent. -/
theorem found_iff (h : Linked s.tree) : s.Found user? ↔ WellFormed s.tree ∧ Whole s.tree := by
  constructor
  · intro hfound
    have hall : ∀ {id n}, s.tree.get? id = some n → s.tree.Rooted n ∧ ∀ names, s.tree.namesOf n = names.map Json.str → Valid names := by
      intro id n hn
      obtain ⟨names, hnames⟩ := h.namesOf_texts (h.get_self hn)
      obtain ⟨path, hpath, -, hat⟩ := hfound hn
      cases (pathOf_eq hnames).symm.trans hpath
      obtain ⟨hrooted, hvalid⟩ := (nodeAt_names_iff h (h.get_self hn) hnames).1 hat
      refine ⟨hrooted, fun more hmore => ?_⟩
      rw [List.map_injective_iff.2 (fun _ _ => Json.str.inj) (hmore.symm.trans hnames)]
      exact hvalid
    refine ⟨⟨h, fun {a x} hx hne => ?_, fun {a x} hx hne => ?_⟩, fun {a} hl => ?_⟩
    · -- a child is rooted, so that what it is in is a directory
      obtain ⟨n, hn, rfl⟩ := skeleton_some.1 hx
      obtain ⟨c, hc⟩ := List.exists_mem_of_ne_nil _ hne
      have hab : s.tree.skeleton.Above a c := (h.above_iff hn).2 hc
      obtain ⟨m, hm⟩ := present_of_above hab
      have hin : s.tree.skeleton.InDirectories c := h.id_eq hm ▸ (hall hm).1.2
      obtain ⟨y, hy, hkind⟩ := hin a (.single hab) fun he => h.forest.not_above_under hab (he ▸ .refl)
      cases hx.symm.trans hy
      exact hkind
    · -- the last name on the way to a node is its own
      obtain ⟨n, hn, rfl⟩ := skeleton_some.1 hx
      obtain ⟨p, hp⟩ : ∃ p, s.tree.parentOf? n = some p := by
        refine Option.ne_none_iff_exists'.1 fun hnone => ?_
        obtain ⟨y, hy, hnull⟩ := (h.parentOf_none hn).1 hnone
        cases hx.symm.trans hy
        exact hne hnull
      obtain ⟨before, hbefore⟩ := h.namesOf_texts ((h.parentOf_iff (h.get_self hn)).1 hp).1
      obtain ⟨own, hown⟩ := text_name h (h.get_self hn)
      have hnames : s.tree.namesOf n = (before ++ [own]).map Json.str := by
        rw [h.namesOf_child (h.get_self hn) hp, hbefore, hown]
        simp
      exact ⟨own, hown, (valid_snoc.1 ((hall hn).2 _ hnames)).2⟩
    · obtain ⟨x, hx, -⟩ := id hl
      obtain ⟨n, hn, rfl⟩ := skeleton_some.1 hx
      exact (hl.eq_of_under (h.id_eq hn ▸ (hall hn).1.1)).symm
  · rintro ⟨hwf, hw⟩ id n hn
    obtain ⟨names, hnames⟩ := h.namesOf_texts (h.get_self hn)
    have hrooted := rooted_of_wellFormed hwf hw (h.get_self hn)
    have hvalid := names_of_wellFormed hwf (h.get_self hn) hnames
    exact ⟨_, pathOf_eq hnames, (h.lookup_names_iff (h.get_self hn) hnames).2 ⟨hrooted, components_ofComponents hvalid⟩,
      (nodeAt_names_iff h (h.get_self hn) hnames).2 ⟨hrooted, hvalid⟩⟩

end Machine

namespace World

open Machine Path Tree

/-- In every state that can be reached each node has a path, and what a canonical path leads to has this path. Its own path leads to a
node exactly if only directories lie above it, up to the root, and the names on the way may be given, or at least can be read off the
path. So all nodes are found where the tree is well-formed and whole, and nowhere else. -/
theorem Reachable.pathsMeet {w : World} (h : w.Reachable) (user? : Option Json) :
    (∀ id n, w.machine.tree.get? id = some n → ∃ names : List String, w.machine.tree.namesOf n = names.map Json.str ∧
      w.machine.tree.pathOf n = .ok (ofComponents names) ∧
      (w.machine.tree.lookup (ofComponents names) = .ok (some n) ↔ w.machine.tree.Rooted n ∧ components (ofComponents names) = names) ∧
      (w.machine.nodeAt (ofComponents names) user? = .ok (some n) ↔ w.machine.tree.Rooted n ∧ Valid names)) ∧
    (∀ path n, Canonical path → w.machine.tree.lookup path = .ok (some n) → w.machine.tree.pathOf n = .ok path) ∧
    (w.machine.Found user? ↔ WellFormed w.machine.tree ∧ Whole w.machine.tree) := by
  have hl : Linked w.machine.tree := h.sound.machine.linked
  refine ⟨fun id n hn => ?_, fun path n hpath hlook => ?_, found_iff hl⟩
  · obtain ⟨names, hnames⟩ := hl.namesOf_texts (hl.get_self hn)
    exact ⟨names, hnames, pathOf_eq hnames, hl.lookup_names_iff (hl.get_self hn) hnames, nodeAt_names_iff hl (hl.get_self hn) hnames⟩
  · obtain ⟨names, hvalid, rfl⟩ := canonical_iff.1 hpath
    exact hl.pathOf_lookup (normalize_ofComponents hvalid) hlook

/-- A system that has not been started, on which root has installed an application by the name of a parent directory. -/
def dotted : World := { machine := (Operation.installApp ".." (some (.str rootName))).after bare }

theorem dotted_reachable : dotted.Reachable := Reachable.perform (.first Store.empty_memory) _

theorem pathsMeet_dotted : dotted.Reachable ∧ (dotted.machine.Found none ↔ WellFormed dotted.machine.tree ∧ Whole dotted.machine.tree) :=
  ⟨dotted_reachable, (Reachable.pathsMeet dotted_reachable none).2.2⟩

/-- The launcher of that application is not found at its path. -/
theorem launcher_lost : ¬ ∀ w : World, w.Reachable → w.machine.Found none := by
  intro hall
  have hlost : (dotted.machine.tree.lookup "/usr/bin/..").toOption.join.any (fun n =>
      dotted.machine.tree.pathOf n = .ok "/usr/bin/.." ∧ dotted.machine.nodeAt "/usr/bin/.." none ≠ .ok (some n)) = true := by
    decide +kernel
  obtain ⟨n, hsome, hboth⟩ := (Option.any_eq_true _ _).1 hlost
  rw [decide_eq_true_eq] at hboth
  have hl : dotted.machine.tree.lookup "/usr/bin/.." = .ok (some n) := by
    generalize dotted.machine.tree.lookup "/usr/bin/.." = found at hsome
    rcases found with e | _ | m <;> simp_all [Except.toOption]
  obtain ⟨path, hown, -, hfound⟩ := hall dotted dotted_reachable (dotted_reachable.sound.machine.linked.lookup_found hl).1
  cases hboth.1.symm.trans hown
  exact hboth.2 hfound

end World

end SimUnix
