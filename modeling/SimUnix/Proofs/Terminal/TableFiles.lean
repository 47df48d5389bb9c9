/-
The files of users and groups, in every state that a system gets into. Names of users, homes, shells and numbers are
never in the way of reading them back: the file of users falls into the fields of its entries if and only if no full
name holds a colon or a line feed, and the file of groups if and only if no name of a group does. These are the texts
that nobody checks. Every change of the tables writes both files, and they are found afterwards if and only if nothing
of another kind was in their place before.
-/
import SimUnix.Proofs.Account.Columns
import SimUnix.Proofs.Machine.Regenerated
import SimUnix.Proofs.Machine.Session
import SimUnix.Proofs.Terminal.Life

namespace SimUnix

open Machine

/-! ## Users as they are added -/

/-- A user under a name that may be given, whose home and shell are the usual ones. -/
structure User.Standard (u : User) : Prop where
  name : ∃ name, u.name = .str name ∧ validUserName name = true
  home : u.home = .str (homeFor u.name.plain)
  shell : u.shell = .str defaultShell

theorem User.Standard.congr {u v : User} (h : u.Standard) (hname : v.name = u.name) (hhome : v.home = u.home) (hshell : v.shell = u.shell) :
    v.Standard := by
  refine ⟨hname ▸ h.name, ?_, hshell.trans h.shell⟩
  rw [hhome, h.home, hname]

theorem standard_build {new : NewUser} {uid : Int} (h : validUserName new.name = true) : (new.build uid).Standard :=
  ⟨⟨_, rfl, h⟩, rfl, rfl⟩

/-- A name that may be given can stand in a line, and in a list of names. -/
theorem clean_name {name : String} (h : validUserName name = true) : Text.Clean name ∧ name ≠ "" ∧ ',' ∉ name.toList := by
  refine ⟨⟨?_, ?_⟩, ne_empty_of_validUserName h, ?_⟩ <;>
    exact not_mem_of_validUserName h (by decide) (by decide) (by decide +kernel)

theorem User.Standard.clean {u : User} (h : u.Standard) :
    Text.Clean u.name.plain ∧ Text.Clean u.home.plain ∧ Text.Clean u.shell.plain := by
  obtain ⟨⟨name, hname, hvalid⟩, hhome, hshell⟩ := h
  rw [hhome, hshell, hname]
  have hclean : Text.Clean name := (clean_name hvalid).1
  refine ⟨hclean, ?_, by decide⟩
  show Text.Clean (homeFor name)
  unfold homeFor
  split
  · decide
  · have hfront : Text.Clean "/home/" := by decide
    unfold Text.Clean at *
    rw [String.toList_append, List.mem_append, List.mem_append]
    tauto

namespace Accounts

variable {a b : Accounts}

/-- All users are as they were added. -/
def Standard (a : Accounts) : Prop := ∀ ⦃name u⦄, a.user? name = some u → u.Standard

theorem Standard.reindexed (h : a.Standard) : a.reindexed.Standard := by
  intro name u hu
  rw [user?_reindexed_eq] at hu
  obtain ⟨v, hv, rfl⟩ := Option.map_eq_some_iff.1 hu
  exact (h hv).congr rfl rfl rfl

theorem Standard.same (h : a.Standard) (hab : a.Same b) : b.Standard := by
  intro name v hv
  obtain ⟨u, hu, hsame⟩ := rel_of (hab.user name) hv
  have hfield : ∀ {β : Type} (field : User → β), field { u with groups := [] } = field { v with groups := [] } :=
    fun field => congrArg field hsame.rest
  exact (h hu).congr (hfield User.name).symm (hfield User.home).symm (hfield User.shell).symm

theorem Standard.put (h : a.Standard) {u : User} (hu : u.Standard) (hb : b.users = a.users.put u.name u) : b.Standard := by
  intro name v hv
  unfold user? at hv
  rw [hb, Keyed.get?_put] at hv
  split at hv
  · cases hv
    exact hu
  · exact h hv

theorem Standard.updateUsers (h : a.Standard) {name : Json} {f : User → User}
    (hf : ∀ u, (f u).name = u.name ∧ (f u).home = u.home ∧ (f u).shell = u.shell) :
    Standard { a with users := a.users.update name f } := by
  intro n u hu
  rcases Keyed.get?_update_some.1 hu with ⟨-, v, hv, rfl⟩ | ⟨-, hu⟩
  · exact (h hv).congr (hf v).1 (hf v).2.1 (hf v).2.2
  · exact h hu

theorem initial_standard : initial.Standard := by
  refine Standard.reindexed fun name u hu => ?_
  have hroot : name = .str rootName ∧ u = { name := rootName, uid := .int 0, gid := .int 0, fullName := "System Administrator" } := by
    have hmem := (Keyed.get?_iff_mem (by simp [Keyed.keys])).1 hu
    simpa using hmem
  rw [hroot.2]
  exact ⟨⟨rootName, rfl, by decide +kernel⟩, rfl, rfl⟩

end Accounts

namespace Machine

open Act

variable {s s' : Machine} {user? : Option Json}

theorem First.standard {a : Accounts} (h : First a) : a.Standard := by
  obtain ⟨b, c, -, hinsert, hupdate, rfl⟩ := h
  have hroot : rootOnly.Standard := Accounts.initial_standard.updateUsers fun u => ⟨rfl, rfl, rfl⟩
  have hfirst : firstUser.Standard := ⟨⟨factoryUser, rfl, by decide +kernel⟩, rfl, rfl⟩
  have hb : b.Standard := hroot.put hfirst (Accounts.users_updateGroup hinsert)
  have hc : c.Standard := fun n u hu => hb ((Accounts.user?_updateGroup hupdate).symm.trans hu)
  exact hc.reindexed

/-- Nobody is given another name, home or shell. -/
theorem TableCall.standard {c : TableCall} {a a' : Accounts} (ha : a.InOrder) (hs : a.Standard) (h : c.change a = .ok (some a')) :
    a'.Standard := by
  cases c with
  | addUser new =>
    obtain ⟨hvalid, -, -, uid, -, hinsert⟩ := change_addUser h
    exact hs.put (standard_build hvalid) (Accounts.users_updateGroup hinsert)
  | updateUser name d =>
    have hupdated : Accounts.Standard { a with users := a.users.update name d.apply } := hs.updateUsers fun u => ⟨rfl, rfl, rfl⟩
    obtain ⟨-, rfl | ⟨admin, hup⟩⟩ := change_updateUser h
    · exact hupdated
    · exact fun n u hu => hupdated ((Accounts.user?_updateGroup hup).symm.trans hu)
  | deleteUser name =>
    obtain ⟨-, u, -, rfl⟩ := change_deleteUser h
    intro n v hv
    have hdropped : (a.users.drop u.name).get? n = some v := hv
    rw [Keyed.get?_drop ha.users] at hdropped
    split at hdropped
    · cases hdropped
    · exact hs hdropped
  | addGroup name members =>
    obtain ⟨-, -, gid, -, rfl⟩ := change_addGroup h
    exact hs
  | addToGroup user group =>
    obtain ⟨-, rfl⟩ := change_addToGroup h
    exact hs
  | removeFromGroup user group =>
    obtain ⟨-, rfl⟩ := change_removeFromGroup h
    exact hs
  | deleteGroup name =>
    obtain ⟨-, -, rfl⟩ := change_deleteGroup h
    exact hs

/-! ## Tables over whole stories -/

/-- A property that new tables have, those of a new system and those that root and the system groups make up, and that
every change of the tables keeps. The order of what they list does not matter, nor do passwords. -/
structure Enduring (P : Accounts → Prop) : Prop where
  initial : P Accounts.initial
  first : ∀ {a}, First a → P a
  same : ∀ {a b}, P a → a.Same b → P b
  reindexed : ∀ {a : Accounts}, P a → P a.reindexed
  change : ∀ {c : TableCall} {a a' : Accounts}, a.InOrder → P a → c.change a = .ok (some a') → P a'
  password : ∀ {a : Accounts} {name passwordDigest : Json}, P a → P { a with users := a.users.update name fun u => { u with passwordDigest } }

variable {P : Accounts → Prop}

theorem Enduring.table (hP : Enduring P) {c : TableCall} {r : Except Fault Unit} (hc : c.Proper) (hs : s.Sound) (hr : s.Regular)
    (h : P s.accounts) (hrun : (c.operation user?).run.run s = (r, s')) : P s'.accounts := by
  rcases c.operation_saved hc hs hr hrun with hlog | ⟨accounts, t, hchange, hsaved⟩
  · rw [hlog]
    exact h
  · have hnew : P accounts := hP.change hr.accounts h hchange
    rw [hsaved.same]
    exact hP.reindexed hnew

/-- A reset makes new tables, and what follows leaves them alone. -/
theorem Enduring.reset (hP : Enduring P) {r : Except Fault Unit} (hs : s.Sound) (hr : s.Regular) (hrun : reset.run s = (r, s')) :
    P s'.accounts := by
  obtain ⟨s₁, hseed, hgood⟩ := run_seed hs.swept hr.clock
  rw [run_reset, run_bind, hseed] at hrun
  have hnew : TidyWith P s₁ := ⟨hgood.2.1, hP.first (first_seed hseed)⟩
  exact (keeps_bind (keeps_modify fun _ h => h.inPhase) (fun _ => keeps_bind tidy_flush fun _ => tidy_log) hnew hrun).2

theorem Operation.endures {op : Operation} {r : Except Fault Unit} (hP : Enduring P) (hop : op.Proper) (hs : s.Sound) (hr : s.Regular)
    (h : P s.accounts) (hrun : op.run.run s = (r, s')) : P s'.accounts := by
  cases op
  case addUser new user? => exact hP.table (c := .addUser new) hop hs hr h hrun
  case updateUser name c user? => exact hP.table (c := .updateUser name c) trivial hs hr h hrun
  case deleteUser name user? => exact hP.table (c := .deleteUser name) trivial hs hr h hrun
  case addGroup name members user? => exact hP.table (c := .addGroup name members) trivial hs hr h hrun
  case addToGroup user group user? => exact hP.table (c := .addToGroup user group) trivial hs hr h hrun
  case removeFromGroup user group user? => exact hP.table (c := .removeFromGroup user group) trivial hs hr h hrun
  case deleteGroup name user? => exact hP.table (c := .deleteGroup name) trivial hs hr h hrun
  case setRootPassword password =>
    have hrun := Act.got hrun
    split at hrun
    · cases hrun
      exact hP.password h
    · cases hrun
      exact h
  case resetAccounts =>
    cases hrun
    exact hP.initial
  case reset => exact hP.reset hs hr hrun
  case loadAccounts => exact hop.elim
  case boot => exact hop.elim
  case shutdown => exact hop.elim
  all_goals exact (Operation.tidy hop trivial ⟨hr.toTidy, h⟩ hrun).2

/-- Such a property holds as long as a system is used, stops and restarts included. -/
theorem Leads.endures (hP : Enduring P) (hs : s.Sound) (hr : s.Regular) (h₀ : P s.accounts) (h : Leads Operation.Proper s s') :
    P s'.accounts := by
  induction h with
  | refl => exact h₀
  | idle _ hi ih =>
    rw [hi.same]
    exact ih
  | perform hbefore may run ih => exact Operation.endures hP may (hbefore.sound hs) (hbefore.regular (fun _ => id) hs hr) ih run
  | restart hbefore legible stop start ih =>
    have hregular := hbefore.regular (fun _ => id) hs hr
    exact hP.same ih (hregular.restarted (hbefore.sound hs) legible stop start).2.1.accounts.1
  | reboot hbefore legible stop start ih =>
    have hregular := hbefore.regular (fun _ => id) hs hr
    exact hP.same ih (hregular.rebooted (hbefore.sound hs) legible stop start).2.1.accounts.1

theorem enduring_numbered : Enduring Accounts.Numbered where
  initial := Accounts.initial_numbered
  first := First.numbered
  same := Accounts.Numbered.same
  reindexed := Accounts.Numbered.reindexed
  change := TableCall.numbered
  password h := h.updateUsers fun _ => ⟨rfl, rfl⟩

/-- Nobody is given another name, home or shell. -/
theorem enduring_standard : Enduring Accounts.Standard where
  initial := Accounts.initial_standard
  first := First.standard
  same := Accounts.Standard.same
  reindexed := Accounts.Standard.reindexed
  change := TableCall.standard
  password h := h.updateUsers fun _ => ⟨rfl, rfl, rfl⟩

end Machine

/-! ## Reading back -/

namespace Accounts

variable {a b : Accounts}

/-- Tables of a state that a system gets into: in order, with users as they were added, who are the only members. -/
structure Settled (a : Accounts) : Prop where
  inOrder : a.InOrder
  numbered : a.Numbered
  standard : a.Standard

/-- All full names and all names of groups can stand in a line. -/
structure Readable (a : Accounts) : Prop where
  users : ∀ u ∈ a.users.values, Text.Clean u.fullName.plain
  groups : ∀ x ∈ a.groups.values, Text.Clean x.name.plain

/-- Nothing else is in the way of reading the file of users back. -/
theorem Settled.clean_user (h : a.Settled) {u : User} (hu : u ∈ a.users.values) :
    (∀ field ∈ u.fields, Text.Clean field) ↔ Text.Clean u.fullName.plain := by
  have ha := h.inOrder
  obtain ⟨hname, hhome, hshell⟩ := (h.standard (ha.filedUsers.get?_iff.2 ⟨hu, rfl⟩)).clean
  rw [(ha.plain_user u hu).clean_iff]
  tauto

/-- Members are users, whose names were checked when they were added. -/
theorem Settled.members (h : a.Settled) {x : Group} (hx : x ∈ a.groups.values) {m : String} (hm : m ∈ x.memberNames) :
    validUserName m = true := by
  have ha := h.inOrder
  have hin : Json.str m ∈ x.members := (ha.plain_group x hx).memberNames.1.mem_iff.1 (List.mem_map_of_mem hm)
  obtain ⟨u, hu⟩ := h.numbered.known (ha.filedGroups.get?_iff.2 ⟨hx, rfl⟩) hin
  obtain ⟨name, hname, hvalid⟩ := (h.standard hu).name
  cases (ha.filedUsers.get? hu).1.symm.trans hname
  exact hvalid

theorem Settled.clean_group (h : a.Settled) {x : Group} (hx : x ∈ a.groups.values) :
    (∀ field ∈ x.fields, Text.Clean field) ↔ Text.Clean x.name.plain := by
  rw [(h.inOrder.plain_group x hx).clean_iff]
  constructor
  · rintro ⟨hname, -⟩
    exact hname
  · intro hname
    exact ⟨hname, fun m hm => (clean_name (h.members hx hm)).1⟩

/-- The file of users has a line for each user, in the order of their numbers. -/
theorem Settled.users_read (h : a.Settled) : ∃ (us : List User) (U : String), us.Perm a.users.values ∧
    (us.Pairwise fun u v => u.uid.Ascends v.uid) ∧ a.usersText = .ok U ∧
      (Text.columns U = us.map User.fields ↔ ∀ u ∈ a.users.values, Text.Clean u.fullName.plain) := by
  obtain ⟨us, U, hus, horder, htext, hcolumns⟩ := h.inOrder.usersColumns
  exact ⟨us, U, hus, horder, htext, hcolumns.trans (forall₂_congr fun u hu => h.clean_user hu)⟩

theorem Settled.groups_read (h : a.Settled) : ∃ (gs : List Group) (G : String), gs.Perm a.groups.values ∧
    (gs.Pairwise fun x y => x.gid.Ascends y.gid) ∧ a.groupsText = .ok G ∧
      (Text.columns G = gs.map Group.fields ↔ ∀ x ∈ a.groups.values, Text.Clean x.name.plain) := by
  obtain ⟨gs, G, hgs, horder, htext, hcolumns⟩ := h.inOrder.groupsColumns
  exact ⟨gs, G, hgs, horder, htext, hcolumns.trans (forall₂_congr fun x hx => h.clean_group hx)⟩

/-- Where they can be read back, the two files tell the tables but for the passwords. -/
theorem Settled.recovered (h : a.Settled) (h' : b.Settled) (hr : a.Readable) (hr' : b.Readable) (hU : a.usersText = b.usersText)
    (hG : a.groupsText = b.groupsText) (name : Json) :
    Option.Rel (fun u v => u.shown = v.shown) (a.user? name) (b.user? name) ∧ Option.Rel Group.Same (a.group? name) (b.group? name) := by
  have ha := h.inOrder
  have hb := h'.inOrder
  constructor
  · exact ha.users_recovered hb (fun u hu => (h.clean_user hu).2 (hr.users u hu)) (fun u hu => (h'.clean_user hu).2 (hr'.users u hu)) hU name
  · exact ha.groups_recovered hb (fun x hx => (h.clean_group hx).2 (hr.groups x hx))
      (fun x hx => (h'.clean_group hx).2 (hr'.groups x hx)) (fun x hx m hm => (clean_name (h.members hx hm)).2)
      (fun x hx m hm => (clean_name (h'.members hx hm)).2) hG name

end Accounts

namespace World

open Accounts

variable {w : World}

/-! ## Every state -/

theorem Living.endures {P : Accounts → Prop} (hP : Enduring P) (h : w.Living) : P w.machine.accounts := by
  induction h with
  | @first store hostname log ids now r s empty clock start =>
    have hs : Operation.boot.after (create store hostname log ids now) = s := congrArg Prod.snd start
    exact hs ▸ hP.first (first_boot empty clock)
  | next before move ih =>
    obtain ⟨hw, hregular⟩ := before.attended
    exact (move.leads (fun _ hop => hop.1) hw).1.endures hP hw.machine hregular ih

theorem Living.settled (h : w.Living) : w.machine.accounts.Settled :=
  ⟨h.attended.2.accounts, h.endures enduring_numbered, h.endures enduring_standard⟩

/-- In every state the file of users has a line for each user, in the order of their numbers, and the file of groups has one for
each group: with exactly the fields of the entry if all full names, and all names of groups, can stand in a line, and never
otherwise. The last field of a group lists its members in order. Two states with the same files that can be read back have the
same tables but for the passwords. -/
theorem Living.readable (h : w.Living) :
    (∃ (us : List User) (U : String), us.Perm w.machine.accounts.users.values ∧ (us.Pairwise fun u v => u.uid.Ascends v.uid) ∧
      w.machine.accounts.usersText = .ok U ∧
        (Text.columns U = us.map User.fields ↔ ∀ u ∈ w.machine.accounts.users.values, Text.Clean u.fullName.plain)) ∧
    (∃ (gs : List Group) (G : String), gs.Perm w.machine.accounts.groups.values ∧ (gs.Pairwise fun x y => x.gid.Ascends y.gid) ∧
      w.machine.accounts.groupsText = .ok G ∧
        (Text.columns G = gs.map Group.fields ↔ ∀ x ∈ w.machine.accounts.groups.values, Text.Clean x.name.plain)) ∧
    (∀ x ∈ w.machine.accounts.groups.values, (x.memberNames.map Json.str).Perm x.members ∧ x.memberNames.Pairwise (· ≤ ·) ∧
      Text.listed (Text.joinWith "," x.memberNames) = x.memberNames) ∧
    ∀ w' : World, w'.Living → w.machine.accounts.Readable → w'.machine.accounts.Readable →
      w.machine.accounts.usersText = w'.machine.accounts.usersText → w.machine.accounts.groupsText = w'.machine.accounts.groupsText →
        ∀ name, Option.Rel (fun u v => u.shown = v.shown) (w.machine.accounts.user? name) (w'.machine.accounts.user? name) ∧
          Option.Rel Group.Same (w.machine.accounts.group? name) (w'.machine.accounts.group? name) := by
  have hs := h.settled
  refine ⟨hs.users_read, hs.groups_read, fun x hx => ?_, fun w' h' hr hr' hU hG => hs.recovered h'.settled hr hr' hU hG⟩
  obtain ⟨hmembers, horder⟩ := (hs.inOrder.plain_group x hx).memberNames
  exact ⟨hmembers, horder, Text.listed_joinWith fun m hm => (clean_name (hs.members hx hm)).2⟩

/-- The first user of a new system, with a colon in the full name. -/
def renamed : World :=
  { fresh with machine := (Operation.updateUser factoryUser { fullName? := some "a:b" } (some (.str rootName))).after fresh.machine }

theorem living_renamed : renamed.Living := .next living_fresh (.perform trivial)

theorem readable_renamed : renamed.Living ∧
    (∃ (us : List User) (U : String), us.Perm renamed.machine.accounts.users.values ∧ (us.Pairwise fun u v => u.uid.Ascends v.uid) ∧
      renamed.machine.accounts.usersText = .ok U ∧
        (Text.columns U = us.map User.fields ↔ ∀ u ∈ renamed.machine.accounts.users.values, Text.Clean u.fullName.plain)) :=
  ⟨living_renamed, living_renamed.readable.1⟩

/-- Root can give a new group any name. -/
theorem Living.new_group (h : w.Living) (hfree : w.machine.Free) {name : String} (hname : name ≠ "")
    (hnew : w.machine.accounts.groups.has name = false) :
    ∃ w' : World, w'.Living ∧ ∃ x ∈ w'.machine.accounts.groups.values, x.name = .str name := by
  obtain ⟨hw, hregular⟩ := h.attended
  obtain ⟨gid, hgid⟩ := hregular.accounts.nextUid_ok
  have hchange : (TableCall.addGroup name []).change w.machine.accounts = .ok (some { w.machine.accounts with
      groups := w.machine.accounts.groups.put name { name, gid := .int gid, members := [] } }) := by
    unfold TableCall.change
    dsimp only
    rw [if_neg (by simp [hname, hnew]), hgid]
    rfl
  obtain ⟨s', hrequest⟩ := TableCall.request_granted (c := .addGroup name []) trivial hw.machine hregular hfree
    (mayAdminister_root hregular.accounts) hchange
  have hrun : (Operation.addGroup name [] (some (.str rootName))).run.run w.machine = (.ok ⟨⟩, s') := by
    show (discard ((TableCall.addGroup name []).request (some (.str rootName)))).run w.machine = _
    rw [run_discard, hrequest]
  have hliving : Living { w with machine := s' } := .next h (.operate (show (Operation.addGroup name [] (some (.str rootName))).Proper from trivial) hrun)
  refine ⟨_, hliving, ?_⟩
  rcases TableCall.request_saved (c := .addGroup name []) trivial hw.machine hregular hrequest with
    ⟨-, hno⟩ | ⟨-, accounts, t, message, s₁, hmade, -, -, hframe, hsaved⟩
  · exact absurd rfl hno
  cases hchange.symm.trans hmade
  rw [hframe] at hsaved
  have hgroups : s'.accounts.groups = w.machine.accounts.groups.put name { name, gid := .int gid, members := [] } := by
    rw [hsaved.same]
    rfl
  have hfound : s'.accounts.group? name = some { name, gid := .int gid, members := [] } := by
    unfold group?
    rw [hgroups, Keyed.get?_put, if_pos rfl]
  exact ⟨_, (hliving.attended.2.accounts.filedGroups.get?_iff.1 hfound).1, rfl⟩

/-- A group with a line feed in its name takes two lines, neither of them its own. -/
theorem group_broken_off : ¬ ∀ w : World, w.Living → ∃ (gs : List Group) (G : String), gs.Perm w.machine.accounts.groups.values ∧
    w.machine.accounts.groupsText = .ok G ∧ Text.columns G = gs.map Group.fields := by
  intro hall
  obtain ⟨w, h, x, hx, hname⟩ : ∃ w : World, w.Living ∧ ∃ x ∈ w.machine.accounts.groups.values, x.name = .str "a\nb" := by
    by_cases hthere : fresh.machine.accounts.groups.has (.str "a\nb") = true
    · obtain ⟨x, hx⟩ := Keyed.has_iff.1 hthere
      obtain ⟨hmem, hname⟩ := (living_fresh.attended.2.accounts.filedGroups.get?_iff).1 hx
      exact ⟨fresh, living_fresh, x, hmem, hname⟩
    · exact living_fresh.new_group ready_fresh.free (by decide) (Bool.not_eq_true _ ▸ hthere)
  obtain ⟨gs, G, hperm, -, hcolumns⟩ := hall w h
  have hclean : Text.Clean x.name.plain :=
    Text.clean_of_columns (hcolumns ▸ List.mem_map_of_mem (hperm.mem_iff.2 hx)) List.mem_cons_self
  rw [hname] at hclean
  exact hclean.2 (by decide)

/-! ## Writing the files anew -/

variable {user? : Option Json} {s' : Machine}

/-- A change of the tables that has been made leaves both files with what the tables say, and a check that finds nothing, whatever
has become of the files before: unless a file was in the place of their directory, or a directory in one of theirs. -/
theorem Living.files_regenerated {c : TableCall} (h : w.Living) (hc : c.Proper) (hrun : (c.request user?).run w.machine = (.ok true, s')) :
    ∃ U G report, s'.accounts.usersText = .ok U ∧ s'.accounts.groupsText = .ok G ∧ s'.validate = .ok report ∧
      (w.machine.tree.Clear ↔ s'.Tells usersPath U ∧ s'.Tells groupsPath G) ∧ (w.machine.tree.Clear ↔ report.valid = true) :=
  c.regenerated hc h.attended.1.machine h.attended.2 hrun

/-- Root can change the details of root. -/
theorem grants_update {s : Machine} (hs : s.Sound) (hr : s.Regular) (hfree : s.Free) :
    ∃ s', ((TableCall.updateUser rootName {}).request (some (.str rootName))).run s = (.ok true, s') := by
  have hchange : (TableCall.updateUser rootName {}).change s.accounts = .ok (some { s.accounts with
      users := s.accounts.users.update rootName (UserChange.apply {}) }) := by
    unfold TableCall.change
    dsimp only
    rw [if_neg (by simp [show s.accounts.users.has (.str rootName) = true from hr.accounts.root])]
  exact TableCall.request_granted (c := .updateUser rootName {}) trivial hs hr hfree (mayAdminister_root hr.accounts) hchange

theorem files_regenerated_fresh : ∃ s', fresh.Living ∧ (TableCall.updateUser rootName {}).Proper ∧
    ((TableCall.updateUser rootName {}).request (some (.str rootName))).run fresh.machine = (.ok true, s') ∧
    ∃ U G report, s'.accounts.usersText = .ok U ∧ s'.accounts.groupsText = .ok G ∧ s'.validate = .ok report ∧
      (fresh.machine.tree.Clear ↔ s'.Tells usersPath U ∧ s'.Tells groupsPath G) ∧
        (fresh.machine.tree.Clear ↔ report.valid = true) := by
  have hfree : fresh.machine.Free := ready_fresh.free
  obtain ⟨s', hrun⟩ := grants_update living_fresh.attended.1.machine living_fresh.attended.2 hfree
  exact ⟨s', living_fresh, trivial, hrun, living_fresh.files_regenerated (c := .updateUser rootName {}) trivial hrun⟩

/-- A system that has not been started. -/
def dormant : Machine := Machine.create (.memory []) "aurora" {} { stem := "n" } { seconds := 0 }

theorem regular_dormant : dormant.Regular :=
  have hclock : Time.Stamp.Proper { seconds := 0 } := ⟨rfl, by decide, by decide⟩
  -- What is forgotten in a state with this supply of ids leaves the one that has not been started.
  regular_blank (s := { dormant with tree := { dormant.tree with ids := { stem := "n" } } }) hclock

/-- Root has put a file in the place of the directory of the files. -/
def blocked : World :=
  { machine := (Operation.file (.createFile "/" "etc" "" none) (some (.str rootName)) none).after dormant }

theorem blocked_reachable : blocked.Reachable := Reachable.perform (.first Store.empty_memory) (.file (.createFile "/" "etc" "" none) _ _)

/-- What is found in the place of the directory. -/
def etcKind (s : Machine) : Except Fault (Option Bool) := do
  let root ← s.tree.root
  let etc? ← s.tree.childNamed root "etc"
  pure (etc?.map Node.isDir)

theorem not_clear {s : Machine} (h : etcKind s = .ok (some false)) : ¬ s.tree.Clear := by
  intro hc
  obtain ⟨root, hroot, h⟩ := bind_ok.1 h
  obtain ⟨etc?, hetc, h⟩ := bind_ok.1 h
  obtain ⟨etc, rfl, hkind⟩ := Option.map_eq_some_iff.1 (Except.ok.inj h)
  exact absurd (hkind.symm.trans (hc.directory hroot ⟨etc, hetc, rfl⟩)) (by decide)

/-- The change is made, but the files are not found where they should be. -/
theorem files_out_of_reach : ¬ ∀ (w : World) (s' : Machine), w.Reachable →
    ((TableCall.updateUser rootName {}).request (some (.str rootName))).run w.machine = (.ok true, s') →
      ∃ report, s'.validate = .ok report ∧ report.valid = true := by
  intro hall
  have hs : blocked.machine.Sound := blocked_reachable.sound.machine
  have hproper : (Operation.file (.createFile "/" "etc" "" none) (some (.str rootName)) none).Proper :=
    ⟨userArg_some rootName, userArg_none⟩
  have hr : blocked.machine.Regular := Operation.regular hproper (sound_create Store.empty_memory.restores) regular_dormant Prod.mk.eta.symm
  obtain ⟨s', hrun⟩ := grants_update hs hr (show blocked.machine.safeMode = false by decide +kernel)
  obtain ⟨U, G, report, -, -, hvalidate, -, hvalid⟩ := TableCall.regenerated (c := .updateUser rootName {}) trivial hs hr hrun
  obtain ⟨found, hfound, hok⟩ := hall blocked s' blocked_reachable hrun
  cases hvalidate.symm.trans hfound
  exact not_clear (by decide +kernel) (hvalid.2 hok)

end World

end SimUnix
