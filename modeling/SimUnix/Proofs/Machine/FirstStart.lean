/-
The first start of a system always succeeds: it ends running, out of safe mode, with the tables of a new
system. A reset ends safe mode, too.
-/
import SimUnix.Proofs.Account.Texts
import SimUnix.Proofs.Machine.Ordinary

namespace SimUnix

namespace Accounts

variable {a b : Accounts}

/-! ## Numbers that can be read back -/

theorem Legible.withUsers (h : a.Legible) {users : Keyed Json User}
    (hu : ∀ p ∈ users, ∃ q ∈ a.users, p.2.uid = q.2.uid ∧ p.2.gid = q.2.gid) : Legible { a with users } := by
  refine ⟨fun u hmem => ?_, h.2⟩
  obtain ⟨p, hp, rfl⟩ := List.mem_map.1 hmem
  obtain ⟨q, hq, huid, hgid⟩ := hu p hp
  rw [huid, hgid]
  exact h.1 _ (List.mem_map_of_mem hq)

theorem Legible.reindexed (h : a.Legible) : a.reindexed.Legible := h.withUsers fun p hp => by
  obtain ⟨q, hq, rfl⟩ := List.mem_map.1 hp
  exact ⟨q, hq, rfl, rfl⟩

theorem Legible.updateUsers (h : a.Legible) {name : Json} {f : User → User} (huid : ∀ u, (f u).uid = u.uid)
    (hgid : ∀ u, (f u).gid = u.gid) : Legible { a with users := a.users.update name f } := h.withUsers fun p hp => by
  rcases Keyed.mem_update hp with hp | ⟨q, hq, rfl⟩
  · exact ⟨p, hp, rfl, rfl⟩
  · exact ⟨q, hq, huid _, hgid _⟩

theorem Legible.updateGroup (h : a.Legible) {name : Json} {f : Group → Group} (hgid : ∀ x, (f x).gid = x.gid)
    (hup : a.updateGroup name f = .ok b) : b.Legible := by
  unfold Accounts.updateGroup at hup
  split at hup
  · cases hup
    refine ⟨h.1, fun x hx => ?_⟩
    obtain ⟨p, hp, rfl⟩ := List.mem_map.1 hx
    rcases Keyed.mem_update hp with hp | ⟨q, hq, rfl⟩
    · exact h.2 _ (List.mem_map_of_mem hp)
    · rw [hgid]
      exact h.2 _ (List.mem_map_of_mem hq)
  · cases hup

theorem Legible.insertUser (h : a.Legible) {u : User} {n : Int} (hn : Json.Short n) (huid : u.uid = .int n) (hgid : u.gid = .int n)
    (hins : a.insertUser u = .ok b) : b.Legible := by
  have hnumber : ∀ m, Json.int n = .int m → Json.Short m := fun m hm => by
    cases hm
    exact hn
  refine Legible.updateGroup ⟨fun v hv => ?_, fun x hx => ?_⟩ gid_insert hins
  · obtain ⟨p, hp, rfl⟩ := List.mem_map.1 hv
    rcases Keyed.mem_put hp with rfl | hp
    · exact ⟨huid ▸ hnumber, hgid ▸ hnumber⟩
    · exact h.1 _ (List.mem_map_of_mem hp)
  · obtain ⟨p, hp, rfl⟩ := List.mem_map.1 hx
    rcases Keyed.mem_put hp with rfl | hp
    · exact hgid ▸ hnumber
    · exact h.2 _ (List.mem_map_of_mem hp)

theorem legible_initial : initial.Legible := by
  have hnumber : ∀ {k m : Int}, (Nat.toDigits 10 k.natAbs).length ≤ Text.maxDigits → Json.int k = .int m → Json.Short m :=
    fun hk hm => by
      cases hm
      exact hk
  refine ⟨fun u hu => ?_, fun x hx => ?_⟩
  · cases List.mem_singleton.1 hu
    exact ⟨fun n => hnumber (by decide), fun n => hnumber (by decide)⟩
  · obtain ⟨p, hp, rfl⟩ := List.mem_map.1 hx
    obtain ⟨g, hg, rfl⟩ := List.mem_map.1 hp
    have hall : ∀ g ∈ systemGroups, (Nat.toDigits 10 g.2.natAbs).length ≤ Text.maxDigits := by decide
    exact fun n => hnumber (hall g hg)

end Accounts

namespace Machine

open Tree Act

variable {s s' s₀ : Machine}

/-! ## Out of safe mode -/

/-- Out of safe mode. -/
def Free (s : Machine) : Prop := s.safeMode = false

theorem Free.aside (h : s.Free) (ha : s.Aside s') : s'.Free := by
  unfold Free
  rw [ha.same]
  exact h

/-- A system that differs from another one in its tree, its tables and its logs only. -/
def LaidOut (s₀ s : Machine) : Prop := s = { s₀ with tree := s.tree, accounts := s.accounts, log := s.log, bootLog := s.bootLog }

theorem laidOut_own {α : Type} {m : Act α} (hm : ∀ s₀, Keeps (OnlyTree s₀) m) : Keeps (LaidOut s₀) m :=
  keeps_of_onlyTree hm fun h => by
    unfold LaidOut at h ⊢
    rw [h]

theorem laidOut_modify {f : Machine → Machine} (hf : ∀ s, LaidOut s (f s)) : Keeps (LaidOut s₀) (modify f) := keeps_modify fun s h => by
  have hs := hf s
  unfold LaidOut at h hs ⊢
  rw [hs, h]

theorem laidOut_setRootPassword {password : String} : Keeps (LaidOut s₀) (setRootPassword password) := by
  refine keeps_get fun s s' r h hrun => ?_
  split at hrun
  · cases hrun
    unfold LaidOut at h ⊢
    rw [h]
  · cases hrun
    exact h

theorem laidOut_seedUser {name fullName password : String} {admin : Bool} :
    Keeps (LaidOut s₀) (seedUser name fullName password admin) := by
  refine keeps_read fun s => keeps_bind (keeps_ofExcept _) fun uid => keeps_bind (keeps_ofExcept _) fun a => ?_
  dsimp only
  split
  · exact keeps_bind (keeps_ofExcept _) fun _ => keeps_bind (laidOut_modify fun _ => rfl) fun _ => keeps_pure _
  · exact keeps_bind (keeps_pure _) fun _ => keeps_bind (laidOut_modify fun _ => rfl) fun _ => keeps_pure _

/-- What is done to lay out a new system once it is blank. -/
def furnish : Act Unit := do
  for (path, permissions) in systemDirectories do
    discard <| ensureDirectory path { permissions }
  for c in Command.programs do
    discard <| putSystemFile programsPath c.name (Executable.programContent c) Executable.permissions
  for id in coreApps do putAppFile id
  discard <| putSystemFile "/etc" "hostname" (← get).defaultHostname filePermissions
  noteBoot "[OK] Filesystem (factory layout)"
  setRootPassword factoryRootPassword
  let u ← seedUser factoryUser "User" factoryUserPassword true
  discard <| createHome u
  syncFiles
  noteBoot "[OK] Identity (root, user)"
  Act.log .info "system" "factory layout seeded"

theorem seed_eq : seed = (modify blank >>= fun _ => furnish) := rfl

/-- Laying out a new system, however far it gets, touches nothing of a blank one but its tree, its tables and
its logs. -/
theorem laidOut_seed {r : Except Fault Unit} (hrun : seed.run s = (r, s')) : s.blank.LaidOut s' := by
  rw [seed_eq, run_bind, run_modify] at hrun
  refine keeps_bind (I := LaidOut s.blank) (keeps_forPairs (f := fun path permissions => discard (ensureDirectory path
    { permissions := .str permissions })) fun _ _ _ => keeps_discard (laidOut_own fun _ => onlyTree_ensureDirectory)) (fun _ => ?_)
    (show LaidOut s.blank s.blank from rfl) hrun
  refine keeps_bind (keeps_for (f := fun c : Command => discard (putSystemFile programsPath c.name
    (Executable.programContent c) Executable.permissions)) fun _ _ => keeps_discard (laidOut_own fun _ => onlyTree_putSystemFile)) fun _ => ?_
  refine keeps_bind (keeps_for (f := putAppFile) fun id _ => keeps_discard (laidOut_own fun _ => onlyTree_putSystemFile)) fun _ => ?_
  refine keeps_read fun s => keeps_bind (keeps_discard (laidOut_own fun _ => onlyTree_putSystemFile)) fun _ => ?_
  refine keeps_bind (laidOut_modify fun _ => rfl) fun _ => keeps_bind laidOut_setRootPassword fun _ => ?_
  refine keeps_bind laidOut_seedUser fun u => keeps_bind (keeps_discard (laidOut_own fun _ => onlyTree_createHome)) fun _ => ?_
  refine keeps_bind (laidOut_own fun _ => onlyTree_syncFiles) fun _ => ?_
  exact keeps_bind (laidOut_modify fun _ => rfl) fun _ => laidOut_modify fun _ => rfl

/-- Laying out a new system ends out of safe mode, however far it gets. -/
theorem safeMode_seed {r : Except Fault Unit} (hrun : seed.run s = (r, s')) : s'.Free := by
  rw [show s' = _ from laidOut_seed hrun]
  rfl

/-- What holds after an action that succeeds, if something holds before. -/
def Gives {α : Type} (I J : Machine → Prop) (m : Act α) : Prop :=
  ∀ ⦃s s' : Machine⦄ ⦃a : α⦄, I s → m.run s = (.ok a, s') → J s'

theorem gives_keeps {α : Type} {I : Machine → Prop} {m : Act α} (hm : Keeps I m) : Gives I I m := fun _ _ _ h hrun => hm h hrun

/-- An action whose result is known to have a property when the next one goes on with it. -/
theorem gives_bind_of {α β : Type} {I J K : Machine → Prop} {P : α → Prop} {m : Act α} {f : α → Act β} (hm : Gives I J m)
    (hp : ∀ {s s' a}, m.run s = (.ok a, s') → P a) (hf : ∀ a, P a → Gives J K (f a)) : Gives I K (m >>= f) := by
  intro s s' b h hrun
  rcases of_run_bind hrun with ⟨e, -, he⟩ | ⟨a, s₁, hfirst, hrun⟩
  · cases he
  · exact hf a (hp hfirst) (hm h hfirst) hrun

theorem gives_bind {α β : Type} {I J K : Machine → Prop} {m : Act α} {f : α → Act β} (hm : Gives I J m)
    (hf : ∀ a, Gives J K (f a)) : Gives I K (m >>= f) := gives_bind_of (P := fun _ => True) hm (fun _ => trivial) fun a _ => hf a

theorem gives_read {β : Type} {I J : Machine → Prop} {f : Machine → Act β} (hf : ∀ s, Gives I J (f s)) : Gives I J (get >>= f) :=
  fun s _ _ h hrun => hf s h (got hrun)

/-- The system has these tables. -/
def With (a : Accounts) (s : Machine) : Prop := s.accounts = a

theorem with_own {α : Type} {m : Act α} {a : Accounts} (hm : ∀ s₀, Keeps (OnlyTree s₀) m) : Keeps (With a) m :=
  keeps_of_onlyTree hm fun h => h

/-- The tables of a new system before its first user is added. -/
def rootOnly : Accounts :=
  { Accounts.initial with users := Accounts.initial.users.update rootName fun u =>
      { u with passwordDigest := passwordDigest factoryRootPassword } }

theorem gives_setRootPassword : Gives (With Accounts.initial) (With rootOnly) (setRootPassword factoryRootPassword) := by
  intro s s' a h hrun
  unfold With at h
  have hrun := got hrun
  rw [h, if_pos (show Accounts.initial.users.has rootName = true by decide)] at hrun
  cases hrun
  rfl

/-- The first user of a new system. -/
def firstUser : User where
  name := factoryUser
  uid := .int 1000
  gid := .int 1000
  fullName := "User"
  passwordDigest := passwordDigest factoryUserPassword

/-- The tables of a new system: root, and the first user, who is one of the administrators. -/
def First (a : Accounts) : Prop := ∃ b c, rootOnly.nextUid = .ok 1000 ∧ rootOnly.insertUser firstUser = .ok b ∧
  b.updateGroup adminGroup (·.insert firstUser.name) = .ok c ∧ a = c.reindexed

/-- The number of the first user is the first one for ordinary users. -/
theorem gives_seedUser : Gives (With rootOnly) (fun s => First s.accounts) (seedUser factoryUser "User" factoryUserPassword true) := by
  intro s s' u h hrun
  unfold With at h
  have huid : rootOnly.nextUid = .ok 1000 := rfl
  have hrun := got hrun
  rw [h] at hrun
  rcases asked hrun with ⟨e, -, he, -⟩ | ⟨uid, hnext, hrun⟩
  · cases he
  cases huid.symm.trans hnext
  rcases asked hrun with ⟨e, -, he, -⟩ | ⟨b, hinsert, hrun⟩
  · cases he
  rcases asked hrun with ⟨e, -, he, -⟩ | ⟨c, hupdate, hrun⟩
  · cases he
  · cases hrun
    exact ⟨b, c, huid, hinsert, hupdate, rfl⟩

/-- What the tables of a new system are. -/
theorem first_seed (hrun : seed.run s = (.ok ⟨⟩, s')) : First s'.accounts := by
  have hgives : Gives (With Accounts.initial) (fun s => First s.accounts) furnish := by
    refine gives_bind (gives_keeps (keeps_forPairs (f := fun path permissions => discard (ensureDirectory path
      { permissions := .str permissions })) fun _ _ _ => keeps_discard (with_own fun _ => onlyTree_ensureDirectory))) fun _ => ?_
    refine gives_bind (gives_keeps (keeps_for (f := fun c : Command => discard (putSystemFile programsPath c.name
      (Executable.programContent c) Executable.permissions)) fun _ _ => keeps_discard (with_own fun _ => onlyTree_putSystemFile))) fun _ => ?_
    refine gives_bind (gives_keeps (keeps_for (f := putAppFile) fun id _ =>
      keeps_discard (with_own fun _ => onlyTree_putSystemFile))) fun _ => ?_
    refine gives_read fun s => gives_bind (gives_keeps (keeps_discard (with_own fun _ => onlyTree_putSystemFile))) fun _ => ?_
    refine gives_bind (gives_keeps (keeps_modify fun _ h => h)) fun _ => gives_bind gives_setRootPassword fun _ => ?_
    refine gives_bind gives_seedUser fun u => gives_keeps ?_
    have hown : ∀ {α : Type} {m : Act α}, (∀ s₀, Keeps (OnlyTree s₀) m) → Keeps (fun s => First s.accounts) m :=
      fun hm => keeps_of_onlyTree hm fun h => h
    refine keeps_bind (keeps_discard (hown fun _ => onlyTree_createHome)) fun _ => ?_
    refine keeps_bind (hown fun _ => onlyTree_syncFiles) fun _ => ?_
    exact keeps_bind (keeps_modify fun _ h => h) fun _ => keeps_log fun h ha => by
      rw [ha.same]
      exact h
  rw [seed_eq, run_bind, run_modify] at hrun
  exact hgives (show With Accounts.initial s.blank from rfl) hrun

theorem First.legible {a : Accounts} (h : First a) : a.Legible := by
  obtain ⟨b, c, -, hinsert, hupdate, rfl⟩ := h
  have hroot : rootOnly.Legible := Accounts.legible_initial.updateUsers (by intro; rfl) (by intro; rfl)
  have hb : b.Legible := hroot.insertUser (n := 1000) (show (Nat.toDigits 10 1000).length ≤ Text.maxDigits by decide) rfl rfl hinsert
  exact (hb.updateGroup Accounts.gid_insert hupdate).reindexed

/-- The numbers of the users and groups of a new system can be read back. -/
theorem legible_seed (hrun : seed.run s = (.ok ⟨⟩, s')) : s'.accounts.Legible := (first_seed hrun).legible

/-! ## Success -/

/-- An action that succeeds wherever an invariant holds, and keeps it. -/
def Works {α : Type} (I : Machine → Prop) (m : Act α) : Prop :=
  ∀ ⦃s : Machine⦄, I s → ∃ a s', m.run s = (.ok a, s') ∧ I s'

variable {α β : Type} {I : Machine → Prop}

theorem works_pure (a : α) : Works I (pure a) := fun s h => ⟨a, s, rfl, h⟩

theorem works_bind_of {Q : α → Prop} {m : Act α} {f : α → Act β} (hm : Works I m)
    (hq : ∀ {s s' a}, m.run s = (.ok a, s') → Q a) (hf : ∀ a, Q a → Works I (f a)) : Works I (m >>= f) := by
  intro s h
  obtain ⟨a, s₁, hrun, h₁⟩ := hm h
  obtain ⟨b, s₂, hnext, h₂⟩ := hf a (hq hrun) h₁
  refine ⟨b, s₂, ?_, h₂⟩
  rw [run_bind, hrun]
  exact hnext

theorem works_bind {m : Act α} {f : α → Act β} (hm : Works I m) (hf : ∀ a, Works I (f a)) : Works I (m >>= f) :=
  works_bind_of (Q := fun _ => True) hm (fun _ => trivial) fun a _ => hf a

theorem Works.keeps {m : Act α} (hm : Works I m) : Keeps I m := by
  intro s s' r h hrun
  obtain ⟨a, s₁, hok, h₁⟩ := hm h
  cases hok.symm.trans hrun
  exact h₁

theorem works_read {f : Machine → Act β} (hf : ∀ s, Works I (f s)) : Works I (get >>= f) := fun s h => hf s h

theorem works_discard {m : Act α} (hm : Works I m) : Works I (discard m) := by
  intro s h
  obtain ⟨a, s₁, hrun, h₁⟩ := hm h
  refine ⟨⟨⟩, s₁, ?_, h₁⟩
  rw [run_discard, hrun]

theorem works_for {xs : List α} {f : α → Act PUnit} (hf : ∀ x ∈ xs, Works I (f x)) :
    Works I (forIn xs PUnit.unit fun x _ => f x >>= fun _ => pure (.yield PUnit.unit)) := by
  induction xs with
  | nil => exact works_pure _
  | cons x xs ih =>
    intro s h
    obtain ⟨a, s₁, hrun, h₁⟩ := hf x (List.mem_cons_self ..) h
    obtain ⟨b, s₂, hrest, h₂⟩ := ih (fun y hy => hf y (List.mem_cons_of_mem _ hy)) h₁
    refine ⟨b, s₂, ?_, h₂⟩
    rw [run_for_cons, hrun]
    exact hrest

theorem works_forPairs {γ : Type} {xs : List (α × γ)} {f : α → γ → Act PUnit} (hf : ∀ a c, (a, c) ∈ xs → Works I (f a c)) :
    Works I (forIn xs PUnit.unit fun x _ => match x with
      | (a, c) => f a c >>= fun _ => pure (.yield PUnit.unit)) := by
  have hpair : (fun (x : α × γ) (_ : PUnit) => match x with
      | (a, c) => f a c >>= fun _ => (pure (.yield PUnit.unit) : Act (ForInStep PUnit))) =
      fun x _ => f x.1 x.2 >>= fun _ => pure (.yield PUnit.unit) := by
    funext ⟨a, c⟩ _
    rfl
  rw [hpair]
  exact works_for fun x hx => hf x.1 x.2 hx

/-- A sound and regular state. -/
def Good (s : Machine) : Prop := s.Sound ∧ s.TidyWith Accounts.Indexed

/-- What keeps a state sound and regular works if it succeeds there. -/
theorem works_good {m : Act α} (hs : Keeps Sound m) (ht : Keeps (TidyWith Accounts.Indexed) m)
    (hok : ∀ {s}, Good s → ∃ a s', m.run s = (.ok a, s')) : Works Good m := by
  intro s h
  obtain ⟨a, s', hrun⟩ := hok h
  exact ⟨a, s', hrun, hs h.1 hrun, ht h.2 hrun⟩

theorem works_ensureDirectory {path : String} {style : DirectoryStyle} (hs : style.Plain) :
    Works Good (ensureDirectory path style) :=
  works_good sound_ensureDirectory (tidy_ensureDirectory hs) fun h =>
    let ⟨id, s', hrun, _⟩ := run_ensureDirectory h.1
    ⟨id, s', hrun⟩

theorem works_putSystemFile {dir name content : String} {permissions : Json} (hp : permissions.IsText) :
    Works Good (putSystemFile dir name content permissions) := by
  refine works_good sound_putSystemFile (tidy_putSystemFile hp) fun {s} h => ?_
  obtain ⟨id, s₁, hdir, n, hn⟩ := run_ensureDirectory h.1
  have h₁ : s₁.Sound := sound_ensureDirectory h.1 hdir
  unfold putSystemFile
  rw [run_bind, hdir]
  dsimp only
  rw [run_bind, run_get]
  dsimp only
  rw [run_bind, run_ofExcept, node_ok.2 hn]
  dsimp only
  rw [run_bind, run_ofExcept]
  rcases h₁.linked.childNamed_cases hn (.str name) with ⟨hc, -⟩ | ⟨m, hc, -⟩
  · rw [hc]
    dsimp only
    rw [run_addNew]
    exact ⟨_, _, rfl⟩
  · rw [hc]
    dsimp only
    split
    · rw [run_bind, run_editTree]
      exact ⟨_, _, rfl⟩
    · exact ⟨_, _, rfl⟩

theorem works_createHome {u : User} (hu : u.name.IsText ∧ u.home.IsText) : Works Good (createHome u) :=
  works_good sound_createHome (tidy_createHome hu.1) fun h => run_createHome h.1 hu.2

theorem works_syncFiles : Works Good syncFiles := by
  intro s h
  obtain ⟨us, -, -, husers⟩ := h.2.1.accounts.usersText
  obtain ⟨x, s₁, hput, h₁⟩ := works_discard (works_putSystemFile ⟨_, rfl⟩) h
  -- The groups are listed as they are after the first file, so order is needed there, too.
  obtain ⟨gs, -, -, hgroups⟩ := h₁.2.1.accounts.groupsText
  obtain ⟨y, s₂, hput', h₂⟩ := works_discard (works_putSystemFile ⟨_, rfl⟩) h₁
  exact ⟨y, s₂, Act.next_ask husers (Act.next hput (Act.next_ask hgroups hput')), h₂⟩

theorem works_log {level : Level} {source message : String} {user : Json} : Works Good (Act.log level source message user) :=
  works_good steady_sound.log tidy_log fun _ => ⟨_, _, run_log⟩

theorem works_noteBoot {line : String} : Works Good (noteBoot line) :=
  works_good steady_sound.noteBoot tidy_noteBoot fun _ => ⟨_, _, rfl⟩

theorem works_setRootPassword {password : String} : Works Good (setRootPassword password) := by
  refine works_good steady_sound.setRootPassword regular_setRootPassword fun {s} h => ?_
  unfold setRootPassword
  rw [run_bind, run_get]
  dsimp only
  rw [if_pos h.2.1.accounts.root]
  exact ⟨_, _, rfl⟩

/-- A number is always found for a new user, and the user can be added. -/
theorem works_seedUser {name fullName password : String} {admin : Bool} (hname : Accounts.isSystemGroup name = false) :
    Works Good (seedUser name fullName password admin) := by
  refine works_good steady_sound.seedUser (regular_seedUser hname) fun {s} h => ?_
  have horder := h.2.1.accounts
  have hgroup : ∀ {a : Accounts} {g : String} {f : Group → Group}, a.groups.has (.str g) = true →
      a.updateGroup g f = .ok { a with groups := a.groups.update g f } := fun hg => if_pos hg
  have hthere : ∀ {g : String × Int} {u : Json} {x : Group}, g ∈ Accounts.systemGroups →
      (s.accounts.groups.put u x).has (.str g.1) = true := fun hg => by
    rw [Keyed.has_put, horder.system _ hg, Bool.or_true]
  unfold seedUser
  rw [run_bind, run_get]
  dsimp only
  rw [run_bind, run_ofExcept, show s.accounts.nextUid = _ from if_pos horder.taken_keys]
  dsimp only
  rw [run_bind, run_ofExcept]
  unfold Accounts.insertUser
  rw [hgroup (g := usersGroup) (hthere (g := (usersGroup, 100)) (by decide))]
  dsimp only
  split
  · rw [run_bind, run_ofExcept, hgroup (g := adminGroup)
      (Keyed.has_update.trans (hthere (g := (adminGroup, 27)) (by decide)))]
    exact ⟨_, _, rfl⟩
  · exact ⟨_, _, rfl⟩

/-- Laying out a new system succeeds, wherever it begins. -/
theorem run_seed (h : s.Sound) (hnow : s.now.Proper) : ∃ s', seed.run s = (.ok ⟨⟩, s') ∧ Good s' := by
  have hblank : Good s.blank := ⟨h.blank, (regular_blank hnow).tidyWith⟩
  have hworks : Works Good furnish := by
    refine works_bind (works_forPairs (f := fun path permissions => discard (ensureDirectory path
      { permissions := .str permissions })) fun _ _ _ => works_discard (works_ensureDirectory plain_style)) fun _ => ?_
    refine works_bind (works_for (f := fun c : Command => discard (putSystemFile programsPath c.name
      (Executable.programContent c) Executable.permissions)) fun _ _ => works_discard (works_putSystemFile ⟨_, rfl⟩)) fun _ => ?_
    refine works_bind (works_for (f := putAppFile) fun _ _ => works_discard (works_putSystemFile ⟨_, rfl⟩)) fun _ => ?_
    refine works_read fun s => works_bind (works_discard (works_putSystemFile ⟨_, rfl⟩)) fun _ => ?_
    refine works_bind works_noteBoot fun _ => works_bind works_setRootPassword fun _ => ?_
    refine works_bind_of (Q := fun u => u.name.IsText ∧ u.home.IsText) (works_seedUser (by decide)) (fun hrun => ?_) fun u hu => ?_
    · obtain ⟨_, -, hhome⟩ := homely_seedUser (by decide) hrun
      exact ⟨name_seedUser hrun, _, hhome⟩
    · refine works_bind (works_discard (works_createHome hu)) fun _ => works_bind works_syncFiles fun _ => ?_
      exact works_bind works_noteBoot fun _ => works_log
  obtain ⟨_, s', hrun, hgood⟩ := hworks hblank
  refine ⟨s', ?_, hgood⟩
  rw [seed_eq, run_bind, run_modify]
  exact hrun

/-- A system that runs, out of safe mode, and that can be restarted. -/
structure Ready (s : Machine) : Prop where
  running : s.phase = .running
  free : s.safeMode = false
  sound : s.Sound
  regular : s.Regular
  legible : s.accounts.Legible

/-- The first start of a system succeeds. -/
theorem run_first {store : Store} {hostname : String} {log : Log} {ids : IdSupply} {now : Time.Stamp} (empty : store.Empty)
    (hnow : now.Proper) : ∃ s', boot.run (create store hostname log ids now) = (.ok ⟨⟩, s') ∧ s'.Ready := by
  have hcreate : (create store hostname log ids now).Sound := sound_create empty.restores
  have hsound : Sound { create store hostname log ids now with phase := .booting, bootLog := [] } := hcreate.same rfl rfl
  obtain ⟨s₁, hseed, h₁⟩ := run_seed hsound hnow
  have hfree : s₁.Free := safeMode_seed hseed
  have hlegible : s₁.accounts.Legible := legible_seed hseed
  have hrunning : Regular { s₁ with phase := .running } := h₁.2.inPhase.regular
  obtain ⟨us, gs, hs⟩ := hrunning.lists
  have hflush := hs.run_flush rfl
  have hstart : ((create store hostname log ids now).phase != .shutdown) = false := rfl
  have hboot : ∃ s', boot.run (create store hostname log ids now) = (.ok ⟨⟩, s') ∧ s'.phase = .running ∧
      s'.safeMode = false ∧ s'.accounts.Legible := by
    apply Exists.intro
    refine ⟨?_, ?_, ?_, ?_⟩
    · unfold boot
      rw [run_bind, run_get]
      simp only [hstart, Bool.false_eq_true, if_false]
      refine Act.next (run_set ..) (Act.next (restoreOrNote_empty empty rfl) ?_)
      simp only [Bool.not_false, if_true]
      exact Act.next hseed (Act.next_modify (Act.next hflush run_log))
    · rfl
    · exact hfree
    · exact hlegible
  obtain ⟨s', hrun, hphase, hsafe, hlegible⟩ := hboot
  exact ⟨s', hrun, hphase, hsafe, sound_boot hcreate hrun, regular_first empty hnow hrun, hlegible⟩

theorem ready_first {store : Store} {hostname : String} {log : Log} {ids : IdSupply} {now : Time.Stamp} (empty : store.Empty)
    (hnow : now.Proper) : (Operation.boot.after (create store hostname log ids now)).Ready := by
  obtain ⟨s', hrun, hready⟩ := @run_first store hostname log ids now empty hnow
  rw [show Operation.boot.after (create store hostname log ids now) = s' from congrArg Prod.snd hrun]
  exact hready

theorem ready_fresh : fresh.Ready := ready_first Store.empty_memory ⟨rfl, by decide, by decide⟩

end Machine

end SimUnix
