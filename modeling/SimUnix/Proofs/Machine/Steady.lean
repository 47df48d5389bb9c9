/-
Actions that keep an invariant of the system, whatever comes of them, and invariants that only the tree and
the store can break. Sessions, administration, applications, and the life of the system keep such an invariant
if the few actions keep it by which they reach the tree: those on the system's own files, the removal of a
node, and the restoring of a tree.
-/
import SimUnix.Machine.Lifecycle
import SimUnix.Proofs.Machine.Sound
import SimUnix.Proofs.Tree.Lookup

namespace SimUnix

/-! ## Keeping an invariant -/

namespace Act

/-- An action after which an invariant holds if it held before, also where the action gives up. -/
def Keeps {α : Type} (I : Machine → Prop) (m : Act α) : Prop :=
  ∀ ⦃s s' : Machine⦄ ⦃r : Except Fault α⦄, I s → m.run s = (r, s') → I s'

variable {α β : Type} {I : Machine → Prop}

theorem keeps_pure (a : α) : Keeps I (pure a) := by
  intro s s' r h hrun
  cases hrun
  exact h

theorem keeps_throw (e : Fault) : Keeps I (throw e : Act α) := by
  intro s s' r h hrun
  cases hrun
  exact h

/-- An action whose result is known to have a property when the next one goes on with it. -/
theorem keeps_bind_of {m : Act α} {f : α → Act β} {P : α → Prop} (hm : Keeps I m)
    (hp : ∀ {s s' a}, m.run s = (.ok a, s') → P a) (hf : ∀ a, P a → Keeps I (f a)) : Keeps I (m >>= f) := by
  intro s s' r h hrun
  rcases of_run_bind hrun with ⟨e, hfirst, -⟩ | ⟨a, s₁, hfirst, hrun⟩
  · exact hm h hfirst
  · exact hf a (hp hfirst) (hm h hfirst) hrun

theorem keeps_bind {m : Act α} {f : α → Act β} (hm : Keeps I m) (hf : ∀ a, Keeps I (f a)) : Keeps I (m >>= f) :=
  keeps_bind_of (P := fun _ => True) hm (fun _ => trivial) fun a _ => hf a

/-- An action that looks at the state first. -/
theorem keeps_get {f : Machine → Act β} (hf : ∀ ⦃s s' r⦄, I s → (f s).run s = (r, s') → I s') :
    Keeps I (get >>= f) := fun _ _ _ h hrun => hf h (got hrun)

theorem keeps_read {f : Machine → Act β} (hf : ∀ s, Keeps I (f s)) : Keeps I (get >>= f) :=
  keeps_get fun s _ _ h hrun => hf s h hrun

theorem keeps_ofExcept (x : Except Fault α) : Keeps I (ofExcept x) := by
  intro s s' r h hrun
  rw [run_ofExcept] at hrun
  cases hrun
  exact h

theorem keeps_ask (question : Machine → Except Fault α) : Keeps I (ask question) := by
  intro s s' r h hrun
  rw [run_ask] at hrun
  cases hrun
  exact h

theorem keeps_modify {f : Machine → Machine} (hf : ∀ s, I s → I (f s)) : Keeps I (modify f) := by
  intro s s' r h hrun
  rw [run_modify] at hrun
  cases hrun
  exact hf s h

theorem keeps_map {f : α → β} {m : Act α} (hm : Keeps I m) : Keeps I (f <$> m) := by
  intro s s' r h hrun
  obtain ⟨x, hx⟩ := run_map_of hrun
  exact hm h hx

theorem keeps_discard {m : Act α} (hm : Keeps I m) : Keeps I (discard m) := keeps_map hm

theorem keeps_for {xs : List α} {f : α → Act PUnit} (hf : ∀ x ∈ xs, Keeps I (f x)) :
    Keeps I (forIn xs PUnit.unit fun x _ => f x >>= fun _ => pure (.yield PUnit.unit)) := by
  induction xs with
  | nil => exact keeps_pure _
  | cons x xs ih =>
    intro s s' r h hrun
    rw [run_for_cons] at hrun
    rcases hfirst : (f x).run s with ⟨y, s₁⟩
    have h₁ := hf x (List.mem_cons_self ..) h hfirst
    rw [hfirst] at hrun
    cases y with
    | error e =>
      cases hrun
      exact h₁
    | ok u => exact ih (fun y hy => hf y (List.mem_cons_of_mem _ hy)) h₁ hrun

theorem keeps_forPairs {γ : Type} {xs : List (α × γ)} {f : α → γ → Act PUnit} (hf : ∀ a c, (a, c) ∈ xs → Keeps I (f a c)) :
    Keeps I (forIn xs PUnit.unit fun x _ => match x with
      | (a, c) => f a c >>= fun _ => pure (.yield PUnit.unit)) := by
  have hpair : (fun (x : α × γ) (_ : PUnit) => match x with
      | (a, c) => f a c >>= fun _ => (pure (.yield PUnit.unit) : Act (ForInStep PUnit))) =
      fun x _ => f x.1 x.2 >>= fun _ => pure (.yield PUnit.unit) := by
    funext ⟨a, c⟩ _
    rfl
  rw [hpair]
  exact keeps_for fun x hx => hf x.1 x.2 hx

theorem keeps_tryCatch {m : Act α} {f : Fault → Act α} (hm : Keeps I m) (hf : ∀ e, Keeps I (f e)) :
    Keeps I (tryCatch m f) := by
  intro s s' r h hrun
  rcases hfirst : m.run s with ⟨x, s₁⟩
  have h₁ := hm h hfirst
  rw [run_tryCatch, hfirst] at hrun
  cases x with
  | error e => exact hf e h₁ hrun
  | ok a =>
    cases hrun
    exact h₁

theorem keeps_cond {c : Prop} [Decidable c] {m₁ m₂ : Act α} (h₁ : c → Keeps I m₁) (h₂ : ¬ c → Keeps I m₂) :
    Keeps I (if c then m₁ else m₂) := by
  by_cases hc : c
  · rw [if_pos hc]
    exact h₁ hc
  · rw [if_neg hc]
    exact h₂ hc

theorem keeps_log {level : Level} {source message : String} {user : Json} (hI : ∀ {s s'}, I s → s.Aside s' → I s') :
    Keeps I (log level source message user) := fun _ _ _ h hrun => by
  cases hrun
  exact hI h Machine.aside_logged

end Act

/-! ## Users and their homes -/

/-- A user who is at home where new users are. -/
def User.Homely (u : User) : Prop := ∃ name : String, Path.validName name = true ∧ u.home = .str (homeFor name)

namespace Accounts

variable {a a' : Accounts} {u : User} {name group : Json}

theorem user?_updateGroup {f : Group → Group} (h : a.updateGroup group f = .ok a') : a'.user? name = a.user? name := by
  unfold updateGroup at h
  split at h
  · cases h
    rfl
  · cases h

theorem user?_insertUser (h : a.insertUser u = .ok a') : a'.user? u.name = some u := by
  rw [user?_updateGroup h]
  unfold user?
  rw [Keyed.get?_put, if_pos rfl]

theorem user?_reindexed (h : a.user? name = some u) : ∃ groups, a.reindexed.user? name = some { u with groups } := by
  have hmap : ∀ {table : Keyed Json User} {f : User → User}, table.get? name = some u →
      (table.mapValues f).get? name = some (f u) := by
    intro table f htable
    unfold Keyed.get? Keyed.mapValues at *
    induction table with
    | nil => cases htable
    | cons p rest ih =>
      rw [List.map_cons, List.lookup_cons]
      rw [List.lookup_cons] at htable
      split at htable
      · cases htable
        rfl
      · exact ih htable
  refine ⟨(a.groups.values.filter (·.members.contains u.name)).map (·.name), ?_⟩
  unfold reindexed user?
  rw [hmap h]

end Accounts

namespace Machine

open Tree Act

/-- Marks other than dashes and underscores stand in no name of a user. -/
theorem not_mem_of_validUserName {name : String} (h : validUserName name = true) {c : Char} (hdash : c ≠ '-') (hunder : c ≠ '_')
    (hno : Text.isAlphanumeric c = false) : c ∉ name.toList := by
  intro hc
  rw [alphanumeric_of_mem h hc hdash hunder] at hno
  cases hno

theorem ne_empty_of_validUserName {name : String} (h : validUserName name = true) : name ≠ "" := by
  rintro rfl
  revert h
  decide

theorem validName_of_validUserName {name : String} (h : validUserName name = true) : Path.validName name = true := by
  have hslash : '/' ∉ name.toList := not_mem_of_validUserName h (by decide) (by decide) (by decide +kernel)
  have hdot : '.' ∉ name.toList := not_mem_of_validUserName h (by decide) (by decide) (by decide +kernel)
  have hne : name ≠ "" := ne_empty_of_validUserName h
  unfold Path.validName
  have h₁ : name ≠ "." := by
    rintro rfl
    exact hdot (by decide)
  have h₂ : name ≠ ".." := by
    rintro rfl
    exact hdot (by decide)
  simp [hne, hslash, h₁, h₂]

/-- The user that is added on the system's own behalf has the usual home. -/
theorem home_seedUser {s s' : Machine} {name fullName password : String} {admin : Bool} {u : User}
    (hrun : (seedUser name fullName password admin).run s = (.ok u, s')) : u.home = .str (homeFor name) := by
  have hend : ∀ {a : Accounts} {v : User}, a.user? name = some v → v.home = .str (homeFor name) →
      (a.reindexed.principal name).home = .str (homeFor name) := by
    intro a v hv hhome
    obtain ⟨groups, hfound⟩ := Accounts.user?_reindexed hv
    unfold Accounts.principal
    rw [hfound]
    exact hhome
  rcases asked (got hrun) with ⟨e, -, he, -⟩ | ⟨uid, -, hrun⟩
  · cases he
  rcases asked hrun with ⟨e, -, he, -⟩ | ⟨a, hinsert, hrun⟩
  · cases he
  have hfound := Accounts.user?_insertUser hinsert
  split at hrun
  · rcases asked hrun with ⟨e, -, he, -⟩ | ⟨b, hupdate, hrun⟩
    · cases he
    · cases hrun
      exact hend ((Accounts.user?_updateGroup hupdate).trans hfound) rfl
  · cases hrun
    exact hend hfound rfl

theorem homely_seedUser {s s' : Machine} {name fullName password : String} {admin : Bool} {u : User}
    (hvalid : Path.validName name = true) (hrun : (seedUser name fullName password admin).run s = (.ok u, s')) : u.Homely :=
  ⟨name, hvalid, home_seedUser hrun⟩

/-! ## Steady invariants -/

/-- An invariant that hangs on the tree and the store, and is kept by logging and writing records. -/
structure Steady (I : Machine → Prop) : Prop where
  linked : ∀ {s}, I s → Linked s.tree
  same : ∀ {s s'}, I s → s'.tree = s.tree → s'.store = s.store → I s'
  aside : ∀ {s s'}, I s → s.Aside s' → I s'

/-- An invariant that the work of the system on its own files keeps. -/
structure Furnished (I : Machine → Prop) : Prop extends Steady I where
  directory : ∀ {path style}, (path, style) ∈ systemDirectories → Keeps I (ensureDirectory path { permissions := .str style })
  program : ∀ {c content permissions}, c ∈ Command.programs → Keeps I (putSystemFile programsPath c.name (.str content) permissions)
  app : ∀ {id}, Path.validName id = true → Keeps I (putAppFile id)
  host : ∀ {name}, Keeps I (putSystemFile "/etc" "hostname" (.str name) filePermissions)
  home : ∀ {u}, u.Homely → Keeps I (createHome u)
  sync : Keeps I syncFiles

/-- A tree that may be restored from the store does not break the invariant. -/
def Restoring (I : Machine → Prop) : Prop :=
  ∀ {s : Machine} {record : Json} {t : Tree}, I s → s.store.get Store.treeKey = .ok (some record) →
    Tree.ofJson s.tree.ids s.now record = .ok t → I { s with tree := t }

namespace Steady

variable {I J : Machine → Prop} {s s' : Machine}

theorem log (hI : Steady I) {level : Level} {source message : String} {user : Json} :
    Keeps I (Act.log level source message user) := keeps_log hI.aside

theorem flush (hI : Steady I) : Keeps I Act.flush := fun _ _ _ h hrun => hI.aside h (aside_flush hrun)

/-- A change of neither the tree nor the store. -/
theorem elsewhere (hI : Steady I) {f : Machine → Machine} (ht : ∀ s, (f s).tree = s.tree) (hs : ∀ s, (f s).store = s.store) :
    Keeps I (modify f) := keeps_modify fun s h => hI.same h (ht s) (hs s)

/-! ## Sessions -/

theorem setSessionUser (hI : Steady I) {name? : Option String} : Keeps I (Machine.setSessionUser name?) :=
  keeps_bind (hI.elsewhere (by intro; rfl) (by intro; rfl)) fun _ => hI.flush

theorem login (hI : Steady I) {user password : String} : Keeps I (Machine.login user password) := by
  refine keeps_read fun s => ?_
  split
  · exact keeps_bind hI.setSessionUser fun _ => keeps_bind hI.log fun _ => keeps_pure _
  · exact keeps_bind hI.log fun _ => keeps_pure _

theorem logout (hI : Steady I) : Keeps I Machine.logout := by
  refine keeps_read fun s => keeps_bind hI.setSessionUser fun _ => ?_
  split
  · exact keeps_pure _
  · exact hI.log

/-! ## The tables -/

theorem setRootPassword (hI : Steady I) {password : String} : Keeps I (Machine.setRootPassword password) := by
  refine keeps_get fun s s' r h hrun => ?_
  split at hrun
  · cases hrun
    exact hI.same h rfl rfl
  · cases hrun
    exact h

theorem seedUser (hI : Steady I) {name fullName password : String} {admin : Bool} :
    Keeps I (Machine.seedUser name fullName password admin) := by
  refine keeps_read fun s => keeps_bind (keeps_ofExcept _) fun uid => keeps_bind (keeps_ofExcept _) fun a => ?_
  dsimp only
  split
  · exact keeps_bind (keeps_ofExcept _) fun _ =>
      keeps_bind (hI.elsewhere (by intro; rfl) (by intro; rfl)) fun _ => keeps_pure _
  · exact keeps_bind (keeps_pure _) fun _ =>
      keeps_bind (hI.elsewhere (by intro; rfl) (by intro; rfl)) fun _ => keeps_pure _

theorem loadAccounts (hI : Steady I) {users groups : Json} : Keeps I (Machine.loadAccounts users groups) :=
  keeps_bind (keeps_ofExcept _) fun _ => keeps_bind (hI.elsewhere (by intro; rfl) (by intro; rfl)) fun _ =>
    keeps_bind (keeps_ofExcept _) fun _ => hI.elsewhere (by intro; rfl) (by intro; rfl)

theorem authorize (hI : Steady I) {action : String} {user? : Option Json} : Keeps I (Machine.authorize action user?) := by
  refine keeps_read fun s => ?_
  split
  · exact keeps_bind hI.log fun _ => keeps_pure _
  · refine keeps_bind (keeps_ask _) fun may => ?_
    split
    · exact keeps_pure _
    · exact keeps_bind hI.log fun _ => keeps_pure _

/-! ## Integrity -/

theorem enterSafeMode (hI : Steady I) {report : IntegrityReport} : Keeps I (Machine.enterSafeMode report) :=
  keeps_bind (hI.elsewhere (by intro; rfl) (by intro; rfl)) fun _ => hI.flush

theorem checkIntegrity (hI : Steady I) : Keeps I Machine.checkIntegrity := by
  refine keeps_read fun s => ?_
  split
  · exact keeps_pure _
  · refine keeps_bind (keeps_ofExcept _) fun report => ?_
    split
    · refine keeps_bind (hI.elsewhere (by intro; rfl) (by intro; rfl)) fun _ => keeps_bind hI.enterSafeMode fun _ => ?_
      exact keeps_bind (keeps_for fun _ _ => hI.log) fun _ => keeps_pure _
    · exact keeps_pure _

/-! ## Applications -/

theorem mayManageApps (hI : Steady I) {action : String} {user? : Option Json} : Keeps I (Machine.mayManageApps action user?) := by
  refine keeps_read fun s => keeps_bind (keeps_ofExcept _) fun found? => ?_
  split
  · exact keeps_bind hI.log fun _ => keeps_pure _
  · exact keeps_pure _

theorem installApp (hI : Steady I) {id : String} {user? : Option Json}
    (hput : id ≠ "" → '/' ∉ id.toList → Keeps I (putAppFile id)) : Keeps I (Machine.installApp id user?) := by
  refine keeps_read fun s => ?_
  split
  · exact keeps_pure _
  · rename_i hid
    simp only [Bool.or_eq_true, decide_eq_true_eq, List.contains_iff_mem, not_or] at hid
    refine keeps_bind hI.mayManageApps fun may => ?_
    split
    · exact keeps_pure _
    · refine keeps_bind (hI.elsewhere (by intro; rfl) (by intro; rfl)) fun _ =>
        keeps_bind (hput hid.1.1 hid.1.2) fun _ => ?_
      exact keeps_read fun _ => keeps_bind hI.log fun _ => keeps_bind hI.flush fun _ => keeps_pure _

/-- What the system removes on its own behalf lies below some directory. -/
theorem uninstallApp (hI : Steady I) {id : String} {user? : Option Json}
    (hremove : ∀ {s : Machine} {n dir : Node} {t : Tree}, I s → s.tree.get? n.id = some n → s.tree.parentOf? n = some dir →
      Removed s.tree t n.id dir.id → I { s with tree := t }) : Keeps I (Machine.uninstallApp id user?) := by
  refine keeps_read fun s => ?_
  split
  · exact keeps_pure _
  refine keeps_bind hI.mayManageApps fun may => ?_
  split
  · exact keeps_pure _
  refine keeps_bind (hI.elsewhere (by intro; rfl) (by intro; rfl)) fun _ => keeps_get fun s s' r h hrun => ?_
  rcases asked hrun with ⟨e, -, -, rfl⟩ | ⟨n?, hlook, hrun⟩
  · exact h
  have hend : Keeps I (do
      Act.log .info "system" s!"uninstalled {id}" ((← get).actor user?)
      Act.flush
      pure true) :=
    keeps_read fun _ => keeps_bind hI.log fun _ => keeps_bind hI.flush fun _ => keeps_pure _
  cases n? with
  | none => exact hend h hrun
  | some n =>
    have hpath : Path.components (appsPath ++ "/" ++ id) ≠ [] := components_ne_nil (by
      rw [String.length_append, String.length_append]
      have hlen : appsPath.length = 8 := by decide +kernel
      omega)
    obtain ⟨hn, -⟩ := (hI.linked h).lookup_found hlook
    obtain ⟨dir, hp⟩ := (hI.linked h).lookup_below hpath hlook
    simp only at hrun
    rw [run_bind, run_discard, run_edit] at hrun
    rcases hrem : (Tree.remove n s.now).run s.tree with ⟨x, t⟩
    have h₁ : I { s with tree := t } := by
      rcases (hI.linked h).run_remove hn hp hrem with ⟨e, -, -, rfl⟩ | ⟨nodes, -, -, hgone⟩
      · exact h
      · exact hremove h hn hp hgone
    rw [hrem] at hrun
    cases x with
    | error e =>
      cases hrun
      exact h₁
    | ok count => exact hend h₁ hrun

/-! ## Starting and stopping -/

theorem noteBoot (hI : Steady I) {line : String} : Keeps I (Machine.noteBoot line) :=
  hI.elsewhere (by intro; rfl) (by intro; rfl)

theorem restoreSession (hI : Steady I) {record : Json} : Keeps I (Machine.restoreSession record) := by
  have step : ∀ {α β : Type} {x : Except Fault α} {f : α → Machine → Machine} {next : Act β},
      (∀ a s, (f a s).tree = s.tree) → (∀ a s, (f a s).store = s.store) → Keeps I next →
        Keeps I (Act.ofExcept x >>= fun a => modify (f a) >>= fun _ => next) :=
    fun ht hs hn => keeps_bind (keeps_ofExcept _) fun a => keeps_bind (hI.elsewhere (ht a) (hs a)) fun _ => hn
  refine step (by intros; rfl) (by intros; rfl) ?_
  refine step (by intros; rfl) (by intros; rfl) ?_
  refine step (by intros; rfl) (by intros; rfl) ?_
  refine step (by intros; rfl) (by intros; rfl) ?_
  exact keeps_bind (keeps_ofExcept _) fun _ => hI.elsewhere (by intro; rfl) (by intro; rfl)

theorem restore (hI : Steady I) (hback : Restoring I) : Keeps I Machine.restore := by
  intro s s' r h hrun
  unfold Machine.restore at hrun
  rcases askedOf hrun with ⟨e, -, -, rfl⟩ | ⟨record?, hget, hrun⟩
  · exact h
  split at hrun
  · cases hrun
    exact h
  rename_i record hrecord
  rcases askedOf hrun with ⟨e, -, -, rfl⟩ | ⟨t, hof, hrest⟩
  · exact h
  cases record? with
  | none => exact absurd rfl hrecord
  | some r =>
  have hs : I { s with tree := t } := hback h hget hof
  rw [run_bind, run_modify] at hrest
  refine keeps_bind hI.noteBoot (fun _ => ?_) hs hrest
  refine keeps_bind (keeps_ask _) fun users => keeps_bind (keeps_ask _) fun groups => ?_
  refine keeps_bind hI.loadAccounts fun _ => keeps_bind (keeps_ask _) fun sorted => ?_
  refine keeps_bind hI.noteBoot fun _ => keeps_bind (keeps_ask _) fun clip => ?_
  refine keeps_bind (keeps_ofExcept _) fun clipboard => keeps_bind (hI.elsewhere (by intro; rfl) (by intro; rfl)) fun _ => ?_
  refine keeps_bind (keeps_ask _) fun items => keeps_bind (keeps_ofExcept _) fun apps => ?_
  refine keeps_bind (hI.elsewhere (by intro; rfl) (by intro; rfl)) fun _ => keeps_bind (keeps_ask _) fun record => ?_
  exact keeps_bind hI.restoreSession fun _ => keeps_bind hI.noteBoot fun _ => keeps_pure _

theorem restoreOrNote (hI : Steady I) (hback : Restoring I) : Keeps I Machine.restoreOrNote := by
  refine keeps_tryCatch (hI.restore hback) fun e => ?_
  split
  · exact keeps_bind hI.log fun _ => keeps_bind hI.noteBoot fun _ => keeps_pure _
  · exact keeps_throw e

/-- A change of the whole state, and then an action that keeps the invariant. -/
theorem keeps_set {α : Type} (s₀ : Machine) {next : Act α} (h₀ : I s₀) (hn : Keeps I next) :
    ∀ ⦃s s' r⦄, (set s₀ >>= fun _ => next).run s = (r, s') → I s' := by
  intro s s' r hrun
  rw [run_bind, run_set] at hrun
  exact hn h₀ hrun

theorem boot (hI : Steady I) (hback : Restoring I) (hseed : Keeps I seed) : Keeps I Machine.boot := by
  refine keeps_get fun s s' r h hrun => ?_
  split at hrun
  · cases hrun
    exact h
  refine keeps_set { s with phase := .booting, bootLog := [] } (hI.same h rfl rfl) ?_ hrun
  have hend : Keeps I (do
      modify fun s => { s with phase := .running }
      Act.flush
      Act.log .info "system" "System boot complete") :=
    keeps_bind (hI.elsewhere (by intro; rfl) (by intro; rfl)) fun _ => keeps_bind hI.flush fun _ => hI.log
  refine keeps_bind (hI.restoreOrNote hback) fun found => ?_
  split
  · exact keeps_bind hseed fun _ => hend
  · exact hend

theorem shutdown (hI : Steady I) : Keeps I Machine.shutdown := by
  refine keeps_read fun s => ?_
  split
  · intro s s' r h hrun
    cases hrun
    exact h
  · exact keeps_bind hI.flush fun _ => keeps_bind hI.log fun _ => hI.elsewhere (by intro; rfl) (by intro; rfl)

theorem reset (hI : Steady I) (hseed : Keeps I seed)
    (hdelete : ∀ {s : Machine} (keys : List String), I s → I { s with store := keys.foldl Store.delete s.store }) :
    Keeps I Machine.reset := by
  intro s s' r h hrun
  rw [run_reset] at hrun
  have hstart : I s.swept := hI.same (hdelete _ h) rfl rfl
  exact keeps_bind hseed (fun _ => keeps_bind (hI.elsewhere (by intro; rfl) (by intro; rfl)) fun _ =>
    keeps_bind hI.flush fun _ => hI.log) hstart hrun

/-! ## The clipboard -/

theorem pick (hI : Steady I) {nodes : List NodeId} {kind : PasteKind} {source? : Option Json} :
    Keeps I (Machine.pick nodes kind source?) := by
  refine keeps_get fun s s' r h hrun => keeps_set _ ?_ hI.flush hrun
  exact hI.same h rfl rfl

theorem clearClipboard (hI : Steady I) : Keeps I Machine.clearClipboard :=
  keeps_bind (hI.elsewhere (by intro; rfl) (by intro; rfl)) fun _ => hI.flush

end Steady

/-! ## Furnished invariants -/

namespace Furnished

variable {I J : Machine → Prop}

theorem committed (hI : Furnished I) {message : String} {actor : Json} : Keeps I (Machine.committed message actor) :=
  keeps_bind (hI.elsewhere (by intro; rfl) (by intro; rfl)) fun _ =>
    keeps_bind hI.sync fun _ => keeps_bind hI.log fun _ => hI.flush

/-- What is done to finish a change of the tables begins with the changed tables. -/
theorem administer (hI : Furnished I) {action : String} {user? : Option Json}
    {change : Accounts → Except Fault (Option Accounts)} {finish : Act String}
    (hf : ∀ {a a'}, change a = .ok (some a') → ∀ {s s' r}, I s → s.accounts = a' → finish.run s = (r, s') → I s') :
    Keeps I (Machine.administer action user? change finish) := by
  refine keeps_bind hI.authorize fun actor? => ?_
  cases actor? with
  | none => exact keeps_pure _
  | some actor =>
    intro s s' r h hrun
    rcases askedOf hrun with ⟨e, -, -, rfl⟩ | ⟨accounts?, hchange, hrun⟩
    · exact h
    cases accounts? with
    | none =>
      cases hrun
      exact h
    | some accounts =>
      simp only at hrun
      rw [run_bind, run_modify] at hrun
      have hset : I { s with accounts } := hI.same h rfl rfl
      rcases of_run_bind hrun with ⟨e, hfinish, -⟩ | ⟨message, s₁, hfinish, hrun⟩
      · exact hf hchange hset rfl hfinish
      · exact keeps_bind hI.committed (fun _ => keeps_pure _) (hf hchange hset rfl hfinish) hrun

theorem addUser (hI : Furnished I) {new : NewUser} {user? : Option Json} : Keeps I (Machine.addUser new user?) := by
  refine hI.administer fun {a a'} hchange {s s' r} h haccounts hrun => ?_
  have hrun := Act.got hrun
  split at hrun
  · cases hrun
    exact h
  rename_i u hu
  have hhome : u.Homely := by
    split at hchange
    · cases hchange
    · rename_i hnew
      simp only [Bool.or_eq_true, Bool.not_eq_true', not_or, Bool.not_eq_false] at hnew
      obtain ⟨uid, -, hchange⟩ := bind_ok.1 hchange
      obtain ⟨a₁, hinsert, hchange⟩ := bind_ok.1 hchange
      cases hchange
      have hfound := Accounts.user?_insertUser hinsert
      rw [← haccounts] at hfound
      have hfound : s.accounts.user? new.name = some (new.build uid) := hfound
      rw [hu] at hfound
      cases hfound
      exact ⟨new.name, validName_of_validUserName hnew.1.1, rfl⟩
  split at hrun
  · exact keeps_bind (keeps_discard (hI.home hhome)) (fun _ => keeps_pure _) h hrun
  · cases hrun
    exact h

/-- An administration that does nothing but change the tables. -/
theorem simply (hI : Furnished I) {action message : String} {user? : Option Json}
    {change : Accounts → Except Fault (Option Accounts)} :
    Keeps I (Machine.administer action user? change (pure message)) := hI.administer fun _ _ _ _ h _ hrun => by
  cases hrun
  exact h

/-- Laying out a new system begins with an empty tree, whatever was there before. -/
theorem seeded (hJ : Furnished J) (hblank : J s.blank) {r : Except Fault Unit} (hrun : Machine.seed.run s = (r, s')) : J s' := by
  unfold Machine.seed at hrun
  rw [run_bind, run_modify] at hrun
  dsimp only at hrun
  refine keeps_bind (keeps_forPairs (f := fun path permissions => discard (ensureDirectory path
    { permissions := .str permissions })) fun _ _ hin => keeps_discard (hJ.directory hin)) (fun _ => ?_) hblank hrun
  refine keeps_bind (keeps_for (f := fun c : Command => discard (putSystemFile programsPath c.name
    (Executable.programContent c) Executable.permissions)) fun _ hin => keeps_discard (hJ.program hin)) fun _ => ?_
  refine keeps_bind (keeps_for (f := putAppFile) fun id hid => hJ.app ?_) fun _ => ?_
  · revert id
    decide
  refine keeps_read fun s => keeps_bind (keeps_discard hJ.host) fun _ => ?_
  refine keeps_bind hJ.noteBoot fun _ => keeps_bind hJ.setRootPassword fun _ => ?_
  refine keeps_bind_of hJ.seedUser (fun hrun => homely_seedUser (by decide) hrun) fun u hu => ?_
  refine keeps_bind (keeps_discard (hJ.home hu)) fun _ => keeps_bind hJ.sync fun _ => ?_
  exact keeps_bind hJ.noteBoot fun _ => hJ.log

theorem seed (hJ : Furnished J) (hblank : ∀ {s}, I s → J s.blank) (hback : ∀ {s}, J s → I s) : Keeps I Machine.seed :=
  fun _ _ _ h hrun => hback (hJ.seeded (hblank h) hrun)

end Furnished

end Machine

end SimUnix
