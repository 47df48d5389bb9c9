/-
Safe mode is a freeze. Nobody may write to any node, administrators and root are refused whatever they
ask for, and what is left to do, such as logging in or picking nodes, touches neither the tree nor the
tables nor the applications.
-/
import SimUnix.Proofs.Machine.Authority

namespace SimUnix.Machine

open Tree Act

variable {s s₀ s₁ s' : Machine} {user? source? leaver? : Option Json} {keepers : NodeId → Prop}

/-! ## Files -/

/-- In safe mode there is no permission to write. -/
theorem not_allows_write (h : s.safeMode = true) {n : Node} : ¬ s.Allows n .write user? := by
  intro hmay
  obtain ⟨subject, -, hallows⟩ := bind_ok.1 hmay
  unfold Permission.allows at hallows
  rw [h] at hallows
  cases hallows

/-- No relink is made in safe mode, as each of them adds to a directory or takes from one. -/
theorem Relink.unsafe_mode {t : Tree} (hr : Relink keepers s user? leaver? t) : s.safeMode = false := by
  by_contra h
  have hno : ∀ {n : Node} {user? : Option Json}, ¬ s.Allows n .write user? := not_allows_write (by simpa using h)
  cases hr with
  | create _ _ _ _ _ _ may => exact hno may
  | move _ _ _ _ _ _ _ _ may => exact hno may
  | remove _ _ may => exact hno may
  | copy _ _ _ _ _ _ may => exact hno may
  | strand _ may => exact hno may

theorem Revision.unsafe_mode {t : Tree} (hr : Revision s user? t) : s.safeMode = false := by
  cases hr with
  | write _ _ may =>
    by_contra h
    exact not_allows_write (by simpa using h) may
  | chmod _ calm => exact calm
  | chown _ calm => exact calm

theorem Relinks.frozen (h : s.safeMode = true) (hr : Relinks keepers user? leaver? s s') : s.Aside s' := by
  induction hr with
  | refl => exact .refl s
  | aside _ ha ih => exact ih.trans ha
  | relink hbefore hrel _ =>
    -- the mode is still that of the beginning, since nothing before has changed it
    have hsafe := hrel.unsafe_mode
    rw [hbefore.alike.safeMode, h] at hsafe
    cases hsafe

/-- Calls that change files do nothing but logging in safe mode. -/
theorem Trail.frozen (h : s.safeMode = true) (hr : Trail keepers user? leaver? s s') : s.Aside s' := by
  rcases hr with hr | ⟨t, hrev, -⟩
  · exact hr.frozen h
  · have hsafe := hrev.unsafe_mode
    rw [h] at hsafe
    cases hsafe

/-! ## What stands -/

/-- A system in safe mode with the tree, the tables and the applications of another one. -/
structure Stands (s₀ s : Machine) : Prop where
  tree : s.tree = s₀.tree
  accounts : s.accounts = s₀.accounts
  apps : s.apps = s₀.apps
  safeMode : s.safeMode = true

theorem Stands.refl (h : s.safeMode = true) : Stands s s := ⟨rfl, rfl, rfl, h⟩

theorem Stands.idle (h : Stands s₀ s) (hi : s.Idle s') : Stands s₀ s' := by
  rw [hi.same]
  exact ⟨h.tree, h.accounts, h.apps, h.safeMode⟩

theorem stands_log {level : Level} {source message : String} {user : Json} :
    Keeps (Stands s₀) (Act.log level source message user) := keeps_log fun h ha => h.idle ha.idle

theorem stands_flush : Keeps (Stands s₀) Act.flush := fun _ _ _ h hrun => h.idle (aside_flush hrun).idle

/-- A change of something else. -/
theorem stands_modify {f : Machine → Machine} (ht : ∀ s, (f s).tree = s.tree) (ha : ∀ s, (f s).accounts = s.accounts)
    (hp : ∀ s, (f s).apps = s.apps) (hs : ∀ s, s.safeMode = true → (f s).safeMode = true) : Keeps (Stands s₀) (modify f) :=
  keeps_modify fun s h => ⟨(ht s).trans h.tree, (ha s).trans h.accounts, (hp s).trans h.apps, hs s h.safeMode⟩

theorem stands_call (hl : Linked s₀.tree) {c : FileCall} : Keeps (Stands s₀) (c.run user? source?) := fun _ _ _ h hrun =>
  h.idle ((c.trail (h.tree ▸ hl) hrun).frozen h.safeMode).idle

/-! ## Sessions and the clipboard -/

theorem stands_setSessionUser {name? : Option String} : Keeps (Stands s₀) (setSessionUser name?) :=
  keeps_bind (stands_modify (by intro; rfl) (by intro; rfl) (by intro; rfl) fun _ h => h) fun _ => stands_flush

theorem stands_login {user password : String} : Keeps (Stands s₀) (login user password) := by
  refine keeps_read fun s => ?_
  split
  · exact keeps_bind stands_setSessionUser fun _ => keeps_bind stands_log fun _ => keeps_pure _
  · exact keeps_bind stands_log fun _ => keeps_pure _

theorem stands_logout : Keeps (Stands s₀) logout := by
  refine keeps_read fun s => keeps_bind stands_setSessionUser fun _ => ?_
  split
  · exact keeps_pure _
  · exact stands_log

theorem stands_clearClipboard : Keeps (Stands s₀) clearClipboard :=
  keeps_bind (stands_modify (by intro; rfl) (by intro; rfl) (by intro; rfl) fun _ h => h) fun _ => stands_flush

theorem stands_pick {nodes : List NodeId} {kind : PasteKind} : Keeps (Stands s₀) (pick nodes kind user?) := by
  refine keeps_get fun s s' r h hrun => ?_
  rw [run_bind, run_set] at hrun
  have hset : Stands s₀ { s with clipboard := { items := nodes.map fun node => { node, user := s.actor user? }, kind } } :=
    ⟨h.tree, h.accounts, h.apps, h.safeMode⟩
  exact stands_flush hset hrun

theorem stands_pasteItems (hl : Linked s₀.tree) {kind : PasteKind} {dir : String} : ∀ {items : List ClipboardItem},
    Keeps (Stands s₀) (pasteItems kind dir user? items)
  | [] => keeps_pure _
  | i :: rest => by
    refine keeps_bind (fun _ _ _ h hrun => ?_) fun _ => keeps_bind (stands_pasteItems hl) fun _ => keeps_pure _
    exact h.idle ((trail_pasteItem (h.tree ▸ hl) hrun).frozen h.safeMode).idle

theorem stands_paste (hl : Linked s₀.tree) {dir : String} : Keeps (Stands s₀) (paste dir user?) := by
  refine keeps_read fun s => keeps_bind (stands_pasteItems hl) fun count => ?_
  split
  · exact keeps_bind stands_clearClipboard fun _ => keeps_pure _
  · exact keeps_pure _

/-! ## Refusals -/

/-- Nobody is authorized to change the tables. -/
theorem stands_administer {action : String} {change : Accounts → Except Fault (Option Accounts)} {finish : Act String} :
    Keeps (Stands s₀) (administer action user? change finish) := by
  intro s s' r h hrun
  have hauth : (authorize action user?).run s = (.ok none, s.logged .warning "auth" s!"{action} refused: safe mode"
      (if (s.petitioner user?).truthy then s.petitioner user? else "?")) := by
    unfold authorize
    rw [run_bind, run_get]
    simp only [h.safeMode, if_true]
    rw [run_bind, run_log]
    rfl
  unfold administer at hrun
  rw [run_bind, hauth] at hrun
  cases hrun
  exact h.idle aside_logged.idle

/-- Nobody may change the applications. -/
theorem stands_mayManageApps {action : String} {r : Except Fault Bool} (h : Stands s₀ s)
    (hrun : (mayManageApps action user?).run s = (r, s')) : Stands s₀ s' ∧ r ≠ .ok true := by
  rcases asked (got hrun) with ⟨e, -, rfl, rfl⟩ | ⟨found?, -, hrun⟩
  · exact ⟨h, by simp⟩
  · rw [h.safeMode] at hrun
    simp only [Bool.true_or, if_true] at hrun
    cases hrun
    exact ⟨h.idle aside_logged.idle, by simp⟩

/-- An action that asks whether applications may be changed does nothing else. -/
theorem stands_asking {action : String} {next : Bool → Act Bool} (hn : next false = pure false) :
    Keeps (Stands s₀) (mayManageApps action user? >>= next) := by
  intro s s' r h hrun
  rcases of_run_bind hrun with ⟨e, hmay, -⟩ | ⟨may, s₁, hmay, hrun⟩
  · exact (stands_mayManageApps h hmay).1
  obtain ⟨h₁, hno⟩ := stands_mayManageApps h hmay
  cases may with
  | false =>
    rw [hn] at hrun
    cases hrun
    exact h₁
  | true => exact absurd rfl hno

theorem stands_installApp {id : String} : Keeps (Stands s₀) (installApp id user?) := by
  refine keeps_read fun s => ?_
  split
  · exact keeps_pure _
  · exact stands_asking rfl

theorem stands_uninstallApp {id : String} : Keeps (Stands s₀) (uninstallApp id user?) := by
  refine keeps_read fun s => ?_
  split
  · exact keeps_pure _
  · exact stands_asking rfl

/-! ## Integrity -/

theorem stands_enterSafeMode {report : IntegrityReport} : Keeps (Stands s₀) (enterSafeMode report) :=
  keeps_bind (stands_modify (by intro; rfl) (by intro; rfl) (by intro; rfl) fun _ _ => rfl) fun _ => stands_flush

theorem safeMode_enterSafeMode {report : IntegrityReport} {r : Except Fault Unit} {s s' : Machine}
    (hrun : (enterSafeMode report).run s = (r, s')) : s'.safeMode = true := by
  unfold enterSafeMode at hrun
  rw [run_bind, run_modify] at hrun
  rw [(aside_flush hrun).same]

theorem stands_checkIntegrity : Keeps (Stands s₀) checkIntegrity := by
  refine keeps_read fun s => ?_
  split
  · exact keeps_pure _
  · refine keeps_bind (keeps_ofExcept _) fun report => ?_
    split
    · refine keeps_bind (stands_modify (by intro; rfl) (by intro; rfl) (by intro; rfl) fun _ h => h) fun _ => ?_
      exact keeps_bind stands_enterSafeMode fun _ => keeps_bind (keeps_for fun _ _ => stands_log) fun _ => keeps_pure _
    · exact keeps_pure _

/-! ## Operations -/

/-- The operations that are performed on request. The others are those by which the system works on its own
files and tables without asking anyone's permission, starts and stops, or is reset. -/
def Operation.Requested : Operation → Prop
  | ensureDirectory _ _ | putSystemFile _ _ _ _ | createHome _ | setRootPassword _ | resetAccounts | loadAccounts _ _
  | syncFiles | boot | shutdown | reset => False
  | _ => True

/-- In safe mode, no operation on request changes the tree, the tables or the applications, or ends it. -/
theorem Operation.stands {op : Operation} (hop : op.Requested) (hl : Linked s₀.tree) : Keeps (Stands s₀) op.run := by
  cases op
  case file => exact keeps_discard (stands_call hl)
  case pick => exact stands_pick
  case clearClipboard => exact stands_clearClipboard
  case paste => exact keeps_discard (stands_paste hl)
  case login => exact keeps_discard stands_login
  case logout => exact stands_logout
  case addUser => exact keeps_discard stands_administer
  case updateUser => exact keeps_discard stands_administer
  case deleteUser => exact keeps_discard stands_administer
  case addGroup => exact keeps_discard stands_administer
  case addToGroup => exact keeps_discard stands_administer
  case removeFromGroup => exact keeps_discard stands_administer
  case deleteGroup => exact keeps_discard stands_administer
  case installApp => exact keeps_discard stands_installApp
  case uninstallApp => exact keeps_discard stands_uninstallApp
  case checkIntegrity => exact keeps_discard stands_checkIntegrity
  case enterSafeMode => exact stands_enterSafeMode
  case flush => exact stands_flush
  case clock => exact stands_modify (by intro; rfl) (by intro; rfl) (by intro; rfl) fun _ h => h
  all_goals exact hop.elim

end SimUnix.Machine
