/-
What a system does to its store: it writes records, and on a reset it removes some. A property of stores that both
keep holds whatever is done to a sound system.
-/
import SimUnix.Proofs.Machine.Story

namespace SimUnix

/-- A property of stores that is kept when records are written and removed. -/
structure Store.Stable (Q : Store → Prop) : Prop where
  set : ∀ {store : Store} {key : String} {v : Json}, Q store → Q (store.set key v)
  delete : ∀ {store : Store} {key : String}, Q store → Q (store.delete key)

namespace Store.Stable

variable {Q : Store → Prop} {a b : Store}

theorem saves (hQ : Stable Q) {t : Tree} (h : Q a) (hs : Saves t a b) : Q b := by
  induction hs with
  | refl => exact h
  | tree _ ih => exact hQ.set ih
  | other _ _ ih => exact hQ.set ih

theorem deletes (hQ : Stable Q) {keys : List String} (h : Q a) : Q (keys.foldl Store.delete a) := by
  induction keys generalizing a with
  | nil => exact h
  | cons key keys ih => exact ih (hQ.delete h)

end Store.Stable

namespace Machine

open Tree Act

variable {Q : Store → Prop} {s s' : Machine} {α : Type} {user? : Option Json}

/-- A sound system on a store with a property. -/
structure Stocked (Q : Store → Prop) (s : Machine) : Prop where
  sound : s.Sound
  stock : Q s.store

variable (hQ : Store.Stable Q)
include hQ

theorem steady_stocked : Steady (Stocked Q) where
  linked h := h.sound.linked
  same h ht hs := ⟨h.sound.same ht hs, hs ▸ h.stock⟩
  aside h ha := ⟨h.sound.aside ha, hQ.saves h.stock ha.saves⟩

omit hQ in
/-- The work of the system on its own files leaves the store alone. -/
theorem stocked_own {m : Act α} (hs : Keeps Sound m) (hm : ∀ s₀, Keeps (OnlyTree s₀) m) : Keeps (Stocked Q) m := fun _ _ _ h hrun =>
  ⟨hs h.sound hrun, keeps_of_onlyTree (I := fun s => Q s.store) hm (fun h => h) h.stock hrun⟩

theorem furnished_stocked : Furnished (Stocked Q) where
  toSteady := steady_stocked hQ
  directory _ := stocked_own sound_ensureDirectory fun _ => onlyTree_ensureDirectory
  program _ := stocked_own sound_putSystemFile fun _ => onlyTree_putSystemFile
  app _ := keeps_discard (stocked_own sound_putSystemFile fun _ => onlyTree_putSystemFile)
  host := fun {_} => stocked_own sound_putSystemFile fun _ => onlyTree_putSystemFile
  home _ := stocked_own sound_createHome fun _ => onlyTree_createHome
  sync := stocked_own sound_syncFiles fun _ => onlyTree_syncFiles

theorem Trail.stocked {keepers : NodeId → Prop} {leaver? : Option Json} (h : s.Stocked Q) (hr : Trail keepers user? leaver? s s') :
    s'.Stocked Q := by
  refine ⟨hr.sound h.sound, ?_⟩
  rcases hr with hr | ⟨t, -, ha⟩
  · induction hr with
    | refl => exact h.stock
    | aside _ ha ih => exact hQ.saves ih ha.saves
    | relink _ _ ih => exact ih
  · exact hQ.saves h.stock ha.saves

theorem stocked_pasteItems {kind : PasteKind} {dir : String} (items : List ClipboardItem) :
    Keeps (Stocked Q) (pasteItems kind dir user? items) := by
  induction items with
  | nil => exact keeps_pure _
  | cons item rest ih =>
    refine keeps_bind (fun s s' r h hrun => ?_) fun _ => keeps_bind ih fun _ => keeps_pure _
    exact Trail.stocked hQ h (.inl (trail_pasteItem h.sound.linked hrun))

theorem stocked_paste {dir : String} : Keeps (Stocked Q) (paste dir user?) := by
  refine keeps_read fun s => keeps_bind (stocked_pasteItems hQ _) fun count => ?_
  split
  · exact keeps_bind (steady_stocked hQ).clearClipboard fun _ => keeps_pure _
  · exact keeps_pure _

theorem stocked_seed : Keeps (Stocked Q) seed :=
  (furnished_stocked hQ).seed (fun h => (⟨h.sound.blank, h.stock⟩ : Stocked Q _)) id

theorem stocked_boot : Keeps (Stocked Q) boot :=
  (steady_stocked hQ).boot (fun h hget hof => ⟨restoring_sound h.sound hget hof, h.stock⟩) (stocked_seed hQ)

theorem stocked_reset : Keeps (Stocked Q) reset :=
  (steady_stocked hQ).reset (stocked_seed hQ) fun _ h =>
    ⟨⟨h.sound.linked, h.sound.gathered, h.sound.restores.deletes⟩, hQ.deletes h.stock⟩

/-- Every operation keeps what is kept by writing and removing records. -/
theorem Operation.stocked (op : Operation) : Keeps (Stocked Q) op.run := by
  have hs := steady_stocked hQ
  have hf := furnished_stocked hQ
  cases op with
  | file c user? source? => exact keeps_discard fun _ _ _ h hrun => Trail.stocked hQ h (c.trail h.sound.linked hrun)
  | ensureDirectory path style => exact keeps_discard (stocked_own sound_ensureDirectory fun _ => onlyTree_ensureDirectory)
  | putSystemFile dir name content permissions =>
    exact keeps_discard (stocked_own sound_putSystemFile fun _ => onlyTree_putSystemFile)
  | createHome u => exact keeps_discard (stocked_own sound_createHome fun _ => onlyTree_createHome)
  | pick nodes kind source? => exact hs.pick
  | clearClipboard => exact hs.clearClipboard
  | paste dir user? => exact keeps_discard (stocked_paste hQ)
  | login user password => exact keeps_discard hs.login
  | logout => exact hs.logout
  | addUser new user? => exact keeps_discard hf.addUser
  | updateUser name change user? => exact keeps_discard hf.simply
  | deleteUser name user? => exact keeps_discard hf.simply
  | addGroup name members user? => exact keeps_discard hf.simply
  | addToGroup user group user? => exact keeps_discard hf.simply
  | removeFromGroup user group user? => exact keeps_discard hf.simply
  | deleteGroup name user? => exact keeps_discard hf.simply
  | setRootPassword password => exact hs.setRootPassword
  | resetAccounts => exact hs.elsewhere (by intro; rfl) (by intro; rfl)
  | loadAccounts users groups => exact hs.loadAccounts
  | syncFiles => exact hf.sync
  | installApp id user? =>
    exact keeps_discard (hs.installApp fun _ _ => keeps_discard (stocked_own sound_putSystemFile fun _ => onlyTree_putSystemFile))
  | uninstallApp id user? =>
    exact keeps_discard (hs.uninstallApp fun h hn hp hgone => ⟨sound_removed h.sound hn hp hgone, h.stock⟩)
  | checkIntegrity => exact keeps_discard hs.checkIntegrity
  | enterSafeMode report => exact hs.enterSafeMode
  | flush => exact hs.flush
  | boot => exact stocked_boot hQ
  | shutdown => exact hs.shutdown
  | reset => exact stocked_reset hQ
  | clock now => exact hs.elsewhere (by intro; rfl) (by intro; rfl)

/-- So does every story. -/
theorem Leads.stocked {allowed : Operation → Prop} (hs : s.Stocked Q) (h : Leads allowed s s') : s'.Stocked Q := by
  induction h with
  | refl => exact hs
  | idle _ hi ih => exact ⟨hi.sound ih.sound, hQ.saves ih.stock hi.saves⟩
  | @perform _ _ op _ _ _ run ih => exact op.stocked hQ ih run
  | restart _ _ stop start ih =>
    have hstopped := (steady_stocked hQ).shutdown ih stop
    have hanew : Stocked Q (anew _) := ⟨hstopped.sound.anew, hstopped.stock⟩
    exact stocked_boot hQ hanew start
  | reboot _ _ stop start ih => exact stocked_boot hQ ((steady_stocked hQ).shutdown ih stop) start

end Machine

end SimUnix
