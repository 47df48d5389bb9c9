/-
Systems that differ in the password of one user only, in the table of users and in its record. Whatever is
asked and done for anyone but someone who gives a password, is answered alike by both, and leaves them such
a pair.
-/
import SimUnix.Machine.Administration
import SimUnix.Machine.Relocation
import SimUnix.Proofs.Account.Twin
import SimUnix.Proofs.Machine.Aside
import SimUnix.Proofs.Paired

namespace SimUnix

variable {target : String}

/-! ## Stores -/

namespace Keyed

variable {κ α : Type} [DecidableEq κ] {R : κ → α → α → Prop} {k : κ} {v w : α}

/-- Tables with the same keys in the same order, whose values are related. -/
def Pairs (R : κ → α → α → Prop) (s t : Keyed κ α) : Prop := List.Forall₂ (fun p q => p.1 = q.1 ∧ R p.1 p.2 q.2) s t

theorem Pairs.put (hv : R k v w) {s t : Keyed κ α} (h : s.Pairs R t) : (s.put k v).Pairs R (t.put k w) := by
  induction h with
  | nil => exact .cons ⟨rfl, hv⟩ .nil
  | @cons p q _ _ hpq hst ih =>
    obtain ⟨l, x⟩ := p
    obtain ⟨_, y⟩ := q
    obtain ⟨heq, hx⟩ := hpq
    cases heq
    unfold Keyed.put
    split
    · rename_i hl
      cases beq_iff_eq.1 hl
      exact .cons ⟨rfl, hv⟩ hst
    · exact .cons ⟨rfl, hx⟩ ih

theorem Pairs.drop {s t : Keyed κ α} (h : s.Pairs R t) : (s.drop k).Pairs R (t.drop k) := by
  induction h with
  | nil => exact .nil
  | @cons p q _ _ hpq hst ih =>
    obtain ⟨l, x⟩ := p
    obtain ⟨_, y⟩ := q
    obtain ⟨heq, hx⟩ := hpq
    cases heq
    unfold Keyed.drop
    split
    · exact hst
    · exact .cons ⟨rfl, hx⟩ ih

theorem Pairs.get? (hk : ∀ v w, R k v w → v = w) : ∀ {s t : Keyed κ α}, s.Pairs R t → t.get? k = s.get? k
  | _, _, .nil => rfl
  | (l, x) :: s, (_, y) :: t, .cons ⟨heq, hx⟩ hst => by
    cases heq
    have ih := Pairs.get? hk hst
    unfold Keyed.get? at ih ⊢
    rw [List.lookup_cons, List.lookup_cons, ih]
    by_cases hl : k = l
    · cases hl
      rw [hk x y hx]
    · rw [beq_false_of_ne hl]

end Keyed

namespace Store

/-- Records of the users that differ in the password of one of them only. -/
def UsersRecord (target : String) (v w : Json) : Prop :=
  ∃ a b : Accounts, a.Twin target b ∧ a.usersJson = .ok v ∧ b.usersJson = .ok w

/-- Stores that differ in such a record only. -/
inductive Twin (target : String) : Store → Store → Prop
  | memory {r r' : Keyed String Json} (h : r.Pairs (fun key v w => v = w ∨ key = usersKey ∧ UsersRecord target v w) r') :
      Twin target (.memory r) (.memory r')
  | files {path : String} {f f' : Keyed String String}
      (h : f.Pairs (fun name t u => t = u ∨ name = fileName usersKey ∧
        ∃ v w, UsersRecord target v w ∧ t = v.toText ∧ u = w.toText) f') :
      Twin target (.files { path, files := f }) (.files { path, files := f' })

variable {σ τ : Store} {key : String} {v w : Json}

theorem Twin.refl : ∀ σ : Store, Twin target σ σ
  | .memory _ => .memory (List.forall₂_same.2 fun _ _ => ⟨rfl, .inl rfl⟩)
  | .files { path := _, files := _ } => .files (List.forall₂_same.2 fun _ _ => ⟨rfl, .inl rfl⟩)

theorem Twin.set (h : σ.Twin target τ) (hv : v = w ∨ key = usersKey ∧ UsersRecord target v w) :
    (σ.set key v).Twin target (τ.set key w) := by
  cases h with
  | memory h => exact .memory (h.put hv)
  | files h =>
    refine .files (h.drop.put ?_)
    rcases hv with rfl | ⟨rfl, hvw⟩
    · exact .inl rfl
    · exact .inr ⟨rfl, v, w, hvw, rfl, rfl⟩

theorem Twin.takesName (h : σ.Twin target τ) (name : String) : τ.takesName name = σ.takesName name := by
  cases h <;> rfl

/-- Every other record is the same in both. -/
theorem Twin.get (h : σ.Twin target τ) (hkey : key ≠ usersKey) (hfile : fileName key ≠ fileName usersKey) :
    τ.get key = σ.get key := by
  unfold Store.get
  rw [h.takesName]
  cases h with
  | memory h =>
    dsimp only
    rw [h.get? fun _ _ hvw => hvw.resolve_right fun hk => hkey hk.1]
  | files h =>
    dsimp only
    rw [h.get? fun _ _ htu => htu.resolve_right fun hn => hfile hn.1]

/-- A record that is written alike to both. -/
theorem Twin.write (h : σ.Twin target τ) (key : String) (value : Json) :
    (∃ e, σ.write key value = .error e ∧ τ.write key value = .error e) ∨
      ∃ σ' τ', σ.write key value = .ok σ' ∧ τ.write key value = .ok τ' ∧ σ'.Twin target τ' := by
  unfold Store.write
  rw [h.takesName]
  split
  · exact .inr ⟨_, _, rfl, rfl, h.set (.inl rfl)⟩
  · exact .inl ⟨_, rfl, rfl⟩

end Store

/-! ## Systems -/

namespace Machine

/-- Systems that differ in the password of one user only, in the table and in its record. -/
structure Twin (target : String) (s s' : Machine) : Prop where
  same : s' = { s with accounts := s'.accounts, store := s'.store }
  accounts : s.accounts.Twin target s'.accounts
  store : s.store.Twin target s'.store

variable {s s' : Machine}

theorem Twin.refl (s : Machine) : s.Twin target s := ⟨rfl, .refl _, .refl _⟩

/-- A change that has nothing to do with the tables and the records. -/
theorem Twin.change (h : s.Twin target s') (f : Machine → Machine)
    (hf : ∀ (s : Machine) (accounts : Accounts) (store : Store),
      f { s with accounts, store } = { f s with accounts, store }) : (f s).Twin target (f s') := by
  have hkept : ∀ s : Machine, f s = { f s with accounts := s.accounts, store := s.store } := fun s => hf s s.accounts s.store
  have haccounts : ∀ s : Machine, (f s).accounts = s.accounts := fun s => by rw [hkept]
  have hstore : ∀ s : Machine, (f s).store = s.store := fun s => by rw [hkept]
  refine ⟨?_, ?_, ?_⟩
  · rw [haccounts, hstore, ← hf, ← h.same]
  · rw [haccounts, haccounts]
    exact h.accounts
  · rw [hstore, hstore]
    exact h.store

/-- A change of the tables that does not look at passwords. -/
theorem Twin.withAccounts (h : s.Twin target s') {a b : Accounts} (hab : a.Twin target b) :
    Twin target { s with accounts := a } { s' with accounts := b } := by
  refine ⟨?_, hab, h.store⟩
  rw [h.same]

theorem Twin.withStore (h : s.Twin target s') {σ τ : Store} (hστ : σ.Twin target τ) :
    Twin target { s with store := σ } { s' with store := τ } := by
  refine ⟨?_, h.accounts, hστ⟩
  rw [h.same]

theorem Twin.withTree (h : s.Twin target s') {t t' : Tree} (ht : t' = t) :
    Twin target { s with tree := t } { s' with tree := t' } := by
  refine ⟨?_, h.accounts, h.store⟩
  rw [h.same, ht]

/-! ## Questions -/

section

variable (h : s.Twin target s')

include h

theorem Twin.tree : s'.tree = s.tree := by rw [h.same]

theorem Twin.now : s'.now = s.now := by rw [h.same]

theorem Twin.log : s'.log = s.log := by rw [h.same]

theorem Twin.phase : s'.phase = s.phase := by rw [h.same]

theorem Twin.safeMode : s'.safeMode = s.safeMode := by rw [h.same]

theorem Twin.developerMode : s'.developerMode = s.developerMode := by rw [h.same]

theorem Twin.currentUser : s'.currentUser = s.currentUser := by rw [h.same]

theorem Twin.actor (user? : Option Json) : s'.actor user? = s.actor user? := by
  unfold Machine.actor
  rw [h.currentUser]

theorem Twin.petitioner (user? : Option Json) : s'.petitioner user? = s.petitioner user? := by
  unfold Machine.petitioner
  rw [h.currentUser]

theorem Twin.can (n : Node) (access : Access) (user? : Option Json) : s'.can n access user? = s.can n access user? := by
  unfold Machine.can
  rw [h.actor, h.accounts.subject, h.safeMode]

theorem Twin.mayAdminister (name : Json) : s'.mayAdminister name = s.mayAdminister name := by
  unfold Machine.mayAdminister
  split
  · rfl
  · rcases results_of_map (h.accounts.find name User.isAdmin fun _ => rfl) with ⟨e, ha, hb⟩ | ⟨u?, v?, ha, hb, hadmin⟩
    · rw [ha, hb]
    · have hany : ∀ w? : Option User, w?.any User.isAdmin = (w?.map User.isAdmin).any id := by
        intro w?
        cases w? <;> rfl
      rw [ha, hb]
      show Except.ok _ = Except.ok _
      rw [hany, hadmin, ← hany]

theorem Twin.primaryGroup (user : Json) : s'.primaryGroup user = s.primaryGroup user := by
  unfold Machine.primaryGroup
  rcases h.accounts.user? user with ⟨ha, hb⟩ | ⟨u, v, ha, hb, huv⟩
  · rw [ha, hb]
  · rw [ha, hb]
    dsimp only
    rw [h.accounts.groupName, huv.same User.gid fun _ => rfl]

theorem Twin.homePath (user? : Option Json) : s'.homePath user? = s.homePath user? := by
  unfold Machine.homePath
  rw [h.actor]
  dsimp only
  rcases results_of_map (h.accounts.find (s.actor user?) User.home fun _ => rfl) with ⟨e, ha, hb⟩ | ⟨u?, v?, ha, hb, hhome⟩
  · rw [ha, hb]
  · rw [ha, hb]
    cases u? with
    | none =>
      rw [Option.map_none, Option.map_eq_none_iff] at hhome
      rw [hhome]
    | some u =>
      obtain ⟨v, rfl, hv⟩ := Option.map_eq_some_iff.1 hhome
      exact congrArg Except.ok hv

theorem Twin.trashPath (user? : Option Json) : s'.trashPath user? = s.trashPath user? := by
  unfold Machine.trashPath
  rw [h.homePath]

theorem Twin.resolve (path : String) (user? : Option Json) (cwd? : Option String) :
    s'.resolve path user? cwd? = s.resolve path user? cwd? := by
  unfold Machine.resolve
  rw [h.homePath]

theorem Twin.nodeAt (path : String) (user? : Option Json) : s'.nodeAt path user? = s.nodeAt path user? := by
  unfold Machine.nodeAt
  rw [h.resolve, h.tree]

theorem Twin.pathExists (path : String) (user? : Option Json) : s'.pathExists path user? = s.pathExists path user? := by
  unfold Machine.pathExists
  rw [h.nodeAt]

theorem Twin.listDirectory (path : String) (user? : Option Json) : s'.listDirectory path user? = s.listDirectory path user? := by
  unfold Machine.listDirectory
  simp only [h.nodeAt, h.can, h.tree]

theorem Twin.fileContent (path : String) (user? : Option Json) : s'.fileContent path user? = s.fileContent path user? := by
  unfold Machine.fileContent
  simp only [h.nodeAt, h.can]

theorem Twin.obstacle? (path : String) (user? : Option Json) (access : Access) :
    s'.obstacle? path user? access = s.obstacle? path user? access := by
  unfold Machine.obstacle?
  simp only [h.nodeAt, h.can]

theorem Twin.hostname : s'.hostname = s.hostname := by
  unfold Machine.hostname
  rw [h.tree, show s'.defaultHostname = s.defaultHostname by rw [h.same]]

theorem Twin.createVerdict (parentPath name : String) (user? : Option Json) :
    createVerdict parentPath name user? s' = createVerdict parentPath name user? s := by
  unfold Machine.createVerdict
  simp only [h.nodeAt, h.can, h.tree]

theorem Twin.writeVerdict (n : Node) (resolved : String) (user? : Option Json) :
    writeVerdict n resolved user? s' = writeVerdict n resolved user? s := by
  unfold Machine.writeVerdict
  simp only [h.can]

theorem Twin.removeVerdict (what path : String) (user? : Option Json) :
    removeVerdict what path user? s' = removeVerdict what path user? s := by
  unfold Machine.removeVerdict
  simp only [h.nodeAt, h.can, h.tree]

theorem Twin.chmodVerdict (path mode : String) (user? : Option Json) :
    chmodVerdict path mode user? s' = chmodVerdict path mode user? s := by
  unfold Machine.chmodVerdict
  simp only [h.nodeAt, h.actor, h.safeMode, h.tree]

theorem Twin.chownVerdict (path owner : String) (group? : Option String) (user? : Option Json) :
    chownVerdict path owner group? user? s' = chownVerdict path owner group? user? s := by
  have hnone : ∀ name : Json, (s'.accounts.user? name).isNone = (s.accounts.user? name).isNone := by
    intro name
    rw [← Option.not_isSome, ← Option.not_isSome, h.accounts.isSome]
  unfold Machine.chownVerdict
  simp only [h.nodeAt, h.actor, h.safeMode, h.tree, hnone, h.accounts.group?]

theorem Twin.relocateVerdict (n dest : Node) (name : Json) (user? source? : Option Json) :
    relocateVerdict n dest name user? source? s' = relocateVerdict n dest name user? source? s := by
  unfold Machine.relocateVerdict
  simp only [h.can, h.tree]

theorem Twin.copyVerdict (id : NodeId) (destPath : String) (user? source? : Option Json) (name? : Option String) :
    copyVerdict id destPath user? source? name? s' = copyVerdict id destPath user? source? name? s := by
  unfold Machine.copyVerdict Machine.copyName
  simp only [h.nodeAt, h.can, h.tree]

end

end Machine

end SimUnix
