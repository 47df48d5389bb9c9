/-
Systems that differ in ids and times only. A new system is laid out in the same way wherever it begins: what is
done in one place to lay it out is done in another place, too, under other ids and at another time, so that the
two systems look alike in the end.
-/
import SimUnix.Proofs.Machine.FirstStart
import SimUnix.Proofs.Paired
import SimUnix.Proofs.Tree.Alike

namespace SimUnix.Machine

open Tree Act

variable {P : NodeId → NodeId → Prop} {α β γ δ : Type} {s s' t : Machine} {parent parent' : NodeId}

/-- Two systems whose trees are alike, and which have all else in common but their supplies, records, logs and clocks. -/
structure Lookalike (P : NodeId → NodeId → Prop) (s s' : Machine) : Prop where
  tree : s.tree.Alike P s'.tree
  rest : s' = { s with tree := s'.tree, store := s'.store, log := s'.log, bootLog := s'.bootLog, now := s'.now }

/-- Two such systems that will go on to take paired ids. -/
structure Apace (P : NodeId → NodeId → Prop) (s s' : Machine) : Prop where
  tree : s.tree.Apace P s'.tree
  rest : s' = { s with tree := s'.tree, store := s'.store, log := s'.log, bootLog := s'.bootLog, now := s'.now }

theorem Apace.accounts (h : s.Apace P s') : s'.accounts = s.accounts := by rw [h.rest]

theorem Apace.defaultHostname (h : s.Apace P s') : s'.defaultHostname = s.defaultHostname := by rw [h.rest]

theorem Apace.withTree (h : s.Apace P s') {t t' : Tree} (ht : t.Apace P t') :
    Apace P { s with tree := t } { s' with tree := t' } := by
  refine ⟨ht, ?_⟩
  dsimp only
  rw [h.rest]

theorem Apace.withAccounts (h : s.Apace P s') (a : Accounts) : Apace P { s with accounts := a } { s' with accounts := a } := by
  refine ⟨h.tree, ?_⟩
  dsimp only
  rw [h.rest]

/-! ## Questions and changes -/

/-- A question that both systems answer alike. -/
theorem shadows_given {R : Machine → Machine → Prop} {Q : α → β → Prop} {S : γ → δ → Prop} {x : Except Fault α} {x' : Except Fault β}
    {f : α → Act γ} {f' : β → Act δ} (hx : ∀ {a}, x = .ok a → ∃ b, x' = .ok b ∧ Q a b)
    (hf : ∀ {a b}, Q a b → Shadows R S (f a) (f' b)) : Shadows R S (Act.ofExcept x >>= f) (Act.ofExcept x' >>= f') := by
  refine Shadows.bind (Q := Q) (fun s s' t a hR hrun => ?_) hf
  rw [run_ofExcept] at hrun
  cases hrun
  obtain ⟨b, hb, hab⟩ := hx rfl
  exact ⟨b, s', by rw [run_ofExcept, hb], hab, hR⟩

/-- A question with the same answer in both systems. -/
theorem shadows_same {R : Machine → Machine → Prop} {S : γ → δ → Prop} {x x' : Except Fault α} {f : α → Act γ} {f' : α → Act δ}
    (hx : x' = x) (hf : ∀ a, Shadows R S (f a) (f' a)) : Shadows R S (Act.ofExcept x >>= f) (Act.ofExcept x' >>= f') :=
  shadows_given (Q := Eq) (fun {a} h => ⟨a, hx.trans h, rfl⟩) fun {a _} hab => hab ▸ hf a

theorem shadows_editTree {change change' : Tree → Tree}
    (hc : ∀ {t t' : Tree}, t.Apace P t' → (change t).Apace P (change' t')) :
    Shadows (Apace P) Whatever (editTree change) (editTree change') := .change fun h => h.withTree (hc h.tree)

/-- The logs of the two systems may tell different things. -/
theorem shadows_note {f : Machine → Machine} (hf : ∀ s, f s = { s with log := (f s).log, bootLog := (f s).bootLog }) :
    Shadows (Apace P) Whatever (modify f) (modify f) := by
  refine .change fun {s s'} h => ?_
  rw [hf s, hf s']
  refine ⟨h.tree, ?_⟩
  dsimp only
  rw [h.rest]

theorem shadows_noteBoot {line : String} : Shadows (Apace P) Whatever (noteBoot line) (noteBoot line) := shadows_note fun _ => rfl

theorem shadows_log {level : Level} {source message : String} {user : Json} :
    Shadows (Apace P) Whatever (Act.log level source message user) (Act.log level source message user) := shadows_note fun _ => rfl

/-! ## Own files -/

section

variable (hP : Pairing P)
include hP

theorem shadows_addNew {new : NewNode} (hp : P parent parent') : Shadows (Apace P) P (addNew new parent) (addNew new parent') := by
  intro s s' t a h hrun
  rw [run_addNew] at hrun
  cases hrun
  refine ⟨_, _, run_addNew, h.tree.ids.id, h.withTree ?_⟩
  exact h.tree.takeId.add hP ⟨h.tree.ids.id, rfl, rfl, rfl, rfl, rfl, rfl, .nil, .inl ⟨rfl, rfl⟩⟩ hp

theorem shadows_childOrNew {new : NewNode} (hp : P parent parent') :
    Shadows (Apace P) P (childOrNew parent new) (childOrNew parent' new) := by
  refine .get fun {s s'} h => ?_
  refine shadows_given (Q := Node.Alike P) (h.tree.toAlike.node hP hp) fun {dir dir'} hdir => ?_
  refine shadows_given (h.tree.toAlike.childNamed hP hdir) fun {child? child?'} hchild => ?_
  cases hchild with
  | none => exact shadows_addNew hP hp
  | some hc => exact .pure hc.id

theorem shadows_ensureBelow {style : DirectoryStyle} {names : List String} (hp : P parent parent') :
    Shadows (Apace P) P (ensureBelow style parent names) (ensureBelow style parent' names) := by
  induction names generalizing parent parent' with
  | nil => exact .pure hp
  | cons name rest ih => exact (shadows_childOrNew hP hp).bind fun hc => ih hc

theorem shadows_ensureDirectory {path : String} {style : DirectoryStyle} :
    Shadows (Apace P) P (ensureDirectory path style) (ensureDirectory path style) := by
  refine Shadows.bind (Q := Node.Alike P) ?_ fun hroot => shadows_ensureBelow hP hroot.id
  intro s s' t root h hrun
  rw [run_ask] at hrun
  cases hroot : s.tree.root with
  | error e =>
    rw [hroot] at hrun
    cases hrun
  | ok r =>
    rw [hroot] at hrun
    cases hrun
    obtain ⟨r', hroot', halike⟩ := h.tree.toAlike.rootNode hP hroot
    exact ⟨r', s', by rw [run_ask, hroot'], halike, h⟩

theorem shadows_putSystemFile {dir name : String} {content permissions : Json} :
    Shadows (Apace P) P (putSystemFile dir name content permissions) (putSystemFile dir name content permissions) := by
  refine (shadows_ensureDirectory hP).bind fun {id id'} hid => .get fun {s s'} h => ?_
  refine shadows_given (Q := Node.Alike P) (h.tree.toAlike.node hP hid) fun {dir dir'} hdir => ?_
  refine shadows_given (h.tree.toAlike.childNamed hP hdir) fun {child? child?'} hchild => ?_
  cases hchild with
  | none => exact shadows_addNew hP hid
  | @some n n' hn =>
    have hedit : Shadows (Apace P) Whatever (editTree (·.update n.id fun n => { n with content, modified := s.now }))
        (editTree (·.update n'.id fun n => { n with content, modified := s'.now })) :=
      shadows_editTree fun ht => ht.update hP hn.id fun hm =>
        ⟨hm.id, hm.name, hm.kind, hm.owner, hm.group, hm.permissions, rfl, hm.children, hm.parent⟩
    dsimp only
    rw [hn.content]
    refine .cond Iff.rfl ?_ ?_
    · exact hedit.bind fun _ => .pure hn.id
    · exact .pure hn.id

theorem shadows_createHome {u : User} : Shadows (Apace P) P (createHome u) (createHome u) := by
  refine .get fun {s s'} h => ?_
  rw [h.accounts]
  refine shadows_same rfl fun path => ?_
  refine (shadows_ensureDirectory hP).bind fun {id id'} hid => (shadows_childOrNew hP hid).bind fun {home home'} hhome => ?_
  exact (Shadows.loop (fun folder => (shadows_childOrNew hP hhome).discard) _).bind fun _ => .pure hhome

theorem shadows_syncFiles : Shadows (Apace P) Whatever syncFiles syncFiles := by
  have hask : ∀ {question : Accounts → Except Fault String},
      Shadows (Apace P) Eq (ask fun s => question s.accounts) (ask fun s => question s.accounts) := by
    intro question s s' t a h hrun
    rw [run_ask] at hrun
    obtain ⟨hanswer, rfl⟩ := Prod.mk.inj hrun
    exact ⟨a, s', by rw [run_ask, h.accounts, hanswer], rfl, h⟩
  refine hask.bind fun {users users'} hu => ?_
  subst hu
  refine (shadows_putSystemFile hP).discard.bind fun _ => hask.bind fun {groups groups'} hg => ?_
  subst hg
  exact (shadows_putSystemFile hP).discard

end

/-! ## The tables -/

theorem shadows_setRootPassword {password : String} :
    Shadows (Apace P) Whatever (setRootPassword password) (setRootPassword password) := by
  intro s s' t a h hrun
  have hrun := got hrun
  unfold setRootPassword
  rw [run_bind, run_get]
  dsimp only
  rw [h.accounts]
  split at hrun
  · rename_i hroot
    cases hrun
    rw [if_pos hroot]
    exact ⟨_, _, rfl, trivial, h.withAccounts _⟩
  · cases hrun

theorem shadows_seedUser {name fullName password : String} {admin : Bool} :
    Shadows (Apace P) Eq (seedUser name fullName password admin) (seedUser name fullName password admin) := by
  refine .get fun {s s'} h => ?_
  rw [h.accounts]
  refine shadows_same rfl fun uid => shadows_same rfl fun a => ?_
  have hset : ∀ {a : Accounts}, Shadows (Apace P) Whatever (modify fun s => { s with accounts := a } : Act PUnit)
      (modify fun s => { s with accounts := a }) := fun {a} => .change fun h => h.withAccounts a
  cases admin with
  | true => exact shadows_same rfl fun b => hset.bind fun _ => .pure rfl
  | false =>
    refine Shadows.bind (.pure (Q := Eq) rfl) fun {b b'} hb => ?_
    subst hb
    exact hset.bind fun _ => .pure rfl

/-! ## Laying out -/

/-- Two systems with the same default name in the same phase are apace once they are blank. -/
theorem apace_blank (hname : s'.defaultHostname = s.defaultHostname) (hphase : s'.phase = s.phase) :
    Apace (s.tree.ids.Turns s'.tree.ids) s.blank s'.blank := by
  refine ⟨apace_empty (IdSupply.inTurn_turns _ _), ?_⟩
  unfold blank
  rw [hname, hphase]

theorem shadows_furnish (hP : Pairing P) : Shadows (Apace P) Whatever furnish furnish := by
  refine (Shadows.loopPairs (f := fun path permissions => discard (ensureDirectory path { permissions := .str permissions }))
    (g := fun path permissions => discard (ensureDirectory path { permissions := .str permissions }))
    (fun _ _ => (shadows_ensureDirectory hP).discard) _).bind fun _ => ?_
  refine (Shadows.loop (fun c : Command => (shadows_putSystemFile hP).discard) _).bind fun _ => ?_
  refine (Shadows.loop (fun id => (shadows_putSystemFile hP).discard) _).bind fun _ => ?_
  refine .get fun {s s'} h => ?_
  rw [h.defaultHostname]
  refine (shadows_putSystemFile hP).discard.bind fun _ => shadows_noteBoot.bind fun _ => ?_
  refine shadows_setRootPassword.bind fun _ => shadows_seedUser.bind fun {u u'} hu => ?_
  subst hu
  refine (shadows_createHome hP).discard.bind fun _ => (shadows_syncFiles hP).bind fun _ => ?_
  exact shadows_noteBoot.bind fun _ => shadows_log

/-- Systems with the same default name that are laid out anew in the same phase look alike. -/
theorem seed_apace (hname : s'.defaultHostname = s.defaultHostname) (hphase : s'.phase = s.phase)
    (hrun : seed.run s = (.ok ⟨⟩, t)) :
    ∃ t', seed.run s' = (.ok ⟨⟩, t') ∧ Apace (s.tree.ids.Turns s'.tree.ids) t t' := by
  rw [seed_eq, run_bind, run_modify] at hrun
  obtain ⟨_, t', hrun', -, h⟩ := shadows_furnish (IdSupply.pairing_turns _ _) (apace_blank hname hphase) hrun
  refine ⟨t', ?_, h⟩
  rw [seed_eq, run_bind, run_modify]
  exact hrun'

end SimUnix.Machine
