/-
What has been checked when a check grants a change. Each lemma lists everything that the check of one
operation asks for.
-/
import SimUnix.Proofs.Machine.Change
import SimUnix.Proofs.Machine.Naming

namespace SimUnix.Machine

open Tree

variable {s : Machine} {n dir parent : Node} {user? source? : Option Json} {path name : String}

theorem nodeAt_found (h : Linked s.tree) (hn : s.nodeAt path user? = .ok (some n)) :
    s.tree.get? n.id = some n ∧ s.tree.skeleton.InDirectories n.id := by
  unfold nodeAt at hn
  obtain ⟨resolved, -, hl⟩ := bind_ok.1 hn
  exact h.lookup_found hl

theorem createVerdict_granted (h : createVerdict path name user? s = .ok (.granted dir)) :
    s.nodeAt path user? = .ok (some dir) ∧ dir.isDir = true ∧ Path.validName name = true ∧
      s.tree.childNamed dir name = .ok none ∧ s.Allows dir .write user? := by
  unfold createVerdict at h
  obtain ⟨found?, hfound, h⟩ := bind_ok.1 h
  split at h
  · cases h
  · split at h
    · cases h
    · rename_i hdir
      obtain ⟨existing?, hfree, h⟩ := bind_ok.1 h
      split at h
      · cases h
      · rename_i hnone
        obtain ⟨may, hmay, h⟩ := bind_ok.1 h
        split at h
        · obtain ⟨_, -, h⟩ := bind_ok.1 h
          cases h
        · rename_i hgranted
          cases h
          simp only [Bool.or_eq_true, Bool.not_eq_true', not_or, Bool.not_eq_false] at hdir hgranted
          have hfree' : existing? = none := by simpa using hnone
          subst hfree' hgranted
          exact ⟨hfound, hdir.1, hdir.2, hfree, hmay⟩

theorem writeVerdict_granted {id : NodeId} (h : writeVerdict n path user? s = .ok (.granted id)) :
    id = n.id ∧ n.isDir = false ∧ s.Allows n .write user? := by
  unfold writeVerdict at h
  split at h
  · cases h
  · rename_i hdir
    obtain ⟨may, hmay, h⟩ := bind_ok.1 h
    split at h
    · cases h
    · rename_i hgranted
      cases h
      have hyes : may = true := by simpa using hgranted
      subst hyes
      exact ⟨rfl, by simpa using hdir, hmay⟩

theorem removeVerdict_granted {what : String} (h : removeVerdict what path user? s = .ok (.granted n)) :
    s.nodeAt path user? = .ok (some n) ∧ ∃ parent, s.tree.parentOf? n = some parent ∧ s.Allows parent .write user? := by
  unfold removeVerdict at h
  obtain ⟨found?, hfound, h⟩ := bind_ok.1 h
  split at h
  · cases h
  · obtain ⟨root, -, h⟩ := bind_ok.1 h
    split at h
    · cases h
    · dsimp only at h
      split at h
      · rename_i parent hp
        obtain ⟨may, hmay, h⟩ := bind_ok.1 h
        split at h
        · rename_i hgranted
          cases h
          subst hgranted
          exact ⟨hfound, parent, hp, hmay⟩
        · obtain ⟨_, -, h⟩ := bind_ok.1 h
          cases h
      · obtain ⟨may, hmay, h⟩ := bind_ok.1 h
        cases hmay
        obtain ⟨_, -, h⟩ := bind_ok.1 h
        cases h

theorem chmodVerdict_granted {mode permissions : String}
    (h : chmodVerdict path mode user? s = .ok (.granted (n, permissions))) :
    s.nodeAt path user? = .ok (some n) ∧ s.safeMode = false ∧
      (s.actor user? = rootName ∨ n.owner = s.actor user?) := by
  unfold chmodVerdict at h
  obtain ⟨found?, hfound, h⟩ := bind_ok.1 h
  split at h
  · cases h
  · dsimp only at h
    split at h
    · obtain ⟨_, -, h⟩ := bind_ok.1 h
      cases h
    · rename_i m hmay
      have hfacts : s.safeMode = false ∧ (s.actor user? = rootName ∨ m.owner = s.actor user?) := by
        simpa [not_or, or_iff_not_imp_left] using hmay
      split at h <;> cases h
      exact ⟨hfound, hfacts⟩

theorem chownVerdict_granted {owner : String} {group? : Option String}
    (h : chownVerdict path owner group? user? s = .ok (.granted n)) :
    s.nodeAt path user? = .ok (some n) ∧ s.safeMode = false ∧ s.actor user? = rootName := by
  unfold chownVerdict at h
  obtain ⟨found?, hfound, h⟩ := bind_ok.1 h
  split at h
  · cases h
  · split at h
    · obtain ⟨_, -, h⟩ := bind_ok.1 h
      cases h
    · rename_i hmay
      have hfacts : s.safeMode = false ∧ s.actor user? = rootName := by simpa using hmay
      split at h
      · cases h
      · split at h <;> cases h
        exact ⟨hfound, hfacts⟩

theorem validName_str (h : validName (.str name) = .ok true) : Path.validName name = true := by
  unfold validName at h
  exact Except.ok.inj h

theorem relocateVerdict_granted {d : Node} {own : Json} (h : relocateVerdict n dir own user? source? s = .ok (.granted d)) :
    d = dir ∧ dir.isDir = true ∧ validName own = .ok true ∧ (n.isDir = true → s.tree.isAncestor n dir = false) ∧
      s.tree.childNamed dir own = .ok none ∧ s.Allows dir .write user? ∧
        ∃ parent, s.tree.parentOf? n = some parent ∧ s.Allows parent .write (firstName? source? user?) := by
  unfold relocateVerdict at h
  split at h
  · cases h
  · rename_i parent hp
    split at h
    · cases h
    · rename_i hdir
      obtain ⟨valid, hvalid, h⟩ := bind_ok.1 h
      split at h
      · cases h
      · rename_i hyes
        split at h
        · cases h
        · rename_i hanc
          obtain ⟨existing?, hfree, h⟩ := bind_ok.1 h
          split at h
          · split at h <;> cases h
          · obtain ⟨mayLeave, hleave, h⟩ := bind_ok.1 h
            split at h
            · obtain ⟨_, -, h⟩ := bind_ok.1 h
              cases h
            · rename_i hleaves
              obtain ⟨may, hmay, h⟩ := bind_ok.1 h
              split at h
              · obtain ⟨_, -, h⟩ := bind_ok.1 h
                cases h
              · rename_i henters
                cases h
                have h₁ : valid = true := by simpa using hyes
                have h₂ : mayLeave = true := by simpa using hleaves
                have h₃ : may = true := by simpa using henters
                subst h₁ h₂ h₃
                refine ⟨rfl, by simpa using hdir, hvalid, ?_, hfree, hmay, parent, hp, hleave⟩
                intro hd
                simpa [hd] using hanc

/-! ## Names of copies -/

theorem copyName_some (h : Linked s.tree) (hn : s.tree.get? n.id = some n) (hd : s.tree.get? dir.id = some dir)
    {name? : Option String} {copy : Json} (hc : copyName n dir name? s = .ok (some copy)) :
    ∃ name, copy = .str name ∧ (Path.validName name = true ∨ name? = none ∧ OwnName n name) ∧
      s.tree.childNamed dir copy = .ok none := by
  obtain ⟨own, hown⟩ := (h.written (bare_some.2 ⟨n, hn, rfl⟩)).name
  have hown : n.name = .str own := hown
  unfold copyName at hc
  split at hc
  · rename_i name
    split at hc
    · cases hc
    · rename_i hvalid
      obtain ⟨existing?, hfree, hc⟩ := bind_ok.1 hc
      split at hc
      · cases hc
      · rename_i hnone
        cases hc
        have hfree' : existing? = none := by simpa using hnone
        subst hfree'
        exact ⟨name, rfl, .inl (by simpa using hvalid), hfree⟩
  · obtain ⟨existing?, hfree, hc⟩ := bind_ok.1 hc
    split at hc
    · rename_i hnone
      cases hc
      have hfree' : existing? = none := by simpa using hnone
      subst hfree'
      exact ⟨own, hown, .inr ⟨rfl, own, hown, .inl rfl⟩, hfree⟩
    · rcases hu : uniqueName s.tree dir (n.name.plain ++ " copy") with e | name
      · rw [hu] at hc
        cases hc
      · rw [hu] at hc
        cases hc
        obtain ⟨hfree', k, hk⟩ := uniqueName_free h hd hu
        rw [hown] at hk
        exact ⟨name, rfl, .inr ⟨rfl, own, hown, .inr ⟨k, hk⟩⟩, hfree'⟩

theorem copyVerdict_checks {id : NodeId} {name? : Option String} {copy : Json}
    (hv : copyVerdict id path user? source? name? s = .ok (.granted (n, dir, copy))) :
    s.tree.get? id = some n ∧ s.nodeAt path user? = .ok (some dir) ∧ dir.isDir = true ∧
      s.Allows n .read (firstName? source? user?) ∧ s.Allows dir .write user? ∧ copyName n dir name? s = .ok (some copy) := by
  unfold copyVerdict at hv
  obtain ⟨dest?, hdest, hv⟩ := bind_ok.1 hv
  split at hv
  · rename_i m d hget
    dsimp only at hv
    split at hv
    · cases hv
    · rename_i hdir
      obtain ⟨mayRead, hread, hv⟩ := bind_ok.1 hv
      split at hv
      · obtain ⟨_, -, hv⟩ := bind_ok.1 hv
        cases hv
      · rename_i hreads
        obtain ⟨may, hmay, hv⟩ := bind_ok.1 hv
        split at hv
        · obtain ⟨_, -, hv⟩ := bind_ok.1 hv
          cases hv
        · rename_i henters
          obtain ⟨copy?, hcopy, hv⟩ := bind_ok.1 hv
          split at hv
          · cases hv
          · cases hv
            have h₂ : mayRead = true := by simpa using hreads
            have h₃ : may = true := by simpa using henters
            subst h₂ h₃
            exact ⟨hget, hdest, by simpa using hdir, hread, hmay, hcopy⟩
  · cases hv

theorem copyVerdict_granted (h : Linked s.tree) {id : NodeId} {name? : Option String} {copy : Json}
    (hv : copyVerdict id path user? source? name? s = .ok (.granted (n, dir, copy))) :
    s.tree.get? id = some n ∧ s.nodeAt path user? = .ok (some dir) ∧ dir.isDir = true ∧
      s.Allows n .read (firstName? source? user?) ∧ s.Allows dir .write user? ∧
        ∃ name, copy = .str name ∧ (Path.validName name = true ∨ name? = none ∧ OwnName n name) ∧
          s.tree.childNamed dir copy = .ok none := by
  obtain ⟨hget, hdest, hdir, hread, hmay, hcopy⟩ := copyVerdict_checks hv
  exact ⟨hget, hdest, hdir, hread, hmay, copyName_some h (h.get_self hget) (nodeAt_found h hdest).1 hcopy⟩

end SimUnix.Machine
