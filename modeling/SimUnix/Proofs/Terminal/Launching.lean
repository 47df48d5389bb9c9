/-
Words that launch applications. The name of an application that has been installed runs it from then on, as long as nobody touches its
launcher; uninstalling it right away leaves things as they were. A command of that name comes first, though, and so does a program that a
user may execute; what was in the place of the launcher keeps its permissions, and is removed with the application.
-/
import SimUnix.Proofs.Machine.Room
import SimUnix.Proofs.Terminal.Life

namespace SimUnix

namespace Machine

open Tree

variable {s s₁ : Machine} {id : String} {user? : Option Json}

/-- An application that has been installed where nothing was in its way has a launcher that names it, and everybody may execute the
launcher if it is new. -/
theorem launcher_installed (h : s.Sound) (hclear : s.ClearFor id) (hrun : (installApp id user?).run s = (.ok true, s₁)) :
    ∃ m, s₁.tree.lookup (launcherPath id) = .ok (some m) ∧ m.isDir = false ∧ m.content = .str (Executable.appContent id) ∧
      (s.tree.lookup (launcherPath id) = .ok none → m.face = launcherFace id) := by
  obtain ⟨hne, hslash, -, t, hput, ha⟩ := installApp_accepted hrun
  have hs : Sound { s with apps := s.apps ++ [.str id] } := h.same rfl rfl
  have hclear' : ClearFor { s with apps := s.apps ++ [.str id] } id := ⟨hclear.directory, hclear.file⟩
  obtain ⟨m, hfound, hm⟩ := launcher_written hs hne hslash hclear' hput
  exact ⟨m, ha.tree.symm ▸ hfound, hm⟩

/-- An application that has been installed is one, and the system is in safe mode only if it was before. -/
theorem installApp_apps (hrun : (installApp id user?).run s = (.ok true, s₁)) : s₁.apps = s.apps ++ [.str id] ∧ s₁.safeMode = s.safeMode := by
  obtain ⟨-, -, -, t, -, ha⟩ := installApp_accepted hrun
  rw [ha.same]
  exact ⟨rfl, rfl⟩

theorem after_installApp (hrun : (installApp id user?).run s = (.ok true, s₁)) : (Operation.installApp id user?).after s = s₁ := by
  have hop : (Operation.installApp id user?).run.run s = (.ok ⟨⟩, s₁) := by
    show (discard (installApp id user?)).run s = _
    rw [run_discard, hrun]
  exact Operation.after_eq hop

end Machine

namespace World

open Machine Tree

variable {w w' : World}

theorem Living.moves (h : w.Living) (moves : Relation.ReflTransGen (Moves Operation.Proper) w w') : w'.Living := by
  induction moves with
  | refl => exact h
  | tail _ move ih => exact .next ih move

/-- Installing an application makes its name run it. This holds for every user and in every directory, and it stays so whatever happens
then, as long as the launcher is what it was: no command may have the name, no file of the name that the user may execute may lie among the
programs, and the launcher has to be new, or one that the user may execute. Uninstalling the application right away leaves the applications
of before, and the nodes, too, if only the launcher was missing. -/
theorem Living.install_launches (h : w.Living) {id : String} {user? : Option Json} {s₁ : Machine}
    (hrun : (installApp id user?).run w.machine = (.ok true, s₁)) :
    (FreeName id → w.machine.ClearFor id → ∃ launcher, s₁.tree.lookup (launcherPath id) = .ok (some launcher) ∧
      ∀ w', Relation.ReflTransGen (Moves Operation.Proper) { w with machine := s₁ } w' →
        ∀ n, w'.machine.tree.lookup (launcherPath id) = .ok (some n) → n.face = launcher.face → ∀ user cwd,
          w.machine.tree.lookup (launcherPath id) = .ok none ∨ w'.machine.Allows n .execute (some (.str user)) →
            ¬ w'.machine.Shadowed id user → Shell.resolve w'.machine id user cwd = .ok (.ok (.app id))) ∧
    ∀ user₂? s₂, (uninstallApp id user₂?).run s₁ = (.ok true, s₂) → s₂.apps = w.machine.apps ∧
      ∀ d, w.machine.tree.lookup appsPath = .ok (some d) → d.isDir = true → w.machine.tree.lookup (launcherPath id) = .ok none →
        Unaged w.machine.tree s₂.tree := by
  have hsound := h.attended.1.machine
  refine ⟨fun hname hclear => ?_, fun user₂? s₂ huninstall => uninstall_undoes hsound hrun huninstall⟩
  obtain ⟨launcher, hfound, hfile, hcontent, hnew⟩ := launcher_installed hsound hclear hrun
  obtain ⟨r, hop⟩ : ∃ r, (Operation.installApp id user?).run.run w.machine = (r, s₁) := run_discard_of hrun
  have hproper : (Operation.installApp id user?).Proper := trivial
  have hinstalled : Living { w with machine := s₁ } := .next h (.operate hproper hop)
  refine ⟨launcher, hfound, fun w' moves n hn hface user cwd hmay hfree => ?_⟩
  obtain ⟨hattended, hregular⟩ := (hinstalled.moves moves).attended
  have hkind : n.kind = launcher.kind := congrArg Face.kind hface
  have hcontents : n.content = launcher.content := congrArg Face.content hface
  have hplain : n.isDir = false := by
    unfold Node.isDir at hfile ⊢
    rw [hkind]
    exact hfile
  have hallowed : w'.machine.Allows n .execute (some (.str user)) := hmay.elim
    (fun hnone => allows_launcher hregular.toTidy (hface.trans (hnew hnone))) fun hmay => hmay
  exact resolve_app hregular.toTidy hattended.machine.linked hname hfree hn hplain (hcontents.trans hcontent) hallowed

theorem freeName_notes : FreeName "notes" := ⟨by decide +kernel, by decide +kernel, by decide +kernel⟩

/-- Root installs an application on a new system, then another one, which everybody can launch, and uninstalls that one again. -/
theorem install_launches_notes : ∃ s₀ s₁ s₂, (installApp "calculator" (some (.str rootName))).run Machine.fresh = (.ok true, s₀) ∧
    Living { machine := s₀ } ∧ (installApp "notes" (some (.str rootName))).run s₀ = (.ok true, s₁) ∧
      FreeName "notes" ∧ s₀.ClearFor "notes" ∧ (∀ user cwd, Shell.resolve s₁ "notes" user cwd = .ok (.ok (.app "notes"))) ∧
        (uninstallApp "notes" (some (.str rootName))).run s₁ = (.ok true, s₂) ∧ s₂.apps = s₀.apps ∧ Unaged s₀.tree s₂.tree := by
  have clock : Time.Stamp.Proper { seconds := 0 } := ⟨rfl, by decide, by decide⟩
  have happs : Machine.fresh.apps = coreApps.map .str := apps_boot Store.empty_memory clock
  have hcalculator : Machine.fresh.tree.Roomy "calculator" := roomy_boot Store.empty_memory clock (by decide +kernel)
  have hnotes : Machine.fresh.tree.Roomy "notes" := roomy_boot Store.empty_memory clock (by decide +kernel)
  have hready : Machine.fresh.Ready := ready_fresh
  have hliving : Living { machine := Machine.fresh } := living_fresh
  -- the first application makes sure of the directory
  obtain ⟨s₀, hfirst⟩ : ∃ s₀, (installApp "calculator" (some (.str rootName))).run Machine.fresh = (.ok true, s₀) :=
    run_installApp_fresh (by decide) (by decide) (by decide)
  generalize Machine.fresh = s at *
  have hliving₀ : Living { machine := s₀ } := by
    rw [← after_installApp hfirst]
    exact .next hliving (.perform (show (Operation.installApp "calculator" (some (.str rootName))).Proper from trivial))
  obtain ⟨⟨hsound₀, -⟩, hregular₀⟩ := hliving₀.attended
  obtain ⟨happs₀, hsafe₀⟩ := installApp_apps hfirst
  have hfree₀ : s₀.Free := hsafe₀.trans hready.free
  obtain ⟨d, hd, hdir⟩ : ∃ d, s₀.tree.lookup appsPath = .ok (some d) ∧ d.isDir = true := by
    obtain ⟨hclear, -⟩ := clearFor_of_roomy hready.sound hcalculator (by decide +kernel)
    obtain ⟨m, hfound, -⟩ := launcher_installed hready.sound hclear hfirst
    obtain ⟨d, hd, hdir, -⟩ := (lookup_launcher_iff hsound₀.linked (by decide) (by decide)).1 hfound
    exact ⟨d, hd.found, hdir⟩
  have hroom₀ : s₀.tree.Roomy "notes" := roomy_installApp hready.sound hnotes (by decide) (by decide) (by decide) hfirst
  obtain ⟨hclear₀, hnone₀⟩ := clearFor_of_roomy hsound₀ hroom₀ (by decide +kernel)
  -- the second one has room, and only its launcher is missing
  have hnew₀ : .str "notes" ∉ s₀.apps := by
    rw [happs₀, happs]
    decide
  obtain ⟨s₁, hsecond⟩ := run_installApp hsound₀ hregular₀ hfree₀ (by decide) (by decide) hnew₀
  have hliving₁ : Living { machine := s₁ } := by
    rw [← after_installApp hsecond]
    exact .next hliving₀ (.perform (show (Operation.installApp "notes" (some (.str rootName))).Proper from trivial))
  obtain ⟨⟨hsound₁, -⟩, hregular₁⟩ := hliving₁.attended
  obtain ⟨happs₁, hsafe₁⟩ := installApp_apps hsecond
  have hin : .str "notes" ∈ s₁.apps := happs₁ ▸ List.mem_append_right _ (List.mem_singleton_self _)
  obtain ⟨s₂, hthird⟩ := run_uninstallApp hsound₁ hregular₁ (hsafe₁.trans hfree₀) (by decide) (by decide) (by decide) hin
    (installApp_added hsound₀ hd hdir hnone₀ hsecond).2 rfl
  obtain ⟨hlaunches, hundone⟩ := hliving₀.install_launches hsecond
  obtain ⟨launcher, hfound, hresolves⟩ := hlaunches freeName_notes hclear₀
  obtain ⟨happs₂, hnodes₂⟩ := hundone _ _ hthird
  refine ⟨s₀, s₁, s₂, hfirst, hliving₀, hsecond, freeName_notes, hclear₀, fun user cwd => ?_, hthird, happs₂, hnodes₂ d hd hdir hnone₀⟩
  exact hresolves { machine := s₁ } .refl launcher hfound rfl user cwd (.inl hnone₀)
    (not_shadowed_of_roomy hsound₀ hroom₀ freeName_notes.valid hd hdir hsecond)

/-- A system that has not been started, after root has made calls on its files. -/
def arranged (calls : List FileCall) : World :=
  { machine := calls.foldl (fun s c => (Operation.file c (some (.str rootName)) none).after s)
      (Machine.create (.memory []) "aurora" {} { stem := "n" } { seconds := 0 }) }

theorem arranged_reachable (calls : List FileCall) : (arranged calls).Reachable := by
  have hall : ∀ {s : Machine}, Reachable { machine := s } →
      Reachable { machine := calls.foldl (fun s c => (Operation.file c (some (.str rootName)) none).after s) s } := by
    intro s hs
    induction calls generalizing s with
    | nil => exact hs
    | cons c rest ih => exact ih (hs.perform _)
  exact hall (.first Store.empty_memory)

/-- The directory of applications, and a file that only root may read or write where the launcher of an application is to be. -/
def occupied : List FileCall := [.createDirectory "/" "usr", .createDirectory "/usr" "bin",
  .createFile "/usr/bin" "notes" "x" (some (.str "-rw-------"))]

/-- Calls on files and the name of an application that is not launched by its name afterwards: a program is found in its stead, its
launcher may not be executed, is a directory or lies in a file, or the name does not lead to it, or is not what it says. -/
def displacing : List (List FileCall × String) := [
  ([.createDirectory "/" "bin", .createFile "/bin" "notes" "#command ls" (some (.str Executable.permissions))], "notes"),
  (occupied, "notes"),
  ([.createDirectory "/" "usr", .createDirectory "/usr" "bin", .createDirectory "/usr/bin" "notes"], "notes"),
  ([.createFile "/" "usr" "x" none], "notes"),
  ([], ".."),
  ([], "notes ")]

/-- Not every application that has been installed is launched by its name. Commands come first, and there are other things that may be in
the way. Not every uninstallation leaves the nodes of before: it removes what was in the place of the launcher, and leaves the directories
that have been made for it. -/
theorem launch_displaced :
    (Living { machine := Machine.fresh } ∧ ∃ s₁, (installApp "ls" (some (.str rootName))).run Machine.fresh = (.ok true, s₁) ∧
      ∀ user cwd, Shell.resolve s₁ "ls" user cwd = .ok (.ok (.program .ls))) ∧
    (∀ p ∈ displacing, (arranged p.1).Reachable ∧ ∃ s₁, (installApp p.2 (some (.str rootName))).run (arranged p.1).machine = (.ok true, s₁) ∧
      Shell.resolve s₁ p.2 "guest" "/" ≠ .ok (.ok (.app p.2))) ∧
    ∀ calls ∈ [occupied, []], (arranged calls).Reachable ∧ ∃ s₁ s₂,
      (installApp "notes" (some (.str rootName))).run (arranged calls).machine = (.ok true, s₁) ∧
        (uninstallApp "notes" (some (.str rootName))).run s₁ = (.ok true, s₂) ∧ ¬ Unaged (arranged calls).machine.tree s₂.tree := by
  have ended : ∀ {m : Act Bool} {s : Machine}, (m.run s).1 = .ok true → m.run s = (.ok true, (m.run s).2) := fun h => Prod.ext h rfl
  refine ⟨?_, fun p hp => ⟨arranged_reachable _, ?_⟩, fun calls hcalls => ⟨arranged_reachable _, ?_⟩⟩
  · obtain ⟨s₁, hrun⟩ : ∃ s₁, (installApp "ls" (some (.str rootName))).run Machine.fresh = (.ok true, s₁) :=
      run_installApp_fresh (by decide) (by decide) (by decide)
    exact ⟨living_fresh, s₁, hrun, fun _ _ => resolve_named (by decide +kernel) (by decide)⟩
  · have hall : ∀ p ∈ displacing, ((installApp p.2 (some (.str rootName))).run (arranged p.1).machine).1 = .ok true ∧
        Shell.resolve ((installApp p.2 (some (.str rootName))).run (arranged p.1).machine).2 p.2 "guest" "/" ≠ .ok (.ok (.app p.2)) := by
      decide +kernel
    obtain ⟨hdone, hother⟩ := hall p hp
    exact ⟨_, ended hdone, hother⟩
  · -- a node is there on one side only
    have hall : ∀ calls ∈ [occupied, []], ((installApp "notes" (some (.str rootName))).run (arranged calls).machine).1 = .ok true ∧
        ((uninstallApp "notes" (some (.str rootName))).run
          ((installApp "notes" (some (.str rootName))).run (arranged calls).machine).2).1 = .ok true ∧
        ∃ a ∈ [Json.str "n2", .str "n3"], (((uninstallApp "notes" (some (.str rootName))).run
          ((installApp "notes" (some (.str rootName))).run (arranged calls).machine).2).2.tree.get? a).isSome ≠
            ((arranged calls).machine.tree.get? a).isSome := by
      decide +kernel
    obtain ⟨hdone, hundone, a, -, hne⟩ := hall calls hcalls
    refine ⟨_, _, ended hdone, ended hundone, fun h => hne ?_⟩
    rw [← Option.isSome_map, h.node, Option.isSome_map]

end World

end SimUnix
