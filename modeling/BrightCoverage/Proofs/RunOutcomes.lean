import BrightCoverage.Proofs.Discoveries
import BrightCoverage.Proofs.RunEffects

/-! What a run leaves behind when it succeeds. The component carries the maps of the files that have
had their turns, and every file still holds what it was given unless its place has been written
again: by a file that was found once more on another way, or by the component itself. -/

namespace BrightCoverage

namespace Discovery

variable {ε : Type} {tree : FileTree} {root : String} {patterns files : List String}

theorem mem_foldl_keep {found kept : List (List String)} {steps : List String}
    (h : steps ∈ found.foldl keep kept) : steps ∈ kept ∨ steps ∈ found := by
  induction found generalizing kept with
  | nil => exact .inl h
  | cons first found ih =>
    rcases ih h with h | h
    · rcases keep_cases kept first with ⟨-, -, -, hkeep⟩ | ⟨-, hkeep⟩
      · exact .inl (hkeep ▸ h)
      · rw [hkeep] at h
        rcases List.mem_append.1 h with h | h
        · exact .inl h
        · exact .inr (List.mem_singleton.1 h ▸ List.mem_cons_self)
    · exact .inr (List.mem_cons_of_mem _ h)

theorem isBrs_of_sourceSteps {spot : Spot} {steps : List String}
    (h : sourceSteps? tree root spot = some steps) : Path.isBrs (Path.ofSegments steps) = true := by
  unfold sourceSteps? at h
  split at h
  · exact (Option.filter_eq_some_iff.1 h).2
  · cases h

/-- Only files with the right extension are found, whatever reads the patterns. -/
theorem Globbing.isBrs_of_discover {g : Globbing ε} {found : List (List String)}
    (h : g.discover tree root patterns = .ok found) :
    ∀ steps ∈ found, Path.isBrs (Path.ofSegments steps) = true := by
  cases htests : (exclusions patterns).mapM g.exclusion with
  | error e =>
    rw [discover_of_error htests] at h
    cases h
  | ok tests =>
    by_cases hroot : root = ""
    · rw [hroot, discover_of_noRoot htests] at h
      cases h
    · rw [discover_of_ok htests hroot] at h
      cases hspots : (inclusions patterns).mapM g.inclusion with
      | error e =>
        rw [hspots] at h
        cases h
      | ok spots =>
        rw [hspots] at h
        cases h
        intro steps hsteps
        have hmem := (mem_foldl_keep hsteps).resolve_left List.not_mem_nil
        obtain ⟨spot, -, hspot⟩ := List.mem_filterMap.1 (List.mem_filter.1 hmem).1
        exact isBrs_of_sourceSteps hspot

/-- What names the source files of a project when their patterns are read by something else. -/
def Globbing.finder (g : FileTree → String → Globbing ε) (wrap : ε → DiscoveryError) : Finder :=
  fun tree root patterns =>
    (((g tree root).discover tree root patterns).map (List.map Path.ofSegments)).mapError wrap

theorem Globbing.isBrs_of_finder {g : FileTree → String → Globbing ε} {wrap : ε → DiscoveryError}
    (h : finder g wrap tree root patterns = .ok files) : ∀ file ∈ files, Path.isBrs file = true := by
  unfold finder at h
  cases hfound : (g tree root).discover tree root patterns with
  | error e =>
    rw [hfound] at h
    cases h
  | ok found =>
    rw [hfound] at h
    cases h
    intro file hfile
    obtain ⟨steps, hsteps, rfl⟩ := List.mem_map.1 hfile
    exact isBrs_of_discover hfound steps hsteps

theorem Globbing.finder_ofTree : finder ofTree id = BrightCoverage.discover := by
  funext tree root patterns
  rw [finder, discover_ofTree]
  cases ((ofTree tree root).discover tree root patterns).map (List.map Path.ofSegments) <;> rfl

end Discovery

def implementationPath : String :=
  componentDir ++ "/" ++ implementationName

def descriptorPath : String :=
  componentDir ++ "/" ++ descriptorName

/-- The text of the implementation that carries the maps of a registry. -/
def Template.withMaps (t : Template) (registry : Registry) : Text :=
  t.render [("EXPECTED_MAP".toList, registry.expectedJson),
    ("FILE_PATH_MAP".toList, registry.pathsJson)]

theorem TemplateSet.renderComponent_eq_ok {templates : TemplateSet} {registry : Registry}
    {component : List GeneratedFile} : templates.renderComponent registry = .ok component ↔
      ∃ descriptor implementation, templates.descriptor = some descriptor ∧
        templates.implementation = some implementation ∧
        component = [⟨descriptorPath, descriptor.text⟩,
          ⟨implementationPath, implementation.withMaps registry⟩] := by
  unfold renderComponent need
  cases templates.descriptor with
  | none => simp [bind, Except.bind]
  | some descriptor =>
    cases templates.implementation with
    | none => simp [bind, Except.bind]
    | some implementation =>
      simp [bind, Except.bind, pure, Except.pure, descriptorPath, implementationPath,
        Template.withMaps, eq_comm]

theorem getLast?_steps_join (root : String) {name : String} (h : '/' ∉ name.toList)
    (hne : name ≠ "") :
    (FileTree.steps (Path.join root (componentDir ++ "/" ++ name))).getLast? = some name := by
  obtain ⟨front, hfront⟩ := Path.pieces_join root (componentDir ++ "/" ++ name)
  have hpieces : Path.pieces (componentDir ++ "/" ++ name) = [componentDir, name] := by
    rw [Path.pieces_append, Path.pieces_of_notMem h, Path.pieces_of_notMem (by decide)]
    rfl
  obtain ⟨front', hfront'⟩ : ∃ front', FileTree.trail (front ++ [componentDir, name])
      = front' ++ [componentDir, name] := by
    unfold FileTree.trail
    cases front with
    | nil => exact ⟨[], by simp [componentDir]⟩
    | cons first front =>
      by_cases hfirst : first = ""
      · exact ⟨front, by simp [hfirst]⟩
      · exact ⟨first :: front, by simp [hfirst]⟩
  rw [FileTree.steps_eq, hfront, hpieces, hfront']
  simp [FileTree.stepOf, hne]

def Summary.ofRegistry (registry : Registry) (outputs : List String) (dryRun : Bool) : Summary :=
  ⟨registry.size, registry.countKind .code, registry.countKind .condition, outputs, dryRun⟩

namespace Run

variable {w w' : Workspace} {find : Finder} {overflow : Overflow} {config : Config}
  {dryRun : Bool} {summary : Summary}

theorem project_eq_ok : project find config dryRun w = .ok summary w' ↔
    ∃ files mid component, find w.tree config.projectPath config.patterns = .ok files ∧
      sourceFiles config.projectPath dryRun files w = .ok () mid ∧
      mid.session.templates.renderComponent mid.session.registry = .ok component ∧
      generatedFiles config.projectPath dryRun component mid = .ok () w' ∧
      summary = .ofRegistry w'.session.registry (component.map GeneratedFile.path) dryRun := by
  unfold project
  rw [get_bind]
  simp only [bind_eq_ok, lift_eq_ok]
  constructor
  · rintro ⟨files, _, ⟨hfiles, rfl⟩, _, _, hrun, _, _, ⟨⟩, component, _, ⟨hcomponent, rfl⟩, _, _,
      hwrite, ⟨⟩⟩
    exact ⟨files, _, component, hfiles, hrun, hcomponent, hwrite, rfl⟩
  · rintro ⟨files, mid, component, hfiles, hrun, hcomponent, hwrite, rfl⟩
    exact ⟨files, _, ⟨hfiles, rfl⟩, (), mid, hrun, mid, mid, rfl, component, _, ⟨hcomponent, rfl⟩, (),
      w', hwrite, rfl⟩

theorem generatedFiles_cons {root : String} {file : GeneratedFile} {rest : List GeneratedFile} :
    generatedFiles root false (file :: rest) w = .ok () w' ↔
      ∃ tree, w.tree.save (Path.join root file.path) file.contents = .ok tree ∧
        generatedFiles root false rest { w with tree := tree } = .ok () w' := by
  rw [generatedFiles]
  cases hsave : w.tree.save (Path.join root file.path) file.contents with
  | error failure => simp [bind_error (save_error hsave)]
  | ok tree => simp [bind_ok (save_ok hsave)]

theorem generatedFiles_pair {root : String} {first second : GeneratedFile} :
    generatedFiles root false [first, second] w = .ok () w' ↔
      ∃ mid last, w.tree.save (Path.join root first.path) first.contents = .ok mid ∧
        mid.save (Path.join root second.path) second.contents = .ok last ∧
        w' = { w with tree := last } := by
  have hnil : ∀ w, generatedFiles root false [] w = .ok () w' ↔ w' = w := fun w =>
    ⟨fun h => by cases h; rfl, fun h => h ▸ rfl⟩
  simp only [generatedFiles_cons, hnil, exists_and_left]

theorem brs_ne_descriptor {tree : FileTree} {root relative : String} {place place' : Place}
    (hbrs : Path.isBrs relative = true) (h : tree.locate (Path.join root relative) = .ok place)
    (h' : place'.getLast? = some descriptorName) : place ≠ place' := by
  rintro rfl
  unfold Path.isBrs at hbrs
  cases hname : Path.fileName? relative with
  | none => simp [hname] at hbrs
  | some name =>
    have hlast := FileTree.getLast?_of_locate h (Path.fileName?_join hname)
    rw [h'] at hlast
    rw [hname, ← Option.some.inj hlast] at hbrs
    revert hbrs
    decide +kernel

theorem project_of_turn {tree : FileTree} {turn : Turn}
    {descriptor implementation : Template} {old₁ old₂ : Text}
    (hfiles : find tree config.projectPath config.patterns = .ok [turn.relative])
    (hfits : turn.Fits (.ofConfig overflow config tree) config.projectPath .first tree)
    (hdescriptor : (Settings.ofConfig overflow config tree).templates.descriptor = some descriptor)
    (himplementation :
      (Settings.ofConfig overflow config tree).templates.implementation = some implementation)
    (hread₁ : tree.readText (Path.join config.projectPath descriptorPath) = .ok old₁)
    (hread₂ : tree.readText (Path.join config.projectPath implementationPath) = .ok old₂) :
    ∃ summary w, project find config false (.ofConfig overflow config tree) = .ok summary w ∧
      w.session = (afterTurn (.ofConfig overflow config tree) turn).session ∧
      w.tree.readText (Path.join config.projectPath implementationPath)
        = .ok (implementation.withMaps w.session.registry) := by
  obtain ⟨mid, hmid⟩ : ∃ mid, mid = afterTurn (.ofConfig overflow config tree) turn := ⟨_, rfl⟩
  have hrun : sourceFiles config.projectPath false [turn.relative] (.ofConfig overflow config tree)
      = .ok () mid := by
    rw [sourceFiles, bind_ok (sourceFile_of_fits hfits), hmid]
    rfl
  have hshape : tree.SameShape mid.tree := by
    rw [hmid]
    exact FileTree.sameShape_set hfits.held _
  have htemplates : mid.session.templates = (Settings.ofConfig overflow config tree).templates := by
    rw [hmid]
    rfl
  have hcomponent : mid.session.templates.renderComponent mid.session.registry = .ok _ :=
    TemplateSet.renderComponent_eq_ok.2
      ⟨descriptor, implementation, htemplates ▸ hdescriptor, htemplates ▸ himplementation, rfl⟩
  obtain ⟨place₁, hplace₁, hheld₁⟩ := FileTree.readText_eq_ok.1 hread₁
  obtain ⟨place₂, hplace₂, hheld₂⟩ := FileTree.readText_eq_ok.1 hread₂
  obtain ⟨hsave₁, hshape₁⟩ := hshape.save hplace₁ hheld₁ descriptor.text
  obtain ⟨hsave₂, hshape₂⟩ := hshape₁.save hplace₂ hheld₂
    (implementation.withMaps mid.session.registry)
  have hwrite : generatedFiles config.projectPath false [⟨descriptorPath, descriptor.text⟩,
      ⟨implementationPath, implementation.withMaps mid.session.registry⟩] mid = .ok () _ :=
    generatedFiles_pair.2 ⟨_, _, hsave₁, hsave₂, rfl⟩
  have hproject : project find config false (.ofConfig overflow config tree) = .ok _ _ :=
    project_eq_ok.2 ⟨_, _, _, hfiles, hrun, hcomponent, hwrite, rfl⟩
  have hsession := congrArg Workspace.session hmid
  refine ⟨_, _, hproject, hsession, FileTree.readText_eq_ok.2 ⟨place₂, ?_, ?_⟩⟩
  · exact (hshape₂.locate _).trans hplace₂
  · exact (FileTree.get?_set (FileTree.ne_nil_of_file hheld₂)).trans (if_pos rfl)

/-- What a run has left behind matches the maps that it has emitted. Files are numbered in the order
in which they were found, from one on, and a file holds what it was given under its number, unless it
was found again later on another way or is the implementation of the component. As long as the numbers
suffice, and in a build that checks its arithmetic they do, no record replaces another one. -/
structure Matched (find : Finder) (overflow : Overflow) (config : Config) (tree : FileTree)
    (turns : List Turn) (w : Workspace) : Prop where
  found : find tree config.projectPath config.patterns = .ok (turns.map Turn.relative)
  instrumented : ∃ mid, Overwritten overflow config tree turns mid
  recorded : w.session = (Session.start (.ofConfig overflow config tree)).afterTurns turns
  checked : overflow = .stops → turns.length < 2 ^ 32
  numbered : turns.length < 2 ^ 32 →
    w.session.registry.expected.entries = Turn.coverages config.stem 1 turns ∧
    w.session.registry.paths.entries = Turn.paths 1 turns
  emitted : ∃ implementation,
    (Settings.ofConfig overflow config tree).templates.implementation = some implementation ∧
    w.tree.readText (Path.join config.projectPath implementationPath)
      = .ok (implementation.withMaps w.session.registry)
  held : ∀ (i : Nat) (turn : Turn), turns[i]? = some turn →
    (∀ (j : Nat) (other : Turn), i < j → turns[j]? = some other → other.place ≠ turn.place) →
    w.tree.locate (Path.join config.projectPath implementationPath) ≠ .ok turn.place →
    w.tree.readText (Path.join config.projectPath turn.relative)
      = .ok (turn.after ⟨config.stem, (FileId.nth i).toNat⟩)

theorem Done.checked {tree : FileTree} {turns : List Turn}
    (h : Done config.projectPath (.ofConfig .stops config tree) turns w) : turns.length < 2 ^ 32 := by
  have hlt := h.tree.toNat_add_lt rfl
  have hfirst : FileId.first.toNat = 1 := rfl
  omega

open Discovery in
/-- After a run the emitted maps match the tree, whatever reads the file patterns. -/
theorem project_matches_tree : discover = Globbing.finder Globbing.ofTree id ∧
    ∀ {ε : Type} (g : FileTree → String → Globbing ε) (wrap : ε → DiscoveryError)
      (overflow : Overflow) (config : Config) (tree : FileTree) (summary : Summary) (w : Workspace),
      project (Globbing.finder g wrap) config false (.ofConfig overflow config tree)
        = .ok summary w →
      ∃ turns, Matched (Globbing.finder g wrap) overflow config tree turns w := by
  refine ⟨Globbing.finder_ofTree.symm, fun g wrap overflow config tree summary w h => ?_⟩
  obtain ⟨_, mid, component, hfiles, hrun, hcomponent, hwritten, -⟩ := project_eq_ok.1 h
  obtain ⟨turns, rfl, hdone⟩ := sourceFiles_eq_ok hrun
  have hsettings : mid.session.toSettings = .ofConfig overflow config tree := hdone.toSettings
  rw [hsettings, TemplateSet.renderComponent_eq_ok] at hcomponent
  obtain ⟨descriptor, implementation, -, himplementation, rfl⟩ := hcomponent
  obtain ⟨tree₁, tree₂, hsave₁, hsave₂, rfl⟩ := generatedFiles_pair.1 hwritten
  obtain ⟨place₁, hgrows₁, -, hkeeps₁, hnamed₁⟩ := FileTree.save_eq_ok hsave₁
  obtain ⟨place₂, hgrows₂, hheld₂, hkeeps₂, hnamed₂⟩ := FileTree.save_eq_ok hsave₂
  have hlast₁ := (hnamed₁ descriptorName (getLast?_steps_join _ (by decide) (by decide))
    (by decide) (by decide)).2
  have hlocate₂ := (hnamed₂ implementationName (getLast?_steps_join _ (by decide) (by decide))
    (by decide) (by decide)).1
  refine ⟨turns, hfiles, ⟨mid.tree, hdone.overwritten⟩, hdone.session, fun hstops => ?_, fun hlt => ?_,
    ⟨implementation, himplementation, ?_⟩, fun i turn hturn hlater hother => ?_⟩
  · subst hstops
    exact hdone.checked
  · have hfew : 0 + turns.length < 2 ^ 32 := by omega
    have hcounted := (Session.counted_start (.ofConfig overflow config tree)).afterTurns hfew
    rw [hdone.session]
    exact hcounted.2
  · exact FileTree.readText_eq_ok.2 ⟨place₂, hlocate₂, hheld₂⟩
  · have hbrs : Path.isBrs turn.relative = true := Globbing.isBrs_of_finder hfiles _
      (List.mem_map_of_mem (List.mem_of_getElem? hturn))
    have hlocated : mid.tree.locate (Path.join config.projectPath turn.relative)
        = .ok turn.place := by
      rw [hdone.tree.sameShape.locate]
      exact hdone.tree.located turn (List.mem_of_getElem? hturn)
    have hheld := hdone.tree.get?_of_last hturn hlater
    have hid : (Workspace.ofConfig overflow config tree).session.nextId + UInt32.ofNat i = .nth i :=
      FileId.first_add i
    rw [hid] at hheld
    -- The component is written last. Its descriptor is no source file, and its implementation is the
    -- one that the hypothesis leaves out.
    have hne₁ : turn.place ≠ place₁ := brs_ne_descriptor hbrs hlocated hlast₁
    have hne₂ : turn.place ≠ place₂ := fun heq => hother (heq ▸ hlocate₂)
    have htree₁ := (hkeeps₁ _ hne₁ (by rw [hheld]; rfl)).trans hheld
    have htree₂ := (hkeeps₂ _ hne₂ (by rw [htree₁]; rfl)).trans htree₁
    exact FileTree.readText_eq_ok.2 ⟨turn.place, hgrows₂.locate (hgrows₁.locate hlocated), htree₂⟩

/-- The file of a project is instrumented, and the component of an earlier run is written anew. -/
theorem project_matches_tree_again :
    let tree : FileTree := ⟨[], [(["a.brs"], .file (.text "x = 1".toList)), (["components"], .dir),
      (["components", "CodeCoverage.xml"], .file (.text [])),
      (["components", "CodeCoverage.brs"], .file (.text []))]⟩
    let config : Config := ⟨".", ["a.brs"], "P", none⟩
    ∃ summary w, project discover config false (.ofConfig .wraps config tree) = .ok summary w ∧
      ∃ turns, Matched discover .wraps config tree turns w := by
  intro tree config
  have hfiles : discover tree config.projectPath config.patterns = .ok ["a.brs"] := by
    decide +kernel
  obtain ⟨turn, hname, hfits⟩ : ∃ turn : Turn, turn.relative = "a.brs" ∧
      turn.Fits (.ofConfig .wraps config tree) config.projectPath .first tree := by
    obtain ⟨program, hparsed⟩ : ∃ program, parse "x = 1".toList = .ok program := ⟨_, rfl⟩
    obtain ⟨footer, hfooter⟩ : ∃ footer, TemplateSet.builtIn.renderFooter ⟨"P", 1⟩ = .ok footer :=
      ⟨_, rfl⟩
    have hlocated : tree.locate (Path.join "." "a.brs") = .ok ["a.brs"] := by decide +kernel
    have hheld : tree.get? ["a.brs"] = some (.file (.text "x = 1".toList)) := by decide +kernel
    exact ⟨⟨_, _, _, program, footer⟩, rfl, hlocated, hheld, hparsed, hfooter, rfl⟩
  have hread₁ : tree.readText (Path.join config.projectPath descriptorPath) = .ok [] := by
    decide +kernel
  have hread₂ : tree.readText (Path.join config.projectPath implementationPath) = .ok [] := by
    decide +kernel
  obtain ⟨summary, w, hproject, -⟩ := project_of_turn (hname ▸ hfiles) hfits rfl rfl hread₁ hread₂
  obtain ⟨hfinder, hmatches⟩ := project_matches_tree
  rw [hfinder] at hproject ⊢
  exact ⟨summary, w, hproject, hmatches _ _ .wraps config tree summary w hproject⟩

/-- The implementation of the component, found as a file of the project, is instrumented under
number one and does not hold its text when the run ends. -/
theorem project_buries_component :
    let tree : FileTree := ⟨[], [(["components"], .dir),
      (["components", "CodeCoverage.brs"], .file (.text "x = 1".toList)),
      (["components", "CodeCoverage.xml"], .file (.text []))]⟩
    let config : Config := ⟨".", [implementationPath], "RBS_CC", none⟩
    ∃ summary w, ∃ (turn : Turn) (text : Text),
      project discover config false (.ofConfig .wraps config tree) = .ok summary w ∧
      turn.relative = implementationPath ∧
      turn.Fits (.ofConfig .wraps config tree) config.projectPath .first tree ∧
      w.session.registry.expected.entries = [(1, turn.coverage ⟨config.stem, 1⟩)] ∧
      w.session.registry.paths.entries = [(1, Path.deviceUri turn.relative)] ∧
      w.tree.readText (Path.join config.projectPath implementationPath) = .ok text ∧
      ¬ turn.after ⟨config.stem, 1⟩ <:+: text := by
  intro tree config
  have hfiles : discover tree config.projectPath config.patterns = .ok [implementationPath] := by
    decide +kernel
  obtain ⟨program, hparsed, hcall, hcoverage⟩ : ∃ program, parse "x = 1".toList = .ok program ∧
      'R' ∈ (instrument ⟨"RBS_CC", 1⟩ (classify program) "x = 1".toList).text ∧
      (instrument ⟨"RBS_CC", 1⟩ (classify program) "x = 1".toList).coverage.entries
        = [(0, .code)] := ⟨_, rfl, by decide +kernel, by decide +kernel⟩
  obtain ⟨turn, hname, hfits, hafter, hrecord⟩ : ∃ turn : Turn, turn.relative = implementationPath ∧
      turn.Fits (.ofConfig .wraps config tree) config.projectPath .first tree ∧
      'R' ∈ turn.after ⟨config.stem, 1⟩ ∧
      (turn.coverage ⟨config.stem, 1⟩).entries = [(0, .code)] := by
    obtain ⟨footer, hfooter⟩ : ∃ footer,
        TemplateSet.builtIn.renderFooter ⟨"RBS_CC", 1⟩ = .ok footer := ⟨_, rfl⟩
    have hlocated : tree.locate (Path.join "." implementationPath)
        = .ok ["components", "CodeCoverage.brs"] := by decide +kernel
    have hheld : tree.get? ["components", "CodeCoverage.brs"]
        = some (.file (.text "x = 1".toList)) := by decide +kernel
    exact ⟨⟨_, _, _, program, footer⟩, rfl, ⟨hlocated, hheld, hparsed, hfooter, rfl⟩,
      List.mem_append_left _ hcall, hcoverage⟩
  have hread₁ : tree.readText (Path.join config.projectPath descriptorPath) = .ok [] := by
    decide +kernel
  have hread₂ : tree.readText (Path.join config.projectPath implementationPath)
      = .ok "x = 1".toList := by
    decide +kernel
  obtain ⟨summary, w, hproject, hsession, hread⟩ :=
    project_of_turn (hname ▸ hfiles) hfits rfl rfl hread₁ hread₂
  have hentries : w.session.registry.expected.entries = [(1, turn.coverage ⟨config.stem, 1⟩)] := by
    rw [hsession]
    rfl
  have hentries' : w.session.registry.paths.entries = [(1, Path.deviceUri turn.relative)] := by
    rw [hsession]
    rfl
  refine ⟨summary, w, turn, _, hproject, hname, hfits, hentries, hentries', hread, fun hinfix => ?_⟩
  -- The component has no capital R, with which every reporting call starts.
  have hexpected : w.session.registry.expectedJson
      = jsonObject [(1, jsonObject [(0, Nat.toDigits 10 1)])] := by
    simp [Registry.expectedJson, hentries, Coverage.json, hrecord, LineKind.toNat]
  have hpaths : w.session.registry.pathsJson
      = jsonObject [(1, jsonString (Path.deviceUri implementationPath).toList)] := by
    simp [Registry.pathsJson, hentries', hname]
  have hmem := hinfix.subset hafter
  rw [Template.withMaps, hexpected, hpaths] at hmem
  revert hmem
  decide +kernel

end Run

end BrightCoverage
