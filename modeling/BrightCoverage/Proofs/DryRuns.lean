import BrightCoverage.Proofs.RunOutcomes

/-! A dry run foretells the run. It gives every file its turn in the tree as it stands, while the run
gives it its turn in the tree that the files before it have left. These turns differ only where a
file is found again on another way: its later turn then starts from the text that the run has already
given to it. -/

namespace BrightCoverage

/-- Turns that files have in one tree, under the numbers from `id` on. -/
inductive Rehearsed (settings : Settings) (root : String) (tree : FileTree) :
    FileId → List Turn → Prop
  | nil {id : FileId} : Rehearsed settings root tree id []
  | cons {id : FileId} {turn : Turn} {turns : List Turn} :
    turn.Fits settings root id tree → Rehearsed settings root tree (id + 1) turns →
    Rehearsed settings root tree id (turn :: turns)

/-- What a file held is still there, or it was a text that can be parsed. -/
def FileTree.Legible (tree cur : FileTree) : Prop :=
  ∀ place, cur.get? place = tree.get? place ∨ ∃ text program,
    tree.get? place = some (.file (.text text)) ∧ parse text = .ok program

section Turns

variable {settings : Settings} {root : String} {id : FileId} {tree cur last : FileTree} {turn : Turn}
  {turns : List Turn}

/-- A file that has its turn later can have one in the first tree as well. -/
theorem Turn.Fits.rehearse (h : turn.Fits settings root id cur) (hshape : tree.SameShape cur)
    (hlegible : tree.Legible cur) :
    ∃ turn₀ : Turn, turn₀.relative = turn.relative ∧ turn₀.place = turn.place ∧
      turn₀.Fits settings root id tree := by
  have hlocated : tree.locate (Path.join root turn.relative) = .ok turn.place := by
    rw [← hshape.locate]
    exact h.located
  rcases hlegible turn.place with heq | ⟨text, program, hheld, hparsed⟩
  · exact ⟨turn, rfl, rfl, hlocated, heq ▸ h.held, h.works⟩
  · exact ⟨⟨turn.relative, turn.place, text, program, turn.footer⟩, rfl, rfl, hlocated, hheld,
      hparsed, h.works.footed, h.works.numbered⟩

theorem FileTree.Legible.set (h : tree.Legible cur) (hfits : turn.Fits settings root id cur)
    {turn₀ : Turn} (hplace : turn₀.place = turn.place) (hfits₀ : turn₀.Fits settings root id tree)
    (content : Content) : tree.Legible (cur.set turn.place (.file content)) := by
  intro place
  rw [get?_set (ne_nil_of_file hfits.held)]
  split
  · next heq =>
    rw [heq, ← hplace]
    exact .inr ⟨_, _, hfits₀.held, hfits₀.works.parsed⟩
  · exact h place

theorem Turns.rehearse (h : Turns settings root id cur turns last)
    (hshape : tree.SameShape cur) (hlegible : tree.Legible cur) :
    ∃ turns₀, turns₀.map Turn.relative = turns.map Turn.relative ∧
      Rehearsed settings root tree id turns₀ := by
  induction h with
  | nil => exact ⟨[], rfl, .nil⟩
  | @cons id cur last turn turns fits _ ih =>
    obtain ⟨turn₀, hrelative, hplace, hfits₀⟩ := fits.rehearse hshape hlegible
    obtain ⟨turns₀, hrelatives, hrest⟩ := ih (hshape.trans (FileTree.sameShape_set fits.held _))
      (hlegible.set fits hplace hfits₀ _)
    exact ⟨turn₀ :: turns₀, by simp [hrelative, hrelatives], .cons hfits₀ hrest⟩

theorem Turns.rehearsed (h : Turns settings root id cur turns last)
    (hshape : tree.SameShape cur) (hsame : ∀ turn ∈ turns, cur.get? turn.place = tree.get? turn.place)
    (hplaces : (turns.map Turn.place).Nodup) : Rehearsed settings root tree id turns := by
  induction h with
  | nil => exact .nil
  | @cons id cur last turn turns fits _ ih =>
    obtain ⟨hturn, hturns⟩ := List.forall_mem_cons.1 hsame
    obtain ⟨hnotin, hplaces⟩ := List.nodup_cons.1 hplaces
    have hlocated : tree.locate (Path.join root turn.relative) = .ok turn.place := by
      rw [← hshape.locate]
      exact fits.located
    refine .cons ⟨hlocated, hturn ▸ fits.held, fits.works⟩
      (ih (hshape.trans (FileTree.sameShape_set fits.held _)) (fun other hother => ?_) hplaces)
    have hne : other.place ≠ turn.place := fun heq => hnotin (heq ▸ List.mem_map_of_mem hother)
    rw [FileTree.get?_set (FileTree.ne_nil_of_file fits.held), if_neg hne]
    exact hturns other hother

end Turns

theorem map_fst_insertEntry {α : Type} {key : Nat} {value value' : α} {entries entries' : List (Nat × α)}
    (h : entries.map Prod.fst = entries'.map Prod.fst) :
    (insertEntry key value entries).map Prod.fst
      = (insertEntry key value' entries').map Prod.fst := by
  induction entries generalizing entries' with
  | nil =>
    obtain rfl := List.map_eq_nil_iff.1 h.symm
    rfl
  | cons entry entries ih =>
    obtain ⟨entry', entries', rfl, hentry, hentries⟩ := List.map_eq_cons_iff.1 h.symm
    rw [insertEntry, insertEntry, hentry]
    split
    · simp [hentry, hentries]
    · split
      · simp [hentries]
      · simp [hentry, ih hentries.symm]

/-- Two sessions agree in all but what is said about the lines of the files. -/
structure Session.Alike (s s' : Session) : Prop where
  nextId : s.nextId = s'.nextId
  keys : s.registry.expected.entries.map Prod.fst = s'.registry.expected.entries.map Prod.fst
  paths : s.registry.paths = s'.registry.paths

namespace Session

variable {s s' : Session} {turns turns' : List Turn}

theorem Alike.record (h : s.Alike s') (coverage coverage' : Coverage) (path : String) :
    (s.record coverage path).Alike (s'.record coverage' path) := by
  refine ⟨congrArg (· + 1) h.nextId, ?_, ?_⟩
  · show (insertEntry s.nextId.toNat _ _).map Prod.fst = (insertEntry s'.nextId.toNat _ _).map Prod.fst
    rw [h.nextId]
    exact map_fst_insertEntry h.keys
  · show s.registry.paths.insert s.nextId.toNat path = s'.registry.paths.insert s'.nextId.toNat path
    rw [h.nextId, h.paths]

theorem Alike.afterTurns (h : s.Alike s')
    (hrelatives : turns.map Turn.relative = turns'.map Turn.relative) :
    (s.afterTurns turns).Alike (s'.afterTurns turns') := by
  induction turns generalizing s s' turns' with
  | nil =>
    obtain rfl := List.map_eq_nil_iff.1 hrelatives.symm
    exact h
  | cons turn turns ih =>
    obtain ⟨turn', turns', rfl, hturn, hturns⟩ := List.map_eq_cons_iff.1 hrelatives.symm
    have hnext : (s.afterTurn turn).Alike (s'.afterTurn turn') := by
      rw [afterTurn, afterTurn, hturn]
      exact h.record _ _ _
    show ((s.afterTurn turn).afterTurns turns).Alike ((s'.afterTurn turn').afterTurns turns')
    exact ih hnext hturns.symm

end Session

namespace Run

variable {w w' : Workspace} {root : String} {turn : Turn} {turns : List Turn} {find : Finder}
  {overflow : Overflow} {config : Config} {summary : Summary}

theorem sourceFile_dry (h : turn.Fits w.session.toSettings root w.session.nextId w.tree) :
    sourceFile root true turn.relative w = .ok () { w with session := w.session.afterTurn turn } := by
  rw [sourceFile_of_turn h]
  rfl

theorem sourceFiles_dry
    (h : Rehearsed w.session.toSettings root w.tree w.session.nextId turns) :
    sourceFiles root true (turns.map Turn.relative) w
      = .ok () { w with session := w.session.afterTurns turns } := by
  induction turns generalizing w with
  | nil => rfl
  | cons turn turns ih =>
    cases h with
    | cons hfits hrest =>
      rw [List.map_cons, sourceFiles, bind_ok (sourceFile_dry hfits)]
      exact ih hrest

theorem generatedFiles_dry (files : List GeneratedFile) :
    generatedFiles root true files w = .ok () w := by
  induction files with
  | nil => rfl
  | cons file rest ih => exact ih

/-- Every file of the project is found on one way only. -/
def FoundOnce (find : Finder) (config : Config) (tree : FileTree) : Prop :=
  ∀ files, find tree config.projectPath config.patterns = .ok files →
    (files.map fun file => tree.locate (Path.join config.projectPath file)).Nodup

theorem FoundOnce.places {tree last : FileTree} {settings : Settings} {id : FileId}
    (h : FoundOnce find config tree)
    (hfiles : find tree config.projectPath config.patterns = .ok (turns.map Turn.relative))
    (hturns : Turns settings config.projectPath id tree turns last) :
    (turns.map Turn.place).Nodup := by
  have hnodup := h _ hfiles
  have hlocated : (turns.map Turn.relative).map
      (fun file => tree.locate (Path.join config.projectPath file))
      = (turns.map Turn.place).map Except.ok := by
    rw [List.map_map, List.map_map]
    exact List.map_congr_left hturns.located
  rw [hlocated] at hnodup
  exact (List.pairwise_map.1 hnodup).imp fun hne heq => hne (congrArg _ heq)

/-- The files that a run has instrumented, and what it says about them. -/
structure Performed (find : Finder) (overflow : Overflow) (config : Config) (tree : FileTree)
    (turns : List Turn) (dryRun : Bool) (summary : Summary) (session : Session) : Prop where
  found : find tree config.projectPath config.patterns = .ok (turns.map Turn.relative)
  recorded : session = (Session.start (.ofConfig overflow config tree)).afterTurns turns
  component : ∃ descriptor implementation,
    (Settings.ofConfig overflow config tree).templates.descriptor = some descriptor ∧
    (Settings.ofConfig overflow config tree).templates.implementation = some implementation
  summed : summary = .ofRegistry session.registry [descriptorPath, implementationPath] dryRun

theorem project_performed {tree : FileTree}
    (h : project find config false (.ofConfig overflow config tree) = .ok summary w) :
    ∃ turns last, Performed find overflow config tree turns false summary w.session ∧
      Turns (.ofConfig overflow config tree) config.projectPath .first tree turns last := by
  obtain ⟨files, mid, component, hfiles, hrun, hcomponent, hwrite, rfl⟩ := project_eq_ok.1 h
  obtain ⟨turns, rfl, hdone⟩ := sourceFiles_eq_ok hrun
  rw [hdone.toSettings, TemplateSet.renderComponent_eq_ok] at hcomponent
  obtain ⟨descriptor, implementation, hdescriptor, himplementation, rfl⟩ := hcomponent
  obtain ⟨_, last, -, -, rfl⟩ := generatedFiles_pair.1 hwrite
  exact ⟨turns, mid.tree, ⟨hfiles, hdone.session,
    ⟨descriptor, implementation, hdescriptor, himplementation⟩, rfl⟩, hdone.tree⟩

theorem project_rehearsed {tree : FileTree} {session : Session}
    (h : Performed find overflow config tree turns false summary session) {turns₀ : List Turn}
    (hrelatives : turns₀.map Turn.relative = turns.map Turn.relative)
    (hrehearsed : Rehearsed (.ofConfig overflow config tree) config.projectPath tree .first turns₀) :
    ∃ foretold w₀, project find config true (.ofConfig overflow config tree) = .ok foretold w₀ ∧
      w₀.tree = tree ∧ Performed find overflow config tree turns₀ true foretold w₀.session := by
  obtain ⟨descriptor, implementation, hdescriptor, himplementation⟩ := h.component
  have hfiles := h.found
  rw [← hrelatives] at hfiles
  have hrun : sourceFiles config.projectPath true (turns₀.map Turn.relative)
      (.ofConfig overflow config tree)
      = .ok () ⟨(Session.start (.ofConfig overflow config tree)).afterTurns turns₀, tree⟩ :=
    sourceFiles_dry hrehearsed
  generalize hsession : (Session.start (.ofConfig overflow config tree)).afterTurns turns₀ = s at hrun
  have htemplates : s.templates = (Settings.ofConfig overflow config tree).templates := by
    rw [← hsession, Session.afterTurns_toSettings]
    rfl
  have hcomponent : s.templates.renderComponent s.registry = .ok _ :=
    TemplateSet.renderComponent_eq_ok.2
      ⟨descriptor, implementation, htemplates ▸ hdescriptor, htemplates ▸ himplementation, rfl⟩
  exact ⟨_, _, project_eq_ok.2 ⟨_, _, _, hfiles, hrun, hcomponent, generatedFiles_dry _, rfl⟩,
    rfl, hfiles, hsession.symm, h.component, rfl⟩

/-- If a run succeeds, so does a dry run on the same tree, whatever names the files. It leaves the tree
as it is and finds the same files under the same numbers; what it says about their lines is right
unless a file is found again on another way. -/
theorem project_dry_foretells {tree : FileTree}
    (h : project find config false (.ofConfig overflow config tree) = .ok summary w) :
    ∃ foretold w₀, project find config true (.ofConfig overflow config tree) = .ok foretold w₀ ∧
      w₀.tree = tree ∧ foretold.files = summary.files ∧ foretold.outputs = summary.outputs ∧
      w₀.session.nextId = w.session.nextId ∧
      w₀.session.registry.paths = w.session.registry.paths ∧
      w₀.session.registry.expected.entries.map Prod.fst
        = w.session.registry.expected.entries.map Prod.fst ∧
      (FoundOnce find config tree → w₀.session = w.session ∧
        foretold = { summary with dryRun := true }) := by
  obtain ⟨turns, last, hperformed, hturns⟩ := project_performed h
  obtain ⟨turns₀, hrelatives, hrehearsed⟩ := hturns.rehearse (.refl _) fun _ => .inl rfl
  obtain ⟨foretold, w₀, hdry, htree, hforetold⟩ := project_rehearsed hperformed hrelatives hrehearsed
  have halike : w₀.session.Alike w.session := by
    rw [hforetold.recorded, hperformed.recorded]
    exact Session.Alike.afterTurns ⟨rfl, rfl, rfl⟩ hrelatives
  refine ⟨foretold, w₀, hdry, htree, ?_, ?_, halike.nextId, halike.paths, halike.keys, fun honce => ?_⟩
  · have hsize := congrArg List.length halike.keys
    rw [List.length_map, List.length_map] at hsize
    rw [hforetold.summed, hperformed.summed]
    exact hsize
  · rw [hforetold.summed, hperformed.summed]
    rfl
  · -- The turns of the run are then those that the files have in the first tree.
    obtain ⟨foretold', w₀', hdry', -, hforetold'⟩ := project_rehearsed hperformed rfl
      (hturns.rehearsed (.refl _) (fun _ _ => rfl) (honce.places hperformed.found hturns))
    cases hdry.symm.trans hdry'
    have hsession : w₀.session = w.session := hforetold'.recorded.trans hperformed.recorded.symm
    rw [hforetold.summed, hperformed.summed, hsession]
    exact ⟨rfl, rfl⟩

theorem ok_of_run {ε σ α : Type} {x : EStateM ε σ α} {s : σ} {a : α} (h : EStateM.run' x s = some a) :
    ∃ s', x s = .ok a s' := by
  delta EStateM.run' EStateM.run at h
  cases hx : x s with
  | ok b s' =>
    rw [hx] at h
    cases h
    exact ⟨s', rfl⟩
  | error =>
    rw [hx] at h
    cases h

/-- A project of two files is foretold in full. -/
theorem project_dry_foretells_pair :
    let tree : FileTree := ⟨[], [(["a.brs"], .file (.text "f()".toList)),
      (["b.brs"], .file (.text "f()\nf()".toList)), (["t"], .dir),
      (["t", "CodeCoverageTemplate.brs"], .file (.text "f()".toList)),
      (["t", "CodeCoverage.xml"], .file (.text [])), (["t", "CodeCoverage.brs"], .file (.text []))]⟩
    let config : Config := ⟨".", ["a.brs", "b.brs"], "P", some "t"⟩
    ∃ summary w foretold w₀,
      project discover config false (.ofConfig .wraps config tree) = .ok summary w ∧
      project discover config true (.ofConfig .wraps config tree) = .ok foretold w₀ ∧
      w₀.tree = tree ∧ FoundOnce discover config tree ∧ summary.files = 2 ∧
      w₀.session = w.session ∧ foretold = { summary with dryRun := true } := by
  intro tree config
  have hcount : (EStateM.run' (project discover config false) (.ofConfig .wraps config tree)).map
      Summary.files = some 2 := by decide +kernel
  have hfiles : discover tree config.projectPath config.patterns = .ok ["a.brs", "b.brs"] := by
    decide +kernel
  have honce : FoundOnce discover config tree := by
    intro files h
    cases hfiles.symm.trans h
    decide +kernel
  obtain ⟨summary, hsummary, hsize⟩ := Option.map_eq_some_iff.1 hcount
  obtain ⟨w, hrun⟩ := ok_of_run hsummary
  obtain ⟨foretold, w₀, hdry, htree, -, -, -, -, -, hall⟩ := project_dry_foretells hrun
  exact ⟨summary, w, foretold, w₀, hrun, hdry, htree, honce, hsize, hall honce⟩

/-- A file that is found on two ways: the run instruments it a second time with the footer that it
has by then, and the dry run does not see that. -/
theorem project_dry_misses_footer :
    let tree : FileTree := ⟨[], [(["s"], .dir), (["s", "a.brs"], .file (.text "f()".toList)),
      (["t"], .dir), (["t", "CodeCoverageTemplate.brs"], .file (.text "f()".toList)),
      (["t", "CodeCoverage.xml"], .file (.text [])), (["t", "CodeCoverage.brs"], .file (.text []))]⟩
    let config : Config := ⟨".", ["s/a.brs", "s/../s/a.brs"], "P", some "t"⟩
    ∃ summary w foretold w₀,
      project discover config false (.ofConfig .wraps config tree) = .ok summary w ∧
      project discover config true (.ofConfig .wraps config tree) = .ok foretold w₀ ∧
      summary.codeLines = 3 ∧ foretold.codeLines = 2 := by
  intro tree config
  have hcode : (EStateM.run' (project discover config false) (.ofConfig .wraps config tree)).map
      Summary.codeLines = some 3 := by decide +kernel
  have hcode₀ : (EStateM.run' (project discover config true) (.ofConfig .wraps config tree)).map
      Summary.codeLines = some 2 := by decide +kernel
  obtain ⟨summary, hsummary, hlines⟩ := Option.map_eq_some_iff.1 hcode
  obtain ⟨w, hrun⟩ := ok_of_run hsummary
  obtain ⟨foretold, hforetold, hlines₀⟩ := Option.map_eq_some_iff.1 hcode₀
  obtain ⟨w₀, hdry⟩ := ok_of_run hforetold
  exact ⟨summary, w, foretold, w₀, hrun, hdry, hlines, hlines₀⟩

end Run

end BrightCoverage
