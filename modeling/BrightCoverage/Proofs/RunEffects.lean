import BrightCoverage.Project.Run
import BrightCoverage.Proofs.FileTrees
import BrightCoverage.Proofs.SessionHistory

/-! What a run leaves behind. Files have their turns one after another, each in the tree that the one
before it has left; a turn changes what one file holds and nothing else. A file that is refused stops
the run, so a run that stops has changed the files before that one, and a dry run nothing at all. -/

namespace BrightCoverage

/-- One file on its turn: its path inside the project, its place, the text that it held when its
turn came, the statements of that text, and the footer. -/
structure Turn where
  relative : String
  place : Place
  before : Text
  program : List (Statement Extent)
  footer : Text

namespace Turn

def after (t : Turn) (r : Reporter) : Text :=
  (instrument r (classify t.program) t.before).text ++ t.footer

def coverage (t : Turn) (r : Reporter) : Coverage :=
  (instrument r (classify t.program) t.before).coverage

def coverages (stem : String) : Nat → List Turn → List (Nat × Coverage)
  | _, [] => []
  | n, turn :: turns => (n, turn.coverage ⟨stem, n⟩) :: coverages stem (n + 1) turns

def paths : Nat → List Turn → List (Nat × String)
  | _, [] => []
  | n, turn :: turns => (n, Path.deviceUri turn.relative) :: paths (n + 1) turns

/-- The turn is that of a file which stands in the tree, and there is a number for it. -/
structure Fits (settings : Settings) (root : String) (id : FileId) (tree : FileTree) (t : Turn) :
    Prop where
  located : tree.locate (Path.join root t.relative) = .ok t.place
  held : tree.get? t.place = some (.file (.text t.before))
  works : Works settings id (.ofText root t.relative t.before) t.program t.footer

end Turn

/-- Files instrumented in place one after another, under the numbers from `id` on. Each gets what
comes of the text that it holds when its turn comes, and nothing else is different. -/
inductive Turns (settings : Settings) (root : String) :
    FileId → FileTree → List Turn → FileTree → Prop
  | nil {id : FileId} {tree : FileTree} : Turns settings root id tree [] tree
  | cons {id : FileId} {tree tree' : FileTree} {turn : Turn} {turns : List Turn} :
    turn.Fits settings root id tree →
    Turns settings root (id + 1)
      (tree.set turn.place (.file (.text (turn.after (settings.reporter id))))) turns tree' →
    Turns settings root id tree (turn :: turns) tree'

/-- The number of a file in a run, the first of which is counted as zero. -/
def FileId.nth (n : Nat) : FileId :=
  UInt32.ofNat (n + 1)

theorem FileId.first_add (n : Nat) : first + UInt32.ofNat n = nth n := by
  rw [nth, UInt32.ofNat_add, UInt32.add_comm]
  rfl

section Turns

variable {settings : Settings} {root : String} {id : FileId} {tree tree' : FileTree}
  {turns : List Turn}

theorem Turns.sameShape (h : Turns settings root id tree turns tree') :
    tree.SameShape tree' := by
  induction h with
  | nil => exact .refl _
  | cons fits _ ih => exact (FileTree.sameShape_set fits.held _).trans ih

theorem Turns.get?_eq (h : Turns settings root id tree turns tree') {place : Place}
    (hplace : ∀ turn ∈ turns, turn.place ≠ place) : tree'.get? place = tree.get? place := by
  induction h with
  | nil => rfl
  | cons fits _ ih =>
    rw [ih fun turn hturn => hplace turn (List.mem_cons_of_mem _ hturn),
      FileTree.get?_set (FileTree.ne_nil_of_file fits.held),
      if_neg (Ne.symm (hplace _ List.mem_cons_self))]

theorem Turns.located (h : Turns settings root id tree turns tree') :
    ∀ turn ∈ turns, tree.locate (Path.join root turn.relative) = .ok turn.place := by
  induction h with
  | nil => simp
  | cons fits _ ih =>
    intro turn hturn
    rcases List.mem_cons.1 hturn with rfl | hturn
    · exact fits.located
    · rw [← (FileTree.sameShape_set fits.held _).locate]
      exact ih turn hturn

theorem Turns.get?_of_last (h : Turns settings root id tree turns tree') {i : Nat}
    {turn : Turn} (hi : turns[i]? = some turn)
    (hlast : ∀ j other, i < j → turns[j]? = some other → other.place ≠ turn.place) :
    tree'.get? turn.place
      = some (.file (.text (turn.after (settings.reporter (id + UInt32.ofNat i))))) := by
  induction h generalizing i with
  | nil => simp at hi
  | @cons id tree tree' first turns fits hrest ih =>
    cases i with
    | zero =>
      obtain rfl := Option.some.inj hi
      have hothers : ∀ other ∈ turns, other.place ≠ first.place := by
        intro other hother
        obtain ⟨j, hj⟩ := List.mem_iff_getElem?.1 hother
        exact hlast (j + 1) other (Nat.succ_pos j) (by simpa using hj)
      rw [hrest.get?_eq hothers, FileTree.get?_set (FileTree.ne_nil_of_file fits.held), if_pos rfl]
      simp
    | succ i =>
      rw [ih (by simpa using hi) fun j other hj hother =>
        hlast (j + 1) other (Nat.succ_lt_succ hj) (by simpa using hother)]
      rw [UInt32.add_assoc, UInt32.add_comm 1, UInt32.ofNat_add]
      rfl

theorem Turns.toNat_add_lt (h : Turns settings root id tree turns tree')
    (hstops : settings.overflow = .stops) : id.toNat + turns.length < 2 ^ 32 := by
  induction h with
  | nil => simpa using UInt32.toNat_lt _
  | @cons id tree tree' turn turns fits _ ih =>
    have hnumbered := fits.works.numbered
    rw [hstops] at hnumbered
    have hlt := FileId.lt_of_next? hnumbered
    have hnext : (id + 1).toNat = id.toNat + 1 := by
      rw [UInt32.toNat_add]
      exact Nat.mod_eq_of_lt hlt
    rw [hnext] at ih
    rw [List.length_cons]
    omega

end Turns

/-- Why a file of a project cannot be instrumented as the tree stands. -/
inductive Refused (settings : Settings) (root : String) (id : FileId) (tree : FileTree)
    (relative : String) : RunError → Prop
  | unreadable {fault : FileFault} : tree.readText (Path.join root relative) = .error fault →
    Refused settings root id tree relative (.file ⟨Path.join root relative, fault⟩)
  | fails {text : Text} {e : RunError} : tree.readText (Path.join root relative) = .ok text →
    Fails settings id (.ofText root relative text) e → Refused settings root id tree relative e

theorem fits_or_refused (settings : Settings) (root : String) (id : FileId) (tree : FileTree)
    (relative : String) : (∃ turn : Turn, turn.relative = relative ∧ turn.Fits settings root id tree) ∨
      ∃ e, Refused settings root id tree relative e := by
  cases hread : tree.readText (Path.join root relative) with
  | error fault => exact .inr ⟨_, .unreadable hread⟩
  | ok text =>
    rcases works_or_fails settings id (.ofText root relative text) with
      ⟨program, footer, hworks⟩ | ⟨e, hfails⟩
    · obtain ⟨place, hplace, hheld⟩ := FileTree.readText_eq_ok.1 hread
      exact .inl ⟨⟨relative, place, text, program, footer⟩, rfl, hplace, hheld, hworks⟩
    · exact .inr ⟨e, .fails hread hfails⟩

namespace Session

def afterTurn (s : Session) (turn : Turn) : Session :=
  s.record (turn.coverage (s.reporter s.nextId)) (Path.deviceUri turn.relative)

def afterTurns (s : Session) (turns : List Turn) : Session :=
  turns.foldl afterTurn s

variable {s : Session} {turns : List Turn}

theorem afterTurns_toSettings : (s.afterTurns turns).toSettings = s.toSettings := by
  induction turns generalizing s with
  | nil => rfl
  | cons turn turns ih => exact ih

theorem afterTurns_nextId : (s.afterTurns turns).nextId = s.nextId + UInt32.ofNat turns.length := by
  induction turns generalizing s with
  | nil => simp [afterTurns]
  | cons turn turns ih =>
    show ((s.afterTurn turn).afterTurns turns).nextId = _
    rw [ih, List.length_cons, UInt32.ofNat_add, UInt32.add_comm (UInt32.ofNat turns.length),
      ← UInt32.add_assoc]
    rfl

theorem Counted.afterTurns {n : Nat} (h : s.Counted n) (hn : n + turns.length < 2 ^ 32) :
    (s.afterTurns turns).Counted (n + turns.length) ∧
      (s.afterTurns turns).registry.expected.entries
        = s.registry.expected.entries ++ Turn.coverages s.stem (n + 1) turns ∧
      (s.afterTurns turns).registry.paths.entries
        = s.registry.paths.entries ++ Turn.paths (n + 1) turns := by
  induction turns generalizing s n with
  | nil => exact ⟨h, (List.append_nil _).symm, (List.append_nil _).symm⟩
  | cons turn turns ih =>
    rw [List.length_cons] at hn ⊢
    have hlt : n + 1 < 2 ^ 32 := by omega
    have hid : (s.reporter s.nextId) = ⟨s.stem, n + 1⟩ := by
      rw [Settings.reporter, h.nextId_eq hlt]
    obtain ⟨hcounted, hexpected, hpaths⟩ := ih (s := s.afterTurn turn)
      (h.record hlt _ _) (by omega)
    have hexpected' := h.expected_record hlt (turn.coverage (s.reporter s.nextId))
      (Path.deviceUri turn.relative)
    have hpaths' := h.paths_record hlt (turn.coverage (s.reporter s.nextId))
      (Path.deviceUri turn.relative)
    refine ⟨?_, hexpected.trans ?_, hpaths.trans ?_⟩
    · rw [Nat.add_comm turns.length, ← Nat.add_assoc]
      exact hcounted
    · rw [afterTurn, hexpected', hid, List.append_assoc]
      rfl
    · rw [afterTurn, hpaths', List.append_assoc]
      rfl

end Session

namespace Run

variable {w w' : Workspace} {root relative : String} {e : RunError} {turn : Turn}
  {turns : List Turn} {α β : Type}

theorem bind_ok {x : Run α} {f : α → Run β} {a : α} (h : x w = .ok a w') :
    (x >>= f) w = f a w' := by
  simp only [bind, EStateM.bind, h]

theorem bind_error {x : Run α} {f : α → Run β} (h : x w = .error e w') :
    (x >>= f) w = .error e w' := by
  simp only [bind, EStateM.bind, h]

theorem get_bind {f : Workspace → Run β} : (get >>= f) w = f w w := rfl

open RunError (lift)

theorem lift_ok {ε : Type} {wrap : ε → RunError} {x : Except ε α} {a : α} (h : x = .ok a) :
    lift wrap x w = .ok a w := by
  rw [h]
  rfl

theorem lift_error {ε : Type} {wrap : ε → RunError} {x : Except ε α} {err : ε}
    (h : x = .error err) : lift wrap x w = .error (wrap err) w := by
  rw [h]
  rfl

theorem bind_eq_ok {x : Run α} {f : α → Run β} {b : β} :
    (x >>= f) w = .ok b w' ↔ ∃ a mid, x w = .ok a mid ∧ f a mid = .ok b w' := by
  cases hx : x w with
  | ok a mid => simp [bind_ok hx]
  | error e mid => simp [bind_error hx]

theorem lift_eq_ok {ε : Type} {wrap : ε → RunError} {x : Except ε α} {a : α} :
    lift wrap x w = .ok a w' ↔ x = .ok a ∧ w' = w := by
  cases x with
  | ok b => simp [lift_ok rfl, eq_comm]
  | error err => simp [lift_error rfl]

theorem bind_eq_error {x : Run α} {f : α → Run β} : (x >>= f) w = .error e w' ↔
    x w = .error e w' ∨ ∃ a mid, x w = .ok a mid ∧ f a mid = .error e w' := by
  cases hx : x w with
  | ok a mid => simp [bind_ok hx]
  | error e mid => simp [bind_error hx]

theorem lift_eq_error {ε : Type} {wrap : ε → RunError} {x : Except ε α} :
    lift wrap x w = .error e w' ↔ ∃ err, x = .error err ∧ e = wrap err ∧ w' = w := by
  cases x with
  | ok a => simp [lift_ok rfl]
  | error err => simp [lift_error rfl, eq_comm]

theorem save_ok {path : String} {text : Text} {tree : FileTree}
    (h : w.tree.save path text = .ok tree) :
    save false path text w = .ok () { w with tree := tree } := by
  show (lift .file (w.tree.save path text) >>= _) w = _
  rw [bind_ok (lift_ok h)]
  rfl

theorem save_error {path : String} {text : Text} {failure : FileTree.Failure}
    (h : w.tree.save path text = .error failure) :
    save false path text w = .error (.file failure) w := by
  show (lift .file (w.tree.save path text) >>= _) w = _
  rw [bind_error (lift_error h)]

theorem onFile_ok {file : SourceFile} {work : Work α} {a : α} {bench : Bench}
    (h : work ⟨w.session, file⟩ = .ok a bench) :
    onFile file work w = .ok bench.file { w with session := bench.session } := by
  simp only [onFile, h]

theorem onFile_error {file : SourceFile} {work : Work α} {bench : Bench}
    (h : work ⟨w.session, file⟩ = .error e bench) :
    onFile file work w = .error e { w with session := bench.session } := by
  simp only [onFile, h]

theorem sourceFile_of_unreadable {dryRun : Bool} {fault : FileFault}
    (h : w.tree.readText (Path.join root relative) = .error fault) :
    sourceFile root dryRun relative w = .error (.file ⟨Path.join root relative, fault⟩) w := by
  unfold sourceFile
  rw [get_bind, bind_error (lift_error h)]

theorem sourceFile_of_read {dryRun : Bool} {text : Text}
    (h : w.tree.readText (Path.join root relative) = .ok text) :
    sourceFile root dryRun relative w
      = (onFile (.ofText root relative text) Work.instrumentFile >>= fun file =>
          save dryRun file.path file.text) w := by
  unfold sourceFile
  rw [get_bind, bind_ok (lift_ok h)]

def afterTurn (w : Workspace) (turn : Turn) : Workspace :=
  ⟨w.session.afterTurn turn,
    w.tree.set turn.place (.file (.text (turn.after (w.session.reporter w.session.nextId))))⟩

theorem sourceFile_of_turn {dryRun : Bool}
    (h : turn.Fits w.session.toSettings root w.session.nextId w.tree) :
    sourceFile root dryRun turn.relative w
      = save dryRun (Path.join root turn.relative)
          (turn.after (w.session.reporter w.session.nextId))
          { w with session := w.session.afterTurn turn } := by
  have hread : w.tree.readText (Path.join root turn.relative) = .ok turn.before :=
    FileTree.readText_eq_ok.2 ⟨turn.place, h.located, h.held⟩
  have hfile := Work.instrumentFile_of_works
    (b := ⟨w.session, .ofText root turn.relative turn.before⟩) h.works
  rw [sourceFile_of_read hread, bind_ok (onFile_ok hfile)]
  rfl

theorem sourceFile_of_fits (h : turn.Fits w.session.toSettings root w.session.nextId w.tree) :
    sourceFile root false turn.relative w = .ok () (afterTurn w turn) := by
  rw [sourceFile_of_turn h]
  exact save_ok (FileTree.save_of_locate h.located h.held _)

theorem sourceFile_of_refused
    (h : Refused w.session.toSettings root w.session.nextId w.tree relative e) :
    sourceFile root false relative w = .error e w := by
  cases h with
  | unreadable hread => exact sourceFile_of_unreadable hread
  | @fails text e hread hfails =>
    have hfile := Work.instrumentFile_of_fails (b := ⟨w.session, .ofText root relative text⟩) hfails
    rw [sourceFile_of_read hread, bind_error (onFile_error hfile)]

/-- Some files have had their turns between two states of a run. -/
structure Done (root : String) (w : Workspace) (turns : List Turn) (w' : Workspace) : Prop where
  tree : Turns w.session.toSettings root w.session.nextId w.tree turns w'.tree
  session : w'.session = w.session.afterTurns turns

theorem Done.nil (root : String) (w : Workspace) : Done root w [] w :=
  ⟨.nil, rfl⟩

theorem Done.cons (hturn : turn.Fits w.session.toSettings root w.session.nextId w.tree)
    (h : Done root (afterTurn w turn) turns w') : Done root w (turn :: turns) w' :=
  ⟨.cons hturn h.tree, h.session⟩

theorem Done.toSettings (h : Done root w turns w') :
    w'.session.toSettings = w.session.toSettings := by
  rw [h.session]
  exact Session.afterTurns_toSettings

/-- What files one after another do to a run: all have their turns, or those before the first that is
refused. -/
theorem sourceFiles_cases (w : Workspace) (root : String) (files : List String) :
    (∃ turns w', turns.map Turn.relative = files ∧ Done root w turns w' ∧
      sourceFiles root false files w = .ok () w') ∨
    ∃ turns relative rest e w', files = turns.map Turn.relative ++ relative :: rest ∧
      Done root w turns w' ∧
      Refused w'.session.toSettings root w'.session.nextId w'.tree relative e ∧
      sourceFiles root false files w = .error e w' := by
  induction files generalizing w with
  | nil => exact .inl ⟨[], w, rfl, .nil root w, rfl⟩
  | cons relative rest ih =>
    rcases fits_or_refused w.session.toSettings root w.session.nextId w.tree relative with
      ⟨turn, rfl, hturn⟩ | ⟨e, hrefused⟩
    · rw [sourceFiles, bind_ok (sourceFile_of_fits hturn)]
      rcases ih (afterTurn w turn) with
        ⟨turns, w', hturns, hdone, hrest⟩ | ⟨turns, relative, rest', e, w', rfl, hdone, href, hrest⟩
      · exact .inl ⟨turn :: turns, w', by simp [hturns], hdone.cons hturn, hrest⟩
      · exact .inr ⟨turn :: turns, relative, rest', e, w', by simp, hdone.cons hturn, href, hrest⟩
    · rw [sourceFiles, bind_error (sourceFile_of_refused hrefused)]
      exact .inr ⟨[], relative, rest, e, w, rfl, .nil root w, hrefused, rfl⟩

theorem sourceFiles_eq_ok {files : List String} (h : sourceFiles root false files w = .ok () w') :
    ∃ turns, turns.map Turn.relative = files ∧ Done root w turns w' := by
  rcases sourceFiles_cases w root files with ⟨turns, w'', hturns, hdone, hrun⟩ |
    ⟨turns, _, _, e, w'', -, -, -, hrun⟩
  · cases h.symm.trans hrun
    exact ⟨turns, hturns, hdone⟩
  · cases h.symm.trans hrun

/-! ### Dry runs -/

/-- The tree at the end of a run, whether it succeeds or stops. -/
def finalTree : EStateM.Result RunError Workspace α → FileTree
  | .ok _ w | .error _ w => w.tree

/-- The run leaves every tree as it is. -/
def KeepsTree (x : Run α) : Prop :=
  ∀ w, finalTree (x w) = w.tree

theorem KeepsTree.bind {x : Run α} {f : α → Run β} (hx : KeepsTree x)
    (hf : ∀ a, KeepsTree (f a)) : KeepsTree (x >>= f) := by
  intro w
  have hw := hx w
  cases hrun : x w with
  | ok a w' =>
    rw [hrun] at hw
    rw [bind_ok hrun, hf a w']
    exact hw
  | error e w' =>
    rw [hrun] at hw
    rw [bind_error hrun]
    exact hw

theorem keepsTree_get : KeepsTree (get : Run Workspace) := fun _ => rfl

theorem keepsTree_lift {ε : Type} (wrap : ε → RunError) (x : Except ε α) :
    KeepsTree (lift wrap x) := by
  intro w
  cases x <;> rfl

theorem keepsTree_save (path : String) (text : Text) : KeepsTree (save true path text) :=
  fun _ => rfl

theorem keepsTree_sourceFile (root relative : String) : KeepsTree (sourceFile root true relative) := by
  intro w
  cases hread : w.tree.readText (Path.join root relative) with
  | error fault =>
    rw [sourceFile_of_unreadable hread]
    rfl
  | ok text =>
    rw [sourceFile_of_read hread]
    cases hfile : Work.instrumentFile ⟨w.session, .ofText root relative text⟩ with
    | error e bench =>
      rw [bind_error (onFile_error hfile)]
      rfl
    | ok id bench =>
      rw [bind_ok (onFile_ok hfile)]
      rfl

theorem keepsTree_sourceFiles (root : String) (files : List String) :
    KeepsTree (sourceFiles root true files) := by
  induction files with
  | nil => exact fun _ => rfl
  | cons relative rest ih => exact (keepsTree_sourceFile root relative).bind fun _ => ih

theorem keepsTree_generatedFiles (root : String) (files : List GeneratedFile) :
    KeepsTree (generatedFiles root true files) := by
  induction files with
  | nil => exact fun _ => rfl
  | cons file rest ih => exact (keepsTree_save _ _).bind fun _ => ih

theorem keepsTree_project (find : Finder) (config : Config) :
    KeepsTree (project find config true) := by
  unfold project
  refine keepsTree_get.bind fun w => (keepsTree_lift _ _).bind fun files => ?_
  refine (keepsTree_sourceFiles _ _).bind fun _ => keepsTree_get.bind fun w' => ?_
  refine (keepsTree_lift _ _).bind fun component => ?_
  exact (keepsTree_generatedFiles _ _).bind fun _ => fun _ => rfl

/-! ### Runs that stop -/

theorem project_of_sourceFiles {find : Finder} {config : Config} {files : List String}
    (hfiles : find w.tree config.projectPath config.patterns = .ok files)
    (h : sourceFiles config.projectPath false files w = .error e w') :
    project find config false w = .error e w' := by
  unfold project
  rw [get_bind, bind_ok (lift_ok hfiles), bind_error h]

theorem project_eq_error {find : Finder} {config : Config}
    (h : project find config false w = .error e w') :
    (∃ d, find w.tree config.projectPath config.patterns = .error d ∧
      e = .ofDiscovery config.projectPath d ∧ w' = w) ∨
    ∃ files turns mid, find w.tree config.projectPath config.patterns = .ok files ∧
      Done config.projectPath w turns mid ∧
      ((∃ relative rest, files = turns.map Turn.relative ++ relative :: rest ∧ w' = mid ∧
          Refused mid.session.toSettings config.projectPath mid.session.nextId mid.tree relative e) ∨
        (files = turns.map Turn.relative ∧ w' = mid ∧ ∃ missing,
          mid.session.templates.renderComponent mid.session.registry = .error missing ∧
          e = .ofMissing missing) ∨
        (files = turns.map Turn.relative ∧ ∃ component,
          mid.session.templates.renderComponent mid.session.registry = .ok component ∧
          generatedFiles config.projectPath false component mid = .error e w')) := by
  unfold project at h
  rw [get_bind] at h
  rcases bind_eq_error.1 h with hfound | ⟨files, start, hfound, hrest⟩
  · exact .inl (lift_eq_error.1 hfound)
  · obtain ⟨hfiles, rfl⟩ := lift_eq_ok.1 hfound
    refine .inr ⟨files, ?_⟩
    rcases sourceFiles_cases start config.projectPath files with
      ⟨turns, mid, rfl, hdone, hrun⟩ | ⟨turns, relative, rest, e', mid, rfl, hdone, href, hrun⟩
    · rw [bind_ok hrun, get_bind] at hrest
      refine ⟨turns, mid, hfiles, hdone, .inr ?_⟩
      rcases bind_eq_error.1 hrest with hrendered | ⟨component, last, hrendered, hwrite⟩
      · obtain ⟨missing, hmissing, he, hw⟩ := lift_eq_error.1 hrendered
        exact .inl ⟨rfl, hw, missing, hmissing, he⟩
      · obtain ⟨hcomponent, rfl⟩ := lift_eq_ok.1 hrendered
        rcases bind_eq_error.1 hwrite with hwrite | ⟨_, _, -, hsummary⟩
        · exact .inr ⟨rfl, component, hcomponent, hwrite⟩
        · cases hsummary
    · rw [bind_error hrun] at hrest
      cases hrest
      exact ⟨turns, w', hfiles, hdone, .inl ⟨relative, rest, rfl, rfl, href⟩⟩

/-- A tree in which some files have been instrumented in place, in order and numbered from one, and
nothing else has changed. -/
structure Overwritten (overflow : Overflow) (config : Config) (tree : FileTree) (turns : List Turn)
    (tree' : FileTree) : Prop where
  inOrder : Turns (.ofConfig overflow config tree) config.projectPath .first tree turns tree'
  paths : ∀ path, tree'.locate path = tree.locate path
  others : ∀ place, (∀ turn ∈ turns, turn.place ≠ place) → tree'.get? place = tree.get? place

theorem Done.overwritten {overflow : Overflow} {config : Config} {tree : FileTree}
    (h : Done config.projectPath (.ofConfig overflow config tree) turns w) :
    Overwritten overflow config tree turns w.tree :=
  ⟨h.tree, h.tree.sameShape.locate, fun _ hplace => h.tree.get?_eq hplace⟩

/-- How a run can stop that is not dry, and what it then leaves behind. -/
inductive Stopped (find : Finder) (overflow : Overflow) (config : Config) (tree : FileTree) :
    RunError → Workspace → Prop
  /-- The files cannot be named. -/
  | atDiscovery {d : DiscoveryError} {w : Workspace} :
    find tree config.projectPath config.patterns = .error d → w.tree = tree →
    Stopped find overflow config tree (.ofDiscovery config.projectPath d) w
  /-- A file is refused after those before it have had their turns. -/
  | atFile {turns : List Turn} {relative : String} {rest : List String} {e : RunError}
      {w : Workspace} :
    find tree config.projectPath config.patterns
      = .ok (turns.map Turn.relative ++ relative :: rest) →
    Refused (.ofConfig overflow config tree) config.projectPath (.nth turns.length) w.tree
      relative e →
    Overwritten overflow config tree turns w.tree → Stopped find overflow config tree e w
  /-- A template of the component is missing after all files have had their turns. -/
  | atTemplate {turns : List Turn} {missing : MissingTemplate} {w : Workspace} :
    find tree config.projectPath config.patterns = .ok (turns.map Turn.relative) →
    (Settings.ofConfig overflow config tree).templates.renderComponent w.session.registry
      = .error missing →
    Overwritten overflow config tree turns w.tree →
    Stopped find overflow config tree (.ofMissing missing) w
  /-- The component cannot be written. -/
  | atComponent {turns : List Turn} {component : List GeneratedFile} {mid w : Workspace}
      {e : RunError} :
    find tree config.projectPath config.patterns = .ok (turns.map Turn.relative) →
    (Settings.ofConfig overflow config tree).templates.renderComponent mid.session.registry
      = .ok component →
    Overwritten overflow config tree turns mid.tree →
    generatedFiles config.projectPath false component mid = .error e w →
    Stopped find overflow config tree e w

/-- Whatever names the files, a dry run changes nothing. Any other run that stops has changed the files
before the one at which it stops and nothing else, or all of them if a template of the component is
missing. -/
theorem project_keeps_rest (find : Finder) (overflow : Overflow) (config : Config) (tree : FileTree) :
    finalTree (project find config true (.ofConfig overflow config tree)) = tree ∧
      ∀ e w, project find config false (.ofConfig overflow config tree) = .error e w →
        Stopped find overflow config tree e w := by
  refine ⟨keepsTree_project find config (.ofConfig overflow config tree), fun e w h => ?_⟩
  rcases project_eq_error h with ⟨d, hd, he, hw⟩ | ⟨files, turns, mid, hfiles, hdone, hstop⟩
  · rw [he]
    exact .atDiscovery hd (congrArg Workspace.tree hw)
  · have hsettings : mid.session.toSettings = .ofConfig overflow config tree := hdone.toSettings
    have hid : mid.session.nextId = .nth turns.length := by
      rw [hdone.session, Session.afterTurns_nextId]
      exact FileId.first_add _
    rw [hsettings, hid] at hstop
    rcases hstop with ⟨relative, rest, rfl, rfl, href⟩ | ⟨rfl, rfl, missing, hmissing, rfl⟩ |
      ⟨rfl, component, hcomponent, hwrite⟩
    · exact .atFile hfiles href hdone.overwritten
    · exact .atTemplate hfiles hmissing hdone.overwritten
    · exact .atComponent hfiles hcomponent hdone.overwritten hwrite

/-- Of two files the second cannot be parsed; the first has been instrumented by then. -/
theorem project_keeps_rest_second :
    let tree : FileTree := ⟨[], [(["a.brs"], .file (.text "stop".toList)),
      (["b.brs"], .file (.text "x =".toList))]⟩
    let config : Config := ⟨".", ["a.brs", "b.brs"], "P", none⟩
    ∃ e w, project discover config false (.ofConfig .stops config tree) = .error e w ∧
      Stopped discover .stops config tree e w := by
  intro tree config
  have hfiles : discover tree config.projectPath config.patterns = .ok ["a.brs", "b.brs"] := by
    decide +kernel
  obtain ⟨turn, hname, hplace, hfits⟩ : ∃ turn : Turn, turn.relative = "a.brs" ∧
      turn.place = ["a.brs"] ∧ turn.Fits (.ofConfig .stops config tree) "." .first tree := by
    obtain ⟨footer, hfooter⟩ : ∃ footer, TemplateSet.builtIn.renderFooter ⟨"P", 1⟩ = .ok footer :=
      ⟨_, rfl⟩
    have hlocated : tree.locate (Path.join "." "a.brs") = .ok ["a.brs"] := by decide +kernel
    have hparsed : parse "stop".toList = .ok [.stop ⟨⟨0, 4⟩, ⟨⟨1, 0⟩, ⟨1, 4⟩⟩⟩] := rfl
    have hheld : tree.get? ["a.brs"] = some (.file (.text "stop".toList)) := by decide +kernel
    exact ⟨⟨_, _, _, _, _⟩, rfl, rfl, hlocated, hheld, hparsed, hfooter, by decide⟩
  have hread : (afterTurn (.ofConfig .stops config tree) turn).tree.readText (Path.join "." "b.brs")
      = .ok "x =".toList := by
    refine FileTree.readText_eq_ok.2 ⟨["b.brs"], ?_, ?_⟩
    · refine ((FileTree.sameShape_set hfits.held _).locate _).trans ?_
      decide +kernel
    · refine (FileTree.get?_set (FileTree.ne_nil_of_file hfits.held)).trans ?_
      rw [hplace]
      rfl
  obtain ⟨errors, hmalformed⟩ : ∃ errors, parse "x =".toList = .error errors := ⟨_, rfl⟩
  have hfirst := sourceFile_of_fits (w := .ofConfig .stops config tree) hfits
  have hsecond := sourceFile_of_refused (w := afterTurn (.ofConfig .stops config tree) turn)
    (.fails hread (.malformed hmalformed))
  rw [hname] at hfirst
  have hrun : project discover config false (.ofConfig .stops config tree) = _ :=
    project_of_sourceFiles hfiles ((bind_ok hfirst).trans (bind_error hsecond))
  exact ⟨_, _, hrun, (project_keeps_rest discover .stops config tree).2 _ _ hrun⟩

end Run

end BrightCoverage
