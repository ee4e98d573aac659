import BrightCoverage.Proofs.ErasedPasses
import BrightCoverage.Proofs.FreshNames
import BrightCoverage.Proofs.SownLines

/-! The tree of an instrumented text without calls. The text can be read as long as no bracket is open
where the lines start whose owners do not come first. Its tree is the right one but for the calls of
these lines, and without any calls it is the tree of the text. -/

namespace BrightCoverage

variable {r : Reporter} {source : Text} {program : List (Statement Extent)} {n : Nat}

theorem le_maxInteger_of_lags (h : parse source = .ok program) (hsize : byteLength source ≤ maxInteger)
    (hlags : (classify program).lags source n = true) : n ≤ maxInteger := by
  obtain ⟨s, howner, -⟩ := owner_of_lags hlags
  obtain ⟨t, ht, -, -, hline⟩ := claim_token h (claim_of_classify howner)
  exact hline ▸ (startLine_le ht).trans hsize

/-- The instrumented text can be read. An eraser that takes out the calls of the lines whose owners do
not come first leaves of its tree what it leaves of the tree that the pass makes for the others. -/
theorem parse_sown (h : parse source = .ok program) (hr : IsPlain r.stem.toList)
    (hremarks : Unremarked source (classify program)) (hsize : byteLength source ≤ maxInteger)
    (hopen : ∀ n, (classify program).lags source n = true → openAt source n = 0) {x : Eraser}
    (hname : x.name = r.functionName)
    (hx : ∀ n, (classify program).lags source n = true → x.drops n .code = true) :
    ∃ program', parse (instrument r (classify program) source).text = .ok program' ∧
      eraseBody x (shapes program')
        = eraseBody x (shapes (passBody r ((classify program).led source).plan program)) := by
  have hnl : Token.Breaks ⟨.newline, "\n", ⟨⟨0, 0⟩, ⟨⟨1, 0⟩, ⟨1, 0⟩⟩⟩⟩ := ⟨rfl, .refl _, fun h => by cases h⟩
  obtain ⟨ts, hts, hsown⟩ := sown_instrument h hr hremarks hopen hnl
  obtain ⟨hspells, hknown⟩ := spells_of_senses h hr ownersOf_led hsize hts
  have hknows : x.Knows r ((classify program).lags source · = true) :=
    ⟨Reporter.name_functionName hr, fun line hline => ⟨le_maxInteger_of_lags h hsize hline,
      fun here => (Eraser.takes_callExpr hname here line .code).trans (hx line hline)⟩⟩
  obtain ⟨ph', vs, herase, hvs, hblock⟩ :=
    (hspells.cons_block (by simp)).grown hknows 0 _ (Int.le_refl 0) trivial hsown
  obtain ⟨body, rfl, hbody⟩ := (wraps_block .never _ _).1 herase
  cases hvs
  have hknown' := hsown.known (List.forall_mem_cons.2 ⟨by simp, hknown⟩)
  obtain ⟨program', hparse, hshapes⟩ := parseTokens_of_spells
    (hblock.block_congr (pastSeparators_cons (by simp)).symm) (List.forall_mem_cons.1 hknown').2
  refine ⟨program', hparse, ?_⟩
  rw [hshapes, ← shapes_eraseBody, hbody, shapes_eraseBody]

/-- A branch with a statement behind its `else`. -/
def lateElse : Text :=
  "if a then\nb = 1\nelse c = 2\nend if".toList

def lateElseOwner : Statement Extent :=
  .assign ⟨⟨21, 26⟩, ⟨⟨3, 5⟩, ⟨3, 10⟩⟩⟩ "c" .assign (.integer ⟨⟨25, 26⟩, ⟨⟨3, 9⟩, ⟨3, 10⟩⟩⟩ 2)

def lateElseTree : List (Statement Extent) :=
  [.branch ⟨⟨0, 33⟩, ⟨⟨1, 0⟩, ⟨4, 6⟩⟩⟩ (.identifier ⟨⟨3, 4⟩, ⟨⟨1, 3⟩, ⟨1, 4⟩⟩⟩ "a")
    [.assign ⟨⟨10, 15⟩, ⟨⟨2, 0⟩, ⟨2, 5⟩⟩⟩ "b" .assign
      (.integer ⟨⟨14, 15⟩, ⟨⟨2, 4⟩, ⟨2, 5⟩⟩⟩ 1)] [] (some [lateElseOwner])]

theorem parse_lateElse : parse lateElse = .ok lateElseTree := by
  rfl

/-- What takes out the calls of the lines whose owners do not come first. -/
def Eraser.ofLagging (r : Reporter) (source : Text) (owners : Ownership) : Eraser where
  name := r.functionName
  drops line kind := decide (kind = .code) && owners.lags source line

/-- What takes out all calls. -/
def Eraser.ofAll (r : Reporter) : Eraser where
  name := r.functionName
  drops _ _ := true

/-- Where the lines whose owners do not come first start outside of all brackets, the instrumented text
can be read. But for the calls of these lines its tree is what the pass makes of the tree for the
owners that come first: each of their calls stands directly in front of its owner. -/
theorem parse_instrument_led (h : parse source = .ok program) (hr : IsPlain r.stem.toList)
    (hremarks : Unremarked source (classify program)) (hsize : byteLength source ≤ maxInteger)
    (hopen : ∀ n, (classify program).lags source n = true → openAt source n = 0) :
    let x := Eraser.ofLagging r source (classify program)
    ∃ program', parse (instrument r (classify program) source).text = .ok program' ∧
      eraseBody x (shapes program')
        = eraseBody x (shapes (passBody r ((classify program).led source).plan program)) := by
  intro x
  exact parse_sown h hr hremarks hsize hopen rfl fun n hlags => by simp [x, Eraser.ofLagging, hlags]

theorem parse_instrument_led_else :
    let r : Reporter := ⟨"RBS_CC", 1⟩
    let x := Eraser.ofLagging r lateElse (classify lateElseTree)
    (classify lateElseTree).lags lateElse 2 = true ∧
    ∃ program', parse (instrument r (classify lateElseTree) lateElse).text = .ok program' ∧
      eraseBody x (shapes program')
        = eraseBody x (shapes (passBody r ((classify lateElseTree).led lateElse).plan lateElseTree)) := by
  intro r x
  have hremarks : remarks lateElse = [] := by decide +kernel
  have hr : IsPlain r.stem.toList :=
    ⟨'R', ['B', 'S', '_', 'C', 'C'], by decide, by decide, List.all_iff_forall_prop.1 (by decide)⟩
  have hflat : ∀ t ∈ lex lateElse, t.kind.turn = 0 := by decide +kernel
  refine ⟨by decide +kernel, parse_instrument_led parse_lateElse hr
    (fun _ _ _ _ _ _ _ => by simp [hremarks]) (by decide +kernel) fun n _ => ?_⟩
  exact total_eq_zero fun t ht => hflat t (List.takeWhile_subset _ ht)

/-- The call of the line of the `else` is the last statement of the other branch, so the line is
reported where its owner is not reached. -/
theorem instrument_misplaces_else :
    let r : Reporter := ⟨"RBS_CC", 1⟩
    let x : Eraser := ⟨r.functionName, fun line _ => line = 2⟩
    parse lateElse = .ok lateElseTree ∧
      (classify lateElseTree).get? 2 = some (.statement lateElseOwner) ∧
      ((parse (instrument r (classify lateElseTree) lateElse).text).toOption.any fun program' =>
        match program' with
        | [.branch _ _ thenBody [] (some [owner])] =>
          thenBody.getLast?.any x.takesStatement && !x.takesStatement owner
        | _ => false) = true := by
  refine ⟨parse_lateElse, rfl, ?_⟩
  decide +kernel

/-- Where the lines whose owners do not come first start outside of all brackets, and no token has the
name of the reporting function, taking all calls out of the tree of the instrumented text gives the
tree of the text back. -/
theorem erase_instrument (h : parse source = .ok program) (hr : IsPlain r.stem.toList)
    (hfresh : ∀ t ∈ lex source, t.text ≠ r.functionName)
    (hremarks : Unremarked source (classify program)) (hsize : byteLength source ≤ maxInteger)
    (hopen : ∀ n, (classify program).lags source n = true → openAt source n = 0) :
    ∃ program', parse (instrument r (classify program) source).text = .ok program' ∧
      eraseBody (.ofAll r) (shapes program') = shapes program := by
  obtain ⟨program', hparse, herase⟩ := parse_sown h hr hremarks hsize hopen (x := .ofAll r) rfl
    fun _ _ => rfl
  have hprogram : eraseBody (.ofAll r) program = program :=
    (Phrase.block.inj ((parseTokens_spelled h).fresh (x := .ofAll r) hfresh).erase).2
  have hplan : Plan.without (.ofAll r) ((classify program).led source).plan = .never := by
    simp [Plan.without, Plan.never, Eraser.ofAll]
  refine ⟨program', hparse, herase.trans ?_⟩
  rw [← shapes_eraseBody, erase_passBody (r := r) rfl program hprogram, hplan, passBody_never]

theorem erase_instrument_dim :
    let source := "dim a[1] : x = 2".toList
    let r : Reporter := ⟨"RBS_CC", 1⟩
    ∃ program program', parse source = .ok program ∧ (classify program).lags source 0 = true ∧
      parse (instrument r (classify program) source).text = .ok program' ∧
      eraseBody (.ofAll r) (shapes program') = shapes program := by
  intro source r
  have hparse : parse source = .ok
      [.dim ⟨⟨0, 8⟩, ⟨⟨1, 0⟩, ⟨1, 8⟩⟩⟩ "a" [.integer ⟨⟨6, 7⟩, ⟨⟨1, 6⟩, ⟨1, 7⟩⟩⟩ 1],
        .assign ⟨⟨11, 16⟩, ⟨⟨1, 11⟩, ⟨1, 16⟩⟩⟩ "x" .assign
          (.integer ⟨⟨15, 16⟩, ⟨⟨1, 15⟩, ⟨1, 16⟩⟩⟩ 2)] := by
    rfl
  have hremarks : remarks source = [] := by decide +kernel
  have hr : IsPlain r.stem.toList :=
    ⟨'R', ['B', 'S', '_', 'C', 'C'], by decide, by decide, List.all_iff_forall_prop.1 (by decide)⟩
  obtain ⟨program', hparse', herase⟩ := erase_instrument hparse hr (by decide +kernel)
    (fun _ _ _ _ _ _ _ => by simp [hremarks]) (by decide)
    (by
      rintro (_ | line) hlags
      · decide +kernel
      · cases hlags)
  exact ⟨_, program', hparse, by decide +kernel, hparse', herase⟩

/-- The call of a line that starts inside brackets stands between them, and the text cannot be read. -/
theorem instrument_breaks_brackets :
    let source := "x = [1,\n2] : y = 3".toList
    ∃ program, parse source = .ok program ∧ ∀ program',
      parse (instrument ⟨"RBS_CC", 1⟩ (classify program) source).text ≠ .ok program' := by
  intro source
  let program : List (Statement Extent) :=
    [.assign ⟨⟨0, 10⟩, ⟨⟨1, 0⟩, ⟨2, 2⟩⟩⟩ "x" .assign (.array ⟨⟨4, 10⟩, ⟨⟨1, 4⟩, ⟨2, 2⟩⟩⟩
        [.integer ⟨⟨5, 6⟩, ⟨⟨1, 5⟩, ⟨1, 6⟩⟩⟩ 1, .integer ⟨⟨8, 9⟩, ⟨⟨2, 0⟩, ⟨2, 1⟩⟩⟩ 2]),
      .assign ⟨⟨13, 18⟩, ⟨⟨2, 5⟩, ⟨2, 10⟩⟩⟩ "y" .assign
        (.integer ⟨⟨17, 18⟩, ⟨⟨2, 9⟩, ⟨2, 10⟩⟩⟩ 3)]
  have hrefused : (parse (instrument ⟨"RBS_CC", 1⟩ (classify program) source).text).toOption.isSome
      = false := by
    decide +kernel
  refine ⟨program, by rfl, fun program' hparse => ?_⟩
  rw [hparse] at hrefused
  cases hrefused

end BrightCoverage
