import BrightCoverage.Proofs.Acceptance
import BrightCoverage.Proofs.Totality

/-! Nothing is lost when a file is read. If it is accepted, each of its tokens has its place in the
tree. If a parser fails on the way, its error is among the errors of the file: it was recorded before
the failure was handed on, and nothing takes an error off the list. -/

namespace BrightCoverage

open BrightCoverage.Parser

/-- While the source is read, the parser is run at the cursor. -/
def Reads {α : Type} (source : Text) (p : Parser α) (c : Cursor) : Prop :=
  ∃ c₀, Rounds (.ofDepth ((lex source).length + 1)) (.ofTokens (lex source)) c₀ ∧
    Runs (wholeStatement (.ofDepth ((lex source).length + 1))) c₀ p c

theorem parseTokens_eq_error {ts : List Token} {e : ParseError}
    (h : e ∈ (readStatements (.ofDepth (ts.length + 1)) (ts.length + 1) (.ofTokens ts)).errors) :
    ∃ es, parseTokens ts = .error es ∧ e ∈ es := by
  simp only [parseTokens]
  split
  · rename_i hnil
    rw [(List.append_eq_nil_iff.1 hnil).2] at h
    cases h
  · exact ⟨_, rfl, List.mem_append_right _ h⟩

theorem ne_nil_of_parseTokens {ts : List Token} {es : List ParseError}
    (h : parseTokens ts = .error es) : es ≠ [] := by
  simp only [parseTokens] at h
  split at h
  · cases h
  · rename_i hne
    cases h
    exact hne

/-- An accepted file is complete, the error of every parser that fails while a file is read is kept,
and a file that is not accepted has an error. With the list of errors at hand the run comes to the same,
and every parser that fails has added an error to the list, while one that gives a value leaves it. -/
theorem parse_complete (source : Text) :
    (∀ program, parse source = .ok program → Complete source program) ∧
    (∀ (α : Type) (p : Parser α) c e c', Reads source p c → p c = .error e c' →
      ∃ es, parse source = .error es ∧ e ∈ es) ∧
    (∀ es, parse source = .error es → es ≠ []) ∧
    Indexed.parseTokens (lex source) = some (parse source) ∧
    ∀ depth i, i ≤ (lex source).length → (lex source).length < i + depth →
      (∀ {α : Type} {p : Indexed α}, Indexed.SubParser (lex source) (Indexed.ofDepth depth) i p →
        Indexed.Records (lex source) i p) ∧
      ∀ {atEnd : Indexed Bool}, Indexed.BlockEnd atEnd →
        Indexed.Records (lex source) i (Indexed.block (Indexed.ofDepth depth) atEnd) := by
  refine ⟨fun program => complete_of_parse, ?_, fun es => ne_nil_of_parseTokens,
    Indexed.parseTokens_lex source, fun depth i hi hdepth => ⟨fun hp => ?_, fun hend => ?_⟩⟩
  · rintro α p c e c' ⟨c₀, hround, hruns⟩ he
    have hfollows := Recursion.follows_answered (.ofDepth 0) ((lex source).length + 1)
    exact parseTokens_eq_error (hround.error_mem (sound_ofDepth _) hfollows (hruns.error he)
      (Nat.lt_succ_self _))
  · obtain ⟨q, hq⟩ := hp.agrees_lex hi hdepth
    exact hq.records hi
  · obtain ⟨q, hq⟩ := Indexed.block_agrees_lex hdepth hend
    exact hq.records hi

theorem parse_complete_nested :
    Complete "while a\nstop : end\nend while".toList [.whileLoop ⟨⟨0, 28⟩, ⟨⟨1, 0⟩, ⟨3, 9⟩⟩⟩
      (.identifier ⟨⟨6, 7⟩, ⟨⟨1, 6⟩, ⟨1, 7⟩⟩⟩ "a")
      [.stop ⟨⟨8, 12⟩, ⟨⟨2, 0⟩, ⟨2, 4⟩⟩⟩, .endProgram ⟨⟨15, 18⟩, ⟨⟨2, 7⟩, ⟨2, 10⟩⟩⟩]] ∧
    (∃ es, parse "goto 1".toList = .error es ∧
      .unexpected "label name" ⟨.integer, "1", ⟨⟨5, 6⟩, ⟨⟨1, 5⟩, ⟨1, 6⟩⟩⟩⟩ ∈ es) ∧
    Indexed.Records (lex "goto 1".toList) 0 Indexed.goto := by
  refine ⟨(parse_complete _).1 _ rfl, ?_, ?_⟩
  · have hround : Rounds (.ofDepth 3) (.ofTokens (lex "goto 1".toList)) _ := .here (by decide)
    have hruns : Runs (wholeStatement (.ofDepth 3)) (.ofTokens (lex "goto 1".toList))
        (expect .identifier "label name") ⟨⟨⟨0, 4⟩, ⟨⟨1, 0⟩, ⟨1, 4⟩⟩⟩, (lex "goto 1".toList).tail⟩ :=
      .first (.next rfl (.next rfl (.first .here)))
    exact (parse_complete _).2.1 _ _ _ _ _ ⟨_, hround, hruns⟩ rfl
  · obtain ⟨-, -, -, -, hrecords⟩ := parse_complete "goto 1".toList
    exact (hrecords 3 0 (by decide) (by decide)).1 (.goto (by decide))

end BrightCoverage
