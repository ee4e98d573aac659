import BrightCoverage.Coverage.Component
import BrightCoverage.Proofs.EmittedMaps
import BrightCoverage.Proofs.JoinedTexts
import BrightCoverage.Proofs.LineWording
import BrightCoverage.Proofs.Placeholders
import BrightCoverage.Proofs.WovenTrees
import BrightCoverage.Proofs.Writings

/-! The footer of a file and the calls of its reporting function. The name of the function comes into
the footer through two placeholders and into the calls by joining texts; both are lexed as the same
identifier, whatever the stem and the number of the file are. The footer is not written canonically,
so it is put together line by line from the writings of its statements. -/

namespace BrightCoverage

/-! ### Lines with a hole -/

def Pattern.after (p : Pattern) (u : Text) : Pattern :=
  u.foldl (fun p c => p.deriv c) p

theorem Pattern.accepts_append (p : Pattern) (u v : Text) :
    p.accepts (u ++ v) = (p.after u).accepts v := by
  induction u generalizing p with
  | nil => rfl
  | cons c u ih => exact ih (p.deriv c)

namespace Item

/-- Whether the items are matches of rules, and no rule goes on behind one of them with the character
that comes next; a character stands behind the last. -/
def settled (c : Char) : List Item → Bool
  | [] => true
  | it :: its =>
    !it.text.isEmpty && (Rule.first? Rule.all it.text).map Rule.kind == some it.kind &&
      Rule.all.all (fun rule => rule.pattern.after (it.text ++ (join its ++ [c]).take 1) = .fail) &&
        settled c its

/-- Settled items are cut off whatever comes behind the character. -/
theorem cut_of_settled {c : Char} {its : List Item} (h : settled c its = true) (u : Text) :
    Cut (c :: u) its := by
  induction its with
  | nil => exact .nil
  | cons it its ih =>
    simp only [settled, Bool.and_eq_true, Bool.not_eq_true', List.isEmpty_eq_false_iff, beq_iff_eq,
      Option.map_eq_some_iff, List.all_eq_true, decide_eq_true_eq] at h
    obtain ⟨⟨⟨hne, rule, hfirst, hkind⟩, hdead⟩, hits⟩ := h
    refine .cons (before_of_dead hne hfirst hkind fun d hd v => ?_) (ih hits)
    have htake : (join its ++ [c]).take 1 = [d] := by
      cases hjoin : join its with
      | nil => simpa [hjoin] using hd
      | cons e w => simpa [hjoin] using hd
    rw [Rule.first?_eq_none]
    intro other hmem hmatches
    have haccepts := Pattern.accepts_iff.2 hmatches
    rw [← List.singleton_append, ← List.append_assoc, Pattern.accepts_append, ← htake,
      hdead other hmem, Pattern.accepts_fail] at haccepts
    cases haccepts

end Item

theorem wording_settled {c : Char} {its : List Item} (h : Item.settled c its = true) (u : Text) :
    wording (Item.join its ++ c :: u) = Item.words its ++ wording (c :: u) :=
  (Item.cut_of_settled h u).wording

theorem wording_line (s u : Text) :
    wording (s ++ '\n' :: u) = wording s ++ (.newline, "\n") :: wording u := by
  rw [wording, items_append_newline, List.filterMap_append]
  rfl

/-- Lines and the lexemes on them. -/
def Words (lines : List Text) (written : List (List Lexeme)) : Prop :=
  List.Forall₂ (fun line ls => wording line = ls.map Lexeme.face) lines written

theorem Words.append {lines lines' : List Text} {written written' : List (List Lexeme)}
    (h : Words lines written) (h' : Words lines' written') :
    Words (lines ++ lines') (written ++ written') :=
  List.rel_append h h'

theorem wording_unlines {lines : List Text} {written : List (List Lexeme)}
    (h : Words lines written) :
    wording (unlines lines) = (written.flatMap (· ++ [.newline])).map Lexeme.face := by
  induction h with
  | nil => exact wording_nil
  | @cons line ls lines written hline _ ih =>
    have hcons : unlines (line :: lines) = line ++ '\n' :: unlines lines := by simp [unlines]
    rw [hcons, wording_line, hline, ih]
    simp [Lexeme.face, Lexeme.kind, Lexeme.text]

theorem wording_ofList {line : Text} {ls : List Lexeme}
    (h : (lex line).map (fun t => (t.kind, t.text)) = ls.map Lexeme.face) :
    wording (String.ofList line).toList = ls.map Lexeme.face := by
  rw [String.toList_ofList, ← map_lex, h]

/-- Lines that are spelled out in characters. -/
def SpelledOut (texts lines : List Text) : Prop :=
  lines = texts.map fun text => (String.ofList text).toList

theorem SpelledOut.nil : SpelledOut [] [] :=
  rfl

theorem SpelledOut.cons {text : Text} {texts lines : List Text} (h : SpelledOut texts lines) :
    SpelledOut (text :: texts) ((String.ofList text).toList :: lines) :=
  congrArg _ h

theorem SpelledOut.words {texts lines : List Text} {written : List (List Lexeme)}
    (h : SpelledOut texts lines) (hlex : texts.map (fun text => (lex text).map fun t => (t.kind, t.text))
      = written.map fun ls => ls.map Lexeme.face) : Words lines written := by
  subst h
  induction texts generalizing written with
  | nil =>
    obtain rfl := List.map_eq_nil_iff.1 hlex.symm
    exact .nil
  | cons text texts ih =>
    obtain ⟨ls, written, rfl, hls, hlex⟩ := List.map_eq_cons_iff.1 hlex.symm
    exact .cons (wording_ofList hls.symm) (ih hlex.symm)

/-! ### The tree of a footer -/

namespace Footer

def nowhere : Extent :=
  Mark.origin.extentTo Mark.origin

def name (name : String) : Expr Extent :=
  .identifier nowhere name

def global : Expr Extent :=
  .member nowhere (name "m") "global"

def collector (owner : Expr Extent) : Expr Extent :=
  .member nowhere owner "_rbs_ccn"

def isMissing (value : Expr Extent) : Expr Extent :=
  .binary nowhere .equal value (.invalid nowhere)

def giveTrue : Statement Extent :=
  .giveBack nowhere (some (.boolean nowhere true))

def addCollector : Statement Extent :=
  .call nowhere (.call nowhere (.member nowhere global "addFields")
    [.assoc nowhere [.mk "_rbs_ccn" (.call nowhere (name "createObject")
      [.string nowhere "roSGNode", .string nowhere "CodeCoverage"])]])

def keepCollector : Statement Extent :=
  .assignMember nowhere (name "m") "_rbs_ccn" .assign (collector global)

def lineKey : Expr Extent :=
  .call nowhere (.member nowhere (.call nowhere (name "stri") [name "lineNumber"]) "trim") []

def handOver (id : Nat) : Statement Extent :=
  .assignMember nowhere (collector (name "m")) "entry" .assign (.assoc nowhere
    [.mk "f" (.string nowhere (toString id)), .mk "l" lineKey, .mk "r" (name "reportType")])

def params : List (Parameter Extent) :=
  [.mk "lineNumber" none none, .mk "reportType" (some (.integer nowhere 1)) none]

def body (id : Nat) : List (Statement Extent) :=
  [.branch nowhere (isMissing global) [giveTrue] [] none,
    .branch nowhere (isMissing (collector (name "m")))
      [.branch nowhere (isMissing (collector global)) [addCollector] [] none, keepCollector] [] none,
    handOver id, giveTrue]

end Footer

def Reporter.function (r : Reporter) : Statement Extent :=
  .procedure Footer.nowhere r.functionName (.mk .function Footer.params none (Footer.body r.id))

/-! ### The lines of a footer -/

namespace Footer

def written (r : Reporter) : List (List Lexeme) :=
  [ .keyword .functionKw :: .word r.functionName :: .symbol .leftParen ::
      (commas (renderParameters params) ++ [.symbol .rightParen]),
    .keyword .ifKw :: ((isMissing global).render ++ .keyword .thenKw :: giveTrue.render),
    [],
    .keyword .ifKw :: (isMissing (collector (name "m"))).render,
    .keyword .ifKw :: (isMissing (collector global)).render,
    addCollector.render,
    [.keyword .endKw, .keyword .ifKw],
    keepCollector.render,
    [.keyword .endKw, .keyword .ifKw],
    [],
    (handOver r.id).render,
    giveTrue.render,
    [.keyword .endKw, .keyword .functionKw] ]

def afterName : Text :=
  "(lineNumber, reportType = 1)".toList

def beforeKey : Text :=
  "  m._rbs_ccn.entry = \x7b \"f\": ".toList

def afterKey : Text :=
  ", \"l\": stri(lineNumber).trim(), \"r\": reportType \x7d".toList

def upper : List Text :=
  ((footerLines.drop 1).take 9).map String.toList

def lower : List Text :=
  (footerLines.drop 11).map String.toList

def lines (r : Reporter) : List Text :=
  ("function ".toList ++ r.functionName.toList ++ afterName) ::
    (upper ++ (beforeKey ++ quote (Nat.toDigits 10 r.id) ++ afterKey) :: lower)

variable {r : Reporter}

theorem wording_header (hr : IsPlain r.stem.toList) :
    wording ("function ".toList ++ r.functionName.toList ++ afterName)
      = (Lexeme.keyword .functionKw :: .word r.functionName :: .symbol .leftParen ::
        (commas (renderParameters params) ++ [.symbol .rightParen])).map Lexeme.face := by
  let keyword : Item := ⟨some (.keyword .functionKw), ['f', 'u', 'n', 'c', 't', 'i', 'o', 'n']⟩
  have hkeyword : Item.settled ' ' [keyword] = true := by decide +kernel
  have htail : wording afterName
      = (Lexeme.symbol .leftParen :: (commas (renderParameters params) ++ [.symbol .rightParen])).map
        Lexeme.face := wording_ofList (by decide +kernel)
  have hopening : ∀ u, wording ("function ".toList ++ u)
      = (Lexeme.keyword .functionKw).face :: wording u := fun u => by
    refine (wording_settled hkeyword u).trans ?_
    rw [wording_blank (by decide)]
    rfl
  -- The name is not a constant: only the parenthesis behind it is needed to cut it off.
  obtain ⟨u, hu⟩ : ∃ u, afterName = '(' :: u := ⟨_, String.toList_ofList⟩
  rw [List.append_assoc, hopening, hu, Reporter.wording_functionName hr, ← hu, htail]
  rfl

theorem wording_entry (id : Nat) :
    wording (beforeKey ++ quote (Nat.toDigits 10 id) ++ afterKey)
      = (handOver id).render.map Lexeme.face := by
  let opening : List Item :=
    [⟨none, [' ', ' ']⟩, ⟨some .identifier, ['m']⟩, ⟨some (.symbol .dot), ['.']⟩,
      ⟨some .identifier, ['_', 'r', 'b', 's', '_', 'c', 'c', 'n']⟩, ⟨some (.symbol .dot), ['.']⟩,
      ⟨some .identifier, ['e', 'n', 't', 'r', 'y']⟩, ⟨none, [' ']⟩,
      ⟨some (.symbol .equals), ['=']⟩, ⟨none, [' ']⟩, ⟨some (.symbol .leftBrace), ['\x7b']⟩,
      ⟨none, [' ']⟩, ⟨some .string, ['"', 'f', '"']⟩, ⟨some (.symbol .colon), [':']⟩, ⟨none, [' ']⟩]
  let key : List Lexeme := (collector (name "m")).render ++
    [.symbol .dot, .word "entry", .assign .assign, .symbol .leftBrace, .string "f", .symbol .colon]
  let others : List Lexeme := [.symbol .comma, .string "l", .symbol .colon] ++ lineKey.render ++
    [.symbol .comma, .string "r", .symbol .colon, .word "reportType", .symbol .rightBrace]
  have hsettled : Item.settled '"' opening = true := by decide +kernel
  have hkey : Item.words opening = key.map Lexeme.face := by decide +kernel
  have hothers : wording afterKey = others.map Lexeme.face := wording_ofList (by decide +kernel)
  have hopening : ∀ w u, wording (beforeKey ++ (quote w ++ u))
      = key.map Lexeme.face ++ wording (quote w ++ u) := fun w u => by
    rw [← hkey]
    exact wording_settled hsettled (doubleQuotes w ++ ['"'] ++ u)
  have hdigits := (isDecimal_toDigits id).unescaped
  have hrest : afterKey.head? ≠ some '"' := by decide
  have hnumber : (Lexeme.string (toString id)).face
      = (.string, String.ofList (quote (Nat.toDigits 10 id))) := by
    rw [Lexeme.face, Lexeme.kind, Lexeme.text, toString_toList]
  have hrender : (handOver id).render.map Lexeme.face
      = key.map Lexeme.face ++ (Lexeme.string (toString id)).face :: others.map Lexeme.face := rfl
  rw [List.append_assoc, hopening, wording_string hdigits.newline_notMem hrest, hothers, hrender,
    hnumber]

theorem words_lines (hr : IsPlain r.stem.toList) : Words (lines r) (written r) := by
  -- these lines are the same for every file
  have hupper : Words upper (((written ⟨"", 0⟩).drop 1).take 9) := by
    apply SpelledOut.words
    · iterate 9 apply SpelledOut.cons
      exact .nil
    · decide +kernel
  have hlower : Words lower ((written ⟨"", 0⟩).drop 11) := by
    apply SpelledOut.words
    · iterate 2 apply SpelledOut.cons
      exact .nil
    · decide +kernel
  exact .cons (wording_header hr) (hupper.append (.cons (wording_entry r.id) hlower))

/-! ### Rendering the template -/

def division : Template.Division where
  pieces :=
    [("function ".toList, "PREFIX".toList), ("_".toList, "ID".toList),
      ("_reportLine".toList ++ afterName ++ ['\n'] ++ unlines upper ++ beforeKey ++ ['"'], "ID".toList)]
  rest := '"' :: afterKey ++ ['\n'] ++ unlines lower

theorem text_division : division.text = unlines (footerLines.map String.toList) := by
  have hheader : (footerLines.take 1).map String.toList
      = ["function ".toList ++ (Template.marked "PREFIX".toList ++ ("_".toList
        ++ (Template.marked "ID".toList ++ ("_reportLine".toList ++ afterName))))] := by
    decide +kernel
  have hentry : ((footerLines.drop 10).take 1).map String.toList
      = [beforeKey ++ '"' :: (Template.marked "ID".toList ++ '"' :: afterKey)] := by
    decide +kernel
  have hlines : footerLines.map String.toList = (footerLines.take 1).map String.toList ++
    upper ++ ((footerLines.drop 10).take 1).map String.toList ++ lower := rfl
  rw [hlines, hheader, hentry]
  simp [Template.Division.text, division, unlines]

def values (r : Reporter) : List (Text × Text) :=
  [("ID".toList, Nat.toDigits 10 r.id), ("PREFIX".toList, r.stem.toList)]

theorem filled_division (r : Reporter) : division.filled (values r) = unlines (lines r) := by
  have hid : (values r).lookup "ID".toList = some (Nat.toDigits 10 r.id) := rfl
  have hprefix : (values r).lookup "PREFIX".toList = some r.stem.toList := rfl
  have hname : r.functionName.toList
      = r.stem.toList ++ ("_".toList ++ (Nat.toDigits 10 r.id ++ "_reportLine".toList)) := by
    simp only [Reporter.functionName, String.toList_append, toString_toList, List.append_assoc]
  have hquote : quote (Nat.toDigits 10 r.id) = '"' :: (Nat.toDigits 10 r.id ++ ['"']) := by
    rw [quote, doubleQuotes_eq_self (isDecimal_toDigits r.id).unescaped.ne_quote]
    rfl
  simp only [Template.Division.filled, division, lines, hname, hquote, List.flatMap_cons,
    List.flatMap_nil, hid, hprefix, Option.getD_some]
  simp [unlines]

theorem divides_division (r : Reporter) :
    division.Divides (values r) (unlines (footerLines.map String.toList)) := by
  have hknown : ∀ key ∈ division.pieces.map Prod.snd, Template.Known (values r) key := by
    intro key hkey
    have hkeys : ∀ key ∈ division.pieces.map Prod.snd,
        Template.isName key = true ∧ key ∈ ["ID".toList, "PREFIX".toList] := by decide
    obtain ⟨hname, hsupplied⟩ := hkeys key hkey
    obtain ⟨hne, hchars⟩ := Template.isName_iff.1 hname
    exact ⟨hne, hchars, hsupplied⟩
  have hbefore : ∀ piece ∈ division.pieces, '#' ∉ piece.1 := by decide +kernel
  have hrest : '#' ∉ division.rest := by decide +kernel
  rw [← text_division]
  exact Template.Division.divides_of_hash_notMem hknown hbefore hrest

theorem render (r : Reporter) : TemplateSet.builtIn.renderFooter r = .ok (unlines (lines r)) := by
  rw [← filled_division]
  exact congrArg Except.ok (@Template.render_eq_filled (values r)
    ⟨footerName, unlines (footerLines.map String.toList)⟩ _ (divides_division r))

/-! ### Reading a footer -/

section Fine

variable {here : Extent} {object value : Expr Extent} {name : String}

theorem fine_name (h : Name name) : (Node.expression (.identifier here name)).Fine :=
  Node.fine_of_children ⟨trivial, h⟩ (List.forall_mem_nil _)

theorem fine_string (text : String) : (Node.expression (.string here text)).Fine :=
  Node.fine_of_children ⟨trivial, trivial⟩ (List.forall_mem_nil _)

theorem fine_member (ho : (Node.expression object).Fine) (hoperand : object.isOperand = true)
    (hname : Word name) : (Node.expression (.member here object name)).Fine :=
  Node.fine_of_children ⟨hoperand, hname⟩ (List.forall_mem_singleton.2 ho)

theorem fine_call {args : List (Expr Extent)} (ho : (Node.expression object).Fine)
    (hoperand : object.isOperand = true) (hargs : ∀ a ∈ args, (Node.expression a).Fine) :
    (Node.expression (.call here object args)).Fine := by
  refine Node.fine_of_children ⟨hoperand, trivial⟩ (List.forall_mem_cons.2 ⟨ho, fun n hn => ?_⟩)
  obtain ⟨p, hp, hn⟩ := List.mem_flatMap.1 hn
  obtain ⟨a, ha, rfl⟩ := List.mem_map.1 hp
  obtain rfl := List.mem_singleton.1 hn
  exact hargs a ha

theorem fine_collector (ho : (Node.expression object).Fine) (hoperand : object.isOperand = true) :
    (Node.expression (collector object)).Fine :=
  fine_member ho hoperand (by decide)

theorem fine_binary {op : BinaryOp} {left right : Expr Extent} (hl : (Node.expression left).Fine)
    (hleft : left.isOperand = true) (hr : (Node.expression right).Fine)
    (hright : right.isOperand = true) : (Node.expression (.binary here op left right)).Fine := by
  refine Node.fine_of_children ⟨⟨?_, right.above_of_isOperand hright _⟩, trivial⟩
    (List.forall_mem_cons.2 ⟨hl, List.forall_mem_singleton.2 hr⟩)
  rw [Expr.edge_of_isOperand hleft]
  exact List.forall_mem_nil _

theorem fine_invalid : (Node.expression (.invalid here)).Fine :=
  Node.fine_of_children ⟨trivial, trivial⟩ (List.forall_mem_nil _)

theorem fine_integer {n : Nat} (h : n ≤ maxInteger) : (Node.expression (.integer here n)).Fine :=
  Node.fine_of_children ⟨trivial, h⟩ (List.forall_mem_nil _)

theorem fine_isMissing (hv : (Node.expression value).Fine) (hoperand : value.isOperand = true) :
    (Node.expression (isMissing value)).Fine :=
  fine_binary hv hoperand fine_invalid rfl

end Fine

theorem fine_global : (Node.expression global).Fine :=
  fine_member (fine_name (by decide)) rfl (by decide)

theorem fine_giveTrue : (Node.statement giveTrue).Fine := by
  have htrue : (Node.expression (.boolean nowhere true)).Fine :=
    Node.fine_of_children ⟨trivial, trivial⟩ (List.forall_mem_nil _)
  exact Node.fine_of_children trivial (List.forall_mem_singleton.2 htrue)

theorem fine_addCollector : (Node.statement addCollector).Fine := by
  have hcreate := @fine_call nowhere (name "createObject")
    [.string nowhere "roSGNode", .string nowhere "CodeCoverage"] (fine_name (by decide)) rfl
    (List.forall_mem_cons.2 ⟨fine_string _, List.forall_mem_singleton.2 (fine_string _)⟩)
  refine Node.fine_of_children ⟨trivial, ⟨_, _, _, rfl⟩⟩ (List.forall_mem_singleton.2 ?_)
  refine fine_call (fine_member fine_global rfl (by decide)) rfl (List.forall_mem_singleton.2 ?_)
  exact Node.fine_assoc (List.forall_mem_singleton.2 hcreate)

theorem fine_keepCollector : (Node.statement keepCollector).Fine := by
  refine Node.fine_of_children ⟨trivial, by decide⟩ ?_
  exact List.forall_mem_cons.2 ⟨fine_name (by decide),
    List.forall_mem_singleton.2 (fine_collector fine_global rfl)⟩

theorem fine_handOver (id : Nat) : (Node.statement (handOver id)).Fine := by
  have hline : (Node.expression lineKey).Fine := by
    have hstri := @fine_call nowhere (name "stri") [name "lineNumber"] (fine_name (by decide)) rfl
      (List.forall_mem_singleton.2 (fine_name (by decide)))
    exact fine_call (fine_member hstri rfl (by decide)) rfl (List.forall_mem_nil _)
  refine Node.fine_of_children ⟨trivial, by decide⟩ (List.forall_mem_cons.2
    ⟨fine_collector (fine_name (by decide)) rfl, List.forall_mem_singleton.2 (Node.fine_assoc ?_)⟩)
  exact List.forall_mem_cons.2 ⟨fine_string _, List.forall_mem_cons.2 ⟨hline,
    List.forall_mem_singleton.2 (fine_name (by decide))⟩⟩

theorem writes_function {r : Reporter} (hr : IsPlain r.stem.toList) :
    WritesBody [r.function] ((written r).flatMap (· ++ [.newline])) := by
  have hfine : (Procedure.mk .function params none (body r.id)).Fine :=
    ⟨List.forall_mem_cons.2 ⟨⟨by decide, nofun⟩, List.forall_mem_singleton.2 ⟨by decide, nofun⟩⟩,
      nofun⟩
  have hone : (Node.expression (.integer nowhere 1)).Fine := fine_integer (by decide)
  have hdefault : ∀ p ∈ params, ∀ e ∈ p.default, (Node.expression e).Fine :=
    List.forall_mem_cons.2 ⟨nofun, List.forall_mem_singleton.2 fun e he => Option.some.inj he ▸ hone⟩
  have hmissing : (Node.expression (isMissing global)).Fine := fine_isMissing fine_global rfl
  have houter : (Node.expression (isMissing (collector (name "m")))).Fine :=
    fine_isMissing (fine_collector (fine_name (by decide)) rfl) rfl
  have hinner : (Node.expression (isMissing (collector global))).Fine :=
    fine_isMissing (fine_collector fine_global rfl) rfl
  have hadd := WritesBody.line fine_addCollector.writes .nil
  have hkeep := WritesBody.line (.block nowhere hinner hadd) (.line fine_keepCollector.writes .nil)
  have hrest := WritesBody.line (fine_handOver r.id).writes (.line fine_giveTrue.writes .nil)
  have hbody := WritesBody.line (.inline nowhere hmissing fine_giveTrue.writes)
    (.blank (.line (.block nowhere houter hkeep) (.blank hrest)))
  have hwhole := WritesBody.line
    (.procedure nowhere (Reporter.name_functionName hr) hfine hdefault hbody) .nil
  simpa [written, Reporter.function, body, renderName?, ProcedureKind.word] using hwhole

end Footer

variable {r : Reporter}

theorem Reporter.parse_footer (hr : IsPlain r.stem.toList) : ∃ here params returns body,
    parse (unlines (Footer.lines r))
      = .ok [.procedure here r.functionName (.mk .function params returns body)] := by
  obtain ⟨program, hparse, hshapes⟩ :=
    parse_of_wording (Footer.writes_function hr) (wording_unlines (Footer.words_lines hr))
  obtain ⟨s, rfl, hshape⟩ := eq_singleton_of_shapes hshapes
  obtain ⟨here, ⟨keyword, params, returns, body⟩, rfl, hdecl⟩ := Statement.eq_procedure_of_shape hshape
  obtain rfl : keyword = .function := (Procedure.mk.inj hdecl).1
  exact ⟨here, params, returns, body, hparse⟩

theorem Reporter.parse_call (hr : IsPlain r.stem.toList) {line : Nat} (hline : line ≤ maxInteger)
    (kind : LineKind) : ∃ here e, parse (r.call line kind).toList = .ok [.call here e] ∧
      e.shape = .call () (.identifier () r.functionName) [.integer () line, .integer () kind.toNat] := by
  have hwording := Reporter.wording_call hr line kind []
  rw [List.append_nil, wording_nil, List.append_nil] at hwording
  have hp := printed_of_map_eq ((map_lex _).trans hwording)
  have hreport : _ ∧ Spells Plain (.expression (r.callExpr Footer.nowhere line kind)) _ [] :=
    hp.report (Reporter.name_functionName hr) hline
  have hopens := opens_of_identifier hreport.1
  have hunattached : Unattached [] := by simp [Unattached, kindOf, attachments]
  have hstatement : Spells Plain
      (.statement (.call Footer.nowhere (r.callExpr Footer.nowhere line kind))) _ [] :=
    Form.callStatement.spells (.ahead hreport.1 (.phrase hreport.2
      (.ahead hunattached (.ahead (by simp [kindOf]) .nil))))
  have hnone := WritesBody.nil .never [] [] .nil Stop.ends_never
  have hblock : Spells Plain
      (.block .never [.call Footer.nowhere (r.callExpr Footer.nowhere line kind)]) _ [] :=
    Form.blockCons.spells (.skip_none hopens.apart (.ahead ⟨hopens.ne_nil, rfl⟩
      (.phrase hstatement (.ahead rfl (.phrase hnone .nil)))))
  obtain ⟨program, hparse, hshapes⟩ := hp.program hblock
  obtain ⟨s, rfl, hshape⟩ := eq_singleton_of_shapes hshapes
  obtain ⟨here, e, rfl, he⟩ := Statement.eq_call_of_shape hshape
  exact ⟨here, e, hparse, he⟩

/-! ### Telling functions and calls apart -/

theorem toDigits_inj {m n : Nat} (h : Nat.toDigits 10 m = Nat.toDigits 10 n) : m = n := by
  rw [← ofDigits_toDigits m, h, ofDigits_toDigits]

theorem toDigits_append_inj {m n : Nat} {c : Char} {u v : Text} (hc : c.isDigit = false)
    (h : Nat.toDigits 10 m ++ c :: u = Nat.toDigits 10 n ++ c :: v) : m = n ∧ u = v := by
  have htake : ∀ n u, (Nat.toDigits 10 n ++ c :: u).takeWhile Char.isDigit = Nat.toDigits 10 n := by
    intro n u
    rw [List.takeWhile_append_of_pos fun d hd =>
      Nat.isDigit_of_mem_toDigits (by decide) (by decide) hd, List.takeWhile_cons_of_neg (by simp [hc]),
      List.append_nil]
  obtain rfl : m = n := toDigits_inj (by rw [← htake m u, h, htake])
  exact ⟨rfl, (List.cons.inj (List.append_cancel_left h)).2⟩

theorem Reporter.call_toList (r : Reporter) (line : Nat) (kind : LineKind) :
    (r.call line kind).toList = r.stem.toList ++ '_' :: (Nat.toDigits 10 r.id ++ '_' ::
      ("reportLine".toList ++ '(' :: (Nat.toDigits 10 line ++ ',' :: ' ' ::
        (Nat.toDigits 10 kind.toNat ++ [')'])))) := by
  simp only [call, functionName, String.toList_append, toString_toList, List.append_assoc]
  rfl

theorem Reporter.call_inj {stem : String} {id id' line line' : Nat} {kind kind' : LineKind}
    (h : (Reporter.mk stem id).call line kind = (Reporter.mk stem id').call line' kind') :
    id = id' ∧ line = line' ∧ kind = kind' := by
  have hlist := congrArg String.toList h
  rw [call_toList, call_toList, List.append_cancel_left_eq, List.cons.injEq] at hlist
  obtain ⟨hid, hrest⟩ := toDigits_append_inj (by decide) hlist.2
  rw [List.append_cancel_left_eq, List.cons.injEq] at hrest
  obtain ⟨hnumber, hrest⟩ := toDigits_append_inj (by decide) hrest.2
  rw [List.cons.injEq, List.append_cancel_right_eq] at hrest
  have hkind : ∀ k k' : LineKind, k.toNat = k'.toNat → k = k' := by
    intro k k' h
    cases k <;> cases k' <;> first | rfl | cases h
  exact ⟨hid, hnumber, hkind _ _ (toDigits_inj hrest.2)⟩

theorem Reporter.functionName_lower {stem : String} {id id' : Nat}
    (h : (Reporter.mk stem id).functionName.toList.map Char.toLower
      = (Reporter.mk stem id').functionName.toList.map Char.toLower) : id = id' := by
  have hlower : ∀ n, (Nat.toDigits 10 n).map Char.toLower = Nat.toDigits 10 n := fun n => by
    have hdigit : ∀ d < 10, (Nat.digitChar d).toLower = Nat.digitChar d := by decide
    refine (List.map_congr_left fun c hc => ?_).trans (List.map_id _)
    obtain ⟨d, hd, rfl⟩ := (isDecimal_toDigits n).2 c hc
    exact hdigit d hd
  simp only [functionName, String.toList_append, toString_toList, List.map_append, hlower,
    List.append_cancel_left_eq, List.append_cancel_right_eq] at h
  exact toDigits_inj h

/-- The footer of a file is read as one function. Its name is the one that the calls name, character
for character, and each call is read as a call of it with the line and the code of its kind. Different
calls are written differently, and the functions of different files have names that differ also when
their case does not count. -/
theorem footer_answers_calls (stem : String) :
    (IsPlain stem.toList → ∀ id,
      (∃ footer here params returns body, TemplateSet.builtIn.renderFooter ⟨stem, id⟩ = .ok footer ∧
        parse footer = .ok [.procedure here (Reporter.functionName ⟨stem, id⟩)
          (.mk .function params returns body)]) ∧
      ∀ line ≤ maxInteger, ∀ kind, ∃ here e,
        parse (Reporter.call ⟨stem, id⟩ line kind).toList = .ok [.call here e] ∧
          e.shape = .call () (.identifier () (Reporter.functionName ⟨stem, id⟩))
            [.integer () line, .integer () kind.toNat]) ∧
    (∀ id id' line line' kind kind',
      Reporter.call ⟨stem, id⟩ line kind = Reporter.call ⟨stem, id'⟩ line' kind' →
        id = id' ∧ line = line' ∧ kind = kind') ∧
    ∀ id id', id ≠ id' → (Reporter.functionName ⟨stem, id⟩).toList.map Char.toLower
      ≠ (Reporter.functionName ⟨stem, id'⟩).toList.map Char.toLower := by
  refine ⟨fun hstem id => ⟨?_, fun line hline kind => ?_⟩, ?_, ?_⟩
  · obtain ⟨here, params, returns, body, hparse⟩ := @Reporter.parse_footer ⟨stem, id⟩ hstem
    exact ⟨_, here, params, returns, body, Footer.render ⟨stem, id⟩, hparse⟩
  · exact @Reporter.parse_call ⟨stem, id⟩ hstem line hline kind
  · exact fun id id' line line' kind kind' h => Reporter.call_inj h
  · exact fun id id' hne h => hne (Reporter.functionName_lower h)

theorem footer_answers_calls_default :
    (∃ footer here params returns body,
      TemplateSet.builtIn.renderFooter ⟨Reporter.defaultStem, 12⟩ = .ok footer ∧
        parse footer = .ok [.procedure here "RBS_CC_12_reportLine"
          (.mk .function params returns body)]) ∧
    ∃ here e, parse "RBS_CC_12_reportLine(0, 2)".toList = .ok [.call here e] ∧
      e.shape = .call () (.identifier () "RBS_CC_12_reportLine") [.integer () 0, .integer () 2] := by
  have hplain : IsPlain Reporter.defaultStem.toList :=
    ⟨'R', ['B', 'S', '_', 'C', 'C'], rfl, by decide, List.all_iff_forall_prop.1 (by decide)⟩
  obtain ⟨hfooter, hcalls⟩ := (footer_answers_calls Reporter.defaultStem).1 hplain 12
  have hname : Reporter.functionName ⟨Reporter.defaultStem, 12⟩ = "RBS_CC_12_reportLine" := by decide
  have hcall : Reporter.call ⟨Reporter.defaultStem, 12⟩ 0 .condition = "RBS_CC_12_reportLine(0, 2)" := by
    decide
  rw [← hname, ← hcall]
  exact ⟨hfooter, hcalls 0 (by decide) .condition⟩

end BrightCoverage
