import BrightCoverage.Proofs.Acceptance
import BrightCoverage.Proofs.Footers
import BrightCoverage.Proofs.RunOutcomes

/-! The implementation of the component, read back as source text. The map of the device paths is
written as JSON, and JSON and source text quote differently: a quote is escaped by a backslash in one
and doubled in the other. Where no path has a quote the implementation is read as the functions of the
template with the two maps in them, a path as the text of its JSON escapes. -/

namespace BrightCoverage

open Footer (nowhere name isMissing)

/-! ### The path map -/

/-- A text as it stands between the quotes of a JSON string. -/
def jsonEscapes (text : String) : String :=
  String.ofList (text.toList.flatMap jsonEscape)

def Registry.pathsLiteral {α : Type} (here : α) (registry : Registry) : Expr α :=
  .assoc here (registry.paths.entries.map fun x => .mk (toString x.1) (.string here (jsonEscapes x.2)))

theorem Registry.fine_pathsLiteral (here : Extent) (registry : Registry) :
    (Node.expression (registry.pathsLiteral here)).Fine := by
  apply Node.fine_assoc
  intro entry hentry
  obtain ⟨x, -, rfl⟩ := List.mem_map.1 hentry
  exact Node.fine_of_children ⟨trivial, trivial⟩ (List.forall_mem_nil _)

theorem jsonEscape_cases (c : Char) : (jsonEscape c = [c] ∧ c ≠ '"' ∧ c ≠ '\n') ∨
    ∃ u, u ≠ [] ∧ jsonEscape c = '\\' :: u ∧ '\n' ∉ u ∧ ('"' ∈ u → c = '"') := by
  have hdigit : ∀ n < 16, '\n' ≠ Nat.digitChar n ∧ '"' ≠ Nat.digitChar n := by decide
  unfold jsonEscape
  split
  case h_8 hquote hbackslash _ _ hnewline _ _ =>
    split
    · next hlow =>
      have hhigh := hdigit (c.toNat / 16) (by omega)
      have hrest := hdigit (c.toNat % 16) (Nat.mod_lt _ (by decide))
      exact .inr ⟨_, List.cons_ne_nil _ _, rfl, by simp [hhigh.1, hrest.1], by simp [hhigh.2, hrest.2]⟩
    · exact .inl ⟨rfl, hquote, hnewline⟩
  -- the characters that have an escape of their own
  all_goals exact .inr ⟨_, List.cons_ne_nil _ _, rfl, by decide, by decide⟩

theorem worded_string (here : Extent) {text : String} (h : '"' ∉ text.toList) :
    Worded (jsonString text.toList) (.string here (jsonEscapes text)) := by
  have hplain : ∀ d ∈ text.toList.flatMap jsonEscape, d ≠ '"' ∧ d ≠ '\n' := by
    intro d hd
    obtain ⟨c, hc, hd⟩ := List.mem_flatMap.1 hd
    rcases jsonEscape_cases c with ⟨hself, hnot⟩ | ⟨u, -, hescape, hnewline, hquote⟩
    · rw [hself, List.mem_singleton] at hd
      exact hd ▸ hnot
    · rw [hescape, List.mem_cons] at hd
      rcases hd with rfl | hd
      · decide
      · refine ⟨?_, ?_⟩
        · rintro rfl
          exact h (hquote hd ▸ hc)
        · rintro rfl
          exact hnewline hd
  have hquote : jsonString text.toList = quote (text.toList.flatMap jsonEscape) := by
    rw [quote, doubleQuotes_eq_self fun d hd => (hplain d hd).1]
    rfl
  intro rest hrest
  have hbehind : rest.head? ≠ some '"' := by
    intro hhead
    rcases hrest with hcomma | hbrace
    · exact absurd (hhead.symm.trans hcomma) (by decide)
    · exact absurd (hhead.symm.trans hbrace) (by decide)
  rw [hquote, wording_string (fun hd => (hplain _ hd).2 rfl) hbehind]
  simp [Expr.render, Lexeme.face, Lexeme.kind, Lexeme.text, jsonEscapes]

theorem Registry.wording_pathsJson (here : Extent) {registry : Registry}
    (h : ∀ x ∈ registry.paths.entries, '"' ∉ x.2.toList) (rest : Text) :
    wording (registry.pathsJson ++ rest)
      = (registry.pathsLiteral here).render.map Lexeme.face ++ wording rest :=
  wording_object here (fun x hx => worded_string here (h x hx)) rest

theorem length_le_flatMap_jsonEscape (text : Text) :
    text.length ≤ (text.flatMap jsonEscape).length := by
  induction text with
  | nil => exact Nat.le_refl 0
  | cons c text ih =>
    have hone : 1 ≤ (jsonEscape c).length := by
      rcases jsonEscape_cases c with ⟨hself, -⟩ | ⟨u, -, hescape, -⟩
      · simp [hself]
      · simp [hescape]
    rw [List.flatMap_cons, List.length_append, List.length_cons]
    omega

theorem jsonEscapes_eq_self {text : String} : jsonEscapes text = text ↔ Unescaped text.toList := by
  unfold jsonEscapes
  constructor
  · intro h
    have hlist := congrArg String.toList h
    rw [String.toList_ofList] at hlist
    revert hlist
    generalize text.toList = text
    intro h
    induction text with
    | nil => exact List.forall_mem_nil _
    | cons c text ih =>
      rcases jsonEscape_cases c with ⟨hself, -⟩ | ⟨u, hne, hescape, -⟩
      · rw [List.flatMap_cons, hself, List.singleton_append, List.cons.injEq] at h
        exact List.forall_mem_cons.2 ⟨hself, ih h.2⟩
      · have hlength := congrArg List.length h
        have hrest := length_le_flatMap_jsonEscape text
        have hmore := List.length_pos_of_ne_nil hne
        simp only [List.flatMap_cons, hescape, List.length_append, List.length_cons] at hlength
        omega
  · intro h
    rw [h.flatMap_jsonEscape, String.ofList_toList]

/-! ### The tree of an implementation -/

namespace Component

def top : Expr Extent :=
  .member nowhere (name "m") "top"

def resolved : Expr Extent :=
  .member nowhere (name "m") "resolvedMap"

def entryField (field : String) : Expr Extent :=
  .member nowhere (name "entry") field

def nothing : Expr Extent :=
  .assoc nowhere []

def give (field : String) (value : Expr Extent) : Statement Extent :=
  .assignMember nowhere top field .assign value

def keep (variableName : String) (value : Expr Extent) : Statement Extent :=
  .assign nowhere variableName .assign value

def run (callee : Expr Extent) (args : List String) : Statement Extent :=
  .call nowhere (.call nowhere callee (args.map (.string nowhere)))

def observe (field handler : String) : Statement Extent :=
  run (.member nowhere top "observeField") [field, handler]

def initBody : List (Statement Extent) :=
  [.assignMember nowhere (name "m") "resolvedMap" .assign nothing,
    run (name "setExpectedMap") [], run (name "setFilePathMap") [],
    observe "entry" "onEntry", observe "save" "onSave"]

def keepEntry : Statement Extent :=
  keep "entry" (.member nowhere top "entry")

def giveInvalid : Statement Extent :=
  .giveBack nowhere (some (.invalid nowhere))

def lookUpMap : Statement Extent :=
  keep "fileMap" (.index nowhere resolved (entryField "f"))

def newMap : Statement Extent :=
  keep "fileMap" nothing

def keepMap : Statement Extent :=
  .assignIndex nowhere resolved (entryField "f") .assign (name "fileMap")

def lookUpHits : Statement Extent :=
  keep "hits" (.index nowhere (name "fileMap") (entryField "l"))

def noHits : Statement Extent :=
  keep "hits" (.integer nowhere 0)

def countHit : Statement Extent :=
  .assignIndex nowhere (name "fileMap") (entryField "l") .assign
    (.binary nowhere .add (name "hits") (.integer nowhere 1))

def onEntryBody : List (Statement Extent) :=
  [keepEntry, .branch nowhere (isMissing (name "entry")) [giveInvalid] [] none,
    lookUpMap, .branch nowhere (isMissing (name "fileMap")) [newMap, keepMap] [] none,
    lookUpHits, .branch nowhere (isMissing (name "hits")) [noHits] [] none, countHit]

def function (name : String) (body : List (Statement Extent)) : Statement Extent :=
  .procedure nowhere name (.mk .function [] none body)

end Component

def Registry.component (registry : Registry) : List (Statement Extent) :=
  [Component.function "init" Component.initBody,
    Component.function "setExpectedMap" [Component.give "expectedMap" (registry.expectedLiteral nowhere)],
    Component.function "setFilePathMap" [Component.give "filePathMap" (registry.pathsLiteral nowhere)],
    Component.function "onEntry" Component.onEntryBody,
    Component.function "onSave" [Component.give "resolvedMap" Component.resolved]]

/-! ### Its lines -/

namespace Component

def header (name : String) : List Lexeme :=
  [.keyword .functionKw, .word name, .symbol .leftParen, .symbol .rightParen]

def closing : List Lexeme :=
  [.keyword .endKw, .keyword .functionKw]

def startsBranch (value : Expr Extent) : List Lexeme :=
  .keyword .ifKw :: (isMissing value).render

def ifMissing (value : Expr Extent) (s : Statement Extent) : List Lexeme :=
  startsBranch value ++ .keyword .thenKw :: s.render

def upperWritten : List (List Lexeme) :=
  header "init" :: (initBody.map Statement.render ++ [closing, [], header "setExpectedMap"])

def middleWritten : List (List Lexeme) :=
  [closing, [], header "setFilePathMap"]

def onEntryWritten : List (List Lexeme) :=
  [ keepEntry.render,
    ifMissing (name "entry") giveInvalid,
    [],
    lookUpMap.render,
    startsBranch (name "fileMap"),
    newMap.render,
    keepMap.render,
    [.keyword .endKw, .keyword .ifKw],
    [],
    lookUpHits.render,
    ifMissing (name "hits") noHits,
    countHit.render ]

def lowerWritten : List (List Lexeme) :=
  [closing, [], header "onEntry"] ++ (onEntryWritten ++
    [closing, [], header "onSave", (give "resolvedMap" resolved).render, closing])

def upper : List Text :=
  (implementationLines.take 9).map String.toList

def middle : List Text :=
  ((implementationLines.drop 10).take 3).map String.toList

def lower : List Text :=
  (implementationLines.drop 14).map String.toList

def beforeExpected : Text :=
  "  m.top.expectedMap = ".toList

def beforePaths : Text :=
  "  m.top.filePathMap = ".toList

def lines (registry : Registry) : List Text :=
  upper ++ (beforeExpected ++ registry.expectedJson) :: (middle ++
    (beforePaths ++ registry.pathsJson) :: lower)

def written (registry : Registry) : List (List Lexeme) :=
  upperWritten ++ (give "expectedMap" (registry.expectedLiteral nowhere)).render :: (middleWritten ++
    (give "filePathMap" (registry.pathsLiteral nowhere)).render :: lowerWritten)

theorem words_upper : Words upper upperWritten := by
  apply SpelledOut.words
  · iterate 9 apply SpelledOut.cons
    exact SpelledOut.nil
  · decide +kernel

theorem words_middle : Words middle middleWritten := by
  apply SpelledOut.words
  · iterate 3 apply SpelledOut.cons
    exact SpelledOut.nil
  · decide +kernel

theorem words_lower : Words lower lowerWritten := by
  apply SpelledOut.words
  · iterate 20 apply SpelledOut.cons
    exact SpelledOut.nil
  · decide +kernel

theorem words_give (field : String) {e : Expr Extent} {opening : List Item} {json : Text}
    (hsettled : Item.settled '\x7b' opening = true)
    (hopening : Item.words opening = (top.render ++
      [Lexeme.symbol .dot, .word field, .assign .assign]).map Lexeme.face)
    (hbrace : json.head? = some '\x7b')
    (hjson : ∀ rest, wording (json ++ rest) = e.render.map Lexeme.face ++ wording rest) :
    wording (Item.join opening ++ json) = (give field e).render.map Lexeme.face := by
  have hmap := hjson []
  rw [List.append_nil, wording_nil, List.append_nil] at hmap
  obtain ⟨u, rfl⟩ := List.head?_eq_some_iff.1 hbrace
  rw [wording_settled hsettled, hmap, hopening]
  simp [give, Statement.render]

theorem words_lines {registry : Registry} (h : ∀ x ∈ registry.paths.entries, '"' ∉ x.2.toList) :
    Words (lines registry) (written registry) := by
  let owner : List Item :=
    [⟨none, [' ', ' ']⟩, ⟨some .identifier, ['m']⟩, ⟨some (.symbol .dot), ['.']⟩,
      ⟨some .identifier, ['t', 'o', 'p']⟩, ⟨some (.symbol .dot), ['.']⟩]
  let equals : List Item := [⟨none, [' ']⟩, ⟨some (.symbol .equals), ['=']⟩, ⟨none, [' ']⟩]
  let expected : Item :=
    ⟨some .identifier, ['e', 'x', 'p', 'e', 'c', 't', 'e', 'd', 'M', 'a', 'p']⟩
  let paths : Item :=
    ⟨some .identifier, ['f', 'i', 'l', 'e', 'P', 'a', 't', 'h', 'M', 'a', 'p']⟩
  have hexpected : Item.settled '\x7b' (owner ++ expected :: equals) = true := by decide +kernel
  have hpaths : Item.settled '\x7b' (owner ++ paths :: equals) = true := by decide +kernel
  have hfirst := words_give "expectedMap" hexpected (by decide +kernel) rfl
    (registry.wording_expectedJson nowhere)
  have hsecond := words_give "filePathMap" hpaths (by decide +kernel) rfl
    (registry.wording_pathsJson nowhere h)
  exact words_upper.append (.cons hfirst (words_middle.append (.cons hsecond words_lower)))

/-! ### Rendering the template -/

def division : Template.Division where
  pieces := [(unlines upper ++ beforeExpected, "EXPECTED_MAP".toList),
    ('\n' :: unlines middle ++ beforePaths, "FILE_PATH_MAP".toList)]
  rest := '\n' :: unlines lower

theorem text_division : division.text = unlines (implementationLines.map String.toList) := by
  have hexpected : ((implementationLines.drop 9).take 1).map String.toList
      = [beforeExpected ++ Template.marked "EXPECTED_MAP".toList] := by decide +kernel
  have hpaths : ((implementationLines.drop 13).take 1).map String.toList
      = [beforePaths ++ Template.marked "FILE_PATH_MAP".toList] := by decide +kernel
  have hlines : implementationLines.map String.toList = upper ++
      ((implementationLines.drop 9).take 1).map String.toList ++ (middle ++
      ((implementationLines.drop 13).take 1).map String.toList ++ lower) := rfl
  rw [hlines, hexpected, hpaths]
  simp [Template.Division.text, division, unlines]

def values (registry : Registry) : List (Text × Text) :=
  [("EXPECTED_MAP".toList, registry.expectedJson), ("FILE_PATH_MAP".toList, registry.pathsJson)]

theorem filled_division (registry : Registry) :
    division.filled (values registry) = unlines (lines registry) := by
  have hexpected : (values registry).lookup "EXPECTED_MAP".toList = some registry.expectedJson := rfl
  have hpaths : (values registry).lookup "FILE_PATH_MAP".toList = some registry.pathsJson := rfl
  simp only [Template.Division.filled, division, lines, List.flatMap_cons, List.flatMap_nil, hexpected,
    hpaths, Option.getD_some]
  simp [unlines]

theorem divides_division (registry : Registry) :
    division.Divides (values registry) (unlines (implementationLines.map String.toList)) := by
  have hknown : ∀ key ∈ division.pieces.map Prod.snd, Template.Known (values registry) key := by
    intro key hkey
    have hkeys : ∀ key ∈ division.pieces.map Prod.snd, Template.isName key = true ∧
        key ∈ ["EXPECTED_MAP".toList, "FILE_PATH_MAP".toList] := by decide
    obtain ⟨hname, hsupplied⟩ := hkeys key hkey
    obtain ⟨hne, hchars⟩ := Template.isName_iff.1 hname
    exact ⟨hne, hchars, hsupplied⟩
  have hbefore : ∀ piece ∈ division.pieces, '#' ∉ piece.1 := by decide +kernel
  have hrest : '#' ∉ division.rest := by decide +kernel
  rw [← text_division]
  exact Template.Division.divides_of_hash_notMem hknown hbefore hrest

theorem render (registry : Registry) : TemplateSet.builtIn.renderComponent registry
    = .ok [⟨descriptorPath, unlines (descriptorLines.map String.toList)⟩,
      ⟨implementationPath, unlines (lines registry)⟩] := by
  rw [← filled_division]
  have hrender := @Template.render_eq_filled (values registry)
    ⟨implementationName, unlines (implementationLines.map String.toList)⟩ _ (divides_division registry)
  exact TemplateSet.renderComponent_eq_ok.2 ⟨_, _, rfl, rfl, by rw [Template.withMaps, ← hrender]; rfl⟩

/-! ### Reading it -/

theorem fine_top : (Node.expression top).Fine :=
  Footer.fine_member (Footer.fine_name (by decide)) rfl (by decide)

theorem fine_resolved : (Node.expression resolved).Fine :=
  Footer.fine_member (Footer.fine_name (by decide)) rfl (by decide)

theorem fine_entryField {field : String} (h : Word field) :
    (Node.expression (entryField field)).Fine :=
  Footer.fine_member (Footer.fine_name (by decide)) rfl h

theorem fine_nothing : (Node.expression nothing).Fine :=
  Node.fine_assoc (List.forall_mem_nil _)

theorem fine_give {field : String} {value : Expr Extent} (hfield : Word field)
    (hv : (Node.expression value).Fine) : (Node.statement (give field value)).Fine :=
  Node.fine_of_children ⟨trivial, hfield⟩
    (List.forall_mem_cons.2 ⟨fine_top, List.forall_mem_singleton.2 hv⟩)

theorem fine_keep {variableName : String} {value : Expr Extent} (hname : Name variableName)
    (hv : (Node.expression value).Fine) : (Node.statement (keep variableName value)).Fine :=
  Node.fine_of_children hname (List.forall_mem_singleton.2 hv)

theorem fine_index {object index : Expr Extent} (ho : (Node.expression object).Fine)
    (hoperand : object.isOperand = true) (hi : (Node.expression index).Fine) :
    (Node.expression (.index nowhere object index)).Fine :=
  Node.fine_of_children ⟨hoperand, trivial⟩
    (List.forall_mem_cons.2 ⟨ho, List.forall_mem_singleton.2 hi⟩)

theorem fine_run {callee : Expr Extent} {args : List String} (hc : (Node.expression callee).Fine)
    (hr : callee.Rooted) : (Node.statement (run callee args)).Fine := by
  have hargs : ∀ a ∈ args.map (Expr.string nowhere), (Node.expression a).Fine := by
    intro a ha
    obtain ⟨text, -, rfl⟩ := List.mem_map.1 ha
    exact Footer.fine_string text
  exact Node.fine_of_children ⟨hr, _, _, _, rfl⟩
    (List.forall_mem_singleton.2 (Footer.fine_call hc hr.isOperand hargs))

theorem writes_lines {body : List (Statement Extent)} (h : ∀ s ∈ body, (Node.statement s).Fine) :
    WritesBody body (renderBody body) := by
  induction body with
  | nil => exact .nil
  | cons s body ih =>
    obtain ⟨hs, hbody⟩ := List.forall_mem_cons.1 h
    exact .line hs.writes (ih hbody)

theorem writes_function {name : String} {body : List (Statement Extent)} {ls : List Lexeme}
    (hname : Name name) (h : WritesBody body ls) :
    Writes (function name body) (header name ++ .newline :: (ls ++ closing)) := by
  have hparams : (Procedure.mk .function [] none body).Fine := ⟨List.forall_mem_nil _, nofun⟩
  exact .procedure nowhere hname hparams (List.forall_mem_nil _) h

theorem writes_initBody : WritesBody initBody (renderBody initBody) := by
  have hobserve : ∀ field handler, (Node.statement (observe field handler)).Fine := by
    intro field handler
    exact fine_run (Footer.fine_member fine_top rfl (by decide)) trivial
  apply writes_lines
  intro s hs
  simp only [initBody, List.mem_cons, List.not_mem_nil, or_false] at hs
  rcases hs with rfl | rfl | rfl | rfl | rfl
  · exact Node.fine_of_children ⟨trivial, by decide⟩
      (List.forall_mem_cons.2 ⟨Footer.fine_name (by decide), List.forall_mem_singleton.2 fine_nothing⟩)
  · exact fine_run (Footer.fine_name (by decide)) trivial
  · exact fine_run (Footer.fine_name (by decide)) trivial
  · exact hobserve _ _
  · exact hobserve _ _

theorem fine_keepEntry : (Node.statement keepEntry).Fine :=
  fine_keep (by decide) (Footer.fine_member fine_top rfl (by decide))

theorem fine_giveInvalid : (Node.statement giveInvalid).Fine :=
  Node.fine_of_children trivial (List.forall_mem_singleton.2 Footer.fine_invalid)

theorem fine_lookUpMap : (Node.statement lookUpMap).Fine :=
  fine_keep (by decide) (fine_index fine_resolved rfl (fine_entryField (by decide)))

theorem fine_keepMap : (Node.statement keepMap).Fine := by
  refine Node.fine_of_children trivial (List.forall_mem_cons.2 ⟨fine_resolved, ?_⟩)
  exact List.forall_mem_cons.2 ⟨fine_entryField (by decide),
    List.forall_mem_singleton.2 (Footer.fine_name (by decide))⟩

theorem fine_lookUpHits : (Node.statement lookUpHits).Fine :=
  fine_keep (by decide) (fine_index (Footer.fine_name (by decide)) rfl (fine_entryField (by decide)))

theorem fine_countHit : (Node.statement countHit).Fine := by
  have hsum : (Node.expression (.binary nowhere .add (name "hits") (.integer nowhere 1))).Fine :=
    Footer.fine_binary (Footer.fine_name (by decide)) rfl (Footer.fine_integer (by decide)) rfl
  refine Node.fine_of_children trivial (List.forall_mem_cons.2 ⟨Footer.fine_name (by decide), ?_⟩)
  exact List.forall_mem_cons.2 ⟨fine_entryField (by decide), List.forall_mem_singleton.2 hsum⟩

theorem writes_onEntryBody : WritesBody onEntryBody (onEntryWritten.flatMap (· ++ [.newline])) := by
  have hmissing : ∀ {variableName}, Name variableName →
      (Node.expression (isMissing (name variableName))).Fine :=
    fun h => Footer.fine_isMissing (Footer.fine_name h) rfl
  have hentry : Name "entry" := by decide
  have hfileMap : Name "fileMap" := by decide
  have hhits : Name "hits" := by decide
  have hnone : (Node.statement noHits).Fine := fine_keep hhits (Footer.fine_integer (by decide))
  have hnew : (Node.statement newMap).Fine := fine_keep hfileMap fine_nothing
  have hmap := WritesBody.line hnew.writes (.line fine_keepMap.writes .nil)
  have hcount := WritesBody.line fine_lookUpHits.writes
    (.line (.inline nowhere (hmissing hhits) hnone.writes) (.line fine_countHit.writes .nil))
  have hlookup := WritesBody.line fine_lookUpMap.writes
    (.line (.block nowhere (hmissing hfileMap) hmap) hcount.blank)
  have hwhole := WritesBody.line fine_keepEntry.writes
    (.line (.inline nowhere (hmissing hentry) fine_giveInvalid.writes) hlookup.blank)
  simpa [onEntryWritten, onEntryBody, startsBranch, ifMissing] using hwhole

theorem writes_component {registry : Registry} :
    WritesBody registry.component ((written registry).flatMap (· ++ [.newline])) := by
  have hexpected := fine_give (by decide : Word "expectedMap") (registry.fine_expectedLiteral nowhere)
  have hpaths := fine_give (by decide : Word "filePathMap") (registry.fine_pathsLiteral nowhere)
  have hsave := fine_give (by decide : Word "resolvedMap") fine_resolved
  have hfifth := WritesBody.line (writes_function (by decide : Name "onSave")
    (.line hsave.writes .nil)) .nil
  have hfourth := WritesBody.line (writes_function (by decide : Name "onEntry") writes_onEntryBody)
    (.blank hfifth)
  have hthird := WritesBody.line (writes_function (by decide : Name "setFilePathMap")
    (.line hpaths.writes .nil)) (.blank hfourth)
  have hsecond := WritesBody.line (writes_function (by decide : Name "setExpectedMap")
    (.line hexpected.writes .nil)) (.blank hthird)
  have hfirst := WritesBody.line (writes_function (by decide : Name "init") writes_initBody)
    (.blank hsecond)
  simpa [written, upperWritten, middleWritten, lowerWritten, Registry.component, renderBody,
    initBody] using hfirst

theorem mem_wording_unlines {texts : List Text} {text : Text} {word : TokenKind × String}
    (h : text ∈ texts) (hword : word ∈ wording text) : word ∈ wording (unlines texts) := by
  induction texts with
  | nil => cases h
  | cons first texts ih =>
    have hcons : unlines (first :: texts) = first ++ '\n' :: unlines texts := by simp [unlines]
    rw [hcons, wording_line, List.mem_append, List.mem_cons]
    rcases List.mem_cons.1 h with rfl | h
    · exact .inl hword
    · exact .inr (.inr (ih h))

end Component

/-- The implementation of the component is accepted wherever no device path has a quote in it. It is
read as the functions of the template with the two maps; the literal of the paths has the numbers of
the files in ascending order and the JSON escapes of their paths, which are the paths themselves only
where nothing has to be escaped. -/
theorem component_denotes_paths (registry : Registry)
    (h : ∀ x ∈ registry.paths.entries, '"' ∉ x.2.toList) :
    (∃ descriptor text program,
      TemplateSet.builtIn.renderComponent registry
        = .ok [⟨descriptorPath, descriptor⟩, ⟨implementationPath, text⟩] ∧
      parse text = .ok program ∧ shapes program = shapes registry.component) ∧
    registry.paths.entries.Pairwise (fun x y => x.1 < y.1) ∧
    ∀ x ∈ registry.paths.entries, jsonEscapes x.2 = x.2 ↔ Unescaped x.2.toList := by
  refine ⟨?_, registry.paths.ascending, fun x _ => jsonEscapes_eq_self⟩
  have hwording : wording (unlines (Component.lines registry)) = _ :=
    wording_unlines (Component.words_lines h)
  obtain ⟨program, hparse, hshapes⟩ := parse_of_wording Component.writes_component hwording
  exact ⟨_, _, program, Component.render registry, hparse, hshapes⟩

/-- Two files, one with a backslash in its name: its path is read with two. -/
theorem component_denotes_paths_backslash :
    let registry := (Registry.empty.record 10 (.ofLines []) "pkg:/a\\b.brs").record 9 (.ofLines [])
      "pkg:/b.brs"
    (∃ descriptor text program,
      TemplateSet.builtIn.renderComponent registry
        = .ok [⟨descriptorPath, descriptor⟩, ⟨implementationPath, text⟩] ∧
      parse text = .ok program ∧ shapes program = shapes registry.component) ∧
    registry.pathsLiteral () = .assoc () [.mk "9" (.string () "pkg:/b.brs"),
      .mk "10" (.string () "pkg:/a\\\\b.brs")] := by
  intro registry
  have hplain : ∀ x ∈ registry.paths.entries, '"' ∉ x.2.toList := by decide +kernel
  have hescapes : registry.paths.entries.map (fun x => (toString x.1, jsonEscapes x.2))
      = [("9", "pkg:/b.brs"), ("10", "pkg:/a\\\\b.brs")] := by decide +kernel
  have hpaths : registry.pathsLiteral () = .assoc () ((registry.paths.entries.map fun x =>
      (toString x.1, jsonEscapes x.2)).map fun x => .mk x.1 (.string () x.2)) := rfl
  refine ⟨(component_denotes_paths registry hplain).1, ?_⟩
  rw [hpaths, hescapes]
  rfl

/-- The implementation is refused if a literal on the line with the paths has no end. -/
theorem Component.refused {registry : Registry}
    (h : ∃ word ∈ wording (beforePaths ++ registry.pathsJson), word.1 = .openString) :
    ∀ program, parse (unlines (lines registry)) ≠ .ok program := by
  intro program hparse
  obtain ⟨word, hword, hkind⟩ := h
  have hline : beforePaths ++ registry.pathsJson ∈ lines registry := by simp [lines]
  have hmem := mem_wording_unlines hline hword
  rw [← map_lex] at hmem
  obtain ⟨t, ht, rfl⟩ := List.mem_map.1 hmem
  exact ((complete_of_parse hparse).known t ht).2 hkind

/-- A quote in the name of a file: the escape of it ends the literal behind its backslash, and the
quote behind the path starts one without an end. -/
theorem component_refuses_quote :
    let registry := Registry.empty.record 1 (.ofLines []) (Path.deviceUri "source/a\"b.brs")
    ∃ descriptor text, TemplateSet.builtIn.renderComponent registry
        = .ok [⟨descriptorPath, descriptor⟩, ⟨implementationPath, text⟩] ∧
      ∀ program, parse text ≠ .ok program := by
  intro registry
  refine ⟨_, _, Component.render registry, Component.refused ?_⟩
  rw [← map_lex]
  decide +kernel

end BrightCoverage
