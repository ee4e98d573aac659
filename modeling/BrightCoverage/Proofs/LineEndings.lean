import BrightCoverage.Proofs.JoinedTexts

/-! Line breaks written as CR LF. The carriage return at the end of a line is a blank or belongs to the
last item of the line, which goes on to the end of the line with or without it. So the tokens differ
only in where they stand behind the end of their line and in a carriage return that no parser looks at,
and what is written for the lines does not depend on either. -/

namespace BrightCoverage

variable {s l : Text}

/-! ### Texts with other line breaks -/

/-- A text with line breaks written as CR LF where the choices say so, in their order. -/
def rebreak : List Bool → Text → Text
  | _, [] => []
  | [], text => text
  | crlf :: choices, c :: rest =>
    if c = '\n' then (if crlf then ['\r', '\n'] else ['\n']) ++ rebreak choices rest
    else c :: rebreak (crlf :: choices) rest

theorem lines_induction {P : Text → Prop} (last : ∀ l, '\n' ∉ l → P l)
    (line : ∀ l rest, '\n' ∉ l → P rest → P (l ++ '\n' :: rest)) (s : Text) : P s := by
  induction hn : s.length using Nat.strongRecOn generalizing s with
  | _ n ih =>
    by_cases h : '\n' ∈ s
    · obtain ⟨l, rest, rfl, hl⟩ := List.eq_append_cons_of_mem h
      rw [List.length_append, List.length_cons] at hn
      exact line l rest hl (ih _ (by omega) rest rfl)
    · exact last s h

theorem rebreak_last (hl : '\n' ∉ l) (choices : List Bool) : rebreak choices l = l := by
  induction l with
  | nil => cases choices <;> rfl
  | cons c l ih =>
    obtain ⟨hc, hl⟩ := not_or.1 (mt List.mem_cons.2 hl)
    cases choices with
    | nil => rfl
    | cons crlf choices => rw [rebreak, if_neg (Ne.symm hc), ih hl]

theorem rebreak_line (hl : '\n' ∉ l) (choices : List Bool) (rest : Text) :
    ∃ l' choices', (l' = l ∨ l' = l ++ ['\r']) ∧
      rebreak choices (l ++ '\n' :: rest) = l' ++ '\n' :: rebreak choices' rest := by
  cases choices with
  | nil =>
    refine ⟨l, [], .inl rfl, ?_⟩
    have hnil : ∀ t : Text, rebreak [] t = t := fun t => by cases t <;> rfl
    rw [hnil, hnil]
  | cons crlf choices =>
    induction l with
    | nil =>
      refine ⟨if crlf then ['\r'] else [], choices, ?_, ?_⟩
      · cases crlf <;> simp
      · cases crlf <;> rfl
    | cons c l ih =>
      obtain ⟨hc, hl⟩ := not_or.1 (mt List.mem_cons.2 hl)
      obtain ⟨l', choices', hl', heq⟩ := ih hl
      refine ⟨c :: l', choices', ?_, ?_⟩
      · simpa using hl'
      · rw [List.cons_append, rebreak, if_neg (Ne.symm hc), heq]
        rfl

theorem dropReturn_of_notMem (h : '\r' ∉ l) : dropReturn l = l :=
  if_neg fun hlast => h (List.mem_of_getLast? hlast)

theorem dropReturn_concat (l : Text) : dropReturn (l ++ ['\r']) = l := by
  rw [dropReturn, if_pos (by simp), List.dropLast_concat]

theorem splitLines_line (hl : '\n' ∉ l) (rest : Text) :
    splitLines (l ++ '\n' :: rest) = dropReturn l :: splitLines rest := by
  rw [splitLines, cutAt_append, cutAt_of_notMem hl]
  rfl

theorem notMem_line {rest : Text} (h : '\r' ∉ l ++ '\n' :: rest) : '\r' ∉ l ∧ '\r' ∉ rest := by
  rw [List.mem_append, List.mem_cons, not_or, not_or] at h
  exact ⟨h.1, h.2.2⟩

theorem splitLines_rebreak (h : '\r' ∉ s) (choices : List Bool) :
    splitLines (rebreak choices s) = splitLines s := by
  induction s using lines_induction generalizing choices with
  | last l hl => rw [rebreak_last hl]
  | line l rest hl ih =>
    obtain ⟨l', choices', hl', heq⟩ := rebreak_line hl choices rest
    obtain ⟨hreturn, hrest⟩ := notMem_line h
    rw [heq, splitLines_line hl, dropReturn_of_notMem hreturn]
    rcases hl' with rfl | rfl
    · rw [splitLines_line hl, dropReturn_of_notMem hreturn, ih hrest]
    · rw [splitLines_line (by simpa using hl), dropReturn_concat, ih hrest]

/-! ### Carriage returns at the ends of lines -/

/-- The items of a line, and those of the line with a carriage return behind it. -/
inductive Returned : List Item → List Item → Prop
  | blank : Returned [] [⟨none, ['\r']⟩]
  | last {it : Item} : it.GoesOn → Returned [it] [⟨it.kind, it.text ++ ['\r']⟩]
  | cons {it : Item} {its its' : List Item} : Returned its its' → Returned (it :: its) (it :: its')

theorem Rule.first?_return : first? all ['\r'] ≠ none := by
  intro hnone
  refine first?_eq_none.1 hnone ⟨none, blanks⟩ (by simp [all, skipped, blanks]) ?_
  exact matches_blanks.2 ⟨by simp, by simp⟩

/-- Where no rule matches in front of a carriage return either, the same characters are unknown. -/
theorem nextItem_of_return {x : Text} (h : ∀ m, 0 < m → m ≤ (x ++ ['\r']).length →
    Rule.first? Rule.all ((x ++ ['\r']).take m) = none) :
    x ≠ [] ∧ nextItem x = (some .unknown, unknownLength (x ++ ['\r'])) := by
  have hx : x ≠ [] := by
    rintro rfl
    exact Rule.first?_return (h 1 Nat.one_pos (Nat.le_refl 1))
  have hnone : ∀ m, 0 < m → m ≤ x.length → Rule.first? Rule.all (x.take m) = none := by
    intro m hpos hle
    have htake : (x ++ ['\r']).take m = x.take m := List.take_append_of_le_length hle
    rw [← htake]
    exact h m hpos (by simp; omega)
  refine ⟨hx, ?_⟩
  rw [unknownLength_append hx (by decide)]
  rcases nextItem_spec x with ⟨rule, n, hn, hfirst, -⟩ | ⟨-, hnext⟩
  · rw [hnone n hn.1 hn.2] at hfirst
    cases hfirst
  · exact hnext

theorem items_append_return (x : Text) : Returned (items x) (items (x ++ ['\r'])) := by
  induction hlen : x.length using Nat.strongRecOn generalizing x with
  | _ len ih =>
    rcases nextItem_spec (x ++ ['\r']) with ⟨rule, n, hn, hfirst, hmax, -⟩ | ⟨hnone, hnext⟩
    · have hbefore := Item.before_of_longest hn hfirst hmax
      have hitems := hbefore.items_append
      simp only [List.take_append_drop] at hitems
      by_cases hle : n ≤ x.length
      · -- The carriage return stands behind the item.
        rw [List.take_append_of_le_length hle, List.drop_append_of_le_length hle] at hbefore hitems
        have hfront := (hbefore.initial (List.prefix_append _ _)).items_append
        simp only [List.take_append_drop] at hfront
        rw [hitems, hfront]
        exact .cons (ih _ (by rw [List.length_drop]; omega) _ rfl)
      · have hend : n = (x ++ ['\r']).length := by
          rw [List.length_append, List.length_singleton] at hn ⊢
          omega
        rw [hend, List.take_length, List.drop_length] at hbefore hitems
        rw [hitems, items_nil]
        rcases hbefore.dropReturn rfl with ⟨rfl, hkind⟩ | ⟨hfront, hgoes⟩
        · rw [items_nil, show rule.kind = none from hkind]
          exact .blank
        · have hfront := hfront.items_append
          rw [List.append_nil, items_nil] at hfront
          rw [hfront]
          exact .last hgoes
    · obtain ⟨hx, hnext'⟩ := nextItem_of_return hnone
      have hle : unknownLength (x ++ ['\r']) ≤ x.length := by
        rw [unknownLength_append hx (by decide)]
        exact unknownLength_le hx
      have hpos := unknownLength_pos (x ++ ['\r'])
      have hne : x ++ ['\r'] ≠ [] := List.append_ne_nil_of_left_ne_nil hx _
      rw [items_ne_nil hx, hnext', items_ne_nil hne, hnext, List.take_append_of_le_length hle,
        List.drop_append_of_le_length hle]
      exact .cons (ih _ (by rw [List.length_drop]; omega) _ rfl)

/-! ### What is left of a token without its carriage return -/

def bare (p : Pattern) (text : Text) : Text :=
  if p.accepts (dropReturn text) then dropReturn text else text

/-- The text of a token without a carriage return at its end, for tokens that go on to the end of
their line. -/
def bareText : TokenKind → String → String
  | .directive, text => String.ofList (bare Rule.directive text.toList)
  | .openString, text => String.ofList (bare Rule.openQuote text.toList)
  | _, text => text

theorem bare_of_notMem {p : Pattern} (h : '\r' ∉ l) : bare p l = l := by
  rw [bare, dropReturn_of_notMem h, ite_self]

theorem bare_concat {p : Pattern} (h : p.Matches l) : bare p (l ++ ['\r']) = l := by
  rw [bare, dropReturn_concat, if_pos (Pattern.accepts_iff.2 h)]

theorem bare_cases (p : Pattern) (text : Text) :
    bare p text = text ∨ p.Matches (bare p text) ∧ text = bare p text ++ ['\r'] := by
  unfold bare dropReturn
  by_cases hlast : text.getLast? = some '\r'
  · rw [if_pos hlast]
    split
    · next haccepts =>
      refine .inr ⟨Pattern.accepts_iff.1 haccepts, ?_⟩
      obtain ⟨x, rfl⟩ := List.getLast?_eq_some_iff.1 hlast
      rw [List.dropLast_concat]
    · exact .inl rfl
  · rw [if_neg hlast]
    exact .inl (ite_self _)

theorem isWord_of_head {kind : TokenKind} {text : String} {here : Extent} {c : Char}
    (h : text.toList.head? = some c) (hc : Token.isWordStart c = false) :
    Token.isWord ⟨kind, text, here⟩ = false := by
  obtain ⟨rest, hrest⟩ := List.head?_eq_some_iff.1 h
  simp [Token.isWord, hrest, hc]

theorem bareText_cases (kind : TokenKind) (text : String) : bareText kind text = text ∨
    ∀ here, Token.isWord ⟨kind, text, here⟩ = false ∧
      Token.isWord ⟨kind, bareText kind text, here⟩ = false := by
  have hbare : ∀ p c, (∀ x, p.Matches x → x.head? = some c) → Token.isWordStart c = false →
      String.ofList (bare p text.toList) = text ∨ ∀ here, Token.isWord ⟨kind, text, here⟩ = false ∧
        Token.isWord ⟨kind, String.ofList (bare p text.toList), here⟩ = false := by
    intro p c hhead hc
    rcases bare_cases p text.toList with heq | ⟨hmatches, heq⟩
    · exact .inl (by rw [heq, String.ofList_toList])
    · obtain ⟨rest, hrest⟩ := List.head?_eq_some_iff.1 (hhead _ hmatches)
      refine .inr fun here => ⟨isWord_of_head (c := c) ?_ hc, isWord_of_head (c := c) ?_ hc⟩
      · rw [heq, hrest]
        rfl
      · rw [String.toList_ofList, hrest]
        rfl
  unfold bareText
  split
  · refine hbare _ '#' (fun x hx => ?_) (by decide)
    obtain ⟨bs, c, z, rfl, -⟩ := Rule.matches_directive.1 hx
    rfl
  · refine hbare _ '"' (fun x hx => ?_) (by decide)
    obtain ⟨w, rfl, -⟩ := Rule.matches_openQuote.1 hx
    rfl
  · exact .inl rfl

theorem ofLine_bareText (text : String) :
    Directive.ofLine (bareText .directive text).toList = Directive.ofLine text.toList := by
  rw [bareText, String.toList_ofList]
  rcases bare_cases Rule.directive text.toList with heq | ⟨hmatches, heq⟩
  · rw [heq]
  · conv_rhs => rw [heq, Directive.ofLine_append_return hmatches]

/-- The position with its column drawn back to the end of the line. -/
def Position.clip (lines : List Text) (p : Position) : Position :=
  ⟨p.line, min p.column (byteLength (lines.getD p.lineIndex []))⟩

/-- A copy without byte offsets, positions behind the ends of lines and carriage returns there. -/
def Copy.trimmed (lines : List Text) : Copy where
  offset := fun _ => 0
  position := Position.clip lines
  text := bareText
  name := id
  offset_mono := fun _ _ _ => Nat.le_refl 0
  text_identifier _ := rfl
  text_keyword _ _ := rfl
  isWord_text k s here := by
    rcases bareText_cases k s with heq | hword
    · rw [heq]
    · rw [(hword here).1, (hword here).2]
  text_word k s here h := by
    rcases bareText_cases k s with heq | hword
    · exact heq
    · rw [(hword here).1] at h
      cases h
  integerValue_text _ := rfl
  hexValue_text _ := rfl
  floatBits_text _ := rfl
  unquoteText_text _ := rfl
  ofLine_text s := by
    rw [ofLine_bareText]
    exact ⟨rfl, rfl, rfl, rfl⟩

/-! ### Tokens of texts with other line breaks -/

section Tokens

variable {lines : List Text} {its its' : List Item}

theorem Returned.place_eq (h : Returned its its') {m : Mark} (hreturn : '\r' ∉ Item.join its)
    (hstop : (m.advance (Item.join its')).position.clip lines
      = (m.advance (Item.join its)).position.clip lines) :
    (place m its').map (Copy.trimmed lines).token = (place m its).map (Copy.trimmed lines).token := by
  induction h generalizing m with
  | blank => rfl
  | @last it hgoes =>
    obtain ⟨kind, text⟩ := it
    simp only [Item.join, List.flatMap_cons, List.flatMap_nil, List.append_nil] at hstop hreturn
    have htoken : ∀ k, bareText k (String.ofList (text ++ ['\r'])) = bareText k (String.ofList text) →
        (place m [⟨some k, text ++ ['\r']⟩]).map (Copy.trimmed lines).token
          = (place m [⟨some k, text⟩]).map (Copy.trimmed lines).token := by
      intro k htext
      simp only [place, List.map_cons, List.map_nil, Copy.token, Copy.extent, Copy.span,
        Copy.trimmed, Mark.extentTo, htext, hstop]
    rcases hgoes with rfl | ⟨rfl, hmatches⟩ | ⟨rfl, hmatches⟩
    · rfl
    · refine htoken _ ?_
      simp only [bareText, String.toList_ofList, bare_concat hmatches, bare_of_notMem hreturn]
    · refine htoken _ ?_
      simp only [bareText, String.toList_ofList, bare_concat hmatches, bare_of_notMem hreturn]
  | @cons it its its' h ih =>
    rw [Item.join_cons, List.mem_append, not_or] at hreturn
    rw [Item.join_cons, Item.join_cons, Mark.advance_append, Mark.advance_append] at hstop
    obtain ⟨_ | kind, text⟩ := it
    · exact ih hreturn.2 hstop
    · rw [place, place, List.map_cons, List.map_cons, ih hreturn.2 hstop]

theorem clip_return (hl : '\n' ∉ l) :
    (Mark.origin.advance (l ++ ['\r'])).position.clip (l :: lines)
      = (Mark.origin.advance l).position.clip (l :: lines) := by
  have hl' : '\n' ∉ l ++ ['\r'] := by simpa using hl
  rw [Mark.advance_position_of_notMem hl, Mark.advance_position_of_notMem hl', byteLength_append]
  simp [Position.clip, Position.lineIndex, Mark.origin]

theorem lex_append_return (hl : '\n' ∉ l) (hreturn : '\r' ∉ l) :
    (lex (l ++ ['\r'])).map (Copy.trimmed (l :: lines)).token
      = (lex l).map (Copy.trimmed (l :: lines)).token := by
  rw [lex_eq_place, lex_eq_place]
  refine (items_append_return l).place_eq ?_ ?_
  · rwa [join_items]
  · rw [join_items, join_items, clip_return hl]

theorem map_behind (hlength : (splitLines l).length = 1) (first rest : Text) :
    ((lex rest).map (Copy.behind l).token).map (Copy.trimmed (first :: lines)).token
      = ((lex rest).map (Copy.trimmed lines).token).map (Copy.shift 0 1).token := by
  have hclip : ∀ p : Position, 1 ≤ p.line →
      (p.down 1).clip (first :: lines) = (p.clip lines).down 1 := by
    rintro ⟨line, column⟩ hline
    obtain ⟨line, rfl⟩ := Nat.exists_eq_add_of_le' hline
    rfl
  rw [List.map_map, List.map_map]
  refine List.map_congr_left fun t ht => ?_
  obtain ⟨hstart, hstop⟩ := onLineOf_of_mem_lex ht
  simp only [Function.comp_apply, Copy.token, Copy.extent, Copy.span, Copy.behind, Copy.shift,
    Copy.ofPlaces, Copy.trimmed, hlength, hclip _ hstart.1, hclip _ hstop.1, id]

theorem lex_rebreak (h : '\r' ∉ s) (choices : List Bool) :
    (lex (rebreak choices s)).map (Copy.trimmed (splitLines s)).token
      = (lex s).map (Copy.trimmed (splitLines s)).token := by
  induction s using lines_induction generalizing choices with
  | last l hl => rw [rebreak_last hl]
  | line l rest hl ih =>
    obtain ⟨hreturn, hrest⟩ := notMem_line h
    obtain ⟨l', choices', hl', heq⟩ := rebreak_line hl choices rest
    have hone : ∀ x : Text, '\n' ∉ x → (splitLines x).length = 1 := fun x hx => by
      rw [splitLines, cutAt_of_notMem hx]
      rfl
    have hlength' : (splitLines l').length = 1 := by
      rcases hl' with rfl | rfl
      · exact hone _ hl
      · exact hone _ (by simpa using hl)
    have hline : (lex l').map (Copy.trimmed (l :: splitLines rest)).token
        = (lex l).map (Copy.trimmed (l :: splitLines rest)).token := by
      rcases hl' with rfl | rfl
      · rfl
      · exact lex_append_return hl hreturn
    have hbreak : (Copy.trimmed (l :: splitLines rest)).token (.lineBreak l')
        = (Copy.trimmed (l :: splitLines rest)).token (.lineBreak l) := by
      have hstart : (Mark.origin.advance l').position.clip (l :: splitLines rest)
          = (Mark.origin.advance l).position.clip (l :: splitLines rest) := by
        rcases hl' with rfl | rfl
        · rfl
        · exact clip_return hl
      simp only [Token.lineBreak, Copy.token, Copy.extent, Copy.span, Copy.trimmed, Mark.extentTo,
        Mark.shift, hstart, hlength', hone l hl]
    rw [splitLines_line hl, dropReturn_of_notMem hreturn, heq, lex_append_newline, lex_append_newline,
      List.map_append, List.map_append, List.map_cons, List.map_cons, hline, hbreak,
      map_behind hlength', map_behind (hone l hl), ih hrest]

end Tokens

/-! ### Lines with their reporting calls -/

section Lines

variable {lines : List Text} {line : Text} {number : Nat}

theorem renderCondition_clip (r : Reporter) (hline : lines[number]? = some line)
    (location : Location) :
    renderCondition r number line ⟨location.start.clip lines, location.stop.clip lines⟩
      = renderCondition r number line location := by
  have hcolumn : ∀ p : Position, p.lineIndex = number →
      min (p.clip lines).column (byteLength line) = min p.column (byteLength line) := by
    rintro p rfl
    rw [Position.clip, List.getD_eq_getElem?_getD, hline, Option.getD_some, min_assoc, min_self]
  unfold renderCondition
  have hsingle : Location.isSingleLine ⟨location.start.clip lines, location.stop.clip lines⟩
      = location.isSingleLine := rfl
  have hindex : (location.start.clip lines).lineIndex = location.start.lineIndex := rfl
  rw [hsingle]
  simp only [hindex]
  split
  · next h =>
    rw [Bool.and_eq_true, beq_iff_eq] at h
    have hstop : location.stop.lineIndex = number := by
      have heq : location.start.line = location.stop.line := by
        simpa [Location.isSingleLine] using h.1
      rw [← h.2, Position.lineIndex, Position.lineIndex, heq]
    rw [hcolumn _ h.2, hcolumn _ hstop]
  · rfl

theorem renderLine_trimmed (r : Reporter) (hline : lines[number]? = some line) (o : Option Owner) :
    renderLine r number line (o.map (Owner.copy (Copy.trimmed lines).extent id))
      = renderLine r number line o := by
  rcases o with _ | ⟨s⟩ | ⟨clause⟩
  · rfl
  · cases s with
    | branch here condition thenBody elseIfs elseBody =>
      show renderCondition r number line (condition.copy (Copy.trimmed lines).extent id).here.location = _
      rw [Expr.copy_here]
      exact renderCondition_clip r hline condition.here.location
    | _ => rfl
  · rfl

theorem instrument_trimmed (r : Reporter) (source : Text) (program : List (Statement Extent)) :
    instrument r (classify (copyBody (Copy.trimmed (splitLines source)).extent id program)) source
      = instrument r (classify program) source := by
  have hlines : renderLines r
      (classify (copyBody (Copy.trimmed (splitLines source)).extent id program)) source
        = renderLines r (classify program) source := by
    unfold renderLines
    rw [List.mapIdx_eq_mapIdx_iff]
    intro number hnumber
    have howner : (classify (copyBody (Copy.trimmed (splitLines source)).extent id program)).get?
        number = ((classify program).get? number).map
          (Owner.copy (Copy.trimmed (splitLines source)).extent id) :=
      get?_classify_copyBody (g := id) (fun _ _ heq => heq) (fun _ _ => rfl) number
    rw [howner]
    exact renderLine_trimmed r (List.getElem?_eq_getElem hnumber) _
  simp only [instrument, hlines]

end Lines

/-- A text without carriage returns is accepted with any choice of line breaks or with none, and what
is written for its lines is the same. -/
theorem instrument_rebreak {source : Text} (h : '\r' ∉ source) (choices : List Bool) (r : Reporter) :
    ((∃ program, parse (rebreak choices source) = .ok program) ↔ ∃ program, parse source = .ok program) ∧
      ∀ program program', parse source = .ok program →
        parse (rebreak choices source) = .ok program' →
          instrument r (classify program') (rebreak choices source)
            = instrument r (classify program) source := by
  let trim := Copy.trimmed (splitLines source)
  have hcopy : ∀ text, parseTokens ((lex text).map trim.token) = trim.outcome (parse text) :=
    fun text => trim.parseTokens_copy rfl (by simp [trim, Copy.trimmed, Position.clip]) (lex text)
  have hparse : trim.outcome (parse (rebreak choices source)) = trim.outcome (parse source) := by
    rw [← hcopy, ← hcopy, lex_rebreak h]
  constructor
  · cases hp : parse source <;> cases hp' : parse (rebreak choices source) <;> rw [hp, hp'] at hparse
    · simp
    · cases hparse
    · cases hparse
    · simp
  · intro program program' hp hp'
    rw [hp, hp'] at hparse
    have hbody : copyBody trim.extent id program' = copyBody trim.extent id program :=
      Except.ok.inj hparse
    have hsource : instrument r (classify program') (rebreak choices source)
        = instrument r (classify program') source := by
      simp only [instrument, renderLines, splitLines_rebreak h]
    rw [hsource, ← instrument_trimmed r source program', ← instrument_trimmed r source program]
    exact congrArg (fun body => instrument r (classify body) source) hbody

theorem instrument_rebreak_directive :
    let source := "#const a = b\nreturn".toList
    let source' := "#const a = b\r\nreturn".toList
    let program : List (Statement Extent) :=
      [.directive ⟨⟨0, 12⟩, ⟨⟨1, 0⟩, ⟨1, 12⟩⟩⟩ "const" "a = b",
        .giveBack ⟨⟨13, 19⟩, ⟨⟨2, 0⟩, ⟨2, 6⟩⟩⟩ none]
    let program' : List (Statement Extent) :=
      [.directive ⟨⟨0, 13⟩, ⟨⟨1, 0⟩, ⟨1, 13⟩⟩⟩ "const" "a = b",
        .giveBack ⟨⟨14, 20⟩, ⟨⟨2, 0⟩, ⟨2, 6⟩⟩⟩ none]
    parse source = .ok program ∧ parse source' = .ok program' ∧
      instrument ⟨"RBS_CC", 0⟩ (classify program') source'
        = instrument ⟨"RBS_CC", 0⟩ (classify program) source := by
  intro source source' program program'
  have h : parse source = .ok program := rfl
  have h' : parse source' = .ok program' := rfl
  exact ⟨h, h', (instrument_rebreak (by decide) [true] _).2 program program' h h'⟩

end BrightCoverage
