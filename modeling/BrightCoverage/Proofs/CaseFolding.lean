import BrightCoverage.Proofs.MirroredFiles

/-! Case does not matter. A text in lower case has the tokens of the original, with their texts in
lower case, and the parsers take these for a copy: the same trees, with names and strings in lower
case, or the same errors. So two texts that differ only in the case of letters come to the same. -/

namespace BrightCoverage

open Directive (lower)

variable {β : Type}

/-! ### Characters and patterns -/

def capitals : List Char :=
  "ABCDEFGHIJKLMNOPQRSTUVWXYZ".toList

theorem toLower_eq_or_mem (c : Char) : c.toLower = c ∨ c ∈ capitals := by
  unfold Char.toLower
  split
  · next h =>
    right
    have hrange : c.toNat ∈ capitals.map Char.toNat := by
      rw [show capitals.map Char.toNat = List.range' 65 26 by decide, List.mem_range'_1]
      have hle : 65 ≤ c.toNat ∧ c.toNat ≤ 90 := by simpa [UInt32.le_iff_toNat_le] using h
      omega
    obtain ⟨d, hd, heq⟩ := List.mem_map.1 hrange
    rwa [← Char.toNat_inj.1 heq]
  · exact .inl rfl

/-- What is the same for every capital and its lower case does not see the case of letters. -/
theorem apply_toLower [DecidableEq β] {f : Char → β} (h : capitals.all fun c => f c.toLower = f c)
    (c : Char) : f c.toLower = f c := by
  rcases toLower_eq_or_mem c with hc | hc
  · rw [hc]
  · exact List.all_iff_forall_prop.1 h c hc

theorem toLower_toLower (c : Char) : c.toLower.toLower = c.toLower :=
  apply_toLower (f := Char.toLower) (by decide) c

theorem utf8Size_toLower (c : Char) : c.toLower.utf8Size = c.utf8Size :=
  apply_toLower (by decide) c

theorem toLower_eq_iff {d : Char} (hd : capitals.all fun c => c.toLower ≠ d ∧ c ≠ d) (c : Char) :
    c.toLower = d ↔ c = d := by
  rcases toLower_eq_or_mem c with hc | hc
  · rw [hc]
  · obtain ⟨hlower, hne⟩ := List.all_iff_forall_prop.1 hd c hc
    exact iff_of_false hlower hne

def CharClass.isCaseless (k : CharClass) : Bool :=
  capitals.all fun c => k.contains c.toLower == k.contains c

theorem CharClass.contains_toLower {k : CharClass} (h : k.isCaseless = true) (c : Char) :
    k.contains c.toLower = k.contains c :=
  apply_toLower (by simpa [isCaseless] using h) c

namespace Pattern

/-- Every class of characters in the pattern has both cases of its letters. -/
def Caseless (p : Pattern) : Prop :=
  ∀ k ∈ p.charClasses, k.isCaseless = true

instance (p : Pattern) : Decidable p.Caseless :=
  inferInstanceAs (Decidable (∀ k ∈ p.charClasses, k.isCaseless = true))

variable {p : Pattern}

theorem Caseless.deriv (h : p.Caseless) (c : Char) : (p.deriv c).Caseless :=
  fun k hk => h k (mem_charClasses_deriv hk)

theorem Caseless.deriv_toLower (h : p.Caseless) (c : Char) : p.deriv c.toLower = p.deriv c := by
  induction p with
  | fail | empty => rfl
  | one k => rw [Pattern.deriv, Pattern.deriv, CharClass.contains_toLower (h k List.mem_cons_self)]
  | seq p q hp hq | alt p q hp hq =>
    obtain ⟨h, h'⟩ := List.forall_mem_append.1 h
    rw [Pattern.deriv, Pattern.deriv, hp h, hq h']
  | star p hp => rw [Pattern.deriv, Pattern.deriv, hp h]

theorem Caseless.longest_lower (h : p.Caseless) (text : Text) :
    p.longest (lower text) = p.longest text := by
  induction text generalizing p with
  | nil => rfl
  | cons c rest ih =>
    show p.longest (c.toLower :: lower rest) = _
    rw [longest_cons, longest_cons, h.deriv_toLower, ih (h.deriv c)]

end Pattern

theorem CharClass.isCaseless_of {c : Char} (h : c.isAlpha = false) :
    (CharClass.of [c]).isCaseless = true := by
  have hletters : ∀ d ∈ capitals, d.toLower.isAlpha = true ∧ d.isAlpha = true :=
    List.all_iff_forall_prop.1 (by decide)
  have hcontains : ∀ d, d.isAlpha = true → (CharClass.of [c]).contains d = false := by
    intro d hd
    rw [Bool.eq_false_iff, ne_eq, CharClass.contains_of, List.mem_singleton]
    rintro rfl
    rw [h] at hd
    cases hd
  rw [isCaseless, List.all_eq_true]
  intro d hd
  rw [hcontains d (hletters d hd).2, hcontains d.toLower (hletters d hd).1]
  rfl

namespace Pattern

theorem charClasses_all (f : Char → CharClass) (chars : List Char) :
    (Pattern.all (chars.map fun c => one (f c))).charClasses = chars.map f := by
  induction chars with
  | nil => rfl
  | cons c chars ih => exact congrArg (f c :: ·) ih

theorem caseless_literal {text : String} (h : text.toList.all fun c => c.isAlpha = false) :
    (literal text).Caseless := by
  unfold Caseless literal
  rw [charClasses_all fun c => CharClass.of [c], List.forall_mem_map]
  exact fun c hc => CharClass.isCaseless_of (List.all_iff_forall_prop.1 h c hc)

theorem caseless_caseless {text : String}
    (h : text.toList.all fun c => c ∈ capitals.map Char.toLower) :
    (caseless text).Caseless := by
  have hletters : ∀ c ∈ capitals.map Char.toLower, (CharClass.caseless c).isCaseless = true :=
    List.all_eq_true.1 (by decide +kernel)
  unfold Caseless caseless
  rw [charClasses_all CharClass.caseless, List.forall_mem_map]
  exact fun c hc => hletters c (List.all_iff_forall_prop.1 h c hc)

end Pattern

theorem Rule.caseless_pattern : ∀ rule ∈ Rule.all, rule.pattern.Caseless := by
  intro rule hrule
  simp only [Rule.all, List.mem_append] at hrule
  rcases hrule with ((hrule | hrule) | hrule) | hrule
  · revert rule
    decide +kernel
  · obtain ⟨k, -, rfl⟩ := List.mem_map.1 hrule
    refine Pattern.caseless_caseless ?_
    cases k <;> decide
  · obtain ⟨s, -, rfl⟩ := List.mem_map.1 hrule
    refine Pattern.caseless_literal ?_
    cases s <;> decide
  · revert rule
    decide +kernel

/-! ### Tokens -/

theorem unknownLength_lower (text : Text) : unknownLength (lower text) = unknownLength text := by
  have hblank : (fun c => Rule.blank.contains c) ∘ Char.toLower = Rule.blank.contains :=
    funext (CharClass.contains_toLower (by decide))
  cases text with
  | nil => rfl
  | cons c rest =>
    show unknownLength (c.toLower :: lower rest) = _
    by_cases hc : c = '#'
    · rw [hc]
      show 1 + ((lower rest).takeWhile Rule.blank.contains).length = _
      rw [lower, List.takeWhile_map, List.length_map, hblank]
      rfl
    · have hc' := mt (toLower_eq_iff (by decide) c).1 hc
      simp [unknownLength, hc, hc']

theorem nextItem_lower (text : Text) : nextItem (lower text) = nextItem text := by
  have hmatch : longestMatch (lower text) Rule.all = longestMatch text Rule.all :=
    longestMatch_congr fun rule hrule => (Rule.caseless_pattern rule hrule).longest_lower text
  simp only [nextItem, hmatch, unknownLength_lower]

theorem Mark.advance_lower (m : Mark) (text : Text) : m.advance (lower text) = m.advance text := by
  unfold Mark.advance lower
  rw [List.foldl_map]
  congr 1
  funext m c
  have hbreak : c.toLower = '\n' ↔ c = '\n' := toLower_eq_iff (by decide) c
  simp only [Mark.next, hbreak, utf8Size_toLower]

def lowerCase (s : String) : String :=
  String.ofList (lower s.toList)

@[simp] theorem toList_lowerCase (s : String) : (lowerCase s).toList = lower s.toList := by
  simp [lowerCase]

/-! ### What tokens say -/

section Reading

variable {p : Char → Bool} {text : Text}

theorem takeWhile_lower (h : capitals.all fun c => p c.toLower = p c) :
    (lower text).takeWhile p = lower (text.takeWhile p) := by
  rw [lower, List.takeWhile_map, show p ∘ Char.toLower = p from funext (apply_toLower h)]
  rfl

theorem dropWhile_lower (h : capitals.all fun c => p c.toLower = p c) :
    (lower text).dropWhile p = lower (text.dropWhile p) := by
  rw [lower, List.dropWhile_map, show p ∘ Char.toLower = p from funext (apply_toLower h)]
  rfl

theorem filter_lower (h : capitals.all fun c => p c.toLower = p c) :
    (lower text).filter p = lower (text.filter p) := by
  rw [lower, List.filter_map, show p ∘ Char.toLower = p from funext (apply_toLower h)]
  rfl

theorem isWord_lowerCase (kind : TokenKind) (s : String) (here : Extent) :
    Token.isWord ⟨kind, lowerCase s, here⟩ = Token.isWord ⟨kind, s, here⟩ := by
  have hstart := apply_toLower (f := Token.isWordStart) (by decide)
  have hpart := apply_toLower (f := Token.isWordPart) (by decide)
  unfold Token.isWord
  rw [toList_lowerCase]
  cases s.toList with
  | nil => rfl
  | cons c rest =>
    show (Token.isWordStart c.toLower && Token.isWordPart c.toLower
      && (rest.map Char.toLower).all Token.isWordPart) = _
    rw [hstart, hpart, List.all_map, show Token.isWordPart ∘ Char.toLower = _ from funext hpart]

theorem ofDigits_lower (base : Nat) (digits : Text) :
    ofDigits base (lower digits) = ofDigits base digits := by
  unfold ofDigits lower
  rw [List.foldl_map]
  congr 1
  funext n c
  rw [apply_toLower (f := digitValue) (by decide)]

theorem integerValue_lower (base : Nat) (digits : Text) :
    integerValue base (lower digits) = integerValue base digits := by
  rw [integerValue, filter_lower (by decide), ofDigits_lower, integerValue]

def fractionPart : Text → Text × Text
  | '.' :: rest => (rest.takeWhile Char.isDigit, rest.dropWhile Char.isDigit)
  | rest => ([], rest)

def exponentValue : Text → Int
  | _ :: '-' :: digits => -(ofDigits 10 digits : Int)
  | _ :: '+' :: digits => ofDigits 10 digits
  | _ :: digits => ofDigits 10 digits
  | [] => 0

theorem readDouble_eq (text : Text) :
    readDouble text = doubleBits
      (ofDigits 10 (text.takeWhile Char.isDigit
        ++ (fractionPart (text.dropWhile Char.isDigit)).1))
      (exponentValue (fractionPart (text.dropWhile Char.isDigit)).2
        - (fractionPart (text.dropWhile Char.isDigit)).1.length) := by
  unfold readDouble
  generalize text.dropWhile Char.isDigit = rest
  rcases rest with _ | ⟨c, rest⟩
  · rfl
  · by_cases hc : c = '.'
    · subst hc
      rfl
    · have hpart : fractionPart (c :: rest) = ([], c :: rest) := by simp [fractionPart, hc]
      rw [hpart]
      dsimp only
      split
      · next hdot => exact absurd (List.cons.inj hdot).1 hc
      · rfl

theorem fractionPart_lower (text : Text) : fractionPart (lower text)
    = (lower (fractionPart text).1, lower (fractionPart text).2) := by
  have hpoint : ∀ c : Char, c.toLower = '.' ↔ c = '.' := toLower_eq_iff (by decide)
  have hdigit : capitals.all fun c => c.toLower.isDigit = c.isDigit := by decide
  rcases text with _ | ⟨c, rest⟩
  · rfl
  · by_cases hc : c = '.'
    · subst hc
      show ((lower rest).takeWhile Char.isDigit, (lower rest).dropWhile Char.isDigit) = _
      rw [takeWhile_lower hdigit, dropWhile_lower hdigit]
      rfl
    · simp [fractionPart, lower, hc, mt (hpoint c).1 hc]

theorem exponentValue_lower (text : Text) : exponentValue (lower text) = exponentValue text := by
  have hminus : ∀ c : Char, c.toLower = '-' ↔ c = '-' := toLower_eq_iff (by decide)
  have hplus : ∀ c : Char, c.toLower = '+' ↔ c = '+' := toLower_eq_iff (by decide)
  rcases text with _ | ⟨e, _ | ⟨c, digits⟩⟩
  · rfl
  · rfl
  · have hdigits := ofDigits_lower 10 digits
    have hall := ofDigits_lower 10 (c :: digits)
    by_cases hm : c = '-'
    · subst hm
      exact congrArg (fun n : Nat => -(n : Int)) hdigits
    · by_cases hp : c = '+'
      · subst hp
        exact congrArg Int.ofNat hdigits
      · simp only [lower, List.map_cons] at hall
        simp [exponentValue, lower, hm, hp, mt (hminus c).1 hm, mt (hplus c).1 hp, hall]

theorem readDouble_lower (text : Text) : readDouble (lower text) = readDouble text := by
  have hdigit : capitals.all fun c => c.toLower.isDigit = c.isDigit := by decide
  have happend : ∀ x y : Text, lower x ++ lower y = lower (x ++ y) :=
    fun x y => List.map_append.symm
  simp only [readDouble_eq, takeWhile_lower hdigit, dropWhile_lower hdigit, fractionPart_lower,
    exponentValue_lower, happend, ofDigits_lower]
  simp only [lower, List.length_map]

theorem floatBits_lower (text : Text) : floatBits (lower text) = floatBits text := by
  rw [floatBits, filter_lower (by decide), readDouble_lower, floatBits]

theorem undoubleQuotes_lower (text : Text) :
    undoubleQuotes (lower text) = lower (undoubleQuotes text) := by
  have hquote : ∀ c : Char, c.toLower = '"' ↔ c = '"' := toLower_eq_iff (by decide)
  fun_induction undoubleQuotes text with
  | case1 rest ih => exact congrArg ('"' :: ·) ih
  | case2 c rest hne ih =>
    show undoubleQuotes (c.toLower :: lower rest) = c.toLower :: lower (undoubleQuotes rest)
    rw [← ih, undoubleQuotes]
    intro rest' hc hrest
    cases rest with
    | nil => cases hrest
    | cons d rest =>
      exact hne rest ((hquote c).1 hc) (by rw [(hquote d).1 (List.cons.inj hrest).1])
  | case3 => rfl

theorem unquote_lower (text : Text) : unquote (lower text) = lower (unquote text) := by
  have hquote : ∀ c : Char, c.toLower = '"' ↔ c = '"' := toLower_eq_iff (by decide)
  have hbetween : betweenQuotes (lower text) = lower (betweenQuotes text) := by
    rcases text with _ | ⟨c, rest⟩
    · rfl
    · by_cases hc : c = '"'
      · subst hc
        have hlast : (lower rest).getLast? = some '"' ↔ rest.getLast? = some '"' := by
          simp [lower, List.getLast?_map, hquote]
        show (if (lower rest).getLast? = some '"' then (lower rest).dropLast else _) =
          lower (if rest.getLast? = some '"' then rest.dropLast else _)
        simp only [hlast]
        split
        · exact (List.map_dropLast ..).symm
        · rfl
      · have hc' := mt (hquote c).1 hc
        simp [betweenQuotes, lower, hc, hc']
  rw [unquote, hbetween, undoubleQuotes_lower, unquote]

theorem reverse_lower (text : Text) : (lower text).reverse = lower text.reverse :=
  List.map_reverse.symm

theorem trim_lower (text : Text) : trim (lower text) = lower (trim text) := by
  have hblank : capitals.all fun c => isBlank c.toLower = isBlank c := by decide
  unfold trim trimRight trimLeft
  rw [dropWhile_lower hblank, reverse_lower, dropWhile_lower hblank, reverse_lower]

theorem lower_lower (text : Text) : lower (lower text) = lower text := by
  rw [lower, lower, List.map_map]
  exact List.map_congr_left fun c _ => toLower_toLower c

theorem afterIf_lower (text : Text) :
    Directive.afterIf (lower text) = (Directive.afterIf text).map lower := by
  have hblank : capitals.all fun c => isBlank c.toLower = isBlank c := by decide
  have hword : ∀ c : Char, (!c.toLower.isAlphanum && decide (c.toLower ≠ '_'))
      = (!c.isAlphanum && decide (c ≠ '_')) :=
    apply_toLower (f := fun c => !c.isAlphanum && decide (c ≠ '_')) (by decide)
  unfold Directive.afterIf trimLeft
  rw [dropWhile_lower hblank]
  rcases text.dropWhile isBlank with _ | ⟨i, _ | ⟨f, _ | ⟨c, rest⟩⟩⟩
  · rfl
  · rfl
  · simp only [lower, List.map_cons, List.map_nil, toLower_toLower]
    split <;> rfl
  · simp only [lower, List.map_cons, List.map_nil, toLower_toLower, hword]
    split <;> rfl

theorem ofLine_lower (s : String) :
    (Directive.ofLine s.toList).IsCopy lowerCase (Directive.ofLine (lowerCase s).toList) := by
  have hblank : capitals.all fun c => isBlank c.toLower = isBlank c := by decide
  have halpha : capitals.all fun c => c.toLower.isAlpha = c.isAlpha := by decide
  rw [toList_lowerCase]
  simp only [Directive.ofLine, trimLeft, dropWhile_lower (p := fun c => decide (c = '#')) (by decide),
    dropWhile_lower hblank, takeWhile_lower halpha, dropWhile_lower halpha, lower_lower,
    afterIf_lower]
  generalize ((s.toList.dropWhile fun c => decide (c = '#')).dropWhile isBlank) = body
  generalize body.takeWhile Char.isAlpha = name
  generalize body.dropWhile Char.isAlpha = rest
  have hlower : ∀ x : Text, String.ofList (lower x) = lowerCase (String.ofList x) := fun x => by
    simp [lowerCase]
  have hcopy : ∀ kind args, Directive.IsCopy lowerCase ⟨kind, name, trim args⟩
      ⟨kind, lower name, trim (lower args)⟩ := fun kind args =>
    ⟨rfl, hlower name, by rw [lower_lower, ← hlower, lower_lower], by rw [trim_lower, hlower]⟩
  cases Directive.afterIf rest with
  | none =>
    rw [Option.map_none]
    split
    · next hsome => cases hsome
    · next hsome => cases hsome
    · exact hcopy _ rest
  | some args =>
    rw [Option.map_some]
    by_cases helse : String.ofList (lower name) = "else"
    · rw [helse]
      exact hcopy _ args
    · by_cases hend : String.ofList (lower name) = "end"
      · rw [hend]
        exact hcopy _ args
      · split
        · next heq _ => exact absurd heq helse
        · next heq _ => exact absurd heq hend
        · split
          · next heq _ => exact absurd heq helse
          · next heq _ => exact absurd heq hend
          · exact hcopy _ rest

end Reading

/-! ### Texts that differ in case -/

/-- Writes everything in lower case and keeps all places. -/
def caseFold : Copy where
  offset := id
  position := id
  text := fun _ => lowerCase
  name := lowerCase
  offset_mono := monotone_id
  text_identifier _ := rfl
  text_keyword _ _ := rfl
  isWord_text := isWord_lowerCase
  text_word _ _ _ _ := rfl
  integerValue_text s := by rw [toList_lowerCase, integerValue_lower]
  hexValue_text s := by
    rw [toList_lowerCase, lower, ← List.map_drop, ← lower, integerValue_lower]
  floatBits_text s := by rw [toList_lowerCase, floatBits_lower]
  unquoteText_text s := by
    simp only [unquoteText, unquote_lower, lowerCase, String.toList_ofList]
  ofLine_text := ofLine_lower

theorem scan_lower (steps : Nat) (mark : Mark) (text : Text) :
    scan steps mark (lower text) = (scan steps mark text).map caseFold.token := by
  induction steps generalizing mark text with
  | zero => cases text <;> rfl
  | succ steps ih =>
    rcases text with _ | ⟨c, rest⟩
    · rfl
    · have hnext : nextItem (c.toLower :: lower rest) = nextItem (c :: rest) :=
        nextItem_lower (c :: rest)
      have htake (n : Nat) : (c.toLower :: lower rest).take n = lower ((c :: rest).take n) :=
        (List.map_take (l := c :: rest)).symm
      have hdrop (n : Nat) : (c.toLower :: lower rest).drop n = lower ((c :: rest).drop n) :=
        (List.map_drop (l := c :: rest)).symm
      show scan (steps + 1) mark (c.toLower :: lower rest) = _
      simp only [scan, hnext, htake, hdrop, Mark.advance_lower, ih]
      cases (nextItem (c :: rest)).1 with
      | none => rfl
      | some kind =>
        simp only [List.map_cons, List.cons.injEq, and_true]
        show _ = Token.mk kind (lowerCase _) _
        simp only [lowerCase, String.toList_ofList]
        rfl

theorem lex_lower (source : Text) : lex (lower source) = (lex source).map caseFold.token := by
  rw [lex, lower, List.length_map, ← lower, scan_lower, lex]

theorem parse_lower (source : Text) : parse (lower source) = caseFold.outcome (parse source) := by
  rw [parse, lex_lower, caseFold.parseTokens_copy rfl rfl, parse]

/-- What comes of two texts is the same up to the case of names and strings: the same trees with the
same owners of lines, or the same errors at the same places. -/
inductive Caseless : Except (List ParseError) (List (Statement Extent)) →
    Except (List ParseError) (List (Statement Extent)) → Prop
  | ok {program program' : List (Statement Extent)} :
    copyBody id lowerCase program = copyBody id lowerCase program' →
    (∀ n, ((classify program).get? n).map (Owner.copy id lowerCase)
      = ((classify program').get? n).map (Owner.copy id lowerCase)) →
    Caseless (.ok program) (.ok program')
  | error {errors errors' : List ParseError} :
    errors.map caseFold.error = errors'.map caseFold.error → Caseless (.error errors) (.error errors')

theorem get?_classify_lowerCase (program : List (Statement Extent)) (n : Nat) :
    ((classify program).get? n).map (Owner.copy id lowerCase)
      = (classify (copyBody id lowerCase program)).get? n :=
  (get?_classify_copyBody (g := id) (fun _ _ h => h) (fun _ _ => rfl) n).symm

/-- Two texts that differ only in the case of letters have tokens of the same kinds at the same
places, and what comes of them is the same up to case. -/
theorem parse_caseless {source source' : Text}
    (h : source.map Char.toLower = source'.map Char.toLower) :
    (lex source).map (fun t => (t.kind, t.extent)) = (lex source').map (fun t => (t.kind, t.extent)) ∧
      Caseless (parse source) (parse source') := by
  have hlex : (lex source).map caseFold.token = (lex source').map caseFold.token := by
    rw [← lex_lower, ← lex_lower, lower, h, lower]
  have hparse : caseFold.outcome (parse source) = caseFold.outcome (parse source') := by
    rw [← parse_lower, ← parse_lower, lower, h, lower]
  refine ⟨?_, ?_⟩
  · have hplaces := congrArg (List.map fun t : Token => (t.kind, t.extent)) hlex
    rwa [List.map_map, List.map_map] at hplaces
  · cases hp : parse source with
    | ok program =>
      cases hp' : parse source' with
      | error errors => rw [hp, hp'] at hparse; cases hparse
      | ok program' =>
        rw [hp, hp'] at hparse
        have htree : copyBody id lowerCase program = copyBody id lowerCase program' :=
          Except.ok.inj hparse
        refine .ok htree fun n => ?_
        rw [get?_classify_lowerCase, get?_classify_lowerCase, htree]
    | error errors =>
      cases hp' : parse source' with
      | ok program => rw [hp, hp'] at hparse; cases hparse
      | error errors' =>
        rw [hp, hp'] at hparse
        exact .error (Except.error.inj hparse)

theorem parse_caseless_branch :
    let source := "IF Ready THEN PRINT \"Up\", &hFf, 1E3 : #Const a = B".toList
    let source' := "if rEADY Then print \"uP\", &HfF, 1e3 : #cONST A = b".toList
    source.map Char.toLower = source'.map Char.toLower ∧
      (lex source).map (fun t => (t.kind, t.extent))
        = (lex source').map (fun t => (t.kind, t.extent)) ∧
      Caseless (parse source) (parse source') :=
  ⟨by decide, parse_caseless (by decide)⟩

end BrightCoverage
