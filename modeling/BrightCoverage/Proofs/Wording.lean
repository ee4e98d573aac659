import BrightCoverage.Proofs.Lexing
import BrightCoverage.Text.Quoted

/-! Which tokens a text is cut into, wherever they stand. An item is cut off in front of some rest if
no rule matches more; for symbols, string literals and numbers a look at the first character of the
rest is enough to know. -/

namespace BrightCoverage

theorem CharClass.contains_except {chars : List Char} {c : Char} :
    (CharClass.except chars).contains c = true ↔ c ∉ chars := by
  rw [← CharClass.contains_of]
  simp [contains, of, CharClass.except]

theorem Pattern.accepts_fail (u : List Char) : fail.accepts u = false := by
  induction u with
  | nil => rfl
  | cons c u ih => exact ih

namespace Rule

/-- The rules that can match a text with the first character. -/
def startingWith (c : Char) : List Rule :=
  all.filter fun rule => rule.pattern.deriv c ≠ .fail

theorem first?_cons (c : Char) (u : Text) :
    first? all (c :: u) = first? (startingWith c) (c :: u) := by
  unfold first? startingWith
  rw [List.find?_filter]
  congr 1
  funext rule
  by_cases hfail : rule.pattern.deriv c = .fail
  · simp [hfail, Pattern.accepts, Pattern.accepts_fail]
  · simp [hfail]

end Rule

/-- The item is cut off in front of the rest. -/
structure Item.Before (it : Item) (rest : Text) : Prop where
  ne_nil : it.text ≠ []
  first : ∃ rule, Rule.first? Rule.all it.text = some rule ∧ rule.kind = it.kind
  longest : ∀ v, v ≠ [] → v <+: rest → Rule.first? Rule.all (it.text ++ v) = none

theorem Item.Before.items_append {it : Item} {rest : Text} (h : it.Before rest) :
    items (it.text ++ rest) = it :: items rest := by
  obtain ⟨rule, hfirst, hkind⟩ := h.first
  have hlen : it.text.length ≤ (it.text ++ rest).length := by simp
  have hnext : nextItem (it.text ++ rest) = (it.kind, it.text.length) := by
    rcases nextItem_spec (it.text ++ rest) with ⟨rule', n, ⟨-, hn⟩, hfirst', hmax, hnext⟩ | ⟨hno, -⟩
    · rcases Nat.lt_trichotomy n it.text.length with hlt | rfl | hlt
      · have hnone := hmax _ hlt hlen
        rw [List.take_left, hfirst] at hnone
        cases hnone
      · rw [List.take_left, hfirst] at hfirst'
        rw [hnext, ← hkind, Option.some.inj hfirst']
      · have hv : rest.take (n - it.text.length) ≠ [] := by
          rw [List.length_append] at hn
          rw [ne_eq, List.take_eq_nil_iff, ← List.length_eq_zero_iff]
          omega
        rw [List.take_append, List.take_of_length_le (Nat.le_of_lt hlt),
          h.longest _ hv (List.take_prefix _ _)] at hfirst'
        cases hfirst'
    · have hnone := hno _ (List.length_pos_iff.2 h.ne_nil) hlen
      rw [List.take_left, hfirst] at hnone
      cases hnone
  rw [items_ne_nil (List.append_ne_nil_of_left_ne_nil h.ne_nil rest), hnext, List.take_left,
    List.drop_left]

/-- A text is cut off in front of a character with which no rule goes on. -/
theorem Item.before_of_dead {it : Item} {rule : Rule} {rest : Text} (hne : it.text ≠ [])
    (hfirst : Rule.first? Rule.all it.text = some rule) (hkind : rule.kind = it.kind)
    (hdead : ∀ c ∈ rest.head?, ∀ v, Rule.first? Rule.all (it.text ++ c :: v) = none) :
    it.Before rest := by
  refine ⟨hne, ⟨rule, hfirst, hkind⟩, fun v hv hprefix => ?_⟩
  cases v with
  | nil => exact absurd rfl hv
  | cons c v =>
    obtain ⟨w, rfl⟩ := hprefix
    exact hdead c rfl v

def wording (text : Text) : List (TokenKind × String) :=
  (items text).filterMap fun it => it.kind.map (·, String.ofList it.text)

theorem map_place (m : Mark) (its : List Item) :
    (place m its).map (fun t => (t.kind, t.text))
      = its.filterMap fun it => it.kind.map (·, String.ofList it.text) := by
  induction its generalizing m with
  | nil => rfl
  | cons it its ih =>
    obtain ⟨_ | kind, text⟩ := it
    · exact ih _
    · exact congrArg _ (ih _)

theorem map_lex (source : Text) :
    (lex source).map (fun t => (t.kind, t.text)) = wording source := by
  rw [lex_eq_place, map_place]
  rfl

theorem wording_nil : wording [] = [] := by
  rw [wording, items_nil]
  rfl

theorem wording_token {kind : TokenKind} {text rest : Text}
    (h : Item.Before ⟨some kind, text⟩ rest) :
    wording (text ++ rest) = (kind, String.ofList text) :: wording rest :=
  congrArg (List.filterMap _) h.items_append

theorem wording_skipped {text rest : Text} (h : Item.Before ⟨none, text⟩ rest) :
    wording (text ++ rest) = wording rest := by
  have hitems : items (text ++ rest) = ⟨none, text⟩ :: items rest := h.items_append
  rw [wording, hitems]
  rfl

/-! ### Symbols -/

def loneSymbols : List Symbol :=
  [.leftParen, .rightParen, .leftBrace, .rightBrace, .comma, .colon]

theorem wording_symbol {s : Symbol} (hs : s ∈ loneSymbols) (rest : Text) :
    wording (s.spelling.toList ++ rest) = (.symbol s, s.spelling) :: wording rest := by
  have hlone : ∀ s ∈ loneSymbols, ∃ c, s.spelling = String.singleton c ∧
      Rule.startingWith c = [⟨some (.symbol s), Pattern.literal s.spelling⟩] := by
    simp only [loneSymbols, List.forall_mem_cons]
    exact ⟨⟨'(', rfl, rfl⟩, ⟨')', rfl, rfl⟩, ⟨'\x7b', rfl, rfl⟩, ⟨'\x7d', rfl, rfl⟩, ⟨',', rfl, rfl⟩,
      ⟨':', rfl, rfl⟩, List.forall_mem_nil _⟩
  obtain ⟨c, hc, hrules⟩ := hlone s hs
  have hchars : s.spelling.toList = [c] := by rw [hc, String.toList_singleton]
  have hfirst : ∀ v, Rule.first? Rule.all (c :: v)
      = if v = [] then some ⟨some (.symbol s), Pattern.literal s.spelling⟩ else none := by
    intro v
    rw [Rule.first?_cons, hrules, Rule.first?, List.find?_singleton]
    simp only [Pattern.accepts_iff, Pattern.matches_literal, hchars, List.cons.injEq, true_and]
  have hbefore : Item.Before ⟨some (.symbol s), s.spelling.toList⟩ rest := by
    rw [hchars]
    exact Item.before_of_dead (List.cons_ne_nil _ _) (hfirst []) rfl fun d _ v => hfirst (d :: v)
  rw [wording_token hbefore, String.ofList_toList]

/-! ### String literals -/

namespace Rule

def inside : Pattern :=
  .star (.alt (.one (CharClass.except ['"', '\n'])) (Pattern.literal "\"\""))

theorem startingWith_quote : startingWith '"'
    = [⟨some .string, .seq openQuote (Pattern.literal "\"")⟩, ⟨some .openString, openQuote⟩] :=
  rfl

theorem deriv_inside {c : Char} (h : c ≠ '"') (h' : c ≠ '\n') : inside.deriv c = inside := by
  have hchar : (CharClass.except ['"', '\n']).contains c = true := by
    rw [CharClass.contains_except]
    simp [h, h']
  have hquote : (CharClass.of ['"']).contains c = false := by
    rw [Bool.eq_false_iff, ne_eq, CharClass.contains_of]
    simpa using h
  show Pattern.andThen (Pattern.orElse
    (if (CharClass.except ['"', '\n']).contains c then Pattern.empty else Pattern.fail)
    (Pattern.andThen (if (CharClass.of ['"']).contains c then Pattern.empty else Pattern.fail) _))
      inside = inside
  rw [hchar, hquote]
  rfl

theorem accepts_doubleQuotes {p : Pattern} (hquotes : (p.deriv '"').deriv '"' = p)
    (hchars : ∀ c, c ≠ '"' → c ≠ '\n' → p.deriv c = p) {w : Text} (hw : '\n' ∉ w) (x : Text) :
    p.accepts (doubleQuotes w ++ x) = p.accepts x := by
  induction w with
  | nil => rfl
  | cons c w ih =>
    obtain ⟨hc, hw⟩ := not_or.1 (mt List.mem_cons.2 hw)
    rw [doubleQuotes]
    split
    · rw [List.cons_append, List.cons_append, Pattern.accepts, Pattern.accepts, hquotes, ih hw]
    · next hne => rw [List.cons_append, Pattern.accepts, hchars c hne (Ne.symm hc), ih hw]

theorem accepts_string {w : Text} (hw : '\n' ∉ w) (x : Text) :
    (Pattern.seq openQuote (Pattern.literal "\"")).accepts ('"' :: doubleQuotes w ++ x)
      = (Pattern.seq inside (Pattern.literal "\"")).accepts x := by
  refine accepts_doubleQuotes (p := .seq inside (Pattern.literal "\"")) rfl (fun c h h' => ?_) hw x
  have hquote : (CharClass.of ['"']).contains c = false := by
    rw [Bool.eq_false_iff, ne_eq, CharClass.contains_of]
    simpa using h
  show Pattern.orElse (Pattern.andThen (inside.deriv c) (Pattern.literal "\""))
    (Pattern.andThen (if (CharClass.of ['"']).contains c then Pattern.empty else Pattern.fail) _) = _
  rw [deriv_inside h h', hquote]
  rfl

theorem accepts_openQuote {w : Text} (hw : '\n' ∉ w) (x : Text) :
    openQuote.accepts ('"' :: doubleQuotes w ++ x) = inside.accepts x :=
  accepts_doubleQuotes (p := inside) rfl (fun _ => deriv_inside) hw x

end Rule

theorem Rule.first?_quote_append {w : Text} (hw : '\n' ∉ w) (v : Text) :
    first? all (quote w ++ v)
      = if (Pattern.seq inside (Pattern.literal "\"")).accepts ('"' :: v) then
          some ⟨some .string, .seq openQuote (Pattern.literal "\"")⟩
        else if inside.accepts ('"' :: v) then some ⟨some .openString, openQuote⟩
        else none := by
  have htext : quote w ++ v = '"' :: doubleQuotes w ++ '"' :: v := by simp [quote]
  rw [htext, List.cons_append, first?_cons, startingWith_quote, first?, ← List.cons_append,
    List.find?_cons, List.find?_singleton, accepts_string hw, accepts_openQuote hw]
  cases (Pattern.seq inside (Pattern.literal "\"")).accepts ('"' :: v) <;> rfl

theorem Rule.first?_quote {w : Text} (hw : '\n' ∉ w) :
    first? all (quote w) = some ⟨some .string, .seq openQuote (Pattern.literal "\"")⟩ := by
  have h := first?_quote_append hw []
  rwa [List.append_nil] at h

theorem Rule.first?_quote_dead {w : Text} {c : Char} (hw : '\n' ∉ w) (hc : c ≠ '"') (v : Text) :
    first? all (quote w ++ c :: v) = none := by
  have hne : (CharClass.of ['"']).contains c = false := by
    rw [Bool.eq_false_iff, ne_eq, CharClass.contains_of, List.mem_singleton]
    exact hc
  have hopen : (inside.deriv '"').deriv c = .fail := by
    show Pattern.andThen (Pattern.andThen
      (if (CharClass.of ['"']).contains c then Pattern.empty else Pattern.fail) _) _ = _
    rw [hne]
    rfl
  have hclosed : ((Pattern.seq inside (Pattern.literal "\"")).deriv '"').deriv c = .fail := by
    show Pattern.orElse (Pattern.andThen (Pattern.andThen (Pattern.andThen
      (if (CharClass.of ['"']).contains c then Pattern.empty else Pattern.fail) _) _) _) _ = _
    rw [hne]
    rfl
  rw [first?_quote_append hw, Pattern.accepts, Pattern.accepts, hclosed, Pattern.accepts,
    Pattern.accepts, hopen]
  simp [Pattern.accepts_fail]

theorem Item.before_string {w rest : Text} (hw : '\n' ∉ w) (hrest : rest.head? ≠ some '"') :
    Item.Before ⟨some .string, quote w⟩ rest := by
  refine Item.before_of_dead (by simp [quote]) (Rule.first?_quote hw) rfl
    fun c hc v => Rule.first?_quote_dead hw ?_ v
  rintro rfl
  exact hrest hc

theorem wording_string {w rest : Text} (hw : '\n' ∉ w) (hrest : rest.head? ≠ some '"') :
    wording (quote w ++ rest) = (.string, String.ofList (quote w)) :: wording rest :=
  wording_token (Item.before_string hw hrest)

/-! ### Numbers -/

theorem Pattern.matches_star_one {k : CharClass} {u : List Char} :
    (star (one k)).Matches u ↔ ∀ c ∈ u, k.contains c = true := by
  induction u with
  | nil => simpa using Matches.nil
  | cons c u ih =>
    rw [← matches_deriv, List.forall_mem_cons, ← ih]
    show (andThen (if k.contains c then empty else fail) (star (one k))).Matches u ↔ _
    by_cases hc : k.contains c = true
    · simp [hc, andThen]
    · simp [hc, andThen, not_matches_fail]

def IsDecimal (u : Text) : Prop :=
  u ≠ [] ∧ ∀ c ∈ u, ∃ d < 10, c = Nat.digitChar d

theorem toString_toList (n : Nat) : (toString n).toList = Nat.toDigits 10 n := by
  rw [Nat.toString_eq_ofList_toDigits, String.toList_ofList]

theorem isDecimal_toDigits (n : Nat) : IsDecimal (Nat.toDigits 10 n) := by
  induction n using Nat.strongRecOn with
  | _ n ih =>
    rcases Nat.lt_or_ge n 10 with h | h
    · rw [Nat.toDigits_of_lt_base h]
      exact ⟨List.cons_ne_nil _ _, by simpa using ⟨n, h, rfl⟩⟩
    · rw [Nat.toDigits_of_base_le (by decide) h]
      refine ⟨List.append_ne_nil_of_right_ne_nil _ (List.cons_ne_nil _ _), fun c hc => ?_⟩
      rcases List.mem_append.1 hc with hc | hc
      · exact (ih (n / 10) (by omega)).2 c hc
      · exact ⟨n % 10, Nat.mod_lt _ (by decide), List.mem_singleton.1 hc⟩

namespace Rule

theorem startingWith_digit : ∀ d < 10,
    startingWith (Nat.digitChar d) = [⟨some .integer, integer⟩, ⟨some .float, float⟩] := by
  simp only [Nat.forall_lt_succ_right, Nat.not_lt_zero, false_imp_iff, implies_true, true_and]
  exact ⟨⟨⟨⟨⟨⟨⟨⟨⟨rfl, rfl⟩, rfl⟩, rfl⟩, rfl⟩, rfl⟩, rfl⟩, rfl⟩, rfl⟩, rfl⟩

theorem matches_digits {u : Text} (h : IsDecimal u) : digits.Matches u := by
  have hdigit : ∀ d < 10, digit.contains (Nat.digitChar d) = true := by decide
  obtain ⟨hne, h⟩ := h
  cases u with
  | nil => exact absurd rfl hne
  | cons c u =>
    have hall : ∀ x ∈ c :: u, digit.contains x = true := fun x hx => by
      obtain ⟨d, hd, rfl⟩ := h x hx
      exact hdigit d hd
    obtain ⟨hc, hu⟩ := List.forall_mem_cons.1 hall
    exact Pattern.matches_seq.2 ⟨[c], u, rfl, Pattern.matches_one.2 ⟨c, rfl, hc⟩,
      Pattern.matches_star_one.2 hu⟩

end Rule

theorem wording_integer {u rest : Text} (hu : IsDecimal u)
    (hrest : ∀ c ∈ rest.head?, Rule.integer.avoids c = true ∧ Rule.float.avoids c = true) :
    wording (u ++ rest) = (.integer, String.ofList u) :: wording rest := by
  have hrules : ∀ v, Rule.first? Rule.all (u ++ v)
      = Rule.first? [⟨some .integer, Rule.integer⟩, ⟨some .float, Rule.float⟩] (u ++ v) := by
    intro v
    cases u with
    | nil => exact absurd rfl hu.1
    | cons c u =>
      obtain ⟨d, hd, rfl⟩ := hu.2 c List.mem_cons_self
      rw [List.cons_append, Rule.first?_cons, Rule.startingWith_digit d hd]
  have hinteger : Rule.integer.accepts u = true := by
    refine Pattern.accepts_iff.2 (Pattern.matches_seq.2 ⟨u, [], (List.append_nil u).symm, ?_, ?_⟩)
    · exact Rule.matches_digits hu
    · exact .right .empty
  have hfirst : Rule.first? Rule.all u = some ⟨some .integer, Rule.integer⟩ := by
    have h := hrules []
    rw [List.append_nil] at h
    rw [h, Rule.first?, List.find?_cons, hinteger]
  refine wording_token (Item.before_of_dead hu.1 hfirst rfl fun c hc v => ?_)
  obtain ⟨hint, hfloat⟩ := hrest c hc
  have hmem : c ∈ u ++ c :: v := List.mem_append_right _ List.mem_cons_self
  rw [hrules, Rule.first?_eq_none]
  simp only [List.forall_mem_cons, List.not_mem_nil, false_imp_iff, implies_true, and_true]
  exact ⟨fun h => Pattern.notMem_of_avoids hint h hmem, fun h => Pattern.notMem_of_avoids hfloat h hmem⟩

end BrightCoverage
