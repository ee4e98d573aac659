import Mathlib.Algebra.Group.Nat.Defs
import BrightCoverage.Proofs.ClaimedTokens
import BrightCoverage.Proofs.LineTokens
import BrightCoverage.Proofs.Munching

/-! Integer literals. A numeral is decimal or hexadecimal digits as they are written, and its value
is the sum of its digits times the powers of the base. A literal token is a numeral; read as an
expression it is the integer of that value if 63 bits hold it, and an error at the token otherwise.
No integer in a tree comes from anything else. -/

namespace BrightCoverage

open BrightCoverage.Parser

def IsDigit (base : Nat) (c : Char) (d : Nat) : Prop :=
  d < base ∧ ("0123456789abcdef".toList[d]? = some c ∨ "0123456789ABCDEF".toList[d]? = some c)

/-- The place value of digits: each counts as often as the base to the number of digits behind it. -/
inductive Denotes (base : Nat) : List Char → Nat → Prop
  | nil : Denotes base [] 0
  | cons {c : Char} {digits : List Char} {d v : Nat} : IsDigit base c d → Denotes base digits v →
    Denotes base (c :: digits) (d * base ^ digits.length + v)

/-- An integer as it is written: digits, and an ampersand that may be left out. -/
inductive Numeral : TokenKind → Text → Nat → Prop
  | decimal {digits suffix : Text} {v : Nat} : digits ≠ [] → Denotes 10 digits v →
    suffix ∈ [[], ['&']] → Numeral .integer (digits ++ suffix) v
  | hexadecimal {h : Char} {digits suffix : Text} {v : Nat} : h ∈ ['h', 'H'] → digits ≠ [] →
    Denotes 16 digits v → suffix ∈ [[], ['&']] →
    Numeral .hexInteger ('&' :: h :: (digits ++ suffix)) v

/-! ### Values -/

section Values

variable {base d v : Nat} {c : Char} {digits suffix text : Text} {kind : TokenKind}

theorem digit_of_isDigit (hbase : base ≤ 16) (h : IsDigit base c d) : digitValue c = d ∧ c ≠ '&' := by
  obtain ⟨hd, h⟩ := h
  have hlower : ∀ d < 16, "0123456789abcdef".toList[d]?.all
      (fun c => digitValue c = d && c ≠ '&') = true := by decide
  have hupper : ∀ d < 16, "0123456789ABCDEF".toList[d]?.all
      (fun c => digitValue c = d && c ≠ '&') = true := by decide
  have hall : ∀ {o : Option Char}, o.all (fun c => digitValue c = d && c ≠ '&') = true → o = some c →
      digitValue c = d ∧ c ≠ '&' := by
    rintro _ h rfl
    simpa using h
  rcases h with h | h
  · exact hall (hlower d (by omega)) h
  · exact hall (hupper d (by omega)) h

theorem foldl_digits (hbase : base ≤ 16) (h : Denotes base digits v) (n : Nat) :
    digits.foldl (fun n c => n * base + digitValue c) n = n * base ^ digits.length + v := by
  induction h generalizing n with
  | nil => simp
  | @cons c digits d v hc _ ih =>
    rw [List.foldl_cons, ih, (digit_of_isDigit hbase hc).1, List.length_cons, Nat.pow_succ', Nat.add_mul,
      Nat.mul_assoc, Nat.add_assoc]

theorem notMem_digits (hbase : base ≤ 16) (h : Denotes base digits v) : '&' ∉ digits := by
  induction h with
  | nil => exact List.not_mem_nil
  | cons hc _ ih =>
    rw [List.mem_cons, not_or]
    exact ⟨(digit_of_isDigit hbase hc).2.symm, ih⟩

theorem integerValue_digits (hbase : base ≤ 16) (h : Denotes base digits v)
    (hsuffix : suffix ∈ [[], ['&']]) : integerValue base (digits ++ suffix) = v := by
  have hdigits : digits.filter (· ≠ '&') = digits := by
    rw [List.filter_eq_self]
    intro c hc
    exact decide_eq_true fun heq => notMem_digits hbase h (heq ▸ hc)
  have hnone : suffix.filter (· ≠ '&') = [] := by
    simp only [List.mem_cons, List.not_mem_nil, or_false] at hsuffix
    rcases hsuffix with rfl | rfl <;> decide
  rw [integerValue, List.filter_append, hdigits, hnone, List.append_nil, ofDigits, foldl_digits hbase h,
    Nat.zero_mul, Nat.zero_add]

/-- What is written behind the prefix of a hexadecimal number, and the base. -/
def Numeral.reading : TokenKind → Text → Nat
  | .hexInteger, text => integerValue 16 (text.drop 2)
  | _, text => integerValue 10 text

theorem Numeral.eq_reading (h : Numeral kind text v) : v = reading kind text := by
  cases h with
  | decimal _ hdigits hsuffix => exact (integerValue_digits (by omega) hdigits hsuffix).symm
  | hexadecimal _ _ hdigits hsuffix => exact (integerValue_digits (by omega) hdigits hsuffix).symm

theorem Numeral.kind_eq (h : Numeral kind text v) : kind = .integer ∨ kind = .hexInteger := by
  cases h with
  | decimal => exact .inl rfl
  | hexadecimal => exact .inr rfl

end Values

/-! ### Tokens -/

section Tokens

variable {c : Char} {u : Text} {source : Text} {t : Token}

instance (base : Nat) (c : Char) (d : Nat) : Decidable (IsDigit base c d) :=
  inferInstanceAs (Decidable (_ ∧ _))

theorem exists_isDigit {base : Nat} {k : CharClass} (hk : (k, base) ∈ [(Rule.digit, 10), (Rule.hexDigit, 16)])
    (h : k.contains c = true) : ∃ d, IsDigit base c d := by
  have hsmall : c.toNat < 128 := by
    have hranges : ∀ p ∈ [(Rule.digit, 10), (Rule.hexDigit, 16)], p.1.negated = false ∧
        ∀ r ∈ p.1.ranges, r.2.toNat < 128 := by decide
    obtain ⟨hneg, hranges⟩ : k.negated = false ∧ ∀ r ∈ k.ranges, r.2.toNat < 128 := hranges _ hk
    simp only [CharClass.contains, hneg, Bool.bne_false, List.any_eq_true, Bool.and_eq_true,
      decide_eq_true_eq, Prod.exists] at h
    obtain ⟨low, high, hmem, -, hle⟩ := h
    exact Nat.lt_of_le_of_lt (UInt32.le_iff_toNat_le.1 hle) (hranges _ hmem)
  have htable : ∀ n < 128, ∀ p ∈ [(Rule.digit, 10), (Rule.hexDigit, 16)],
      p.1.contains (Char.ofNat n) = true → ∃ d < p.2, IsDigit p.2 (Char.ofNat n) d := by
    decide +kernel
  have hdigit := htable c.toNat hsmall _ hk
  rw [Char.ofNat_toNat] at hdigit
  obtain ⟨d, -, hd⟩ := hdigit h
  exact ⟨d, hd⟩

theorem exists_denotes {base : Nat} {k : CharClass} (hk : (k, base) ∈ [(Rule.digit, 10), (Rule.hexDigit, 16)])
    (hu : (Pattern.plus (.one k)).Matches u) : u ≠ [] ∧ ∃ v, Denotes base u v := by
  obtain ⟨w, z, rfl, hw, hz⟩ := Pattern.matches_seq.1 hu
  obtain ⟨c, rfl, hc⟩ := Pattern.matches_one.1 hw
  have hall : ∀ d ∈ c :: z, k.contains d = true :=
    List.forall_mem_cons.2 ⟨hc, Pattern.matches_star_one.1 hz⟩
  refine ⟨List.cons_ne_nil c z, ?_⟩
  show ∃ v, Denotes base (c :: z) v
  clear hw hz hu hc
  generalize c :: z = u at hall
  induction u with
  | nil => exact ⟨0, .nil⟩
  | cons c u ih =>
    obtain ⟨hc, hu⟩ := List.forall_mem_cons.1 hall
    obtain ⟨d, hd⟩ := exists_isDigit hk hc
    obtain ⟨v, hv⟩ := ih hu
    exact ⟨_, .cons hd hv⟩

theorem mem_suffixes (h : (Pattern.optional (Pattern.literal "&")).Matches u) : u ∈ [[], ['&']] := by
  rcases Pattern.matches_alt.1 h with h | h
  · rw [Pattern.matches_literal.1 h]
    decide
  · rw [Pattern.matches_empty.1 h]
    decide

theorem exists_decimal (h : Rule.integer.Matches u) : ∃ v, Numeral .integer u v := by
  obtain ⟨digits, suffix, rfl, hdigits, hsuffix⟩ := Pattern.matches_seq.1 h
  have hclass : (Rule.digit, 10) ∈ [(Rule.digit, 10), (Rule.hexDigit, 16)] := by decide
  obtain ⟨hne, v, hv⟩ := exists_denotes hclass hdigits
  exact ⟨v, .decimal hne hv (mem_suffixes hsuffix)⟩

theorem exists_hexadecimal (h : Rule.hexInteger.Matches u) : ∃ v, Numeral .hexInteger u v := by
  have hclass : (Rule.hexDigit, 16) ∈ [(Rule.digit, 10), (Rule.hexDigit, 16)] := by decide
  simp only [Rule.hexInteger, Pattern.all, List.foldr_cons, List.foldr_nil, Pattern.matches_seq (q := .seq _ _),
    Pattern.matches_literal, Pattern.matches_one] at h
  obtain ⟨_, _, rfl, rfl, _, _, rfl, ⟨c, rfl, hc⟩, digits, _, rfl, hdigits, hrest⟩ := h
  obtain ⟨suffix, _, rfl, hsuffix, hnil⟩ := Pattern.matches_seq.1 hrest
  obtain rfl := Pattern.matches_empty.1 hnil
  obtain ⟨hne, v, hv⟩ := exists_denotes hclass hdigits
  have hh : c ∈ ['h', 'H'] := by
    rw [CharClass.contains_of] at hc
    simp only [List.mem_cons, List.not_mem_nil, or_false] at hc ⊢
    exact hc.symm
  have hnumeral := Numeral.hexadecimal hh hne hv (mem_suffixes hsuffix)
  refine ⟨v, ?_⟩
  rw [List.append_nil]
  exact hnumeral

theorem Rule.pattern_of_integer : ∀ rule ∈ all,
    (rule.kind = some .integer → rule.pattern = integer) ∧
      (rule.kind = some .hexInteger → rule.pattern = hexInteger) := by
  decide

theorem items_numeral (text : Text) : ∀ it ∈ items text, ∀ k, it.kind = some k →
    k = .integer ∨ k = .hexInteger → ∃ v, Numeral k it.text v := by
  refine forall_items (fun text _ k hkind hk => ?_) text
  rcases nextItem_spec text with ⟨rule, n, -, hfirst, -, hn⟩ | ⟨-, hn⟩
  · obtain ⟨hr, hm⟩ := Rule.first?_some hfirst
    rw [hn] at hkind ⊢
    obtain ⟨hinteger, hhex⟩ := Rule.pattern_of_integer rule hr
    rcases hk with rfl | rfl
    · exact exists_decimal (hinteger hkind ▸ hm)
    · exact exists_hexadecimal (hhex hkind ▸ hm)
  · rw [hn] at hkind
    cases hkind
    simp at hk

theorem numeral_of_mem_lex (ht : t ∈ lex source) (hk : t.kind = .integer ∨ t.kind = .hexInteger) :
    Numeral t.kind t.text.toList (Numeral.reading t.kind t.text.toList) := by
  rw [lex_eq_place] at ht
  obtain ⟨it, hit, hkind, htext⟩ := exists_item_of_mem_place ht
  obtain ⟨v, hv⟩ := items_numeral source it hit _ hkind hk
  rw [← htext, String.toList_ofList, ← hv.eq_reading]
  exact hv

end Tokens

/-! ### Expressions -/

theorem maxInteger_eq : maxInteger = 2 ^ 63 - 1 := rfl

section Expressions

variable {self : Recursion} {min : Precedence} {last : Extent} {t : Token} {v : Nat}
  {rest : List Token}

theorem integerLiteral_apply (last : Extent) : integerLiteral t v ⟨last, t :: rest⟩
    = if v ≤ maxInteger then .ok (.integer t.extent v) ⟨t.extent, rest⟩
      else .error (.numberOutOfRange t) ⟨t.extent, rest⟩ := by
  simp only [integerLiteral, advance_bind]
  split <;> rfl

theorem primary_numeral (h : Numeral t.kind t.text.toList v) : primary self ⟨last, t :: rest⟩
    = if v ≤ maxInteger then .ok (.integer t.extent v) ⟨t.extent, rest⟩
      else .error (.numberOutOfRange t) ⟨t.extent, rest⟩ := by
  have hvalue := h.eq_reading
  rw [← integerLiteral_apply last]
  rcases h.kind_eq with hk | hk <;> rw [hk] at hvalue <;> subst hvalue
  · simp only [primary, peek_bind, Cursor.head?, List.head?_cons, hk]
    rfl
  · simp only [primary, peek_bind, Cursor.head?, List.head?_cons, hk]
    rfl

theorem unary_numeral (h : Numeral t.kind t.text.toList v) :
    unary self ⟨last, t :: rest⟩ = operand self ⟨last, t :: rest⟩ := by
  have hkind : UnaryOp.ofKind? t.kind = none := by
    rcases h.kind_eq with hk | hk <;> rw [hk] <;> rfl
  simp only [unary, peek_bind, Cursor.head?, List.head?_cons, hkind]

theorem expression_numeral (h : Numeral t.kind t.text.toList v) (hv : v ≤ maxInteger)
    (hrest : Unattached rest) (hyields : Yields rest [min]) :
    expression self min ⟨last, t :: rest⟩ = .ok (.integer t.extent v) ⟨t.extent, rest⟩ := by
  have hprimary : primary self ⟨last, t :: rest⟩ = .ok (.integer t.extent v) ⟨t.extent, rest⟩ := by
    rw [primary_numeral h, if_pos hv]
  have hoperand : operand self ⟨last, t :: rest⟩ = .ok (.integer t.extent v) ⟨t.extent, rest⟩ := by
    rw [operand, bind_of_ok hprimary, repeatFrom_stop (postfixStep_of_unattached hrest)]
  rw [expression, bind_of_ok ((unary_numeral h).trans hoperand),
    repeatFrom_stop (binaryStep_of_yields hyields)]

/-- A numeral that is too great is an error, whatever follows it. -/
theorem expression_numeral_error (h : Numeral t.kind t.text.toList v) (hv : maxInteger < v) :
    expression self min ⟨last, t :: rest⟩ = .error (.numberOutOfRange t) ⟨t.extent, rest⟩ := by
  have hprimary : primary self ⟨last, t :: rest⟩ = .error (.numberOutOfRange t) ⟨t.extent, rest⟩ := by
    rw [primary_numeral h, if_neg (Nat.not_le.2 hv)]
  rw [expression, bind_apply, unary_numeral h, operand, bind_apply, hprimary]

end Expressions

/-! ### Integers of a tree -/

section Trees

variable {source : Text} {here : Extent} {v : Nat} {t : Token} {ts rest : List Token}

/-- An integer is the value of a numeral in the source, and stands where the numeral does. -/
def FromNumeral (source : Text) (here : Extent) (v : Nat) : Prop :=
  ∃ t ∈ lex source, here = t.extent ∧ Numeral t.kind t.text.toList v ∧ v ≤ 2 ^ 63 - 1

theorem Noted.here_eq {e : Expr Extent} (h : Noted (.expression e) (t :: rest) rest) :
    e.here = t.extent := by
  obtain ⟨j, hrest, laid⟩ := h
  have hj : j = 1 := by
    have hlength := congrArg List.length hrest
    have hlt := laid.lt
    have hle := laid.le_length
    rw [List.length_drop] at hlength
    rw [List.length_cons] at hlength hle
    omega
  subst hj
  exact laid.here_eq

theorem Spells.fromNumeral
    (h : Spells (NotedIn (lex source)) (.expression (.integer here v)) ts rest) :
    FromNumeral source here v := by
  obtain ⟨hnoted, hsuffix⟩ := h.note
  obtain ⟨ps, form, fits⟩ := h.form
  obtain ⟨t, hts, hk, hv, hvalue⟩ : ∃ t, ts = t :: rest ∧ (t.kind = .integer ∨ t.kind = .hexInteger) ∧
      v ≤ maxInteger ∧ Numeral.reading t.kind t.text.toList = v := by
    cases form with
    | integer hv =>
      obtain ⟨t, rest, rfl, hk, hvalue, fits⟩ := fits_token.1 fits
      obtain rfl := fits_nil.1 fits
      exact ⟨t, rfl, .inl hk, hv, by rw [hk]; exact hvalue⟩
    | hexInteger hv =>
      obtain ⟨t, rest, rfl, hk, hvalue, fits⟩ := fits_token.1 fits
      obtain rfl := fits_nil.1 fits
      exact ⟨t, rfl, .inr hk, hv, by rw [hk]; exact hvalue⟩
  subst hts
  have ht : t ∈ lex source := hsuffix.subset List.mem_cons_self
  exact ⟨t, ht, hnoted.here_eq, hvalue ▸ numeral_of_mem_lex ht hk, hv⟩

/-- The nodes that parsers give for tokens of a source. -/
inductive ReadFrom (source : Text) : Node → Prop
  | program {program : List (Statement Extent)} {s : Statement Extent} :
    parse source = .ok program → s ∈ program → ReadFrom source (.statement s)
  | statement {depth : Nat} {s : Statement Extent} {c c' : Cursor} : c.rest <:+ lex source →
    (Recursion.ofDepth depth).statement c = .ok s c' → ReadFrom source (.statement s)
  | expression {depth : Nat} {min : Precedence} {e : Expr Extent} {c c' : Cursor} :
    c.rest <:+ lex source → (Recursion.ofDepth depth).expression min c = .ok e c' →
    ReadFrom source (.expression e)

theorem ReadFrom.read {n : Node} (h : ReadFrom source n) : n.Read (NotedIn (lex source)) := by
  cases h with
  | program hprogram hs =>
    have hspelled := (parseTokens_spelled hprogram).within List.suffix_rfl
    exact hspelled.read_inside _ (List.mem_map_of_mem hs)
  | statement hsuffix hs => exact ⟨_, _, .inl (((spelling_ofDepth _).statement hs).within hsuffix)⟩
  | expression hsuffix he => exact ⟨_, _, ((spelling_ofDepth _).expression he).1.within hsuffix⟩

theorem ReadFrom.fromNumeral {n : Node} (h : ReadFrom source n)
    (hbelow : n.Below (.expression (.integer here v))) : FromNumeral source here v := by
  obtain ⟨ts, rest, hspells⟩ := h.read.below hbelow
  exact hspells.fromNumeral

end Trees

/-- What is read where a literal stands: by itself the integer, whatever follows it; as an expression
the integer too if nothing goes on with it; and an error at the literal if 63 bits do not hold it. -/
structure ReadsNumeral (t : Token) (v : Nat) : Prop where
  literal : v ≤ 2 ^ 63 - 1 → ∀ self last rest,
    primary self ⟨last, t :: rest⟩ = .ok (.integer t.extent v) ⟨t.extent, rest⟩
  whole : v ≤ 2 ^ 63 - 1 → ∀ self min last rest, Unattached rest → Yields rest [min] →
    expression self min ⟨last, t :: rest⟩ = .ok (.integer t.extent v) ⟨t.extent, rest⟩
  outOfRange : 2 ^ 63 - 1 < v → ∀ self min last rest, ∃ e : ParseError, e.span = some t.span ∧
    e = .numberOutOfRange t ∧ primary self ⟨last, t :: rest⟩ = .error e ⟨t.extent, rest⟩ ∧
      expression self min ⟨last, t :: rest⟩ = .error e ⟨t.extent, rest⟩

theorem readsNumeral {t : Token} {v : Nat} (h : Numeral t.kind t.text.toList v) : ReadsNumeral t v where
  literal := fun hle self last rest => by
    rw [← maxInteger_eq] at hle
    rw [primary_numeral h, if_pos hle]
  whole := fun hle self min last rest => expression_numeral h hle
  outOfRange := fun hlt self min last rest => by
    rw [← maxInteger_eq] at hlt
    refine ⟨_, rfl, rfl, ?_, expression_numeral_error h hlt⟩
    rw [primary_numeral h, if_neg (Nat.not_le.2 hlt)]

/-- Every literal of a source is a numeral of one value. It is read as the integer of that value if
63 bits hold it, and else as an error at the literal. All integers in trees are read in this way. -/
theorem integerLiteral_value (source : Text) :
    (∀ t ∈ lex source, (t.kind = .integer ∨ t.kind = .hexInteger) →
      ∃! v, Numeral t.kind t.text.toList v) ∧
    (∀ t ∈ lex source, ∀ v, Numeral t.kind t.text.toList v → ReadsNumeral t v) ∧
    ∀ n, ReadFrom source n → ∀ here v, n.Below (.expression (.integer here v)) →
      FromNumeral source here v := by
  refine ⟨fun t ht hk => ?_, fun t _ v hv => readsNumeral hv, fun n hn here v => hn.fromNumeral⟩
  exact ⟨_, numeral_of_mem_lex ht hk, fun v hv => hv.eq_reading⟩

end BrightCoverage
