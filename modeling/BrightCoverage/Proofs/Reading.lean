import Mathlib.Tactic.Common
import BrightCoverage.Grammar.Program

/-! Runs of parsers. `Cursor.after` numbers the places in a list of tokens, so that what a parser
has read is a range of indices. The steps of a parser compute on a cursor by the simp lemmas, a run
that succeeds is taken apart at its binds, and the two loops unfold without their counters as soon
as every step that goes on reads a token. -/

namespace BrightCoverage

variable {α β : Type}

def extentAt (ts : List Token) (i : Nat) : Extent :=
  (ts[i]?.map Token.extent).getD (Mark.origin.extentTo Mark.origin)

def kindAt (ts : List Token) (i : Nat) : Option TokenKind :=
  ts[i]?.map Token.kind

def extentBetween (ts : List Token) (i j : Nat) : Extent :=
  (extentAt ts i).through (extentAt ts (j - 1))

theorem extentAt_eq {ts : List Token} {i : Nat} {t : Token} (h : ts[i]? = some t) :
    extentAt ts i = t.extent := by
  simp [extentAt, h]

namespace Cursor

/-- The cursor when the first `i` tokens of a list have been read; `base` is the extent of the
token before them. -/
def after (base : Extent) (ts : List Token) (i : Nat) : Cursor :=
  ⟨((ts.take i).getLast?.map Token.extent).getD base, ts.drop i⟩

variable (base : Extent) (ts : List Token)

theorem after_zero : after base ts 0 = ⟨base, ts⟩ := by
  simp [after]

theorem eq_after (c : Cursor) : c = after c.last c.rest 0 :=
  (after_zero c.last c.rest).symm

@[simp] theorem after_rest (i : Nat) : (after base ts i).rest = ts.drop i := rfl

@[simp] theorem after_head? (i : Nat) : (after base ts i).head? = ts[i]? := by
  simp [head?]

@[simp] theorem after_kind? (i : Nat) : (after base ts i).kind? = kindAt ts i := by
  simp [kind?, kindAt]

@[simp] theorem after_kindAt? (i n : Nat) : (after base ts i).kindAt? n = kindAt ts (i + n) := by
  simp [kindAt?, kindAt]

theorem after_last {i : Nat} (h : i < ts.length) :
    (after base ts (i + 1)).last = extentAt ts i := by
  have hs : ts[i]? = some ts[i] := List.getElem?_eq_getElem h
  have ht : ts.take (i + 1) = ts.take i ++ [ts[i]] := by
    rw [List.take_add_one, hs]; rfl
  rw [extentAt_eq hs]
  show ((ts.take (i + 1)).getLast?.map Token.extent).getD base = _
  rw [ht, List.getLast?_concat]
  rfl

theorem after_eq_of_length_le {i : Nat} (h : ts.length ≤ i) :
    after base ts i = after base ts ts.length := by
  simp [after, List.take_of_length_le h, List.drop_of_length_le h]

@[simp] theorem next_after (i : Nat) : (after base ts i).next = after base ts (i + 1) := by
  rcases Nat.lt_or_ge i ts.length with h | h
  · have hd : ts.drop i = ts[i] :: ts.drop (i + 1) := List.drop_eq_getElem_cons h
    have hl := after_last base ts h
    rw [extentAt_eq (List.getElem?_eq_getElem h)] at hl
    rw [show after base ts i = ⟨(after base ts i).last, ts[i] :: ts.drop (i + 1)⟩ by
      rw [← hd]; rfl]
    rw [show after base ts (i + 1) = ⟨(after base ts (i + 1)).last, ts.drop (i + 1)⟩ from rfl, hl]
    rfl
  · rw [after_eq_of_length_le base ts h, after_eq_of_length_le base ts (Nat.le_succ_of_le h)]
    simp [after, next]

theorem skip_after (kinds : List TokenKind) (i : Nat) :
    ∃ j, i ≤ j ∧ skip kinds (after base ts i).last (after base ts i).rest = after base ts j ∧
      (∀ x, i ≤ x → x < j → ∃ k ∈ kinds, kindAt ts x = some k) ∧
      ∀ k ∈ kinds, kindAt ts j ≠ some k := by
  induction hn : ts.length - i generalizing i with
  | zero =>
    refine ⟨i, Nat.le_refl i, ?_, fun x hx hx' => absurd hx (by omega), ?_⟩
    · simp [List.drop_of_length_le (show ts.length ≤ i by omega), skip, after]
    · simp [kindAt, List.getElem?_eq_none (show ts.length ≤ i by omega)]
  | succ n ih =>
    have hi : i < ts.length := by omega
    have hd : ts.drop i = ts[i] :: ts.drop (i + 1) := List.drop_eq_getElem_cons hi
    by_cases hk : ts[i].kind ∈ kinds
    · obtain ⟨j, hij, heq, hall, hend⟩ := ih (i + 1) (by omega)
      refine ⟨j, by omega, ?_, fun x hx hx' => ?_, hend⟩
      · rw [← heq, after_rest, hd, skip, if_pos hk, after_last base ts hi,
          extentAt_eq (List.getElem?_eq_getElem hi), after_rest]
      · rcases Nat.eq_or_lt_of_le hx with rfl | hx
        · exact ⟨_, hk, by simp [kindAt, List.getElem?_eq_getElem hi]⟩
        · exact hall x hx hx'
    · refine ⟨i, Nat.le_refl i, ?_, fun x hx hx' => absurd hx (by omega), fun k hk' hki => hk ?_⟩
      · rw [after_rest, hd, skip, if_neg hk, ← hd]; rfl
      · simp only [kindAt, List.getElem?_eq_getElem hi, Option.map_some, Option.some.injEq] at hki
        exact hki ▸ hk'

end Cursor

namespace Parser

open EStateM (Result)

section Steps

variable (c : Cursor)

theorem bind_apply (p : Parser α) (f : α → Parser β) :
    (p >>= f) c = match p c with
      | .ok a c' => f a c'
      | .error e c' => .error e c' := by
  show EStateM.bind p f c = _
  unfold EStateM.bind
  cases p c <;> rfl

@[simp] theorem pure_apply (a : α) : (pure a : Parser α) c = .ok a c := rfl

@[simp] theorem throw_apply (e : ParseError) : (throw e : Parser α) c = .error e c := rfl

@[simp] theorem pure_bind_apply (a : α) (f : α → Parser β) : (pure a >>= f) c = f a c := rfl

@[simp] theorem throw_bind_apply (e : ParseError) (f : α → Parser β) :
    ((throw e : Parser α) >>= f) c = .error e c := rfl

@[simp] theorem get_bind (f : Cursor → Parser β) : (get >>= f) c = f c c := rfl

@[simp] theorem peek_bind (f : Option Token → Parser β) : (peek >>= f) c = f c.head? c := rfl

@[simp] theorem peekKind_bind (f : Option TokenKind → Parser β) :
    (peekKind >>= f) c = f c.kind? c := rfl

@[simp] theorem advance_bind (f : Unit → Parser β) : (advance >>= f) c = f () c.next := rfl

@[simp] theorem advance_apply : advance c = .ok () c.next := rfl

@[simp] theorem skipNewlines_bind (f : Unit → Parser β) :
    (skipNewlines >>= f) c = f () (Cursor.skip [.newline] c.last c.rest) := rfl

@[simp] theorem skipSeparators_bind (f : Unit → Parser β) :
    (skipSeparators >>= f) c = f () c.skipSeparators := rfl

@[simp] theorem atStatementEnd_bind (f : Bool → Parser β) :
    (atStatementEnd >>= f) c = f c.atStatementEnd c := rfl

@[simp] theorem extentFrom_bind (first : Extent) (f : Extent → Parser β) :
    (extentFrom first >>= f) c = f (first.through c.last) c := rfl

@[simp] theorem extentFrom_apply (first : Extent) :
    extentFrom first c = .ok (first.through c.last) c := rfl

theorem accept_apply (kind : TokenKind) :
    accept kind c = if c.kind? = some kind then .ok true c.next else .ok false c := by
  simp only [accept, peekKind_bind]
  split <;> rfl

theorem accept_bind (kind : TokenKind) (f : Bool → Parser β) :
    (accept kind >>= f) c = if c.kind? = some kind then f true c.next else f false c := by
  rw [bind_apply, accept_apply]
  by_cases h : c.kind? = some kind
  · rw [if_pos h, if_pos h]
  · rw [if_neg h, if_neg h]

end Steps

variable {c c' : Cursor}

/-- Names the parser of a run, so that its cases can be told apart. -/
theorem named_run {p : Parser α} {r : Result ParseError Cursor α} (h : p c = r) :
    ∃ q, q = p ∧ q c = r :=
  ⟨p, rfl, h⟩

theorem bind_eq_ok {p : Parser α} {f : α → Parser β} {b : β} :
    (p >>= f) c = .ok b c' ↔ ∃ a c₁, p c = .ok a c₁ ∧ f a c₁ = .ok b c' := by
  rw [bind_apply]
  cases p c with
  | ok a c₁ =>
    refine ⟨fun h => ⟨a, c₁, rfl, h⟩, ?_⟩
    rintro ⟨a', c₂, h, h'⟩
    cases h
    exact h'
  | error e c₁ => simp

theorem bind_of_ok {p : Parser α} {f : α → Parser β} {a : α} (h : p c = .ok a c') :
    (p >>= f) c = f a c' := by
  rw [bind_apply, h]

theorem expected_ne_ok {what : String} {a : α} : expected what c ≠ .ok a c' := by
  simp only [expected, peek_bind]
  cases c.head? <;> simp

theorem expected_eq_error (what : String) (c : Cursor) :
    ∃ e, (expected what : Parser α) c = .error e c := by
  simp only [expected, peek_bind]
  cases c.head? <;> simp

theorem expect_eq_ok {kind : TokenKind} {what text : String} :
    expect kind what c = .ok text c' ↔
      ∃ t, c.head? = some t ∧ t.kind = kind ∧ t.text = text ∧ c' = c.next := by
  simp only [expect, peek_bind]
  cases c.head? with
  | none => simp [expected_ne_ok]
  | some t =>
    by_cases h : t.kind = kind
    · simp [h, eq_comm (a := c')]
    · simp [h, expected_ne_ok]

theorem expectWord_eq_ok {what text : String} :
    expectWord what c = .ok text c' ↔
      ∃ t, c.head? = some t ∧ t.isWord = true ∧ t.text = text ∧ c' = c.next := by
  simp only [expectWord, peek_bind]
  cases c.head? with
  | none => simp [expected_ne_ok]
  | some t =>
    by_cases h : t.isWord = true
    · simp [h, eq_comm (a := c')]
    · simp [h, expected_ne_ok]

theorem after_eq_ok {kind : TokenKind} {rest : Parser α} {o : Option α} :
    after kind rest c = .ok o c' ↔
      (c.kind? ≠ some kind ∧ o = none ∧ c' = c) ∨
        ∃ a, c.kind? = some kind ∧ rest c.next = .ok a c' ∧ o = some a := by
  simp only [after, accept_bind]
  by_cases h : c.kind? = some kind
  · simp only [h, if_true, bind_eq_ok, pure_apply, EStateM.Result.ok.injEq]
    constructor
    · rintro ⟨a, c₁, hr, rfl, rfl⟩
      exact .inr ⟨a, trivial, hr, rfl⟩
    · rintro (⟨hne, -⟩ | ⟨a, -, hr, rfl⟩)
      · exact absurd rfl hne
      · exact ⟨a, c', hr, rfl, rfl⟩
  · simp [h, eq_comm (a := o), eq_comm (a := c')]

section Ends

variable {step : β → Parser (Option β)} {b : β} {step' : Parser (Option α)} {e : ParseError}

theorem iterate_of_none (h : step b c = .ok none c') (us : List Token) :
    iterate step us b c = .ok b c' := by
  cases us with
  | nil => rw [iterate, bind_of_ok h]; rfl
  | cons u us => rw [iterate, bind_of_ok h]; rfl

theorem iterate_of_error (h : step b c = .error e c') (us : List Token) :
    iterate step us b c = .error e c' := by
  cases us <;> rw [iterate, bind_apply, h]

theorem collect_of_none (h : step' c = .ok none c') (us : List Token) :
    collect step' us c = .ok [] c' := by
  cases us with
  | nil => rw [collect, bind_of_ok h]; rfl
  | cons u us => rw [collect, bind_of_ok h]; rfl

theorem collect_of_error (h : step' c = .error e c') (us : List Token) :
    collect step' us c = .error e c' := by
  cases us <;> rw [collect, bind_apply, h]

end Ends

/-- A step that reads at least one token whenever it goes on. -/
def StepProgress (step : Parser (Option α)) : Prop :=
  ∀ c a c', step c = .ok (some a) c' → c'.rest.length < c.rest.length

theorem collect_congr {step : Parser (Option α)} (hp : StepProgress step) (ts us : List Token)
    (c : Cursor) (ht : c.rest.length ≤ ts.length) (hu : c.rest.length ≤ us.length) :
    collect step ts c = collect step us c := by
  induction ts generalizing us c with
  | nil =>
    cases us with
    | nil => rfl
    | cons u us =>
      simp only [collect, bind_apply]
      rcases h : step c with ⟨_ | a, c'⟩ | ⟨e, c'⟩
      · rfl
      · have hlt := hp _ _ _ h
        simp only [List.length_nil] at ht
        omega
      · rfl
  | cons t ts ih =>
    cases us with
    | nil =>
      simp only [collect, bind_apply]
      rcases h : step c with ⟨_ | a, c'⟩ | ⟨e, c'⟩
      · rfl
      · have hlt := hp _ _ _ h
        simp only [List.length_nil] at hu
        omega
      · rfl
    | cons u us =>
      simp only [collect, bind_apply]
      rcases h : step c with ⟨_ | a, c'⟩ | ⟨e, c'⟩
      · rfl
      · have hlt := hp _ _ _ h
        simp only [List.length_cons] at ht hu
        simp only [bind_apply, ih us c' (by omega) (by omega)]
      · rfl

theorem many_apply {step : Parser (Option α)} (hp : StepProgress step) (c : Cursor) :
    many step c = match step c with
      | .ok none c' => .ok [] c'
      | .ok (some a) c' => (many step >>= fun as => pure (a :: as)) c'
      | .error e c' => .error e c' := by
  show collect step c.rest c = _
  cases hc : c.rest with
  | nil =>
    simp only [collect, bind_apply]
    rcases h : step c with ⟨_ | a, c'⟩ | ⟨e, c'⟩
    · rfl
    · have hlt := hp _ _ _ h
      simp only [hc, List.length_nil] at hlt
      omega
    · rfl
  | cons t ts =>
    simp only [collect, bind_apply]
    rcases h : step c with ⟨_ | a, c'⟩ | ⟨e, c'⟩
    · rfl
    · have hlt := hp _ _ _ h
      simp only [hc, List.length_cons] at hlt
      have hm : many step c' = collect step ts c' :=
        collect_congr hp c'.rest ts c' (Nat.le_refl _) (by omega)
      simp only [bind_apply, hm]
    · rfl

theorem iterate_congr {step : β → Parser (Option β)} (hp : ∀ b, StepProgress (step b))
    (ts us : List Token) (b : β) (c : Cursor) (ht : c.rest.length ≤ ts.length)
    (hu : c.rest.length ≤ us.length) : iterate step ts b c = iterate step us b c := by
  induction ts generalizing us b c with
  | nil =>
    cases us with
    | nil => rfl
    | cons u us =>
      simp only [iterate, bind_apply]
      rcases h : step b c with ⟨_ | a, c'⟩ | ⟨e, c'⟩
      · rfl
      · have hlt := hp _ _ _ _ h
        simp only [List.length_nil] at ht
        omega
      · rfl
  | cons t ts ih =>
    cases us with
    | nil =>
      simp only [iterate, bind_apply]
      rcases h : step b c with ⟨_ | a, c'⟩ | ⟨e, c'⟩
      · rfl
      · have hlt := hp _ _ _ _ h
        simp only [List.length_nil] at hu
        omega
      · rfl
    | cons u us =>
      simp only [iterate, bind_apply]
      rcases h : step b c with ⟨_ | a, c'⟩ | ⟨e, c'⟩
      · rfl
      · have hlt := hp _ _ _ _ h
        simp only [List.length_cons] at ht hu
        exact ih us a c' (by omega) (by omega)
      · rfl

theorem repeatFrom_apply {step : β → Parser (Option β)} (hp : ∀ b, StepProgress (step b))
    (b : β) (c : Cursor) :
    repeatFrom step b c = match step b c with
      | .ok none c' => .ok b c'
      | .ok (some b') c' => repeatFrom step b' c'
      | .error e c' => .error e c' := by
  show iterate step c.rest b c = _
  cases hc : c.rest with
  | nil =>
    simp only [iterate, bind_apply]
    rcases h : step b c with ⟨_ | a, c'⟩ | ⟨e, c'⟩
    · rfl
    · have hlt := hp _ _ _ _ h
      simp only [hc, List.length_nil] at hlt
      omega
    · rfl
  | cons t ts =>
    simp only [iterate, bind_apply]
    rcases h : step b c with ⟨_ | a, c'⟩ | ⟨e, c'⟩
    · rfl
    · have hlt := hp _ _ _ _ h
      simp only [hc, List.length_cons] at hlt
      exact iterate_congr hp ts c'.rest a c' (by omega) (Nat.le_refl _)
    · rfl

section Runs

variable {base : Extent} {ts : List Token}

theorem many_run {step : Parser (Option α)} (hp : StepProgress step)
    {Q : List α → Nat → Nat → Prop}
    (hstop : ∀ k c', step (.after base ts k) = .ok none c' →
      ∃ j, c' = .after base ts j ∧ Q [] k j)
    (hgo : ∀ k a c', step (.after base ts k) = .ok (some a) c' →
      ∃ l, c' = .after base ts l ∧ ∀ as j, Q as l j → Q (a :: as) k j)
    {i : Nat} {as : List α} (h : many step (.after base ts i) = .ok as c') :
    ∃ j, c' = .after base ts j ∧ Q as i j := by
  induction hn : (Cursor.after base ts i).rest.length using Nat.strongRecOn generalizing i as with
  | _ n ih =>
    rw [many_apply hp] at h
    rcases hs : step (.after base ts i) with ⟨_ | a, c₁⟩ | ⟨e, c₁⟩ <;> rw [hs] at h
    · cases h
      exact hstop i _ hs
    · obtain ⟨l, rfl, hl⟩ := hgo i a c₁ hs
      obtain ⟨as', c₂, hm, hr⟩ := bind_eq_ok.1 h
      cases hr
      obtain ⟨j, rfl, hq⟩ := ih _ (hn ▸ hp _ _ _ hs) hm rfl
      exact ⟨j, rfl, hl _ _ hq⟩
    · cases h

theorem repeatFrom_run {step : β → Parser (Option β)} (hp : ∀ b, StepProgress (step b))
    {I Q : β → Nat → Prop}
    (hstop : ∀ b k c', I b k → step b (.after base ts k) = .ok none c' →
      ∃ j, c' = .after base ts j ∧ Q b j)
    (hgo : ∀ b k b' c', I b k → step b (.after base ts k) = .ok (some b') c' →
      ∃ j, c' = .after base ts j ∧ I b' j)
    {i : Nat} {b b' : β} (hi : I b i) (h : repeatFrom step b (.after base ts i) = .ok b' c') :
    ∃ j, c' = .after base ts j ∧ Q b' j := by
  induction hn : (Cursor.after base ts i).rest.length using Nat.strongRecOn generalizing i b with
  | _ n ih =>
    rw [repeatFrom_apply hp] at h
    rcases hs : step b (.after base ts i) with ⟨_ | b₁, c₁⟩ | ⟨e, c₁⟩ <;> rw [hs] at h
    · cases h
      exact hstop _ i _ hi hs
    · obtain ⟨l, rfl, hl⟩ := hgo b i b₁ c₁ hi hs
      exact ih _ (hn ▸ hp _ _ _ _ hs) hl h rfl
    · cases h

end Runs

end Parser

end BrightCoverage
