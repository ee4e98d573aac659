import Mathlib.Data.List.Forall2
import Mathlib.Data.Option.Defs
import BrightCoverage.Grammar.Shape
import BrightCoverage.Proofs.SpelledStatements

/-! What is spelled can be read. `Gives` says that a parser succeeds on some tokens and what it
gives, and it goes along with the steps of a parser. `Legible` says for each phrase which parser
reads it back, up to the notes in the tree. -/

namespace BrightCoverage

open BrightCoverage.Parser

variable {α β γ δ : Type} {ts us rest : List Token} {t : Token}

/-- From these tokens the parser gives a value with the property and stops at the rest. -/
def Gives (p : Parser β) (ts rest : List Token) (R : β → Prop) : Prop :=
  ∀ last, ∃ b last', p ⟨last, ts⟩ = .ok b ⟨last', rest⟩ ∧ R b

namespace Gives

variable {R S : β → Prop} {T : γ → Prop} {p : Parser β}

theorem bind {f : β → Parser γ} (hp : Gives p ts us R)
    (hf : ∀ b, R b → Gives (f b) us rest T) : Gives (p >>= f) ts rest T := by
  intro last
  obtain ⟨b, last₁, hb, hr⟩ := hp last
  rw [bind_of_ok hb]
  exact hf b hr last₁

theorem pure {b : β} (h : R b) : Gives (Pure.pure b) ts ts R :=
  fun last => ⟨b, last, rfl, h⟩

theorem mono (hp : Gives p ts rest R) (h : ∀ b, R b → S b) : Gives p ts rest S := by
  intro last
  obtain ⟨b, last', hb, hr⟩ := hp last
  exact ⟨b, last', hb, h b hr⟩

theorem advance {f : Unit → Parser β} (h : Gives (f ()) ts rest R) :
    Gives (Parser.advance >>= f) (t :: ts) rest R :=
  fun _ => h t.extent

theorem peek {f : Option Token → Parser β} (h : Gives (f ts.head?) ts rest R) :
    Gives (Parser.peek >>= f) ts rest R := h

theorem peekKind {f : Option TokenKind → Parser β} (h : Gives (f (kindOf ts)) ts rest R) :
    Gives (Parser.peekKind >>= f) ts rest R := h

theorem get {f : Cursor → Parser β} (h : ∀ last, Gives (f ⟨last, ts⟩) ts rest R) :
    Gives (MonadState.get >>= f) ts rest R :=
  fun last => h last last

theorem atStatementEnd {f : Bool → Parser β}
    (h : Gives (f (Cursor.ofTokens ts).atStatementEnd) ts rest R) :
    Gives (Parser.atStatementEnd >>= f) ts rest R := h

theorem extentFrom {first : Extent} {f : Extent → Parser β}
    (h : ∀ here, Gives (f here) ts rest R) : Gives (Parser.extentFrom first >>= f) ts rest R :=
  fun last => h _ last

theorem skipNewlines {f : Unit → Parser β}
    (h : Gives (f ()) (ts.dropWhile (·.kind ∈ [TokenKind.newline])) rest R) :
    Gives (Parser.skipNewlines >>= f) ts rest R := by
  intro last
  have hr := skip_rest [.newline] last ts
  obtain ⟨b, last', hb, hR⟩ := h (Cursor.skip [.newline] last ts).last
  refine ⟨b, last', ?_, hR⟩
  rw [← hr] at hb
  exact hb

theorem skipSeparators {f : Unit → Parser β}
    (h : Gives (f ()) (ts.dropWhile (·.kind ∈ [TokenKind.newline, .symbol .colon])) rest R) :
    Gives (Parser.skipSeparators >>= f) ts rest R := by
  intro last
  have hr := skip_rest [.newline, .symbol .colon] last ts
  obtain ⟨b, last', hb, hR⟩ := h (Cursor.skip [.newline, .symbol .colon] last ts).last
  refine ⟨b, last', ?_, hR⟩
  rw [← hr] at hb
  exact hb

theorem accepted {k : TokenKind} {f : Bool → Parser β} (hk : t.kind = k)
    (h : Gives (f true) ts rest R) : Gives (accept k >>= f) (t :: ts) rest R := by
  intro last
  rw [accept_bind, if_pos (by simp [Cursor.kind?, hk])]
  exact h t.extent

theorem refused {k : TokenKind} {f : Bool → Parser β} (hk : kindOf ts ≠ some k)
    (h : Gives (f false) ts rest R) : Gives (accept k >>= f) ts rest R := by
  intro last
  rw [accept_bind, if_neg (show (Cursor.mk last ts).kind? ≠ some k from hk)]
  exact h last

theorem expect {k : TokenKind} {what : String} {f : String → Parser β} (hk : t.kind = k)
    (h : Gives (f t.text) ts rest R) : Gives (Parser.expect k what >>= f) (t :: ts) rest R := by
  intro last
  have he : Parser.expect k what ⟨last, t :: ts⟩ = .ok t.text ⟨t.extent, ts⟩ :=
    expect_eq_ok.2 ⟨t, rfl, hk, rfl, rfl⟩
  rw [bind_of_ok he]
  exact h t.extent

theorem expectWord {what : String} {f : String → Parser β} (hw : t.isWord = true)
    (h : Gives (f t.text) ts rest R) : Gives (Parser.expectWord what >>= f) (t :: ts) rest R := by
  intro last
  have he : Parser.expectWord what ⟨last, t :: ts⟩ = .ok t.text ⟨t.extent, ts⟩ :=
    expectWord_eq_ok.2 ⟨t, rfl, hw, rfl, rfl⟩
  rw [bind_of_ok he]
  exact h t.extent

theorem many_nil {step : Parser (Option β)} (hp : StepProgress step)
    (h : Gives step ts rest (· = none)) : Gives (many step) ts rest (· = []) := by
  intro last
  obtain ⟨_, last', hb, rfl⟩ := h last
  exact ⟨[], last', by rw [many_apply hp, hb], rfl⟩

theorem many_cons {step : Parser (Option β)} (hp : StepProgress step) {T : List β → Prop}
    {U : List β → Prop} (h : Gives step ts us fun o => ∃ b, o = some b ∧ R b)
    (hm : Gives (many step) us rest T) (hU : ∀ b bs, R b → T bs → U (b :: bs)) :
    Gives (many step) ts rest U := by
  intro last
  obtain ⟨_, last₁, hb, b, rfl, hR⟩ := h last
  obtain ⟨bs, last', hbs, hT⟩ := hm last₁
  refine ⟨b :: bs, last', ?_, hU b bs hR hT⟩
  rw [many_apply hp, hb]
  exact bind_of_ok hbs

theorem repeat_step {step : β → Parser (Option β)} (hp : ∀ b, StepProgress (step b)) {b : β}
    (h : Gives (step b) ts rest fun o => ∃ b', o = some b' ∧ R b') (last : Extent) :
    ∃ b' last', repeatFrom step b ⟨last, ts⟩ = repeatFrom step b' ⟨last', rest⟩ ∧ R b' := by
  obtain ⟨_, last', hb, b', rfl, hR⟩ := h last
  exact ⟨b', last', by rw [repeatFrom_apply hp, hb], hR⟩

end Gives

theorem repeatFrom_stop {step : β → Parser (Option β)} {b : β} {c c' : Cursor}
    (h : step b c = .ok none c') : repeatFrom step b c = .ok b c' :=
  iterate_of_none h c.rest

/-- The parts of a tree that lists of phrases are made of, and what reads them. -/
def Readable (k : Nat) : Phrase α → List Token → List Token → Prop
  | .value e, ts, rest =>
    Gives ((Recursion.ofDepth k).expression .lowest) ts rest (·.shape = e.shape)
  | .argument e, ts, rest => Gives (argument (.ofDepth k)) ts rest (·.shape = e.shape)
  | .entry entry, ts, rest =>
    Gives (Parser.entry (.ofDepth k)) ts rest (·.map (fun _ => ()) = entry.map fun _ => ())
  | .parameter param, ts, rest =>
    Gives (parameter (.ofDepth k)) ts rest (·.map (fun _ => ()) = param.map fun _ => ())
  | .word name, ts, rest => ∀ what, Gives (expectWord what) ts rest (· = name)
  | .block stop body, ts, rest =>
    Gives (block (.ofDepth k) stop.atEnd) ts rest (shapes · = shapes body)
  | _, _, _ => False

def Phrase.isItem : Phrase α → Bool
  | .value _ | .argument _ | .entry _ | .parameter _ | .word _ | .block .. => true
  | _ => false

/-- What reads a phrase with parsers that may nest `k` times. An expression can be read on its own
only where nothing goes on with it, so it is read up to a round of the loop that would do so. -/
def Legible (k : Nat) : Phrase α → List Token → List Token → Prop
  | .expression e, ts, rest =>
    (e.isOperand = true → ∀ last, ∃ e' last', operand (.ofDepth (k - 1)) ⟨last, ts⟩
      = repeatFrom (postfixStep (.ofDepth (k - 1))) e' ⟨last', rest⟩ ∧ e'.shape = e.shape) ∧
    ∀ min, e.Above min → Unattached rest → Yields rest e.edge → ∀ last, ∃ e' last',
      Parser.expression (.ofDepth (k - 1)) min ⟨last, ts⟩
        = repeatFrom (binaryStep (.ofDepth (k - 1)) min) e' ⟨last', rest⟩ ∧ e'.shape = e.shape
  | .list closing items, ts, rest => ∀ ⦃β γ : Type⦄ (f : γ → Phrase α) (cs : List γ)
    (item : Parser β) (R : β → γ → Prop), items = cs.map f →
    (∀ c, (f c).isItem = true) → StepProgress (Parser.after (.symbol .comma) item) →
    (∀ c us vs, Readable k (f c) us vs → Gives item us vs (R · c)) →
    Gives (commaSeparated closing item) ts rest (List.Forall₂ R · cs)
  | .more items, ts, rest => ∀ ⦃β γ : Type⦄ (f : γ → Phrase α) (cs : List γ)
    (item : Parser β) (R : β → γ → Prop), items = cs.map f →
    (∀ c, (f c).isItem = true) → StepProgress (Parser.after (.symbol .comma) item) →
    (∀ c us vs, Readable k (f c) us vs → Gives item us vs (R · c)) →
    Gives (many (Parser.after (.symbol .comma) item)) ts rest (List.Forall₂ R · cs)
  | .items closing items, ts, rest => ∀ ⦃β γ : Type⦄ (f : γ → Phrase α) (cs : List γ)
    (item : Parser β) (R : β → γ → Prop), items = cs.map f →
    (∀ c, (f c).isItem = true) →
    (∀ state, StepProgress (collectionItem (.symbol closing) item state)) →
    (∀ c us vs, Readable k (f c) us vs → Gives item us vs (R · c)) →
    ∀ before, Gives (repeatFrom (collectionItem (.symbol closing) item) (before, true))
      (ts.dropWhile (·.kind ∈ [TokenKind.newline])) rest
      fun state => ∃ bs, state.1 = bs.reverse ++ before ∧ List.Forall₂ R bs cs
  | .maybe kind phrase, ts, rest => ∀ ⦃β γ : Type⦄ (f : γ → Phrase α) (c : Option γ)
    (p : Parser β) (R : β → γ → Prop), phrase = c.map f →
    (∀ c, (f c).isItem = true) →
    (∀ c us vs, Readable k (f c) us vs → Gives p us vs (R · c)) →
    Gives (Parser.after kind p) ts rest (Option.Rel R · c)
  | .accepted kind, ts, rest => Gives (accept kind) ts rest fun _ => True
  | .procedure decl, ts, rest => ∀ opener, Gives (procedure (.ofDepth k) decl.keyword opener) ts rest
      (·.map (fun _ => ()) = decl.map fun _ => ())
  | .statement s, ts, rest => Gives (Recursion.ofDepth k).statement ts rest (·.shape = s.shape)
  | .chained s, ts, rest => Gives (Recursion.ofDepth k).inlineElseIf ts rest (·.shape = s.shape)
  | .inline body, ts, rest =>
    Gives (inlineStatements (.ofDepth k)) ts rest (shapes · = shapes body)
  | .inlineMore body, ts, rest =>
    Gives (many (inlineItem (.ofDepth k))) ts rest (shapes · = shapes body)
  | .inlineElse body, ts, rest =>
    Gives (inlineElse (.ofDepth k)) ts rest (mapBody? (fun _ => ()) · = mapBody? (fun _ => ()) body)
  | .elseIfs clauses, ts, rest => Gives (many (elseIf (.ofDepth k))) ts rest
      (mapElseIfs (fun _ => ()) · = mapElseIfs (fun _ => ()) clauses)
  | .close b, ts, rest => ∀ opener, Gives (close b opener) ts rest fun _ => True
  | .separators last, ts, rest => ∀ items l, ∃ l', repeatFrom (printStep (.ofDepth k)) items ⟨l, ts⟩
      = repeatFrom (printStep (.ofDepth k)) (last.elim items (separateLast · items)) ⟨l', rest⟩
  | .printed items, ts, rest => ∀ before, Gives (repeatFrom (printStep (.ofDepth k)) before) ts rest
      fun items' => ∃ more, items' = more.reverse ++ before ∧
        mapPrintItems (fun _ => ()) more = mapPrintItems (fun _ => ()) items
  | .compileElseIfs clauses, ts, rest => Gives (many (compileElseIf (.ofDepth k))) ts rest
      (mapCompileElseIfs (fun _ => ()) · = mapCompileElseIfs (fun _ => ()) clauses)
  | .compileElse body, ts, rest => Gives (compileElse (.ofDepth k)) ts rest
      (mapBody? (fun _ => ()) · = mapBody? (fun _ => ()) body)
  | .value e, ts, rest => Readable k (.value e) ts rest
  | .argument e, ts, rest => Readable k (.argument e) ts rest
  | .entry entry, ts, rest => Readable k (.entry entry) ts rest
  | .parameter param, ts, rest => Readable k (.parameter param) ts rest
  | .word name, ts, rest => Readable (α := α) k (.word name) ts rest
  | .block stop body, ts, rest => Readable k (.block stop body) ts rest

theorem Legible.readable {k : Nat} {ph : Phrase α} (h : Legible k ph ts rest)
    (hi : ph.isItem = true) : Readable k ph ts rest := by
  cases ph <;> first | exact h | cases hi

variable {N : Phrase α → List Token → List Token → Prop}

theorem Fits.suffix {P : Phrase α → List Token → List Token → Prop} {ps : List (Part α)}
    (h : Fits P ps ts rest) (hP : ∀ ph us vs, P ph us vs → vs <:+ us) : rest <:+ ts := by
  induction h with
  | nil => exact List.suffix_rfl
  | token _ _ _ ih | word _ _ _ ih | line _ _ _ ih => exact ih.trans (List.suffix_cons ..)
  | skip _ ih => exact ih.trans (List.dropWhile_suffix _)
  | ahead _ _ ih => exact ih
  | phrase hp _ ih => exact ih.trans (hP _ _ _ hp)

theorem Spells.suffix {ph : Phrase α} (h : Spells N ph ts rest) : rest <:+ ts :=
  Spells.induct (Q := fun _ ts rest => rest <:+ ts)
    (fun _ _ _ _ _ _ fits => fits.suffix fun _ _ _ h => h.2) h

/-- A phrase that is spelled and can be read with enough depth. -/
def Known (N : Phrase α → List Token → List Token → Prop) (ph : Phrase α) (ts rest : List Token) :
    Prop :=
  Spells N ph ts rest ∧ ∀ k, ts.length < k → Legible k ph ts rest

/-- With enough depth for the tokens, all phrases in a form can be read. -/
theorem Fits.legible {ps : List (Part α)} {k : Nat} (h : Fits (Known N) ps ts rest)
    (hk : ts.length < k) : Fits (Legible k) ps ts rest := by
  induction h with
  | nil => exact .nil
  | token ht hp _ ih => exact .token ht hp (ih (by simp only [List.length_cons] at hk; omega))
  | word hw hn _ ih => exact .word hw hn (ih (by simp only [List.length_cons] at hk; omega))
  | line ht hp _ ih => exact .line ht hp (ih (by simp only [List.length_cons] at hk; omega))
  | @skip ks _ ts _ _ ih =>
    have : (ts.dropWhile fun t => t.kind ∈ ks).length ≤ ts.length :=
      (List.dropWhile_suffix _).length_le
    exact .skip (ih (by omega))
  | ahead hp _ ih => exact .ahead hp (ih hk)
  | phrase hp _ ih =>
    have := hp.1.suffix.length_le
    exact .phrase (hp.2 _ hk) (ih (by omega))

theorem Fits.legible_token {ps : List (Part α)} {k : Nat} {kind : TokenKind} {p : String → Prop}
    (h : Fits (Known N) (.token kind p :: ps) ts rest) (hk : ts.length < k + 1) :
    Fits (Legible k) (.token kind p :: ps) ts rest := by
  simp only [fits_token] at h ⊢
  obtain ⟨t, us, rfl, ht, hp, h⟩ := h
  exact ⟨t, us, rfl, ht, hp, h.legible (by simpa using hk)⟩

theorem Fits.legible_line {ps : List (Part α)} {k : Nat} {p : Directive → Prop}
    (h : Fits (Known N) (.line p :: ps) ts rest) (hk : ts.length < k + 1) :
    Fits (Legible k) (.line p :: ps) ts rest := by
  simp only [fits_line] at h ⊢
  obtain ⟨t, us, rfl, ht, hp, h⟩ := h
  exact ⟨t, us, rfl, ht, hp, h.legible (by simpa using hk)⟩

end BrightCoverage
