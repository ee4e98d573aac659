import Mathlib.Order.MinMax
import BrightCoverage.Proofs.Copies
import BrightCoverage.Proofs.Failures

/-! What parsers do not look at. A `Copy` changes tokens in ways that no parser tells apart: their
places, the wording of what is only carried along. A parser that runs on copied tokens gives the copy
of what it gives on the originals, error for error. The same holds for what stands before a line break
when that line break becomes the end of the text or another line break, as long as the parser
succeeds and does not read it. `Mirrors` says both of two parsers, and it goes along with the steps of
a parser. -/

namespace BrightCoverage

open BrightCoverage.Parser

variable {α β γ δ : Type}

/-- The parts of the second directive are those of the first, with the texts changed. -/
structure Directive.IsCopy (r : String → String) (d d' : Directive) : Prop where
  kind : d'.kind = d.kind
  name : String.ofList d'.name = r (String.ofList d.name)
  word : String.ofList (lower d'.name) = r (String.ofList (lower d.name))
  args : String.ofList d'.args = r (String.ofList d.args)

/-- A change of places, of the texts of tokens and of names. Names may only change as the texts do
that they are read from, and what numbers and directives say stays. -/
structure Copy where
  offset : Nat → Nat
  position : Position → Position
  text : TokenKind → String → String
  name : String → String
  offset_mono : Monotone offset
  text_identifier : ∀ s, text .identifier s = name s
  text_keyword : ∀ k s, text (.keyword k) s = name s
  isWord_text : ∀ k s here, Token.isWord ⟨k, text k s, here⟩ = Token.isWord ⟨k, s, here⟩
  text_word : ∀ k s here, Token.isWord ⟨k, s, here⟩ = true → text k s = name s
  integerValue_text : ∀ s, integerValue 10 (text .integer s).toList = integerValue 10 s.toList
  hexValue_text : ∀ s, integerValue 16 ((text .hexInteger s).toList.drop 2)
    = integerValue 16 (s.toList.drop 2)
  floatBits_text : ∀ s, floatBits (text .float s).toList = floatBits s.toList
  unquoteText_text : ∀ s, unquoteText (text .string s) = name (unquoteText s)
  ofLine_text : ∀ s, (Directive.ofLine s.toList).IsCopy name
    (Directive.ofLine (text .directive s).toList)

namespace Copy

variable (h : Copy)

def span (s : Span) : Span :=
  ⟨h.offset s.start, h.offset s.stop⟩

def extent (e : Extent) : Extent :=
  ⟨h.span e.span, ⟨h.position e.location.start, h.position e.location.stop⟩⟩

def token (t : Token) : Token :=
  ⟨t.kind, h.text t.kind t.text, h.extent t.extent⟩

def error : ParseError → ParseError
  | .unexpected expected found => .unexpected expected (h.token found)
  | .endOfText expected => .endOfText expected
  | .notExpression found => .notExpression (h.token found)
  | .notStatement found => .notStatement (h.token found)
  | .notAssignable target => .notAssignable (h.span target)
  | .danglingExpression span => .danglingExpression (h.span span)
  | .unknownDirective span name => .unknownDirective (h.span span) (h.name name)
  | .numberOutOfRange literal => .numberOutOfRange (h.token literal)
  | .unterminatedString span => .unterminatedString (h.span span)
  | .invalidCharacter found => .invalidCharacter (h.token found)
  | .missingEnd block opener => .missingEnd block (h.span opener)
  | .strayEnd span word => .strayEnd (h.span span) (h.name word)
  | .strayDirective span name => .strayDirective (h.span span) (h.name name)

abbrev expr : Expr Extent → Expr Extent :=
  Expr.copy h.extent h.name

abbrev statement : Statement Extent → Statement Extent :=
  Statement.copy h.extent h.name

abbrev body : List (Statement Extent) → List (Statement Extent) :=
  copyBody h.extent h.name

@[simp] theorem token_kind (t : Token) : (h.token t).kind = t.kind := rfl

@[simp] theorem token_extent (t : Token) : (h.token t).extent = h.extent t.extent := rfl

@[simp] theorem token_span (t : Token) : (h.token t).span = h.span t.span := rfl

@[simp] theorem isWord_token (t : Token) : (h.token t).isWord = t.isWord :=
  h.isWord_text t.kind t.text _

theorem merge_span (a b : Span) : (h.span a).merge (h.span b) = h.span (a.merge b) := by
  simp only [span, Span.merge, h.offset_mono.map_min, h.offset_mono.map_max]

structure Ends (a b : Extent) : Prop where
  offset : b.span.stop = h.offset a.span.stop
  position : b.location.stop = h.position a.location.stop

theorem ends_extent (e : Extent) : h.Ends e (h.extent e) := ⟨rfl, rfl⟩

theorem Ends.through {h : Copy} {a b : Extent} (hab : h.Ends a b) (first : Extent) :
    (h.extent first).through b = h.extent (first.through a) := by
  simp only [Extent.through, extent, span, hab.offset, hab.position]

end Copy

/-- Kinds of tokens of which no parser tells the second from the first: it is the same, or there is
no token where there was a line break. -/
def Indistinct (k k' : Option TokenKind) : Prop :=
  k' = k ∨ k = some .newline ∧ k' = none

theorem Indistinct.refl (k : Option TokenKind) : Indistinct k k := .inl rfl

theorem Indistinct.eq_some_iff {a b : Option TokenKind} {k : TokenKind} (h : Indistinct a b)
    (hk : k ≠ .newline) : b = some k ↔ a = some k := by
  rcases h with rfl | ⟨rfl, rfl⟩
  · rfl
  · simp [hk.symm]

/-- A copy, with what follows the copied tokens on both sides: nothing at all, or on the first side a
line break and on the second a line break or nothing. -/
structure Mirror where
  copy : Copy
  tail : List Token
  tail' : List Token
  ending : ∀ t ∈ tail.head?, t.kind = .newline ∧ t.isWord = false
  alike : Indistinct (tail.head?.map Token.kind) (tail'.head?.map Token.kind)

namespace Mirror

/-- The two cursors are at the same place. -/
def Meets (m : Mirror) (c d : Cursor) : Prop :=
  ∃ ts, c.rest = ts ++ m.tail ∧ d.rest = ts.map m.copy.token ++ m.tail' ∧ m.copy.Ends c.last d.last

/-- Tokens of which no parser tells the second from the first: it is the copy, or both are at the
line break of the tail. -/
def Sees (m : Mirror) (o o' : Option Token) : Prop :=
  o' = o.map m.copy.token ∨
    m.tail ≠ [] ∧ (∃ t, o = some t ∧ t.kind = .newline ∧ t.isWord = false) ∧
      Indistinct (some .newline) (o'.map Token.kind)

theorem Sees.alike {m : Mirror} {o o' : Option Token} (h : m.Sees o o') :
    Indistinct (o.map Token.kind) (o'.map Token.kind) := by
  rcases h with rfl | ⟨-, ⟨t, rfl, hkind, -⟩, h⟩
  · left
    rw [Option.map_map]
    rfl
  · rwa [Option.map_some, hkind]

/-- What parsers see of two cursors at the same place: the next token, and further ones as long as no
line break comes. -/
structure Looks (m : Mirror) (c d : Cursor) : Prop where
  head : m.Sees c.head? d.head?
  second : c.kind? ≠ some .newline → Indistinct (c.kindAt? 1) (d.kindAt? 1)
  third : c.kind? ≠ some .newline → c.kindAt? 1 ≠ some .newline →
    Indistinct (c.kindAt? 2) (d.kindAt? 2)

theorem Looks.kind {m : Mirror} {c d : Cursor} (h : m.Looks c d) : Indistinct c.kind? d.kind? :=
  h.head.alike

theorem Looks.ofCopy (m : Mirror) (c : Cursor) :
    m.Looks c ⟨m.copy.extent c.last, c.rest.map m.copy.token⟩ := by
  have hkind : ∀ n, Cursor.kindAt? ⟨m.copy.extent c.last, c.rest.map m.copy.token⟩ n
      = c.kindAt? n := by
    intro n
    simp only [Cursor.kindAt?, List.getElem?_map, Option.map_map]
    rfl
  refine ⟨.inl ?_, fun _ => .inl (hkind 1), fun _ _ => .inl (hkind 2)⟩
  exact List.head?_map

end Mirror

/-- At a cursor where the first parser succeeds before the tail, the second gives the image of its
value; where the first one fails and there is no tail, the second fails with the copy of its error.
Both are then at the same place again. The first does not move back. -/
def MirrorsAt (m : Mirror) (F : α → β) (p : Parser α) (q : Parser β) (c : Cursor) : Prop :=
  match p c with
  | .ok a c' => c'.rest <:+ c.rest ∧ ∀ d, m.Meets c d → m.tail <:+ c'.rest →
    ∃ d', q d = .ok (F a) d' ∧ m.Meets c' d'
  | .error e c' => c'.rest <:+ c.rest ∧ ∀ d, m.Meets c d → m.tail = [] →
    ∃ d', q d = .error (m.copy.error e) d' ∧ m.Meets c' d'

def Mirrors (m : Mirror) (F : α → β) (p : Parser α) (q : Parser β) : Prop :=
  ∀ c, MirrorsAt m F p q c

namespace Mirror.Meets

variable {m : Mirror} {c d : Cursor}

theorem mk {last last' : Extent} (ts : List Token) (h : m.copy.Ends last last') :
    m.Meets ⟨last, ts ++ m.tail⟩ ⟨last', ts.map m.copy.token ++ m.tail'⟩ :=
  ⟨ts, rfl, rfl, h⟩

theorem tail_eq_nil (m : Mirror) (h : m.tail = []) : m.tail' = [] := by
  rcases m.alike with halike | ⟨hnewline, -⟩
  · rw [h] at halike
    simpa using halike
  · rw [h] at hnewline
    cases hnewline

theorem looks (h : m.Meets c d) : m.Looks c d := by
  obtain ⟨ts, hc, hd, -⟩ := h
  have htail : m.Sees m.tail.head? m.tail'.head? := by
    cases hcons : m.tail with
    | nil =>
      rw [tail_eq_nil m hcons]
      exact .inl rfl
    | cons t tail =>
      have ht := m.ending t (by simp [hcons])
      have halike := m.alike
      rw [hcons, List.head?_cons, Option.map_some, ht.1] at halike
      exact .inr ⟨by simp [hcons], ⟨t, rfl, ht⟩, halike⟩
  have hkind : m.tail.head?.map Token.kind ≠ some .newline → m.tail = [] ∧ m.tail' = [] := by
    intro hne
    cases hcons : m.tail with
    | nil => exact ⟨rfl, tail_eq_nil m hcons⟩
    | cons t tail =>
      rw [hcons, List.head?_cons, Option.map_some, (m.ending t (by simp [hcons])).1] at hne
      exact absurd rfl hne
  rcases ts with _ | ⟨t, _ | ⟨u, ts⟩⟩
  · -- At the tail: there is nothing more, or a line break comes next.
    simp only [List.nil_append, List.map_nil] at hc hd
    refine ⟨by rwa [Cursor.head?, Cursor.head?, hc, hd], fun hne => ?_, fun hne => ?_⟩ <;>
    · rw [Cursor.kind?, hc] at hne
      obtain ⟨hnil, hnil'⟩ := hkind hne
      simp only [Cursor.kindAt?, hc, hd, hnil, hnil']
      first | exact .refl _ | exact fun _ => .refl _
  · simp only [List.cons_append, List.nil_append, List.map_cons, List.map_nil] at hc hd
    refine ⟨by rw [Cursor.head?, Cursor.head?, hc, hd]; exact .inl rfl, fun _ => ?_,
      fun _ hne => ?_⟩
    · simpa [Cursor.kindAt?, hc, hd, ← List.head?_eq_getElem?] using htail.alike
    · obtain ⟨hnil, hnil'⟩ := hkind (by simpa [Cursor.kindAt?, hc, ← List.head?_eq_getElem?] using hne)
      simp only [Cursor.kindAt?, hc, hd, hnil, hnil']
      exact .refl _
  · simp only [List.cons_append, List.map_cons] at hc hd
    refine ⟨by rw [Cursor.head?, Cursor.head?, hc, hd]; exact .inl rfl, fun _ => ?_,
      fun _ _ => ?_⟩
    · simp only [Cursor.kindAt?, hc, hd]
      exact .refl _
    · cases ts with
      | nil => simpa [Cursor.kindAt?, hc, hd, ← List.head?_eq_getElem?] using htail.alike
      | cons v ts =>
        simp only [Cursor.kindAt?, hc, hd]
        exact .refl _

end Mirror.Meets

theorem many_eq {step : Parser (Option α)} (hp : StepProgress step) :
    many step = step >>= fun o => match o with
      | none => pure []
      | some a => many step >>= fun as => pure (a :: as) := by
  funext c
  rw [many_apply hp, bind_apply]
  rcases step c with ⟨_ | a, c₁⟩ | ⟨e, c₁⟩ <;> rfl

theorem repeatFrom_eq {step : α → Parser (Option α)} (hp : ∀ a, StepProgress (step a)) (a : α) :
    repeatFrom step a = step a >>= fun o => match o with
      | none => pure a
      | some a' => repeatFrom step a' := by
  funext c
  rw [repeatFrom_apply hp, bind_apply]
  rcases step a c with ⟨_ | a', c₁⟩ | ⟨e, c₁⟩ <;> rfl

namespace MirrorsAt

variable {m : Mirror} {F : α → β} {G : γ → δ} {p : Parser α} {q : Parser β} {f : α → Parser γ}
  {g : β → Parser δ} {c c' d : Cursor}

theorem forward (h : MirrorsAt m F p q c) {a : α} (hp : p c = .ok a c') : c'.rest <:+ c.rest := by
  rw [MirrorsAt, hp] at h
  exact h.1

theorem forward_error (h : MirrorsAt m F p q c) {e : ParseError} (hp : p c = .error e c') :
    c'.rest <:+ c.rest := by
  rw [MirrorsAt, hp] at h
  exact h.1

theorem ok (h : MirrorsAt m F p q c) {a : α} (hp : p c = .ok a c') (hd : m.Meets c d)
    (ht : m.tail <:+ c'.rest) : ∃ d', q d = .ok (F a) d' ∧ m.Meets c' d' := by
  rw [MirrorsAt, hp] at h
  exact h.2 d hd ht

theorem error (h : MirrorsAt m F p q c) {e : ParseError} (hp : p c = .error e c')
    (hd : m.Meets c d) (ht : m.tail = []) :
    ∃ d', q d = .error (m.copy.error e) d' ∧ m.Meets c' d' := by
  rw [MirrorsAt, hp] at h
  exact h.2 d hd ht

theorem bind (hp : MirrorsAt m F p q c)
    (hf : ∀ a c₁, p c = .ok a c₁ → MirrorsAt m G (f a) (g (F a)) c₁) :
    MirrorsAt m G (p >>= f) (q >>= g) c := by
  rw [MirrorsAt, bind_apply]
  cases hc : p c with
  | error e c₁ =>
    refine ⟨hp.forward_error hc, fun d hd ht => ?_⟩
    obtain ⟨d₁, hq, hd₁⟩ := hp.error hc hd ht
    exact ⟨d₁, by rw [bind_apply, hq], hd₁⟩
  | ok a c₁ =>
    have hfa := hf a c₁ hc
    dsimp only
    cases hc₁ : f a c₁ with
    | error e c₂ =>
      refine ⟨(hfa.forward_error hc₁).trans (hp.forward hc), fun d hd ht => ?_⟩
      obtain ⟨d₁, hq, hd₁⟩ := hp.ok hc hd (ht ▸ List.nil_suffix)
      obtain ⟨d₂, hg, hd₂⟩ := hfa.error hc₁ hd₁ ht
      exact ⟨d₂, by rw [bind_of_ok hq, hg], hd₂⟩
    | ok b c₂ =>
      have hforward := hfa.forward hc₁
      refine ⟨hforward.trans (hp.forward hc), fun d hd ht => ?_⟩
      -- What was not read at the end was not read in between.
      obtain ⟨d₁, hq, hd₁⟩ := hp.ok hc hd (ht.trans hforward)
      obtain ⟨d₂, hg, hd₂⟩ := hfa.ok hc₁ hd₁ ht
      exact ⟨d₂, by rw [bind_of_ok hq, hg], hd₂⟩

theorem get {f : Cursor → Parser γ} {g : Cursor → Parser δ}
    (h : ∀ d, m.Looks c d → MirrorsAt m G (f c) (g d) c) :
    MirrorsAt m G (MonadState.get >>= f) (MonadState.get >>= g) c := by
  have hcopy := h _ (.ofCopy m c)
  rw [MirrorsAt, get_bind]
  cases hfc : f c c with
  | error e c' =>
    exact ⟨hcopy.forward_error hfc, fun d hd ht => (h d hd.looks).error hfc hd ht⟩
  | ok a c' => exact ⟨hcopy.forward hfc, fun d hd ht => (h d hd.looks).ok hfc hd ht⟩

theorem peek {f : Option Token → Parser γ} {g : Option Token → Parser δ}
    (h : ∀ o, m.Sees c.head? o → MirrorsAt m G (f c.head?) (g o) c) :
    MirrorsAt m G (Parser.peek >>= f) (Parser.peek >>= g) c :=
  .get fun d hd => h d.head? hd.head

end MirrorsAt

namespace Mirrors

variable {m : Mirror} {F : α → β} {G : γ → δ} {p : Parser α} {q : Parser β} {f : α → Parser γ}
  {g : β → Parser δ}

theorem pure {a : α} {b : β} (h : b = F a) : Mirrors m F (Pure.pure a) (Pure.pure b) :=
  fun _ => ⟨List.suffix_rfl, fun d hd _ => ⟨d, h ▸ rfl, hd⟩⟩

theorem throw {e e' : ParseError} (h : e' = m.copy.error e) :
    Mirrors m F (MonadExcept.throw e) (MonadExcept.throw e') :=
  fun _ => ⟨List.suffix_rfl, fun d hd _ => ⟨d, h ▸ rfl, hd⟩⟩

theorem bind (hp : Mirrors m F p q) (hf : ∀ a, Mirrors m G (f a) (g (F a))) :
    Mirrors m G (p >>= f) (q >>= g) :=
  fun c => (hp c).bind fun a c₁ _ => hf a c₁

theorem map {k : α → γ} {k' : β → δ} (hp : Mirrors m F p q) (h : ∀ a, k' (F a) = G (k a)) :
    Mirrors m G (k <$> p) (k' <$> q) := by
  rw [map_eq_pure_bind, map_eq_pure_bind]
  exact hp.bind fun a => .pure (h a)

theorem ite {b b' : Prop} [Decidable b] [Decidable b'] {p' : Parser α} {q' : Parser β}
    (hb : b' ↔ b) (h : b → Mirrors m F p q) (h' : ¬ b → Mirrors m F p' q') :
    Mirrors m F (if b then p else p') (if b' then q else q') := by
  by_cases hc : b
  · rw [if_pos hc, if_pos (hb.2 hc)]
    exact h hc
  · rw [if_neg hc, if_neg (mt hb.1 hc)]
    exact h' hc

/-- Where the end is at a line break, failures need not be mirrored. -/
theorem failing (hm : m.tail ≠ []) (hp : ∀ c, ∃ e, p c = .error e c) : Mirrors m F p q := by
  intro c
  obtain ⟨e, he⟩ := hp c
  rw [MirrorsAt, he]
  exact ⟨List.suffix_rfl, fun _ _ ht => absurd ht hm⟩

section Looking

variable {f : Cursor → Parser γ} {g : Cursor → Parser δ}

theorem get (h : ∀ c d, m.Looks c d → Mirrors m G (f c) (g d)) :
    Mirrors m G (MonadState.get >>= f) (MonadState.get >>= g) :=
  fun c => .get fun d hd => h c d hd c

theorem peek {f : Option Token → Parser γ} {g : Option Token → Parser δ}
    (h : ∀ o o', m.Sees o o' → Mirrors m G (f o) (g o')) :
    Mirrors m G (Parser.peek >>= f) (Parser.peek >>= g) :=
  fun c => .peek fun o ho => h c.head? o ho c

theorem peekKind {f : Option TokenKind → Parser γ} {g : Option TokenKind → Parser δ}
    (h : ∀ k k', Indistinct k k' → Mirrors m G (f k) (g k')) :
    Mirrors m G (Parser.peekKind >>= f) (Parser.peekKind >>= g) :=
  .get fun c d hd => h c.kind? d.kind? hd.kind

end Looking

section Steps

theorem atStatementEnd : Mirrors m id Parser.atStatementEnd Parser.atStatementEnd := by
  refine .get fun c d hd => .pure ?_
  show d.atStatementEnd = c.atStatementEnd
  unfold Cursor.atStatementEnd
  rcases hd.kind with hk | ⟨hk, hk'⟩
  · rw [hk]
  · rw [hk, hk']

theorem extentFrom (first : Extent) : Mirrors m m.copy.extent (Parser.extentFrom first)
    (Parser.extentFrom (m.copy.extent first)) := by
  refine fun c => ⟨List.suffix_rfl, fun d hd _ => ⟨d, ?_, hd⟩⟩
  obtain ⟨-, -, -, hends⟩ := hd
  rw [extentFrom_apply, hends.through]

theorem advance : Mirrors m id Parser.advance Parser.advance := by
  refine fun c => ⟨c.next_suffix, fun d hd ht => ⟨d.next, rfl, ?_⟩⟩
  obtain ⟨last, rest⟩ := c
  obtain ⟨last', rest'⟩ := d
  obtain ⟨_ | ⟨t, ts⟩, rfl, rfl, hends⟩ := hd
  · -- A line break at the start of the tail has not been read, so there is no tail.
    cases htail : m.tail with
    | nil =>
      rw [Mirror.Meets.tail_eq_nil m htail]
      exact ⟨[], htail.symm, (Mirror.Meets.tail_eq_nil m htail).symm, hends⟩
    | cons t ts =>
      have hle := ht.length_le
      simp only [List.nil_append, htail, Cursor.next, List.length_cons] at hle
      omega
  · exact ⟨ts, rfl, rfl, m.copy.ends_extent t.extent⟩

theorem skip {kinds : List TokenKind} (hk : .newline ∈ kinds) :
    Mirrors m id (modify fun c => Cursor.skip kinds c.last c.rest)
      (modify fun c => Cursor.skip kinds c.last c.rest) := by
  refine fun c => ⟨Cursor.skip_suffix kinds c.last c.rest, fun d hd ht => ⟨_, rfl, ?_⟩⟩
  obtain ⟨last, rest⟩ := c
  obtain ⟨last', rest'⟩ := d
  obtain ⟨ts, rfl, rfl, hends⟩ := hd
  dsimp only at hends ht ⊢
  induction ts generalizing last last' with
  | nil =>
    simp only [List.nil_append, List.map_nil] at ht ⊢
    cases htail : m.tail with
    | nil =>
      rw [Mirror.Meets.tail_eq_nil m htail]
      exact ⟨[], htail.symm, (Mirror.Meets.tail_eq_nil m htail).symm, hends⟩
    | cons t ts =>
      have hkind := (m.ending t (by simp [htail])).1
      have hle := ht.length_le
      rw [htail, Cursor.skip, if_pos (hkind ▸ hk)] at hle
      have := (Cursor.skip_suffix kinds t.extent ts).length_le
      rw [List.length_cons] at hle
      omega
  | cons t ts ih =>
    simp only [List.cons_append, List.map_cons, Cursor.skip] at ht ⊢
    by_cases hkind : t.kind ∈ kinds
    · have hkind' : (m.copy.token t).kind ∈ kinds := hkind
      rw [if_pos hkind] at ht
      rw [if_pos hkind, if_pos hkind']
      exact ih _ _ ht (m.copy.ends_extent t.extent)
    · have hkind' : (m.copy.token t).kind ∉ kinds := hkind
      rw [if_neg hkind, if_neg hkind']
      exact .mk (t :: ts) hends

theorem skipNewlines : Mirrors m id Parser.skipNewlines Parser.skipNewlines :=
  .skip (by decide)

theorem skipSeparators : Mirrors m id Parser.skipSeparators Parser.skipSeparators :=
  .skip (by decide)

theorem accept {kind : TokenKind} (hk : kind ≠ .newline) :
    Mirrors m id (Parser.accept kind) (Parser.accept kind) :=
  .peekKind fun _ _ h => .ite (h.eq_some_iff hk) (fun _ => .bind .advance fun _ => .pure rfl)
    fun _ => .pure rfl

theorem expected (what : String) : Mirrors m F (Parser.expected what) (Parser.expected what) := by
  refine .peek fun o o' ho => ?_
  rcases ho with rfl | ⟨hm, ho, -⟩
  · cases o with
    | none => exact .throw rfl
    | some t => exact .throw rfl
  · obtain ⟨t, rfl, -⟩ := ho
    exact .failing hm fun c => ⟨_, rfl⟩

theorem expected_failing (hm : m.tail ≠ []) (what : String) : Mirrors m F (Parser.expected what) q :=
  .failing hm (expected_eq_error what)

theorem expect {k : TokenKind} (hk : k ≠ .newline) (what : String) :
    Mirrors m (m.copy.text k) (Parser.expect k what) (Parser.expect k what) := by
  refine .peek fun o o' ho => ?_
  rcases ho with rfl | ⟨hm, ho, -⟩
  · cases o with
    | none => exact .expected what
    | some t =>
      refine .ite .rfl (fun hkind => .bind .advance fun _ => .pure ?_) fun _ => .expected what
      rw [← hkind]
      rfl
  · obtain ⟨t, rfl, hkind, -⟩ := ho
    dsimp only
    rw [if_neg (hkind ▸ hk.symm)]
    exact .expected_failing hm what

theorem expectName (what : String) :
    Mirrors m m.copy.name (Parser.expect .identifier what) (Parser.expect .identifier what) := by
  have h := Mirrors.expect (m := m) (k := .identifier) (by decide) what
  rwa [show m.copy.text .identifier = m.copy.name from funext m.copy.text_identifier] at h

theorem expectWord (what : String) :
    Mirrors m m.copy.name (Parser.expectWord what) (Parser.expectWord what) := by
  refine .peek fun o o' ho => ?_
  rcases ho with rfl | ⟨hm, ho, -⟩
  · cases o with
    | none => exact .expected what
    | some t =>
      refine .ite (by rw [Copy.isWord_token]) (fun hword => .bind .advance fun _ => .pure ?_)
        fun _ => .expected what
      exact m.copy.text_word t.kind t.text t.extent hword
  · obtain ⟨t, rfl, -, hword⟩ := ho
    dsimp only
    rw [hword]
    exact .expected_failing hm what

theorem peek_advance {f : Token → Parser α} {g : Token → Parser β} (what : String)
    (h : ∀ t, Mirrors m F (f t) (g (m.copy.token t))) :
    Mirrors m F
      (do
        let some t ← Parser.peek | Parser.expected what
        Parser.advance
        f t)
      (do
        let some t ← Parser.peek | Parser.expected what
        Parser.advance
        g t) := by
  intro c
  obtain ⟨last, _ | ⟨t, rest⟩⟩ := c
  · refine ⟨List.suffix_rfl, fun d hd ht => ?_⟩
    have hhead : d.head? = none := by
      rcases hd.looks.head with hhead | ⟨-, ⟨t, hc, -⟩, -⟩
      · exact hhead
      · cases hc
    rw [peek_bind, hhead]
    exact (Mirrors.expected (F := F) what _).error rfl hd ht
  · have hread : ∀ d, m.Meets ⟨last, t :: rest⟩ d → m.tail <:+ rest →
        d.head? = some (m.copy.token t) ∧ m.Meets ⟨t.extent, rest⟩ d.next := by
      rintro ⟨last', rest'⟩ ⟨_ | ⟨u, ts⟩, hc, rfl, -⟩ ht
      · have hle := ht.length_le
        rw [show m.tail = t :: rest from hc.symm, List.length_cons] at hle
        omega
      · obtain ⟨rfl, rfl⟩ := List.cons.inj hc
        exact ⟨rfl, .mk ts (m.copy.ends_extent t.extent)⟩
    show match f t ⟨t.extent, rest⟩ with
      | .ok a c' => _
      | .error e c' => _
    have htoken := h t ⟨t.extent, rest⟩
    cases hf : f t ⟨t.extent, rest⟩ with
    | error e c' =>
      refine ⟨(htoken.forward_error hf).trans (List.suffix_cons ..), fun d hd ht => ?_⟩
      obtain ⟨hhead, hnext⟩ := hread d hd (ht ▸ List.nil_suffix)
      rw [peek_bind, hhead]
      exact htoken.error hf hnext ht
    | ok a c' =>
      have hforward := htoken.forward hf
      refine ⟨hforward.trans (List.suffix_cons ..), fun d hd ht => ?_⟩
      obtain ⟨hhead, hnext⟩ := hread d hd (ht.trans hforward)
      rw [peek_bind, hhead]
      exact htoken.ok hf hnext ht

end Steps

section Loops

variable {F : α → β} {p : Parser α} {q : Parser β}

theorem many {step : Parser (Option α)} {step' : Parser (Option β)}
    (h : Mirrors m (Option.map F) step step') (hp : StepProgress step) (hp' : StepProgress step') :
    Mirrors m (List.map F) (Parser.many step) (Parser.many step') := by
  intro c
  induction hn : c.rest.length using Nat.strongRecOn generalizing c with
  | _ n ih =>
    rw [many_eq hp, many_eq hp']
    refine (h c).bind fun o c₁ hs => ?_
    cases o with
    | none => exact Mirrors.pure rfl c₁
    | some a => exact (ih _ (hn ▸ hp _ _ _ hs) c₁ rfl).bind fun as c₂ _ => Mirrors.pure rfl c₂

theorem repeatFrom {step : α → Parser (Option α)} {step' : β → Parser (Option β)}
    (h : ∀ a, Mirrors m (Option.map F) (step a) (step' (F a))) (hp : ∀ a, StepProgress (step a))
    (hp' : ∀ b, StepProgress (step' b)) (a : α) :
    Mirrors m F (Parser.repeatFrom step a) (Parser.repeatFrom step' (F a)) := by
  intro c
  induction hn : c.rest.length using Nat.strongRecOn generalizing c a with
  | _ n ih =>
    rw [repeatFrom_eq hp, repeatFrom_eq hp']
    refine (h a c).bind fun o c₁ hs => ?_
    cases o with
    | none => exact Mirrors.pure rfl c₁
    | some a₁ => exact ih _ (hn ▸ hp _ _ _ _ hs) a₁ c₁ rfl

theorem after {kind : TokenKind} (hk : kind ≠ .newline) (h : Mirrors m F p q) :
    Mirrors m (Option.map F) (Parser.after kind p) (Parser.after kind q) :=
  .bind (.accept hk) fun _ => .ite .rfl (fun _ => .bind h fun _ => .pure rfl) fun _ => .pure rfl

theorem commaSeparated (closing : Symbol) (h : Mirrors m F p q)
    (hp : StepProgress (Parser.after (.symbol .comma) p))
    (hp' : StepProgress (Parser.after (.symbol .comma) q)) :
    Mirrors m (List.map F) (Parser.commaSeparated closing p) (Parser.commaSeparated closing q) :=
  .peekKind fun _ _ hk => .ite (hk.eq_some_iff nofun) (fun _ => .pure rfl) fun _ =>
    .bind h fun _ => .bind (.many (.after nofun h) hp hp') fun _ => .pure rfl

end Loops

end Mirrors

end BrightCoverage
