import BrightCoverage.Proofs.Rendering

/-! A tree that is written canonically is read back. Each node that is fine is spelled by its own
lexemes, by induction along the tree, and what is spelled can be read. -/

namespace BrightCoverage

open BrightCoverage.Parser

section Texts

theorem Word.isWord {name : String} {t : Token} (h : Word name) (ht : t.text = name) :
    t.isWord = true := by
  obtain ⟨c, rest, hn, hc, hc', hrest⟩ := h
  simp [Token.isWord, ht, hn, hc, hc', hrest]

theorem word_iff {name : String} {k : TokenKind} {here : Extent} :
    Word name ↔ Token.isWord ⟨k, name, here⟩ = true := by
  refine ⟨fun h => h.isWord rfl, fun h => ?_⟩
  unfold Token.isWord at h
  split at h
  · cases h
  · next c rest hname =>
    simp only [Bool.and_eq_true] at h
    exact ⟨c, rest, hname, h.1.1, h.1.2, h.2⟩

instance : DecidablePred Word := fun name =>
  decidable_of_iff (Token.isWord ⟨.identifier, name, Mark.origin.extentTo Mark.origin⟩ = true)
    word_iff.symm

instance : DecidablePred Name := fun name =>
  inferInstanceAs (Decidable (Word name ∧ Keyword.ofWord? name = none))

theorem Name.kind {name : String} (h : Name name) : (Lexeme.word name).kind = .identifier := by
  simp [Lexeme.kind, h.2]

theorem Lexeme.word_kind_ne_symbol (name : String) (s : Symbol) :
    (Lexeme.word name).kind ≠ .symbol s := by
  cases h : Keyword.ofWord? name <;> simp [kind, h]

theorem digitValue_digitChar : ∀ d < 10, digitValue (Nat.digitChar d) = d := by
  decide

theorem ofDigits_toDigits (n : Nat) : ofDigits 10 (Nat.toDigits 10 n) = n := by
  induction n using Nat.strongRecOn with
  | _ n ih =>
    rcases Nat.lt_or_ge n 10 with h | h
    · rw [Nat.toDigits_of_lt_base h]
      simp [ofDigits, digitValue_digitChar n h]
    · have hdiv := ih (n / 10) (by omega)
      rw [Nat.toDigits_of_base_le (by decide) h]
      simp only [ofDigits, List.foldl_append, List.foldl_cons, List.foldl_nil] at hdiv ⊢
      rw [hdiv, digitValue_digitChar _ (Nat.mod_lt _ (by decide))]
      omega

theorem integerValue_repr (n : Nat) : integerValue 10 n.repr.toList = n := by
  have hdigits : ∀ c ∈ Nat.toDigits 10 n, c ≠ '&' := by
    rintro c hc rfl
    exact absurd (Nat.isDigit_of_mem_toDigits (by decide) (by decide) hc) (by decide)
  rw [integerValue, Nat.repr_eq_ofList_toDigits, String.toList_ofList,
    List.filter_eq_self.2 (by simpa using hdigits), ofDigits_toDigits]

theorem undoubleQuotes_doubleQuotes (text : List Char) :
    undoubleQuotes (doubleQuotes text) = text := by
  induction text with
  | nil => rfl
  | cons c rest ih => by_cases hc : c = '"' <;> simp [doubleQuotes, hc, undoubleQuotes, ih]

theorem unquoteText_quote (value : String) :
    unquoteText (String.ofList (quote value.toList)) = value := by
  have h : betweenQuotes (quote value.toList) = doubleQuotes value.toList := by
    simp [betweenQuotes, quote]
  rw [unquoteText, String.toList_ofList, unquote, h, undoubleQuotes_doubleQuotes,
    String.ofList_toList]

theorem ofLine_append {args : String} {kind : DirectiveKind} {name : List Char} (lead : String)
    (hlead : ∀ rest, Directive.ofLine (lead.toList ++ rest) = ⟨some kind, name, trim (' ' :: rest)⟩)
    (h : Trimmed args) : Directive.ofLine (lead ++ args).toList = ⟨some kind, name, args.toList⟩ := by
  have hblank : isBlank ' ' = true := by decide
  have htrim : trim (' ' :: args.toList) = args.toList := by
    rw [trim, trimLeft, List.dropWhile_cons_of_pos hblank]
    exact h
  rw [String.toList_append, hlead, htrim]

end Texts

variable {ts us rest : List Token} {t : Token} {k : TokenKind}

/-- Nothing is asked of the notes in a tree. -/
def Plain (_ : Phrase Extent) (_ _ : List Token) : Prop :=
  True

theorem Form.spells {ph : Phrase Extent} {ps : List (Part Extent)} (form : Form ph ps)
    (fits : Fits (Spells Plain) ps ts rest) : Spells Plain ph ts rest :=
  .mk form fits trivial

def starters : List TokenKind :=
  [.integer, .string, .identifier, .keyword .trueKw, .keyword .falseKw, .keyword .invalidKw,
    .keyword .notKw, .keyword .functionKw, .keyword .subKw, .symbol .minus, .symbol .leftParen,
    .symbol .leftBracket, .symbol .leftBrace]

/-- The kinds of tokens behind a written expression that goes no further. -/
def closers : List TokenKind :=
  [.newline, .keyword .thenKw, .keyword .toKw, .keyword .stepKw, .keyword .asKw, .symbol .comma,
    .symbol .semicolon, .symbol .rightParen, .symbol .rightBracket, .symbol .rightBrace]

theorem inert_of_closer (h : kindOf rest = some k) (hk : k ∈ closers) : Inert rest := by
  have hall : ∀ k ∈ closers, some k ∉ attachments ∧ BinaryOp.ofKind? k = none := by decide
  obtain ⟨ha, hb⟩ := hall k hk
  refine ⟨?_, ?_⟩
  · rw [Unattached, h]
    exact ha
  · rw [h]
    exact hb

theorem kindOf_cons (h : t.kind = k) : kindOf (t :: ts) = some k :=
  congrArg some h

theorem Fits.skip_none {P : Phrase Extent → List Token → List Token → Prop}
    {ps : List (Part Extent)} {ks : List TokenKind} (h : ∀ k ∈ ks, kindOf ts ≠ some k)
    (fits : Fits P ps ts rest) : Fits P (.skip ks :: ps) ts rest := by
  have hdrop : ts.dropWhile (·.kind ∈ ks) = ts := by
    cases ts with
    | nil => rfl
    | cons t ts => exact List.dropWhile_cons_of_neg (by simpa using fun hk => h _ hk rfl)
  exact fits_skip.2 (hdrop.symm ▸ fits)

theorem Fits.newlines {P : Phrase Extent → List Token → List Token → Prop}
    {ps : List (Part Extent)} (h : kindOf ts ≠ some .newline) (fits : Fits P ps ts rest) :
    Fits P (.newlines :: ps) ts rest :=
  fits.skip_none (by simpa using h)

def Unseparated (ts : List Token) : Prop :=
  ∀ k ∈ [TokenKind.newline, .symbol .colon], kindOf ts ≠ some k

/-- The tokens are those of a statement: no separator, and nothing that ends a list of statements. -/
structure Opens (ts : List Token) : Prop where
  ne_nil : ts ≠ []
  inside : ∀ stop : Stop, stop.atEnd (.ofTokens ts) = false
  apart : Unseparated ts

/-- The node can be read back from its lexemes. -/
def Node.Rendered : Node → Prop
  | .expression e => (∃ l ls, e.render = l :: ls ∧ l.kind ∈ starters) ∧
    ∀ ts rest, Printed e.render ts rest → Spells Plain (.expression e) ts rest
  | .statement s => ∀ ts rest, Printed s.render ts rest → kindOf rest = some .newline →
    Opens ts ∧ Spells Plain (.statement s) ts rest

def Piece.Rendered : Piece → Prop
  | expression e | opening e | clause _ e => (Node.expression e).Rendered
  | statements body => ∀ s ∈ body, (Node.statement s).Rendered

theorem Piece.rendered {p : Piece} (h : ∀ m ∈ p.nodes, m.Rendered) : p.Rendered := by
  cases p with
  | expression | opening | clause => exact h _ (List.mem_singleton_self _)
  | statements => exact List.forall_mem_map.1 h

section Expressions

variable {e : Expr Extent}

theorem Printed.starts (h : Printed e.render ts rest) (he : (Node.expression e).Rendered) :
    ∃ k ∈ starters, kindOf ts = some k := by
  obtain ⟨⟨l, ls, hl, hk⟩, -⟩ := he
  rw [hl, printed_cons] at h
  obtain ⟨t, us, rfl, ht, -⟩ := h
  exact ⟨l.kind, hk, by rw [← ht]; rfl⟩

theorem Printed.value (h : Printed e.render ts rest) (he : (Node.expression e).Rendered)
    (hrest : kindOf rest = some k) (hk : k ∈ closers) : Spells Plain (.value e) ts rest :=
  Form.value.spells (.phrase (he.2 _ _ h) (.ahead (inert_of_closer hrest hk) .nil))

theorem Printed.starts_ne (h : Printed e.render ts rest) (he : (Node.expression e).Rendered)
    (hk : k ∉ starters) : kindOf ts ≠ some k := by
  obtain ⟨k', hk', hts⟩ := h.starts he
  rw [hts]
  rintro ⟨⟩
  exact hk hk'

theorem Printed.ne_newline (h : Printed e.render ts rest) (he : (Node.expression e).Rendered) :
    kindOf ts ≠ some .newline :=
  h.starts_ne he (by decide)

theorem Printed.argument (h : Printed e.render ts rest) (he : (Node.expression e).Rendered)
    (hrest : kindOf rest = some (.symbol .comma) ∨ kindOf rest = some (.symbol .rightParen)) :
    Spells Plain (.argument e) ts rest := by
  obtain ⟨k, hk, hnl, hrest⟩ : ∃ k ∈ closers, k ≠ .newline ∧ kindOf rest = some k := by
    rcases hrest with h | h
    · exact ⟨_, by decide, by decide, h⟩
    · exact ⟨_, by decide, by decide, h⟩
  have hrest' : kindOf rest ≠ some .newline := by simpa [hrest] using hnl
  exact Form.argument.spells
    (.newlines (h.ne_newline he) (.phrase (h.value he hrest hk) (.newlines hrest' .nil)))

theorem Printed.entry {entry : Entry Extent} (h : Printed entry.render ts rest)
    (he : (Node.expression entry.value).Rendered) (hrest : kindOf rest = some k)
    (hk : k ∈ closers) : Spells Plain (.entry entry) ts rest := by
  obtain ⟨key, value⟩ := entry
  simp only [Entry.render, printed_cons] at h
  obtain ⟨t, _, rfl, ht, htext, t', _, rfl, ht', -, h⟩ := h
  refine Form.stringKey.spells (.token ht ?_ (.token ht' trivial (.phrase ?_ .nil)))
  · rw [htext]
    exact unquoteText_quote key
  · exact h.value he hrest hk

theorem Printed.name? {lead : Keyword} {name : Option String} (hname : ∀ n ∈ name, Word n)
    (h : Printed (renderName? (.keyword lead) name) ts rest) (hrest : kindOf rest = some k)
    (hk : k ≠ .keyword lead) :
    Spells Plain (.maybe (.keyword lead) (name.map .word)) ts rest ∧
      (kindOf ts = some (.keyword lead) ∨ kindOf ts = some k) := by
  cases name with
  | none =>
    obtain rfl := printed_nil.1 h
    refine ⟨Form.maybeNone.spells (.ahead ?_ .nil), .inr hrest⟩
    rw [hrest]
    simpa using hk
  | some n =>
    simp only [renderName?, printed_cons, printed_nil] at h
    obtain ⟨t, _, rfl, ht, -, t', us, rfl, -, htext, rfl⟩ := h
    have hword : Spells Plain (.word n) (t' :: us) us :=
      Form.word.spells (.word ((hname n rfl).isWord htext) htext .nil)
    exact ⟨Form.maybeSome.spells (.token ht trivial (.phrase hword .nil)), .inl (kindOf_cons ht)⟩

theorem Printed.expr? {lead : Lexeme} {o : Option (Expr Extent)}
    (ho : ∀ e ∈ o, (Node.expression e).Rendered) (h : Printed (renderExpr? [lead] o) ts rest)
    (hrest : kindOf rest = some k) (hk : k ∈ closers) (hlead : k ≠ lead.kind) :
    Spells Plain (.maybe lead.kind (o.map .value)) ts rest ∧
      (kindOf ts = some lead.kind ∨ kindOf ts = some k) := by
  cases o with
  | none =>
    obtain rfl := printed_nil.1 h
    refine ⟨Form.maybeNone.spells (.ahead ?_ .nil), .inr hrest⟩
    rw [hrest]
    simpa using hlead
  | some e =>
    obtain ⟨t, _, rfl, ht, -, h⟩ := printed_cons.1 h
    have hvalue := h.value (ho e rfl) hrest hk
    exact ⟨Form.maybeSome.spells (.token ht trivial (.phrase hvalue .nil)), .inl (kindOf_cons ht)⟩

theorem Printed.parameter {param : Parameter Extent} (h : Printed param.render ts rest)
    (hp : param.Fine) (hd : ∀ e ∈ param.default, (Node.expression e).Rendered)
    (hrest : kindOf rest = some (.symbol .comma) ∨ kindOf rest = some (.symbol .rightParen)) :
    Spells Plain (.parameter param) ts rest := by
  obtain ⟨name, default, type⟩ := param
  simp only [Parameter.render, printed_cons, printed_append] at h
  obtain ⟨t, _, rfl, -, htext, mid, hdefault, htype⟩ := h
  obtain ⟨k, hk, hrest⟩ : ∃ k ∈ [TokenKind.symbol .comma, .symbol .rightParen],
      kindOf rest = some k := by
    rcases hrest with h | h
    · exact ⟨_, by decide, h⟩
    · exact ⟨_, by decide, h⟩
  have hkinds : ∀ k ∈ [TokenKind.symbol .comma, .symbol .rightParen],
      k ≠ .keyword .asKw ∧ k ∈ closers ∧ k ≠ .symbol .equals := by decide
  obtain ⟨has, hclose, heq⟩ := hkinds k hk
  obtain ⟨htype, hmid⟩ := htype.name? hp.2 hrest has
  obtain ⟨k', hclose', heq', hmid⟩ : ∃ k' ∈ closers, k' ≠ .symbol .equals ∧ kindOf mid = some k' := by
    rcases hmid with h | h
    · exact ⟨_, by decide, by decide, h⟩
    · exact ⟨_, hclose, heq, h⟩
  obtain ⟨hdefault, -⟩ := hdefault.expr? hd hmid hclose' heq'
  exact Form.parameter.spells
    (.word (hp.1.isWord htext) htext (.phrase hdefault (.phrase htype .nil)))

end Expressions

section Lists

variable {β : Type} {f : β → Phrase Extent} {r : β → List Lexeme} {closing : Symbol}

theorem Printed.more {xs : List β}
    (hx : ∀ x ∈ xs, ∀ ts rest, Printed (r x) ts rest →
      kindOf rest = some (.symbol .comma) ∨ kindOf rest = some (.symbol closing) →
      Spells Plain (f x) ts rest)
    (hc : closing ≠ .comma) (h : Printed ((xs.map r).flatMap (.symbol .comma :: ·)) ts rest)
    (hrest : kindOf rest = some (.symbol closing)) :
    Spells Plain (.more (xs.map f)) ts rest ∧
      (kindOf ts = some (.symbol .comma) ∨ kindOf ts = some (.symbol closing)) := by
  induction xs generalizing ts with
  | nil =>
    obtain rfl := printed_nil.1 h
    refine ⟨Form.moreNil.spells (.ahead ?_ .nil), .inr hrest⟩
    rw [hrest]
    simpa using hc
  | cons x xs ih =>
    obtain ⟨hx, hxs⟩ := List.forall_mem_cons.1 hx
    simp only [List.map_cons, List.flatMap_cons, List.cons_append, printed_cons,
      printed_append] at h
    obtain ⟨t, _, rfl, ht, -, mid, h, hmore⟩ := h
    obtain ⟨hmore, hmid⟩ := ih hxs hmore
    exact ⟨Form.moreCons.spells (.token ht trivial (.phrase (hx _ _ h hmid) (.phrase hmore .nil))),
      .inl (kindOf_cons ht)⟩

theorem Printed.list {xs : List β}
    (hx : ∀ x ∈ xs, ∀ ts rest, Printed (r x) ts rest →
      kindOf rest = some (.symbol .comma) ∨ kindOf rest = some (.symbol closing) →
      Spells Plain (f x) ts rest ∧ kindOf ts ≠ some (.symbol closing))
    (hc : closing ≠ .comma) (h : Printed (commas (xs.map r)) ts rest)
    (hrest : kindOf rest = some (.symbol closing)) :
    Spells Plain (.list closing (xs.map f)) ts rest := by
  cases xs with
  | nil =>
    obtain rfl := printed_nil.1 h
    exact Form.listNil.spells (.ahead hrest .nil)
  | cons x xs =>
    obtain ⟨hx, hxs⟩ := List.forall_mem_cons.1 hx
    obtain ⟨mid, h, hmore⟩ := printed_append.1 h
    obtain ⟨hmore, hmid⟩ := Printed.more (fun x hmem ts rest h h' => (hxs x hmem ts rest h h').1)
      hc hmore hrest
    obtain ⟨hspells, hstart⟩ := hx _ _ h hmid
    exact Form.listCons.spells (.ahead hstart (.phrase hspells (.phrase hmore .nil)))

theorem Printed.items {xs : List β}
    (hx : ∀ x ∈ xs, ∀ ts rest, Printed (r x) ts rest →
      kindOf rest = some (.symbol .comma) ∨ kindOf rest = some (.symbol closing) →
      Spells Plain (f x) ts rest ∧ kindOf ts ≠ some (.symbol closing) ∧ kindOf ts ≠ some .newline)
    (hc : closing ≠ .comma) (h : Printed (commas (xs.map r)) ts rest)
    (hrest : kindOf rest = some (.symbol closing)) :
    Spells Plain (.items closing (xs.map f)) ts rest := by
  induction xs generalizing ts with
  | nil =>
    obtain rfl := printed_nil.1 h
    exact Form.itemsNil.spells (.newlines (by simp [hrest]) (.ahead hrest .nil))
  | cons x xs ih =>
    obtain ⟨hitem, hitems⟩ := List.forall_mem_cons.1 hx
    cases xs with
    | nil =>
      rw [commas.eq_def] at h
      simp only [List.map_cons, List.map_nil, List.flatMap_nil, List.append_nil] at h
      obtain ⟨hspells, hclosing, hnl⟩ := hitem _ _ h (.inr hrest)
      refine Form.itemsLast.spells
        (.newlines hnl (.ahead hclosing (.phrase hspells (.ahead ?_ .nil))))
      rw [hrest]
      simpa using hc
    | cons y ys =>
      have hcommas : commas ((x :: y :: ys).map r)
          = r x ++ .symbol .comma :: commas ((y :: ys).map r) := by
        simp [commas]
      rw [hcommas, printed_append] at h
      obtain ⟨mid, h, hmore⟩ := h
      obtain ⟨t, us, rfl, ht, -, hmore⟩ := printed_cons.1 hmore
      obtain ⟨hspells, hclosing, hnl⟩ := hitem _ _ h (.inl (kindOf_cons ht))
      exact Form.itemsComma.spells (.newlines hnl (.ahead hclosing
        (.phrase hspells (.token ht trivial (.phrase (ih hitems hmore) .nil)))))

end Lists

section Blocks

variable {stop : Stop} {body : List (Statement Extent)}

theorem Spells.newline_block (h : Spells Plain (.block stop body) ts rest)
    (ht : t.kind = .newline) : Spells Plain (.block stop body) (t :: ts) rest := by
  obtain ⟨ps, form, fits⟩ := h.form
  have hdrop : (t :: ts).dropWhile (·.kind ∈ [TokenKind.newline, .symbol .colon])
      = ts.dropWhile (·.kind ∈ [TokenKind.newline, .symbol .colon]) :=
    List.dropWhile_cons_of_pos (by simp [ht])
  cases form with
  | blockNil => exact Form.blockNil.spells (fits_skip.2 (hdrop ▸ fits_skip.1 fits))
  | blockCons => exact Form.blockCons.spells (fits_skip.2 (hdrop ▸ fits_skip.1 fits))

structure Stop.Ends (stop : Stop) (ts : List Token) : Prop where
  atEnd : ts = [] ∨ stop.atEnd (.ofTokens ts) = true
  apart : Unseparated ts

theorem Printed.block (h : Printed (renderBody body) ts rest)
    (hb : ∀ s ∈ body, (Node.statement s).Rendered) (hend : stop.Ends rest) :
    Spells Plain (.block stop body) ts rest := by
  induction body generalizing ts with
  | nil =>
    obtain rfl := printed_nil.1 h
    exact Form.blockNil.spells (.skip_none hend.apart (.ahead hend.atEnd .nil))
  | cons s body ih =>
    obtain ⟨hs, hb⟩ := List.forall_mem_cons.1 hb
    simp only [renderBody, printed_append, printed_cons] at h
    obtain ⟨_, h, t, us, rfl, ht, -, hbody⟩ := h
    obtain ⟨hopens, hspells⟩ := hs _ _ h (kindOf_cons ht)
    refine Form.blockCons.spells (.skip_none hopens.apart (.ahead ⟨hopens.ne_nil, hopens.inside stop⟩
      (.phrase hspells (.ahead ?_ (.phrase ?_ .nil)))))
    · simp [Cursor.atStatementEnd, Cursor.kind?, Cursor.ofTokens, ht, Lexeme.kind]
    · exact (ih hbody hb).newline_block ht

theorem Printed.close {b : Block} {word : Keyword} (hb : b.opener? = some word)
    (h : Printed [.keyword .endKw, .keyword word] ts rest) :
    Spells Plain (.close b) ts rest ∧ (Stop.block b).Ends ts ∧
      kindOf ts = some (.keyword .endKw) ∧ b.atPair (.ofTokens ts) = true := by
  simp only [printed_cons, printed_nil] at h
  obtain ⟨t, _, rfl, ht, -, t', us, rfl, ht', -, rfl⟩ := h
  have hpair : b.atPair (.ofTokens (t :: t' :: us)) = true := by
    simp [Block.atPair, hb, Cursor.kind?, Cursor.kindAt?, Cursor.ofTokens, ht, ht', Lexeme.kind]
  refine ⟨(Form.pair hb).spells (.token ht trivial (.token ht' trivial .nil)), ⟨.inr ?_, ?_⟩,
    kindOf_cons ht, hpair⟩
  · simp [Stop.atEnd, Block.atEnd, hpair]
  · simp [Unseparated, kindOf_cons ht, Lexeme.kind]

theorem Printed.lines {b : Block} {word : Keyword}
    (hb : b.opener? = some word)
    (h : Printed (.newline :: (renderBody body ++ [.keyword .endKw, .keyword word])) ts rest)
    (hbody : ∀ s ∈ body, (Node.statement s).Rendered) :
    Fits (Spells Plain) [.phrase (.block (.block b) body), .phrase (.close b)] ts rest ∧
      kindOf ts = some .newline := by
  obtain ⟨t, us, rfl, ht, -, h⟩ := printed_cons.1 h
  obtain ⟨mid, h, hclose⟩ := printed_append.1 h
  obtain ⟨hclose, hend, -⟩ := Printed.close hb hclose
  exact ⟨.phrase ((h.block hbody hend).newline_block ht) (.phrase hclose .nil), kindOf_cons ht⟩

theorem Printed.parameters {params : List (Parameter Extent)}
    (h : Printed (commas (renderParameters params)) ts rest) (hp : ∀ p ∈ params, p.Fine)
    (hd : ∀ p ∈ params, ∀ e ∈ p.default, (Node.expression e).Rendered)
    (hrest : kindOf rest = some (.symbol .rightParen)) :
    Spells Plain (.list .rightParen (params.map .parameter)) ts rest := by
  rw [renderParameters_eq_map] at h
  refine Printed.list (fun p hmem ts rest h hrest => ⟨?_, ?_⟩) (by decide) h hrest
  · exact h.parameter (hp p hmem) (hd p hmem) hrest
  · obtain ⟨name, default, type⟩ := p
    simp only [Parameter.render, printed_cons] at h
    obtain ⟨t, _, rfl, ht, -⟩ := h
    rw [kindOf_cons ht]
    exact fun heq => Lexeme.word_kind_ne_symbol _ _ (Option.some.inj heq)

theorem Block.opener?_procedure (keyword : ProcedureKind) :
    (Block.procedure keyword).opener? = some keyword.word := by
  cases keyword <;> rfl

theorem Printed.procedure {decl : Procedure Extent} (h : Printed decl.render ts rest)
    (hd : decl.Fine) (hc : ∀ p ∈ decl.pieces, p.Rendered) :
    Spells Plain (.procedure decl) ts rest := by
  obtain ⟨keyword, params, returns, body⟩ := decl
  rw [Procedure.render] at h
  obtain ⟨t₁, us₁, rfl, ht₁, -, h⟩ := printed_cons.1 h
  obtain ⟨_, hparams, h⟩ := printed_append.1 h
  obtain ⟨t₂, us₂, rfl, ht₂, -, h⟩ := printed_cons.1 h
  obtain ⟨_, hreturns, hlines⟩ := printed_append.1 h
  obtain ⟨hdefaults, hstatements⟩ := List.forall_mem_append.1 hc
  have hdefault : ∀ p ∈ params, ∀ e ∈ p.default, (Node.expression e).Rendered := fun p hp e he =>
    hdefaults (.expression e) (List.mem_flatMap.2 ⟨p, hp, by simpa using he⟩)
  have hstatements : ∀ s ∈ body, (Node.statement s).Rendered :=
    hstatements _ (List.mem_singleton_self _)
  obtain ⟨hlines, hnl⟩ := hlines.lines (Block.opener?_procedure keyword) hstatements
  obtain ⟨hreturns, -⟩ := hreturns.name? hd.2 hnl (by decide)
  have hlist := hparams.parameters hd.1 hdefault (kindOf_cons ht₂)
  exact Form.procedure.spells (.token ht₁ trivial (.phrase hlist (.token ht₂ trivial
    (.phrase hreturns hlines))))

end Blocks

section ExpressionForms

variable {e object : Expr Extent} {ls : List Lexeme} {ps : List (Part Extent)}

theorem Node.rendered_of_lead {l : Lexeme} {p : String → Prop} (hr : e.render = l :: ls)
    (hk : l.kind ∈ starters) (form : Form (.expression e) (.token l.kind p :: ps)) (hp : p l.text)
    (hls : ∀ ts rest, Printed ls ts rest → Fits (Spells Plain) ps ts rest) :
    (Node.expression e).Rendered := by
  refine ⟨⟨l, ls, hr, hk⟩, fun ts rest h => ?_⟩
  rw [hr, printed_cons] at h
  obtain ⟨t, us, rfl, ht, htext, h⟩ := h
  exact form.spells (.token ht (htext ▸ hp) (hls us rest h))

theorem Node.rendered_of_lexeme {l : Lexeme} {p : String → Prop} (hr : e.render = [l])
    (hk : l.kind ∈ starters) (form : Form (.expression e) [.token l.kind p]) (hp : p l.text) :
    (Node.expression e).Rendered :=
  Node.rendered_of_lead hr hk form hp fun _ _ h => fits_nil.2 (printed_nil.1 h)

theorem Node.rendered_of_object (hr : e.render = object.render ++ ls)
    (ho : (Node.expression object).Rendered)
    (form : Form (.expression e) (.phrase (.expression object) :: ps))
    (hls : ∀ ts rest, Printed ls ts rest → Fits (Spells Plain) ps ts rest) :
    (Node.expression e).Rendered := by
  obtain ⟨⟨l, ms, hl, hk⟩, hspells⟩ := ho
  refine ⟨⟨l, ms ++ ls, by rw [hr, hl, List.cons_append], hk⟩, fun ts rest h => ?_⟩
  rw [hr, printed_append] at h
  obtain ⟨mid, h, h'⟩ := h
  exact form.spells (.phrase (hspells ts mid h) (hls mid rest h'))

theorem Printed.symbolWord {s : Symbol} {name : String} (h : Printed [.symbol s, .word name] ts rest)
    (hname : Word name) : Fits (Spells Plain) [.symbol s, .word name] ts rest := by
  simp only [printed_cons, printed_nil] at h
  obtain ⟨t, _, rfl, ht, -, t', us, rfl, -, htext, rfl⟩ := h
  exact .token ht trivial (.word (hname.isWord htext) htext .nil)

theorem Printed.bracketed {opening closing : Symbol}
    (h : Printed (.symbol opening :: (e.render ++ [.symbol closing])) ts rest)
    (he : (Node.expression e).Rendered) (hclosing : .symbol closing ∈ closers) :
    Fits (Spells Plain) [.symbol opening, .newlines, .value e, .newlines, .symbol closing]
      ts rest := by
  simp only [printed_append, printed_cons, printed_nil] at h
  obtain ⟨t, _, rfl, ht, -, _, h, t', us, rfl, ht', -, rfl⟩ := h
  have hnl : kindOf (t' :: us) ≠ some .newline := by simp [kindOf_cons ht', Lexeme.kind]
  have hvalue := h.value he (kindOf_cons ht') hclosing
  exact .token ht trivial
    (.newlines (h.ne_newline he) (.phrase hvalue (.newlines hnl (.token ht' trivial .nil))))

theorem Printed.arguments {args : List (Expr Extent)}
    (h : Printed (.symbol .leftParen :: (commas (renderExprs args) ++ [.symbol .rightParen]))
      ts rest) (hargs : ∀ a ∈ args, (Node.expression a).Rendered) :
    Fits (Spells Plain) [.symbol .leftParen, .newlines,
      .phrase (.list .rightParen (args.map .argument)), .symbol .rightParen] ts rest := by
  simp only [renderExprs_eq_map, printed_append, printed_cons, printed_nil] at h
  obtain ⟨t, us, rfl, ht, -, _, h, t', us', rfl, ht', -, rfl⟩ := h
  have hnl : kindOf us ≠ some .newline := by
    cases args with
    | nil =>
      obtain rfl := printed_nil.1 h
      simp [kindOf_cons ht', Lexeme.kind]
    | cons a args =>
      obtain ⟨mid, h, -⟩ := printed_append.1 h
      exact h.ne_newline (hargs a (List.mem_cons_self ..))
  have hlist : Spells Plain (.list .rightParen (args.map .argument)) us (t' :: us') :=
    Printed.list (fun a ha ts rest h hrest =>
      ⟨h.argument (hargs a ha) hrest, h.starts_ne (hargs a ha) (by decide)⟩)
      (by decide) h (kindOf_cons ht')
  exact .token ht trivial (.newlines hnl (.phrase hlist (.token ht' trivial .nil)))

theorem Printed.elements {items : List (Expr Extent)}
    (h : Printed (commas (renderExprs items) ++ [.symbol .rightBracket]) ts rest)
    (hitems : ∀ e ∈ items, (Node.expression e).Rendered) :
    Fits (Spells Plain) [.phrase (.items .rightBracket (items.map .value)), .symbol .rightBracket]
      ts rest := by
  simp only [renderExprs_eq_map, printed_append, printed_cons, printed_nil] at h
  obtain ⟨_, h, t, us, rfl, ht, -, rfl⟩ := h
  refine .phrase (Printed.items (fun e he ts rest h hrest => ⟨?_, ?_, ?_⟩) (by decide) h
    (kindOf_cons ht)) (.token ht trivial .nil)
  · rcases hrest with hrest | hrest
    · exact h.value (hitems e he) hrest (by decide)
    · exact h.value (hitems e he) hrest (by decide)
  · exact h.starts_ne (hitems e he) (by decide)
  · exact h.ne_newline (hitems e he)

theorem Printed.entries {entries : List (Entry Extent)}
    (h : Printed (commas (renderEntries entries) ++ [.symbol .rightBrace]) ts rest)
    (hentries : ∀ entry ∈ entries, (Node.expression entry.value).Rendered) :
    Fits (Spells Plain) [.phrase (.items .rightBrace (entries.map .entry)), .symbol .rightBrace]
      ts rest := by
  simp only [renderEntries_eq_map, printed_append, printed_cons, printed_nil] at h
  obtain ⟨_, h, t, us, rfl, ht, -, rfl⟩ := h
  refine .phrase (Printed.items (fun entry he ts rest h hrest => ⟨?_, ?_⟩) (by decide) h
    (kindOf_cons ht)) (.token ht trivial .nil)
  · rcases hrest with hrest | hrest
    · exact h.entry (hentries entry he) hrest (by decide)
    · exact h.entry (hentries entry he) hrest (by decide)
  · obtain ⟨key, value⟩ := entry
    simp only [Entry.render, printed_cons] at h
    obtain ⟨t, us, rfl, ht, -⟩ := h
    simp [kindOf_cons ht, Lexeme.kind]

/-- An expression can be read back if its parts can. -/
theorem Expr.rendered (e : Expr Extent) (hf : e.Fine)
    (hc : ∀ p ∈ (Node.expression e).pieces, p.Rendered) : (Node.expression e).Rendered := by
  obtain ⟨hgrouped, hfine⟩ := hf
  match e, hgrouped, hfine with
  | .float .., _, hfine => exact hfine.elim
  | .integer _ value, _, hfine =>
    exact Node.rendered_of_lexeme rfl (by simp [Lexeme.kind, starters]) (Form.integer hfine)
      (integerValue_repr value)
  | .string _ value, _, _ =>
    exact Node.rendered_of_lexeme rfl (by simp [Lexeme.kind, starters]) Form.string
      (unquoteText_quote value)
  | .boolean _ true, _, _ => exact Node.rendered_of_lexeme rfl (by decide) Form.isTrue trivial
  | .boolean _ false, _, _ => exact Node.rendered_of_lexeme rfl (by decide) Form.isFalse trivial
  | .invalid _, _, _ => exact Node.rendered_of_lexeme rfl (by decide) Form.invalid trivial
  | .identifier here name, _, hfine =>
    have hk : (Lexeme.word name).kind = .identifier := hfine.kind
    have form : Form (.expression (.identifier here name))
        [.token (Lexeme.word name).kind (· = name)] := by
      rw [hk]
      exact .identifier
    exact Node.rendered_of_lexeme rfl (by rw [hk]; decide) form rfl
  | .binary _ op left right, hgrouped, _ =>
    obtain ⟨hleft, hc⟩ := List.forall_mem_cons.1 hc
    have hright : (Node.expression right).Rendered := hc _ (List.mem_singleton_self _)
    refine Node.rendered_of_object rfl hleft
      (Form.binary (BinaryOp.ofKind?_eq_some.2 rfl) hgrouped) fun ts rest h => ?_
    obtain ⟨t, us, rfl, ht, -, h⟩ := printed_cons.1 h
    exact .token ht trivial (.phrase (hright.2 _ _ h) .nil)
  | .unary _ op operand, hgrouped, _ =>
    have hoperand : (Node.expression operand).Rendered := hc _ (List.mem_singleton_self _)
    exact Node.rendered_of_lead rfl (by cases op <;> decide)
      (Form.unary (UnaryOp.ofKind?_eq_some.2 rfl) hgrouped) trivial fun _ _ h =>
        .phrase (hoperand.2 _ _ h) .nil
  | .grouped _ inner, _, _ =>
    have hinner : (Node.expression inner).Rendered := hc _ (List.mem_singleton_self _)
    refine ⟨⟨_, _, rfl, by decide⟩, fun ts rest h => ?_⟩
    exact Form.grouped.spells (h.bracketed hinner (by decide))
  | .call _ callee args, hgrouped, _ =>
    obtain ⟨hcallee, hargs⟩ := List.forall_mem_cons.1 hc
    exact Node.rendered_of_object rfl hcallee (Form.call hgrouped) fun _ _ h =>
      h.arguments fun a ha => hargs (.expression a) (List.mem_map_of_mem ha)
  | .member _ object name, hgrouped, hfine =>
    have hobject : (Node.expression object).Rendered := hc _ (List.mem_singleton_self _)
    exact Node.rendered_of_object rfl hobject (Form.member hgrouped) fun _ _ h =>
      h.symbolWord hfine
  | .attribute _ object name, hgrouped, hfine =>
    have hobject : (Node.expression object).Rendered := hc _ (List.mem_singleton_self _)
    exact Node.rendered_of_object rfl hobject (Form.attr hgrouped) fun _ _ h =>
      h.symbolWord hfine
  | .index _ object position, hgrouped, _ =>
    obtain ⟨hobject, hc⟩ := List.forall_mem_cons.1 hc
    have hposition : (Node.expression position).Rendered := hc _ (List.mem_singleton_self _)
    exact Node.rendered_of_object rfl hobject (Form.index hgrouped) fun _ _ h =>
      h.bracketed hposition (by decide)
  | .array _ items, _, _ =>
    exact Node.rendered_of_lead rfl (by decide) Form.array trivial fun _ _ h =>
      h.elements fun e he => hc (.expression e) (List.mem_map_of_mem he)
  | .assoc _ entries, _, _ =>
    exact Node.rendered_of_lead rfl (by decide) Form.assoc trivial fun _ _ h =>
      h.entries fun entry he => hc (.expression entry.value) (List.mem_map.2 ⟨entry, he, rfl⟩)
  | .procedure _ decl, _, hfine =>
    have hk : .keyword decl.keyword.word ∈ starters := by cases decl.keyword <;> decide
    exact Node.rendered_of_lead rfl hk Form.anonymous trivial fun _ _ h =>
      .phrase (h.procedure hfine hc) .nil

end ExpressionForms

end BrightCoverage
