import BrightCoverage.Proofs.CaseFolding
import BrightCoverage.Proofs.Cutting
import BrightCoverage.Proofs.IndexedRuns

/-! Both parsers of the grammar agree. There is one lemma for each function, which says what has to be
there when the function is called: the token that it takes for granted, the token at which its extent
starts, and how deep the parsers that refer to each other go. -/

namespace BrightCoverage.Indexed

variable {α : Type} {ts : List Token} {i : Nat} {es : List ParseError} {s : Progress} {t : Token}

/-! ### Separators, blocks and procedures -/

section Skips

variable {kinds : List TokenKind}

theorem skipOne_of_mem (ht : ts[i]? = some t) (hk : t.kind ∈ kinds) :
    skipOne kinds ts ⟨i, es⟩ = .ok (some ()) ⟨i + 1, es⟩ := by
  unfold skipOne
  simp only [peek_bind, ht, if_pos hk]
  rw [bind_of_ok (advance_apply ht)]
  rfl

theorem skipOne_of_notMem (h : ∀ k ∈ kinds, kindAt ts i ≠ some k) :
    skipOne kinds ts ⟨i, es⟩ = .ok none ⟨i, es⟩ := by
  unfold skipOne
  rw [peek_bind]
  cases ht : ts[i]? with
  | none => rfl
  | some t => simp only [if_neg fun hk => h t.kind hk (kindAt_eq ht), pure_apply]

theorem skip_apply {j : Nat} (hij : i ≤ j)
    (h : ∀ x, i ≤ x → x < j → ∃ k ∈ kinds, kindAt ts x = some k)
    (hj : ∀ k ∈ kinds, kindAt ts j ≠ some k) : skip kinds ts ⟨i, es⟩ = .ok () ⟨j, es⟩ := by
  induction hn : j - i generalizing i with
  | zero =>
    obtain rfl : i = j := by omega
    exact repeatFrom_of_none _ (skipOne_of_notMem hj)
  | succ n ih =>
    obtain ⟨k, hk, hki⟩ := h i (Nat.le_refl i) (by omega)
    obtain ⟨t, ht, rfl⟩ := exists_token hki
    refine (repeatFrom_of_some (fun _ => skipOne kinds) (skipOne_of_mem ht hk) (Nat.lt_succ_self i)
      (kindAt_lt hki)).trans ?_
    exact ih (by omega) (fun x hx => h x (by omega)) (by omega)

theorem skip_agrees (kinds : List TokenKind) : Agrees ts i (fun _ _ => True) (skip kinds)
    (modify fun c => Cursor.skip kinds c.last c.rest) := by
  intro hi es
  obtain ⟨j, hij, heq, hall, hj⟩ := Cursor.skip_after (Mark.origin.extentTo Mark.origin) ts kinds i
  refine ⟨j, hij, ?_, .inl ⟨(), skip_apply hij hall hj, ?_, trivial⟩⟩
  · rcases Nat.eq_or_lt_of_le hij with rfl | hlt
    · exact hi
    · obtain ⟨k, -, hk⟩ := hall (j - 1) (by omega) (by omega)
      have := kindAt_lt hk
      omega
  · exact congrArg _ heq

theorem skipNewlines_agrees :
    Agrees ts i (fun _ _ => True) skipNewlines Parser.skipNewlines :=
  skip_agrees _

theorem skipSeparators_agrees :
    Agrees ts i (fun _ _ => True) skipSeparators Parser.skipSeparators :=
  skip_agrees _

end Skips

/-! ### Directive lines -/

section Directives

theorem cutAtByte_if {a b : Char} (h : Directive.lower [a, b] = ['i', 'f']) (rest : Text) :
    cutAtByte 2 (a :: b :: rest) = some ([a, b], rest) := by
  obtain ⟨ha, hb⟩ : a.toLower = 'i' ∧ b.toLower = 'f' := by simpa [Directive.lower] using h
  have hlength : byteLength [a, b] = 2 := by
    rw [byteLength, byteLength, byteLength, ← utf8Size_toLower a, ← utf8Size_toLower b, ha, hb]
    decide
  rw [← hlength]
  exact cutAtByte_append

theorem afterIf_apply (text : Text) : afterIf text ts s = .ok (Directive.afterIf text) s := by
  unfold afterIf
  generalize htext : trimLeft text = rest
  by_cases hif : ∃ a b behind, rest = a :: b :: behind ∧ Directive.lower [a, b] = ['i', 'f']
  · obtain ⟨a, b, behind, rfl, h⟩ := hif
    unfold Directive.afterIf
    rw [cutAtByte_if h, htext]
    rfl
  · have hnone : ∀ word behind, cutAtByte 2 rest = some (word, behind) →
        Directive.lower word ≠ ['i', 'f'] := by
      intro word behind hcut hword
      obtain ⟨a, b, rfl⟩ : ∃ a b, word = [a, b] := by
        have hlength : word.length = 2 := by simpa [Directive.lower] using congrArg List.length hword
        exact List.length_eq_two.1 hlength
      exact hif ⟨a, b, behind, (append_of_cutAtByte hcut).symm, hword⟩
    have hright : Directive.afterIf text = none := by
      unfold Directive.afterIf
      rw [htext]
      split
      · next a b behind =>
        rw [if_neg]
        intro h
        rw [Bool.and_eq_true, decide_eq_true_eq] at h
        exact hif ⟨a, b, behind, rfl, h.1⟩
      · rfl
    rw [hright]
    cases hcut : cutAtByte 2 rest with
    | none => rfl
    | some cut =>
      have hword := hnone cut.1 cut.2 hcut
      simp [unwrap, hword]

theorem splitDirective_apply (line : Text) :
    splitDirective line ts s = .ok (Directive.ofLine line) s := by
  unfold splitDirective Directive.ofLine
  generalize trimLeft (line.dropWhile (· = '#')) = body
  have hcut : cutAtByte (byteLength (body.takeWhile Char.isAlpha)) body
      = some (body.takeWhile Char.isAlpha, body.dropWhile Char.isAlpha) := by
    have h := cutAtByte_append (u := body.takeWhile Char.isAlpha) (v := body.dropWhile Char.isAlpha)
    rwa [List.takeWhile_append_dropWhile] at h
  simp only [hcut, unwrap, pure_bind]
  generalize String.ofList (Directive.lower (body.takeWhile Char.isAlpha)) = word
  by_cases helse : word = "else"
  · subst helse
    simp only []
    rw [bind_of_ok (afterIf_apply _)]
    cases Directive.afterIf (body.dropWhile Char.isAlpha) <;> rfl
  · by_cases hend : word = "end"
    · subst hend
      simp only []
      rw [bind_of_ok (afterIf_apply _)]
      cases Directive.afterIf (body.dropWhile Char.isAlpha) <;> rfl
    · split
      · contradiction
      · contradiction
      · rw [pure_apply]
        grind

theorem nextDirective_apply (ts : List Token) (s : Progress) :
    nextDirective ts s = .ok (Directive.next? (.reached ts s.index)) s := by
  unfold nextDirective Directive.next?
  rw [peek_bind, Cursor.after_head?]
  cases ts[s.index]? with
  | none => rfl
  | some t =>
    rw [Option.bind_some, Directive.ofToken?]
    by_cases hk : t.kind = .directive
    · simp only [if_pos hk]
      rw [bind_of_ok (splitDirective_apply _)]
      rfl
    · simp only [if_neg hk]
      rfl

theorem Agrees.nextDirective {Q : α → Nat → Prop} {f : Option DirectiveKind → Indexed α}
    {q : Parser α} (h : Agrees ts i Q (f (Directive.next? (.reached ts i))) q) :
    Agrees ts i Q (Indexed.nextDirective >>= f) q :=
  .congr (fun es => bind_of_ok (nextDirective_apply ts ⟨i, es⟩)) rfl h

theorem atDirectiveEnd_apply (ts : List Token) (s : Progress) :
    atDirectiveEnd ts s = .ok (Directive.atBranchEnd (.reached ts s.index)) s := by
  unfold atDirectiveEnd Directive.atBranchEnd
  rw [bind_of_ok (nextDirective_apply ts s)]
  cases Directive.next? (.reached ts s.index) with
  | none => rfl
  | some kind => cases kind <;> rfl

end Directives

/-- The text of every hexadecimal number can be cut behind two bytes. -/
def Prefixed (ts : List Token) : Prop :=
  ∀ t ∈ ts, t.kind = .hexInteger →
    ∃ front, cutAtByte 2 t.text.toList = some (front, t.text.toList.drop 2)

/-- An expression that starts with the token at an index, which has been read. -/
structure Headed (ts : List Token) (start : Nat) (e : Expr Extent) (j : Nat) : Prop where
  lt : start < j
  starts : Starts ts start e.here

/-- Parsers that refer to each other agree from an index on. Whoever calls them has read a token. -/
structure Recursion.AgreesFrom (low : Nat) (ts : List Token) (one : Recursion)
    (other : BrightCoverage.Recursion) : Prop where
  expression : ∀ min i, low ≤ i → Agrees ts i (Headed ts i)
    (one.expression min) (other.expression min)
  statement : ∀ i, low ≤ i → Agrees ts i (fun _ j => i < j) one.statement other.statement
  inlineElseIf : ∀ i t, low ≤ i → ts[i]? = some t →
    Agrees ts i (fun _ j => i < j) one.inlineElseIf other.inlineElseIf

theorem isEmpty_reached (ts : List Token) (i : Nat) :
    (Cursor.reached ts i).rest.isEmpty = ts[i]?.isNone := by
  rw [Cursor.after_rest, ← List.head?_drop]
  cases ts.drop i <;> rfl

theorem exists_closer {b : Block} (h : b.atCloser (.reached ts i) = true) : ∃ t, ts[i]? = some t := by
  unfold Block.atCloser at h
  split at h
  · rw [decide_eq_true_eq, Cursor.after_kind?] at h
    exact exists_of_kind h
  · cases h

theorem exists_next {b : Block} (h : b.atNext (.reached ts i) = true) : ∃ t, ts[i]? = some t := by
  rw [Block.atNext, Bool.and_eq_true, decide_eq_true_eq, decide_eq_true_eq, Cursor.after_kind?] at h
  exact exists_of_kind h.2

theorem exists_pair {b : Block} (h : b.atPair (.reached ts i) = true) :
    (∃ t, ts[i]? = some t) ∧ ∃ t, ts[i + 1]? = some t := by
  unfold Block.atPair at h
  split at h
  · rw [Bool.and_eq_true, decide_eq_true_eq, decide_eq_true_eq, Cursor.after_kind?,
      Cursor.after_kindAt?] at h
    exact ⟨exists_of_kind h.1, exists_of_kind h.2⟩
  · cases h

theorem close_agrees (b : Block) {start : Nat} (hs : ts[start]? = some t) :
    Agrees ts i (fun _ j => i < j) (close b start) (Parser.close b t.span) := by
  unfold close Parser.close
  refine .consuming (fun _ _ => id) ?_
  refine .cursor (.look (fun _ _ => rfl) (.ite (fun hc => ?_) fun _ => ?_))
  · obtain ⟨u, hu⟩ := exists_closer hc
    rw [← bind_pure Parser.advance]
    exact .advance hu (.pure (Nat.lt_succ_self i))
  refine .look (fun _ _ => rfl) (.ite (fun hc => ?_) fun _ => ?_)
  · obtain ⟨u, hu⟩ := exists_next hc
    exact .advance hu (.bind (.accept _) fun _ j hj _ => .pure hj)
  refine .look (fun _ _ => rfl) (.ite (fun hc => ?_) fun _ => ?_)
  · obtain ⟨⟨u, hu⟩, v, hv⟩ := exists_pair hc
    rw [← bind_pure Parser.advance]
    exact .advance hu (.advance hv (.pure (by omega)))
  · rw [isEmpty_reached]
    exact .token (.ite (fun _ => .tokenSpan hs (.fail _)) fun _ => .expected _)

section Parsers

variable {self : Recursion} {other : BrightCoverage.Recursion} {low : Nat}
  (h : Recursion.AgreesFrom low ts self other)

include h

theorem blockItem_agrees {atEnd : Indexed Bool} {atEnd' : Cursor → Bool}
    (hend : ∀ s, atEnd ts s = .ok (atEnd' (.reached ts s.index)) s) (hlow : low ≤ i) :
    Agrees ts i (fun o j => ∀ s, o = some s → i < j) (blockItem self atEnd)
      (Parser.blockItem other atEnd') := by
  unfold blockItem Parser.blockItem
  refine .bind skipSeparators_agrees fun _ j hij _ => .cursor (.token ?_)
  rw [isEmpty_reached]
  cases ts[j]?.isNone with
  | true => exact .stop
  | false =>
    refine .congr (fun _ => bind_of_ok (hend _)) rfl (.ite (fun _ => .stop) fun _ => ?_)
    refine .bind (h.statement j (hlow.trans hij)) fun s k _ hk => .atStatementEnd ?_
    exact .ite (fun _ => .pure fun _ _ => hij.trans_lt hk) fun _ => .expected _

theorem block_agrees {atEnd : Indexed Bool} {atEnd' : Cursor → Bool}
    (hend : ∀ s, atEnd ts s = .ok (atEnd' (.reached ts s.index)) s) (hlow : low ≤ i) :
    Agrees ts i (fun _ _ => True) (block self atEnd) (Parser.block other atEnd') :=
  .many fun _ hk => blockItem_agrees h hend (hlow.trans hk)

theorem parameter_agrees (hlow : low ≤ i) :
    Agrees ts i (fun _ j => i < j) (parameter self) (Parser.parameter other) := by
  refine .consuming (fun _ _ => id) ?_
  refine .bind (.expectWord _) fun name j _ hj => ?_
  refine .bind (.after _ fun k hk => h.expression _ k (by omega)) fun default k hjk _ => ?_
  exact .bind (.after _ fun _ _ => .expectWord _) fun type l hkl _ => .pure (by omega)

theorem parameters_agrees (hlow : low ≤ i) :
    Agrees ts i (fun _ j => i < j) (parameters self) (Parser.parameters other) := by
  refine .consuming (fun _ _ => id) ?_
  refine .bind (.expect _ _) fun _ j _ hj => ?_
  refine .bind (.commaSeparated _ fun k hk => parameter_agrees h (by omega)) fun params k hjk _ => ?_
  exact .bind (.expect _ _) fun _ l _ hkl => .pure (by omega)

theorem procedure_agrees (keyword : ProcedureKind) {start : Nat} (hs : ts[start]? = some t)
    (hlow : low ≤ i) : Agrees ts i (fun _ j => i < j) (procedure self keyword start)
      (Parser.procedure other keyword t.span) := by
  refine .consuming (fun _ _ => id) ?_
  refine .bind (parameters_agrees h hlow) fun params j _ hj => ?_
  refine .bind (.after _ fun _ _ => .expectWord _) fun returns k hjk _ => ?_
  refine .bind (block_agrees h (fun _ => rfl) (by omega)) fun body l hkl _ => ?_
  exact .bind (close_agrees _ hs) fun _ m _ hlm => .pure (by omega)

/-! ### Expressions -/

omit h in
theorem itemSeparator_agrees :
    Agrees ts i (fun _ _ => True) itemSeparator Parser.itemSeparator :=
  .bind (.accept _) fun _ _ _ _ => .peekKind (.bind skipNewlines_agrees fun _ _ _ _ => .pure trivial)

omit h in
theorem collectionItem_agrees (closing : TokenKind) {item : Indexed α} {item' : Parser α}
    (hitem : ∀ k, i ≤ k → Agrees ts k (fun _ j => k < j) item item') (state : List α × Bool) :
    Agrees ts i (Keeps (fun _ _ => True) state i) (collectionItem closing item state)
      (Parser.collectionItem closing item' state) := by
  unfold collectionItem Parser.collectionItem
  refine .ite (fun _ => .pure trivial) fun _ => .bind skipNewlines_agrees fun _ j hij _ => ?_
  refine .peekKind (.ite (fun _ => .pure trivial) fun _ => ?_)
  refine .bind (hitem j hij) fun a k _ hjk => ?_
  exact .bind itemSeparator_agrees fun more l hkl _ => .pure ⟨by omega, trivial⟩

omit h in
theorem collection_agrees (closing : Symbol) {item : Indexed α} {item' : Parser α}
    (hitem : ∀ k, i ≤ k → Agrees ts k (fun _ j => k < j) item item') :
    Agrees ts i (fun _ j => i < j) (collection closing item) (Parser.collection closing item') := by
  refine .bind (.repeatFrom (fun _ _ => True) trivial fun state k hik _ => ?_) fun state j hij _ => ?_
  · exact collectionItem_agrees _ (fun l hkl => hitem l (hik.trans hkl)) state
  · exact .bind (.expect _ _) fun _ k _ hjk => .pure (by omega)

theorem entry_agrees (hlow : low ≤ i) :
    Agrees ts i (fun _ j => i < j) (entry self) (Parser.entry other) := by
  refine .consuming (fun _ _ => id) ?_
  have hvalue : ∀ name j, i < j → Agrees ts j (fun _ j => i < j)
      (do let _ ← expect (.symbol .colon) ":"; return Entry.mk name (← self.expression .lowest))
      (do let _ ← Parser.expect (.symbol .colon) ":"
          return Entry.mk name (← other.expression .lowest)) := by
    intro name j hj
    refine .bind (.expect _ _) fun _ k _ hjk => ?_
    exact .bind (h.expression _ k (by omega)) fun e l _ hkl => .pure (by omega)
  unfold key Parser.entry
  rw [bind_assoc]
  refine .peekKind ?_
  by_cases hk : kindAt ts i = some .string
  · obtain ⟨t, ht, hkind⟩ := exists_token hk
    have hread : Parser.expect .string "key" (.reached ts i) = .ok t.text (.reached ts (i + 1)) :=
      Parser.expect_eq_ok.2 ⟨t, by rw [Cursor.after_head?, ht], hkind, rfl, by rw [Cursor.next_after]⟩
    have hlt := kindAt_lt hk
    rw [if_pos hk, if_pos hk, bind_assoc, map_eq_pure_bind, bind_assoc]
    refine .moved (fun _ => bind_of_ok (taken_apply ht)) (Parser.bind_of_ok hread) (Nat.le_succ i)
      (fun _ => hlt) ?_
    simp only [pure_bind]
    exact hvalue _ _ (Nat.lt_succ_self i)
  · rw [if_neg hk, if_neg hk]
    exact .bind (.expectWord _) fun name j _ hj => hvalue name j hj

omit h in
theorem number_agrees (ht : ts[i]? = some t) (value : Nat) :
    Agrees ts i (Headed ts i)
      (do let _ ← advance; number t i value) (Parser.integerLiteral t value) := by
  refine .advance ht (.ite (fun _ => ?_) fun _ => .fail _)
  exact .node (starts_of_token ht) (Nat.lt_succ_self i) fun _ hhere => ⟨Nat.lt_succ_self i, hhere⟩

omit h in
theorem leaf_agrees (ht : ts[i]? = some t) {make : Extent → Expr Extent}
    (hmake : ∀ here, (make here).here = here) :
    Agrees ts i (Headed ts i) (leaf make) (Parser.leaf t make) := by
  refine .index (.advance ht ?_)
  refine .node (starts_of_token ht) (Nat.lt_succ_self i) fun here hhere => ⟨Nat.lt_succ_self i, ?_⟩
  rwa [hmake]

theorem enclosed_agrees (closing : Symbol) (ht : ts[i]? = some t) (hlow : low ≤ i + 1) :
    Agrees ts i (fun _ j => i < j) (enclosed self closing) (Parser.enclosed other closing) := by
  refine .advance ht (.bind skipNewlines_agrees fun _ j hj _ => ?_)
  refine .bind (h.expression _ j (by omega)) fun inner k hjk _ => ?_
  refine .bind skipNewlines_agrees fun _ l hkl _ => ?_
  exact .bind (.expect _ _) fun _ m _ hlm => .pure (by omega)

theorem primary_agrees (hx : Prefixed ts) (hlow : low ≤ i + 1) :
    Agrees ts i (Headed ts i) (primary self) (Parser.primary other) := by
  refine .consuming (fun _ _ => Headed.lt) ?_
  refine .index (.peek ?_)
  cases ht : ts[i]? with
  | none => exact .fail _
  | some t =>
    have hstart := starts_of_token ht
    have hhex := hx t (List.mem_of_getElem? ht)
    dsimp only
    generalize t.kind = k at hhex
    split
    · exact number_agrees ht _
    · obtain ⟨front, hcut⟩ := hhex rfl
      rw [hcut]
      exact number_agrees ht _
    · exact leaf_agrees ht fun _ => rfl
    · exact leaf_agrees ht fun _ => rfl
    · exact .advance ht (.fail _)
    · exact leaf_agrees ht fun _ => rfl
    · exact leaf_agrees ht fun _ => rfl
    · exact leaf_agrees ht fun _ => rfl
    · exact leaf_agrees ht fun _ => rfl
    · exact .bind (enclosed_agrees h _ ht hlow) fun inner j _ hj =>
        .node hstart hj fun _ hhere => ⟨hj, hhere⟩
    · refine .advance ht (.bind (collection_agrees _ fun k hk => ?_) fun items j _ hj => ?_)
      · exact (h.expression _ k (by omega)).mono fun _ _ _ => Headed.lt
      · exact .node hstart (by omega) fun _ hhere => ⟨by omega, hhere⟩
    · refine .advance ht (.bind (collection_agrees _ fun k hk => ?_) fun entries j _ hj => ?_)
      · exact entry_agrees h (by omega)
      · exact .node hstart (by omega) fun _ hhere => ⟨by omega, hhere⟩
    · refine .advance ht (.bind (procedure_agrees h _ ht hlow) fun decl j _ hj => ?_)
      exact .node hstart (by omega) fun _ hhere => ⟨by omega, hhere⟩
    · refine .advance ht (.bind (procedure_agrees h _ ht hlow) fun decl j _ hj => ?_)
      exact .node hstart (by omega) fun _ hhere => ⟨by omega, hhere⟩
    -- The other match is another term, although its cases are the same.
    · exact .congr (fun _ => rfl) (by simp [*]) (.fail _)

theorem argument_agrees (hlow : low ≤ i) :
    Agrees ts i (fun _ j => i < j) (argument self) (Parser.argument other) := by
  refine .bind skipNewlines_agrees fun _ j hij _ => ?_
  refine .bind (h.expression _ j (by omega)) fun arg k hjk hk => ?_
  exact .bind skipNewlines_agrees fun _ l hkl _ => .pure (hij.trans_lt (hk.lt.trans_le hkl))

theorem arguments_agrees (ht : ts[i]? = some t) (hlow : low ≤ i + 1) :
    Agrees ts i (fun _ j => i < j) (arguments self) (Parser.arguments other) := by
  refine .consuming (fun _ _ => id) ?_
  refine .advance ht (.bind skipNewlines_agrees fun _ j hj _ => ?_)
  refine .bind (.commaSeparated _ fun k hk => argument_agrees h (by omega)) fun args k hjk _ => ?_
  exact .bind (.expect _ _) fun _ l _ hkl => .pure (by omega)

theorem postfixStep_agrees {start : Nat} {object : Expr Extent} (hobject : Headed ts start object i)
    (hlow : low ≤ i + 1) : Agrees ts i (Keeps (Headed ts start) object i)
      (postfixStep self start object) (Parser.postfixStep other object) := by
  have hstart := hobject.lt
  have hnode : ∀ {j} {make : Extent → Expr Extent}, i < j → (∀ here, (make here).here = here) →
      Agrees ts j (Keeps (Headed ts start) object i) (do return some (make (← extentFrom start)))
        (do return some (make (← Parser.extentFrom object.here))) := by
    intro j make hj hmake
    refine .node hobject.starts (by omega) fun here hhere => ⟨hj, by omega, ?_⟩
    rwa [hmake]
  refine .peekKind ?_
  generalize hk : kindAt ts i = kind
  split
  · obtain ⟨t, ht⟩ := exists_of_kind hk
    exact .bind (arguments_agrees h ht hlow) fun args j _ hj => hnode hj fun _ => rfl
  · obtain ⟨t, ht⟩ := exists_of_kind hk
    exact .advance ht (.bind (.expectWord _) fun name j _ hj => hnode (by omega) fun _ => rfl)
  · obtain ⟨t, ht⟩ := exists_of_kind hk
    exact .bind (enclosed_agrees h _ ht hlow) fun index j _ hj => hnode hj fun _ => rfl
  · obtain ⟨t, ht⟩ := exists_of_kind hk
    exact .advance ht (.bind (.expectWord _) fun name j _ hj => hnode (by omega) fun _ => rfl)
  · exact .congr (fun _ => rfl) (by simp [*]) (.pure hobject)

theorem operand_agrees (hx : Prefixed ts) (hlow : low ≤ i + 1) :
    Agrees ts i (Headed ts i) (operand self) (Parser.operand other) := by
  refine .consuming (fun _ _ => Headed.lt) ?_
  refine .index (.bind (primary_agrees h hx hlow) fun e j hij he => ?_)
  exact .repeatFrom _ he fun e k hjk hk => postfixStep_agrees h hk (by omega)

theorem unary_agrees (hx : Prefixed ts) (hlow : low ≤ i + 1) :
    Agrees ts i (Headed ts i) (unary self) (Parser.unary other) := by
  unfold unary Parser.unary
  refine .consuming (fun _ _ => Headed.lt) ?_
  refine .index (.kind (.congr (fun _ => rfl) (Parser.peek_bind ..) ?_))
  rw [Cursor.after_head?]
  cases ht : ts[i]? with
  | none =>
    rw [show kindAt ts i = none by simp [kindAt, ht]]
    exact operand_agrees h hx hlow
  | some t =>
    rw [kindAt_eq ht, Option.bind_some]
    dsimp only
    cases UnaryOp.ofKind? t.kind with
    | none => exact operand_agrees h hx hlow
    | some op =>
      refine .advance ht (.bind (h.expression _ _ hlow) fun inner j _ hj => ?_)
      have := hj.lt
      exact .node (starts_of_token ht) (by omega) fun _ hhere => ⟨by omega, hhere⟩

theorem binaryStep_agrees (min : Precedence) {start : Nat} {left : Expr Extent}
    (hleft : Headed ts start left i) (hlow : low ≤ i + 1) :
    Agrees ts i (Keeps (Headed ts start) left i) (binaryStep self min start left)
      (Parser.binaryStep other min left) := by
  have hstart := hleft.lt
  refine .peekKind ?_
  cases hop : (kindAt ts i).bind BinaryOp.ofKind? with
  | none => exact .pure hleft
  | some op =>
    obtain ⟨t, ht⟩ := exists_of_bind hop
    refine .ite (fun _ => .pure hleft) fun _ => .advance ht ?_
    refine .bind (h.expression _ _ hlow) fun right j _ hj => ?_
    have := hj.lt
    exact .node hleft.starts (by omega) fun _ hhere => ⟨by omega, by omega, hhere⟩

theorem expression_agrees (hx : Prefixed ts) (min : Precedence) (hlow : low ≤ i + 1) :
    Agrees ts i (Headed ts i) (expression self min) (Parser.expression other min) := by
  refine .consuming (fun _ _ => Headed.lt) ?_
  refine .index (.bind (unary_agrees h hx hlow) fun e j hij he => ?_)
  exact .repeatFrom _ he fun e k hjk hk => binaryStep_agrees h min hk (by omega)

/-! ### Branches and loops -/

theorem inlineItem_agrees (hlow : low ≤ i + 1) :
    Agrees ts i (fun o j => ∀ s, o = some s → i < j) (inlineItem self) (Parser.inlineItem other) := by
  refine .bind (.accept _) fun b j _ hj => .ite (fun hb => ?_) fun _ => .stop
  have hij := hj hb
  refine .cursor (.look (fun _ _ => rfl) (.ite (fun _ => .stop) fun _ => ?_))
  exact .bind (h.statement j (by omega)) fun s k hjk _ => .pure fun _ _ => by omega

theorem inlineStatements_agrees (hlow : low ≤ i) :
    Agrees ts i (fun _ j => i < j) (inlineStatements self) (Parser.inlineStatements other) := by
  refine .consuming (fun _ _ => id) ?_
  refine .bind (h.statement i hlow) fun first j _ hj => ?_
  refine .bind (.many fun k hk => inlineItem_agrees h (by omega)) fun rest k hjk _ => ?_
  exact .pure (by omega)

theorem inlineElse_agrees (hlow : low ≤ i) :
    Agrees ts i (fun o j => ∀ body, o = some body → i < j) (inlineElse self)
      (Parser.inlineElse other) := by
  refine .peekKind ?_
  generalize hk : kindAt ts i = kind
  split
  · obtain ⟨t, ht⟩ := exists_of_kind hk
    exact .bind (h.inlineElseIf i t hlow ht) fun s j _ hj => .pure fun _ _ => hj
  · obtain ⟨t, ht⟩ := exists_of_kind hk
    refine .advance ht (.bind (inlineStatements_agrees h (by omega)) fun body j _ hj => ?_)
    exact .pure fun _ _ => by omega
  · exact .congr (fun _ => rfl) (by simp [*]) .stop

theorem inlineBranch_agrees {start : Nat} (hs : ts[start]? = some t) (condition : Expr Extent)
    (hstart : start < i) (hlow : low ≤ i) : Agrees ts i (fun _ j => i < j)
      (inlineBranch self start condition) (Parser.inlineBranch other t condition) := by
  refine .consuming (fun _ _ => id) ?_
  refine .bind (inlineStatements_agrees h hlow) fun thenBody j _ hj => ?_
  refine .bind (inlineElse_agrees h (by omega)) fun elseBody k hjk _ => ?_
  exact .node (starts_of_token hs) (by omega) fun _ _ => by omega

theorem inlineElseIf_agrees (ht : ts[i]? = some t) (hlow : low ≤ i + 1) :
    Agrees ts i (fun _ j => i < j) (inlineElseIf self) (Parser.inlineElseIf other) := by
  unfold inlineElseIf Parser.inlineElseIf
  refine .consuming (fun _ _ => id) ?_
  refine .index (.congr (fun _ => rfl) (Parser.peek_bind ..) ?_)
  rw [Cursor.after_head?, ht]
  refine .advance ht (.bind (h.expression _ _ hlow) fun condition j _ hj => ?_)
  have := hj.lt
  refine .bind (.expect _ _) fun _ k _ hjk => ?_
  exact (inlineBranch_agrees h ht condition (by omega) (by omega)).mono fun _ _ _ _ => by omega

omit h in
theorem exists_elseIf (h : (Cursor.reached ts i).atElseIf = true) : ∃ t, ts[i]? = some t ∧
    (t.kind = .keyword .elseIfKw ∨ t.kind = .keyword .elseKw ∧ ∃ u, ts[i + 1]? = some u) := by
  simp only [Cursor.atElseIf, Cursor.after_kind?, Cursor.after_kindAt?, Bool.or_eq_true,
    Bool.and_eq_true, decide_eq_true_eq] at h
  rcases h with h | ⟨h, h'⟩
  · obtain ⟨t, ht, hk⟩ := exists_token h
    exact ⟨t, ht, .inl hk⟩
  · obtain ⟨t, ht, hk⟩ := exists_token h
    exact ⟨t, ht, .inr ⟨hk, exists_of_kind h'⟩⟩

omit h in
theorem elseIfKeyword_agrees (ht : ts[i]? = some t) (hk : t.kind = .keyword .elseIfKw ∨
    t.kind = .keyword .elseKw ∧ ∃ u, ts[i + 1]? = some u) :
    Agrees ts i (fun _ j => i < j) elseIfKeyword (Parser.elseIfKeyword t) := by
  have hlt := (List.getElem?_eq_some_iff.1 ht).1
  have hnode : ∀ j, i < j → Agrees ts j (fun _ j => i < j) (extentFrom i)
      (Parser.extentFrom t.extent) := by
    intro j hj
    rw [← bind_pure (extentFrom i), ← bind_pure (Parser.extentFrom t.extent)]
    exact .node (starts_of_token ht) hj fun _ _ => hj
  unfold elseIfKeyword Parser.elseIfKeyword
  refine .index ?_
  rcases hk with hk | ⟨hk, u, hu⟩
  · refine .moved (fun _ => bind_of_ok (hk ▸ accept_of_kind ht)) (Agrees.advance_reached ..) (Nat.le_succ i)
      (fun _ => hlt) ?_
    rw [if_neg (by decide), if_neg (by rw [hk]; decide)]
    exact hnode _ (Nat.lt_succ_self i)
  · have hne : kindAt ts i ≠ some (.keyword .elseIfKw) := by
      rw [kindAt_eq ht, hk]
      decide
    refine .congr (fun _ => bind_of_ok (accept_of_ne hne)) rfl (.advance ht ?_)
    rw [if_pos hk]
    exact .advance hu (hnode _ (by omega))

theorem elseIfClause_agrees (ht : ts[i]? = some t) (hk : t.kind = .keyword .elseIfKw ∨
    t.kind = .keyword .elseKw ∧ ∃ u, ts[i + 1]? = some u) (hlow : low ≤ i + 1) :
    Agrees ts i (fun _ j => i < j) (elseIfClause self) (do
      let keyword ← Parser.elseIfKeyword t
      let condition ← other.expression .lowest
      let _ ← Parser.accept (.keyword .thenKw)
      let body ← Parser.block other Cursor.atBranchEnd
      return .mk keyword condition body) := by
  refine .consuming (fun _ _ => id) ?_
  refine .bind (elseIfKeyword_agrees ht hk) fun keyword j _ hj => ?_
  refine .bind (h.expression _ j (by omega)) fun condition k hjk _ => ?_
  refine .bind (.accept _) fun _ l hkl _ => ?_
  exact .bind (block_agrees h (fun _ => rfl) (by omega)) fun body m hlm _ => .pure (by omega)

theorem elseIf_agrees (hlow : low ≤ i + 1) :
    Agrees ts i (fun o j => ∀ clause, o = some clause → i < j) (elseIf self)
      (Parser.elseIf other) := by
  unfold elseIf Parser.elseIf
  refine .cursor (.look (fun _ _ => rfl) ?_)
  rw [Cursor.after_head?]
  cases hend : (Cursor.reached ts i).atElseIf with
  | false => cases ts[i]? <;> exact .stop
  | true =>
    obtain ⟨t, ht, hk⟩ := exists_elseIf hend
    rw [ht]
    have hclause := elseIfClause_agrees h ht hk hlow
    have hbind := hclause.bind (Q := fun o j => ∀ clause, o = some clause → i < j)
      (f := fun clause => pure (some clause)) (g := fun clause => pure (some clause))
      fun _ _ _ hj => .pure fun _ _ => hj
    simpa only [if_true, bind_assoc, pure_bind] using hbind

theorem blockBranch_agrees {start : Nat} (hs : ts[start]? = some t) (condition : Expr Extent)
    (hstart : start < i) (hlow : low ≤ i) : Agrees ts i (fun _ j => i < j)
      (blockBranch self start condition) (Parser.blockBranch other t condition) := by
  refine .bind (block_agrees h (fun _ => rfl) hlow) fun thenBody j hij _ => ?_
  refine .bind (.many fun k hk => elseIf_agrees h (by omega)) fun elseIfs k hjk _ => ?_
  refine .bind (.after _ fun l hl => block_agrees h (fun _ => rfl) (by omega)) fun elseBody l hkl _ => ?_
  refine .bind (close_agrees _ hs) fun _ m _ hm => ?_
  exact .node (starts_of_token hs) (by omega) fun _ _ => by omega

theorem branch_agrees (ht : ts[i]? = some t) (hlow : low ≤ i + 1) :
    Agrees ts i (fun _ j => i < j) (branch self) (Parser.branch other t) := by
  refine .consuming (fun _ _ => id) ?_
  refine .index (.advance ht (.bind (h.expression _ _ hlow) fun condition j _ hj => ?_))
  have := hj.lt
  refine .bind (.accept _) fun hasThen k hjk _ => .cursor (.look (fun _ _ => rfl) ?_)
  refine .ite (fun _ => ?_) fun _ => .ite (fun _ => ?_) fun _ => .expected _
  · exact (blockBranch_agrees h ht condition (by omega) (by omega)).mono fun _ _ _ _ => by omega
  · exact (inlineBranch_agrees h ht condition (by omega) (by omega)).mono fun _ _ _ _ => by omega

theorem forEach_agrees {start : Nat} (hs : ts[start]? = some t) (hstart : start < i)
    (hlow : low ≤ i) :
    Agrees ts i (fun _ j => i < j) (forEach self start) (Parser.forEach other t) := by
  refine .consuming (fun _ _ => id) ?_
  refine .bind (.expect _ _) fun item j _ hj => .bind (.expect _ _) fun _ k _ hk => ?_
  refine .bind (h.expression _ _ (by omega)) fun target l hkl _ => ?_
  refine .bind (block_agrees h (fun _ => rfl) (by omega)) fun body m hlm _ => ?_
  refine .bind (close_agrees _ hs) fun _ n hmn _ => ?_
  exact .node (starts_of_token hs) (by omega) fun _ _ => by omega

theorem countedLoop_agrees {start : Nat} (hs : ts[start]? = some t) (hstart : start < i)
    (hlow : low ≤ i) :
    Agrees ts i (fun _ j => i < j) (countedLoop self start) (Parser.countedLoop other t) := by
  refine .consuming (fun _ _ => id) ?_
  refine .bind (.expect _ _) fun counter j _ hj => .bind (.expect _ _) fun _ k _ hk => ?_
  refine .bind (h.expression _ _ (by omega)) fun first l hkl _ => .bind (.expect _ _) fun _ m hlm _ => ?_
  refine .bind (h.expression _ _ (by omega)) fun last n hmn _ => ?_
  refine .bind (.after _ fun o ho => h.expression _ o (by omega)) fun step o hno _ => ?_
  refine .bind (block_agrees h (fun _ => rfl) (by omega)) fun body x hox _ => ?_
  refine .bind (close_agrees _ hs) fun _ y hxy _ => ?_
  exact .node (starts_of_token hs) (by omega) fun _ _ => by omega

theorem forLoop_agrees (ht : ts[i]? = some t) (hlow : low ≤ i + 1) :
    Agrees ts i (fun _ j => i < j) (forLoop self) (Parser.forLoop other t) := by
  refine .consuming (fun _ _ => id) ?_
  refine .index (.advance ht (.bind (.accept _) fun each j hj _ => .ite (fun _ => ?_) fun _ => ?_))
  · exact (forEach_agrees h ht (by omega) (by omega)).mono fun _ _ _ _ => by omega
  · exact (countedLoop_agrees h ht (by omega) (by omega)).mono fun _ _ _ _ => by omega

theorem whileLoop_agrees (ht : ts[i]? = some t) (hlow : low ≤ i + 1) :
    Agrees ts i (fun _ j => i < j) (whileLoop self) (Parser.whileLoop other t) := by
  refine .consuming (fun _ _ => id) ?_
  refine .index (.advance ht (.bind (h.expression _ _ hlow) fun condition j hj _ => ?_))
  refine .bind (block_agrees h (fun _ => rfl) (by omega)) fun body k hjk _ => ?_
  refine .bind (close_agrees _ ht) fun _ l hkl _ => ?_
  exact .node (starts_of_token ht) (by omega) fun _ _ => by omega

/-! ### Directives -/

omit h in
theorem exists_directive {kind : DirectiveKind} (hd : Directive.next? (.reached ts i) = some kind) :
    ∃ t, ts[i]? = some t ∧ Directive.ofToken? t = some (Directive.ofLine t.text.toList) ∧
      (Directive.ofLine t.text.toList).kind = some kind := by
  rw [Directive.next?, Cursor.after_head?] at hd
  obtain ⟨d, hd, hkind⟩ := Option.bind_eq_some_iff.1 hd
  obtain ⟨t, ht, hof⟩ := Option.bind_eq_some_iff.1 hd
  have hline : Directive.ofToken? t = some (Directive.ofLine t.text.toList) := by
    unfold Directive.ofToken? at hof ⊢
    split at hof
    · rw [if_pos ‹_›]
    · cases hof
  obtain rfl := Option.some.inj (hline.symm.trans hof)
  exact ⟨t, ht, hline, hkind⟩

theorem compileElseIf_agrees (hlow : low ≤ i + 1) :
    Agrees ts i (fun o j => ∀ clause, o = some clause → i < j) (compileElseIf self)
      (Parser.compileElseIf other) := by
  unfold compileElseIf Parser.compileElseIf
  refine .nextDirective (.congr (fun _ => rfl) (Parser.peek_bind ..) ?_)
  rw [Cursor.after_head?]
  by_cases hd : Directive.next? (.reached ts i) = some .elseIfDir
  · obtain ⟨t, ht, hline, hkind⟩ := exists_directive hd
    rw [if_pos hd, ht, Option.bind_some, hline]
    generalize hl : Directive.ofLine t.text.toList = line at hkind
    obtain ⟨kind, name, args⟩ := line
    obtain rfl : kind = some .elseIfDir := hkind
    refine .taken ht (.congr (fun _ => bind_of_ok (hl ▸ splitDirective_apply _)) rfl ?_)
    refine .bind (block_agrees h (atDirectiveEnd_apply ts) hlow) fun body j hj _ => ?_
    exact .pure fun _ _ => hj
  · rw [if_neg hd]
    split
    · next hline =>
      refine absurd ?_ hd
      rw [Directive.next?, Cursor.after_head?, hline]
      rfl
    · exact .stop

theorem compileElse_agrees (hlow : low ≤ i + 1) :
    Agrees ts i (fun _ _ => True) (compileElse self) (Parser.compileElse other) := by
  refine .nextDirective (.cursor ?_)
  refine .ite (fun hd => ?_) fun _ => .pure trivial
  obtain ⟨t, ht, -⟩ := exists_directive hd
  refine .advance ht (.bind (block_agrees h (atDirectiveEnd_apply ts) hlow) fun body j _ _ => ?_)
  exact .pure trivial

theorem compileIf_agrees {start : Nat} (hs : ts[start]? = some t) (condition : String)
    (hstart : start < i) (hlow : low ≤ i) : Agrees ts i (fun _ j => i < j)
      (compileIf self start condition) (Parser.compileIf other t condition) := by
  refine .consuming (fun _ _ => id) ?_
  refine .bind (block_agrees h (atDirectiveEnd_apply ts) hlow) fun thenBody j hij _ => ?_
  refine .bind (.many fun k hk => compileElseIf_agrees h (by omega)) fun elseIfs k hjk _ => ?_
  refine .bind (compileElse_agrees h (by omega)) fun elseBody l hkl _ => ?_
  refine .nextDirective (.cursor ?_)
  cases hd : Directive.next? (.reached ts l) with
  | none => exact .tokenSpan hs (.fail _)
  | some kind =>
    obtain ⟨u, hu, -⟩ := exists_directive hd
    cases kind
    case endIfDir =>
      exact .advance hu (.node (starts_of_token hs) (by omega) fun _ _ => by omega)
    all_goals exact .expected _

theorem directive_agrees (ht : ts[i]? = some t) (hlow : low ≤ i + 1) :
    Agrees ts i (fun _ j => i < j) (directive self) (Parser.directive other t) := by
  refine .consuming (fun _ _ => id) ?_
  refine .index (.tokenSpan ht (.taken ht ?_))
  refine .congr (fun _ => bind_of_ok (splitDirective_apply _)) rfl ?_
  cases (Directive.ofLine t.text.toList).kind with
  | none => exact .fail _
  | some kind =>
    cases kind with
    | ifDir => exact (compileIf_agrees h ht _ (by omega) hlow).mono fun _ _ _ _ => by omega
    | constDir | errorDir =>
      exact .node (starts_of_token ht) (Nat.lt_succ_self i) fun _ _ => Nat.lt_succ_self i
    | elseIfDir | elseDir | endIfDir => exact .fail _

/-! ### Statements -/

theorem printStep_agrees (items : List (PrintItem Extent)) (hlow : low ≤ i) :
    Agrees ts i (Keeps (fun _ _ => True) items i) (printStep self items)
      (Parser.printStep other items) := by
  refine .atStatementEnd (.ite (fun _ => .pure trivial) fun _ => .peekKind ?_)
  cases hop : (kindAt ts i).bind PrintSeparator.ofKind? with
  | none => exact .bind (h.expression _ i hlow) fun value j _ hj => .pure ⟨hj.lt, trivial⟩
  | some separator =>
    obtain ⟨u, hu⟩ := exists_of_bind hop
    exact .advance hu (.pure ⟨Nat.lt_succ_self i, trivial⟩)

theorem print_agrees (ht : ts[i]? = some t) (hlow : low ≤ i + 1) :
    Agrees ts i (fun _ j => i < j) (print self) (Parser.print other t) := by
  refine .consuming (fun _ _ => id) ?_
  refine .index (.advance ht (.bind (.repeatFrom (fun _ _ => True) trivial fun items k hk _ => ?_)
    fun items j hj _ => .node (starts_of_token ht) (by omega) fun _ _ => by omega))
  exact printStep_agrees h items (hlow.trans hk)

omit h in
theorem assignTo_agrees {start : Nat} {target : Expr Extent} (htarget : Starts ts start target.here)
    (hstart : start < i) (op : AssignOp) (value : Expr Extent) : Agrees ts i (fun _ j => i ≤ j)
      (assignTo start target op value)
      (do Parser.assignTo (← Parser.extentFrom target.here) target op value) := by
  have hnode : ∀ make : Extent → Statement Extent, Agrees ts i (fun _ j => i ≤ j)
      (do return make (← extentFrom start)) (do return make (← Parser.extentFrom target.here)) :=
    fun make => .node htarget hstart fun _ _ => Nat.le_refl i
  cases target
  case identifier => exact hnode _
  case member => exact hnode _
  case index => exact hnode _
  all_goals exact .congr (fun _ => rfl) rfl (.fail _)

omit h in
theorem callStatement_agrees {start : Nat} {target : Expr Extent}
    (htarget : Starts ts start target.here) (hstart : start < i) :
    Agrees ts i (fun _ j => i ≤ j) (callStatement start target) (Parser.callStatement target) := by
  refine .peek ?_
  cases target <;> cases ts[i]? <;>
    first | exact .fail _ | exact .node htarget hstart fun _ _ => Nat.le_refl i

theorem operandStatement_agrees (hx : Prefixed ts) (hlow : low ≤ i + 1) :
    Agrees ts i (fun _ j => i < j) (operandStatement self) (Parser.operandStatement other) := by
  refine .consuming (fun _ _ => id) ?_
  refine .index (.bind (operand_agrees h hx hlow) fun target j _ htarget => .peekKind ?_)
  have hj := htarget.lt
  cases hop : (kindAt ts j).bind AssignOp.ofKind? with
  | none =>
    refine .ite (fun hk => ?_) fun _ => ?_
    · obtain ⟨t, ht⟩ : ∃ t, ts[j]? = some t := by
        rw [Bool.or_eq_true, decide_eq_true_eq, decide_eq_true_eq] at hk
        rcases hk with hk | hk <;> exact exists_of_kind hk
      exact .advance ht (.node htarget.starts (by omega) fun _ _ => by omega)
    · exact (callStatement_agrees htarget.starts hj).mono fun _ _ _ _ => by omega
  | some op =>
    obtain ⟨t, ht⟩ := exists_of_bind hop
    refine .advance ht (.bind (h.expression _ _ (by omega)) fun value k hjk _ => ?_)
    exact (assignTo_agrees htarget.starts (by omega) op value).mono fun _ _ _ _ => by omega

section Words

omit h

variable (ht : ts[i]? = some t)

include ht

theorem label_agrees {u : Token} (hu : ts[i + 1]? = some u) :
    Agrees ts i (fun _ j => i < j) label (Parser.label t) := by
  refine .consuming (fun _ _ => id) ?_
  exact .index (.taken ht (.advance hu (.node (starts_of_token ht) (by omega) fun _ _ => by omega)))

theorem goto_agrees : Agrees ts i (fun _ j => i < j) goto (Parser.goto t) := by
  refine .consuming (fun _ _ => id) ?_
  refine .index (.advance ht (.bind (.expect _ _) fun name j hj _ => ?_))
  exact .node (starts_of_token ht) (by omega) fun _ _ => by omega

omit ht in
theorem exitedLoop_agrees : Agrees ts i (fun _ _ => True) exitedLoop Parser.exitedLoop := by
  refine .bind (.accept _) fun _ _ _ _ => .ite (fun _ => .pure trivial) fun _ => ?_
  exact .bind (.accept _) fun _ _ _ _ => .ite (fun _ => .pure trivial) fun _ => .expected _

theorem exit_agrees : Agrees ts i (fun _ j => i < j) exit (Parser.exit t) := by
  refine .consuming (fun _ _ => id) ?_
  have hlt := (List.getElem?_eq_some_iff.1 ht).1
  have hnode : ∀ loop j, i < j → Agrees ts j (fun _ j => i < j)
      (do return Statement.exit (← extentFrom i) loop)
      (do return Statement.exit (← Parser.extentFrom t.extent) loop) :=
    fun loop j hj => .node (starts_of_token ht) hj fun _ _ => hj
  unfold Parser.exit
  refine .index ?_
  by_cases hk : t.kind = .keyword .exitWhileKw
  · refine .moved (fun _ => bind_of_ok (hk ▸ accept_of_kind ht)) (Agrees.advance_reached ..) (Nat.le_succ i)
      (fun _ => hlt) ?_
    rw [if_pos rfl, if_pos hk]
    exact hnode _ _ (Nat.lt_succ_self i)
  · have hne : kindAt ts i ≠ some (.keyword .exitWhileKw) := by
      rwa [kindAt_eq ht, ne_eq, Option.some.injEq]
    refine .congr (fun _ => bind_of_ok (accept_of_ne hne)) rfl (.advance ht ?_)
    rw [if_neg hk]
    exact .bind exitedLoop_agrees fun loop j hj _ => hnode loop j hj

theorem endProgram_agrees : Agrees ts i (fun _ j => i < j) endProgram (Parser.endProgram t) := by
  refine .consuming (fun _ _ => id) ?_
  have hstart := starts_of_token ht
  have hlt := Nat.lt_succ_self i
  refine .index (.tokenSpan ht (.advance ht (.congr (fun _ => rfl) (Parser.extentFrom_bind ..) (.peek ?_))))
  cases ts[i + 1]? with
  | none => exact .extent hstart hlt (.pure hlt)
  | some u => exact .ite (fun _ => .fail _) fun _ => .extent hstart hlt (.pure hlt)

theorem stop_agrees : Agrees ts i (fun _ j => i < j) stop (Parser.stop t) := by
  refine .consuming (fun _ _ => id) ?_
  exact .index (.advance ht (.node (starts_of_token ht) (by omega) fun _ _ => by omega))

theorem library_agrees : Agrees ts i (fun _ j => i < j) library (Parser.library t) := by
  refine .consuming (fun _ _ => id) ?_
  refine .index (.advance ht (.bind (.expect _ _) fun path j hj _ => ?_))
  exact .node (starts_of_token ht) (by omega) fun _ _ => by omega

end Words

theorem giveBack_agrees (ht : ts[i]? = some t) (hlow : low ≤ i + 1) :
    Agrees ts i (fun _ j => i < j) (giveBack self) (Parser.giveBack other t) := by
  refine .consuming (fun _ _ => id) ?_
  have hstart := starts_of_token ht
  refine .index (.advance ht (.atStatementEnd (.ite (fun _ => ?_) fun _ => ?_)))
  · exact .node hstart (by omega) fun _ _ => by omega
  · exact .bind (h.expression _ _ hlow) fun value j hj _ => .node hstart (by omega) fun _ _ => by omega

theorem dim_agrees (ht : ts[i]? = some t) (hlow : low ≤ i + 1) :
    Agrees ts i (fun _ j => i < j) (dim self) (Parser.dim other t) := by
  refine .consuming (fun _ _ => id) ?_
  refine .index (.advance ht (.bind (.expect _ _) fun name j hj _ => ?_))
  refine .bind (.expect _ _) fun _ k hk _ => ?_
  refine .bind (h.expression _ k (by omega)) fun size l hl _ => ?_
  refine .bind (.many fun m hm => .after _ fun n hn => h.expression _ n (by omega))
    fun sizes m hm _ => ?_
  refine .bind (.expect _ _) fun _ n hn _ => ?_
  exact .node (starts_of_token ht) (by omega) fun _ _ => by omega

theorem namedProcedure_agrees (keyword : ProcedureKind) (ht : ts[i]? = some t) (hlow : low ≤ i + 1) :
    Agrees ts i (fun _ j => i < j) (namedProcedure self keyword)
      (Parser.namedProcedure other keyword t) := by
  refine .consuming (fun _ _ => id) ?_
  refine .index (.advance ht (.bind (.expect _ _) fun name j hj _ => ?_))
  refine .bind (procedure_agrees h keyword ht (by omega)) fun decl k hk _ => ?_
  exact .node (starts_of_token ht) (by omega) fun _ _ => by omega

theorem statement_agrees (hx : Prefixed ts) (hlow : low ≤ i + 1) :
    Agrees ts i (fun _ j => i < j) (statement self) (Parser.statement other) := by
  refine .consuming (fun _ _ => id) ?_
  refine .peek ?_
  cases ht : ts[i]? with
  | none => exact .fail _
  | some t =>
    dsimp only
    generalize t.kind = k
    split
    · exact print_agrees h ht hlow
    · exact print_agrees h ht hlow
    · exact branch_agrees h ht hlow
    · exact forLoop_agrees h ht hlow
    · exact whileLoop_agrees h ht hlow
    · exact goto_agrees ht
    · exact giveBack_agrees h ht hlow
    · exact exit_agrees ht
    · exact exit_agrees ht
    · exact endProgram_agrees ht
    · exact stop_agrees ht
    · exact namedProcedure_agrees h _ ht hlow
    · exact namedProcedure_agrees h _ ht hlow
    · exact dim_agrees h ht hlow
    · exact library_agrees ht
    · exact directive_agrees h ht hlow
    · refine .cursor (.look (fun _ _ => rfl) (.ite (fun hl => ?_) fun _ => ?_))
      · obtain ⟨u, hu⟩ : ∃ u, ts[i + 1]? = some u := by
          rw [Parser.atLabel, Bool.and_eq_true, decide_eq_true_eq, Cursor.after_kindAt?] at hl
          exact exists_of_kind hl.1
        exact label_agrees ht hu
      · exact operandStatement_agrees h hx hlow
    · exact .fail _
    -- The other match is another term, although its cases are the same.
    · exact .congr (fun _ => rfl) (by simp [*]) (.fail _)

theorem wholeStatement_agrees (hlow : low ≤ i) :
    Agrees ts i (fun _ j => i < j) (wholeStatement self) (BrightCoverage.wholeStatement other) := by
  refine .bind (h.statement i hlow) fun s j _ hj => .atStatementEnd ?_
  exact .ite (fun _ => .pure hj) fun _ => .expected _

end Parsers

/-- The parsers that go some levels deep agree wherever fewer tokens are left. -/
theorem agreesFrom_ofDepth (hx : Prefixed ts) (depth : Nat) :
    Recursion.AgreesFrom (ts.length + 1 - depth) ts (ofDepth depth) (.ofDepth depth) := by
  induction depth with
  | zero =>
    have hover : ∀ {α : Type} {i} {Q : α → Nat → Prop} {p : Indexed α} {q : Parser α},
        ts.length + 1 - 0 ≤ i → Agrees ts i Q p q := by
      intro α i Q p q hi hle
      omega
    exact ⟨fun _ _ => hover, fun _ => hover, fun _ _ hi _ => hover hi⟩
  | succ depth ih =>
    exact ⟨fun min i hi => expression_agrees ih hx min (by omega),
      fun i hi => statement_agrees ih hx (by omega),
      fun i t hi ht => inlineElseIf_agrees ih ht (by omega)⟩

end BrightCoverage.Indexed
