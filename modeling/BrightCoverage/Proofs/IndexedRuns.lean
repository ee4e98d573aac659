import BrightCoverage.Proofs.ExpressionLayout
import BrightCoverage.Proofs.IndexedParsers

/-! Runs by index. A parser over an array agrees with one that takes tokens off a list if both come to
the same value or the same error, at the same index, and without a fault. The one hands its error on;
the other adds it to its list, and a value leaves the list as it was. The agreement goes along with the
steps of a parser: what a value comes with, as that a token has been read, is a condition that each step
hands on to the next. -/

namespace BrightCoverage

/-- The cursor when the first `i` tokens have been read. -/
abbrev Cursor.reached (ts : List Token) (i : Nat) : Cursor :=
  .after (Mark.origin.extentTo Mark.origin) ts i

namespace Indexed

variable {α β : Type} {ts : List Token} {i : Nat} {es : List ParseError} {t : Token}

/-! ### Steps -/

section Steps

variable {s : Progress}

theorem bind_apply (p : Indexed α) (f : α → Indexed β) :
    (p >>= f) ts s = match p ts s with
      | .ok a s' => f a ts s'
      | .error h s' => .error h s' := by
  show EStateM.bind (p ts) (fun a => f a ts) s = _
  unfold EStateM.bind
  cases p ts s <;> rfl

theorem bind_of_ok {p : Indexed α} {f : α → Indexed β} {a : α} {s' : Progress}
    (h : p ts s = .ok a s') : (p >>= f) ts s = f a ts s' := by
  rw [bind_apply, h]

@[simp] theorem pure_apply (a : α) : (pure a : Indexed α) ts s = .ok a s := rfl

@[simp] theorem current_bind (f : Nat → Indexed β) : (current >>= f) ts s = f s.index ts s := rfl

@[simp] theorem read_bind (f : List Token → Indexed β) : (read >>= f) ts s = f ts ts s := rfl

@[simp] theorem modify_bind (g : Progress → Progress) (f : Unit → Indexed β) :
    (modify g >>= f) ts s = f () ts (g s) := rfl

@[simp] theorem peek_bind (f : Option Token → Indexed β) :
    (peek >>= f) ts s = f ts[s.index]? ts s := rfl

@[simp] theorem peekKind_bind (f : Option TokenKind → Indexed β) :
    (peekKind >>= f) ts s = f (kindAt ts s.index) ts s := rfl

@[simp] theorem look_bind (see : Cursor → α) (f : α → Indexed β) :
    (look see >>= f) ts s = f (see (.ofTokens (ts.drop s.index))) ts s := rfl

theorem advance_apply (ht : ts[i]? = some t) : advance ts ⟨i, es⟩ = .ok (some t) ⟨i + 1, es⟩ := by
  have hlt := (List.getElem?_eq_some_iff.1 ht).1
  unfold advance
  simp only [current_bind, read_bind, if_pos hlt]
  rw [modify_bind]
  simp [before, ht]

theorem taken_apply (ht : ts[i]? = some t) : taken ts ⟨i, es⟩ = .ok t ⟨i + 1, es⟩ := by
  unfold taken
  rw [bind_of_ok (advance_apply ht)]
  rfl

theorem exists_of_kind {kind : TokenKind} (h : kindAt ts i = some kind) : ∃ t, ts[i]? = some t :=
  (exists_token h).imp fun _ => And.left

theorem exists_of_bind {f : TokenKind → Option α} {a : α} (h : (kindAt ts i).bind f = some a) :
    ∃ t, ts[i]? = some t := by
  obtain ⟨kind, hk, -⟩ := Option.bind_eq_some_iff.1 h
  exact exists_of_kind hk

theorem accept_of_kind (ht : ts[i]? = some t) :
    accept t.kind ts ⟨i, es⟩ = .ok true ⟨i + 1, es⟩ := by
  unfold accept
  rw [peekKind_bind, if_pos (kindAt_eq ht), bind_of_ok (advance_apply ht)]
  rfl

theorem accept_of_ne {kind : TokenKind} (h : kindAt ts i ≠ some kind) :
    accept kind ts ⟨i, es⟩ = .ok false ⟨i, es⟩ := by
  unfold accept
  rw [peekKind_bind, if_neg h]
  rfl

theorem tokenSpan_apply {start : Nat} (ht : ts[start]? = some t) :
    tokenSpan start ts s = .ok t.span s := by
  simp [tokenSpan, ht, unwrap]

theorem extentFrom_apply {start : Nat} (hstart : start < i) (hi : i ≤ ts.length) :
    extentFrom start ts ⟨i, es⟩ = .ok (extentBetween ts start i) ⟨i, es⟩ := by
  have hs : ts[start]? = some ts[start] := List.getElem?_eq_getElem (by omega)
  have hl : ts[i - 1]? = some ts[i - 1] := List.getElem?_eq_getElem (by omega)
  simp only [extentFrom, read_bind, hs, unwrap, pure_bind, current_bind, if_pos hstart, hl,
    pure_apply, extentBetween, extentAt, Option.map_some, Option.getD_some]

section Loops

variable {s' : Progress} {h : Halt} {b b' : β} {a : α}

theorem repeatFrom_of_none (step : β → Indexed (Option β)) (hs : step b ts s = .ok none s') :
    repeatFrom step b ts s = .ok b s' := by
  rw [repeatFrom, hs]

theorem repeatFrom_of_some (step : β → Indexed (Option β)) (hs : step b ts s = .ok (some b') s')
    (hlt : s.index < s'.index) (hle : s'.index ≤ ts.length) :
    repeatFrom step b ts s = repeatFrom step b' ts s' := by
  rw [repeatFrom, hs]
  exact if_pos ⟨hlt, hle⟩

theorem repeatFrom_of_error (step : β → Indexed (Option β)) (hs : step b ts s = .error h s') :
    repeatFrom step b ts s = .error h s' := by
  rw [repeatFrom, hs]

theorem many_of_none {step : Indexed (Option α)} (hs : step ts s = .ok none s') :
    many step ts s = .ok [] s' := by
  rw [many, hs]

theorem many_of_some {step : Indexed (Option α)} (hs : step ts s = .ok (some a) s')
    (hlt : s.index < s'.index) (hle : s'.index ≤ ts.length) :
    many step ts s = (do return a :: (← many step)) ts s' := by
  rw [many, hs, bind_apply]
  simp only [if_pos (And.intro hlt hle)]
  cases many step ts s' <;> rfl

theorem many_of_error {step : Indexed (Option α)} (hs : step ts s = .error h s') :
    many step ts s = .error h s' := by
  rw [many, hs]

end Loops

end Steps

/-- From an index on, a parser by index comes to the same as one that takes tokens off a list: a value
with a property or an error, at an index that is no less and at most the number of tokens. Whatever
errors there are already, a value adds none, and a failure adds the error of the other parser. -/
def Agrees (ts : List Token) (i : Nat) (Q : α → Nat → Prop) (p : Indexed α) (q : Parser α) : Prop :=
  i ≤ ts.length → ∀ es, ∃ j, i ≤ j ∧ j ≤ ts.length ∧
    ((∃ a, p ts ⟨i, es⟩ = .ok a ⟨j, es⟩ ∧ q (.reached ts i) = .ok a (.reached ts j) ∧ Q a j) ∨
      ∃ e, p ts ⟨i, es⟩ = .error .error ⟨j, es ++ [e]⟩ ∧
        q (.reached ts i) = .error e (.reached ts j))

/-- A step of a loop keeps an invariant, at its end too, and it has to read a token to go on. -/
def Keeps (I : α → Nat → Prop) (a : α) (i : Nat) : Option α → Nat → Prop
  | none, j => I a j
  | some a', j => i < j ∧ I a' j

theorem Keeps.lt {I : α → Nat → Prop} {a b : α} {o : Option α} {j : Nat} (h : Keeps I a i o j)
    (ho : o = some b) : i < j := by
  subst ho
  exact h.1

/-- An extent that starts with the token at an index. -/
def Starts (ts : List Token) (start : Nat) (first : Extent) : Prop :=
  ∀ last, first.through last = (extentAt ts start).through last

theorem starts_of_token (ht : ts[i]? = some t) : Starts ts i t.extent := by
  intro last
  rw [extentAt_eq ht]

namespace Agrees

variable {P : α → Nat → Prop} {Q : β → Nat → Prop} {p p' : Indexed β} {q q' : Parser β}

theorem moved {j : Nat} (hp : ∀ es, p ts ⟨i, es⟩ = p' ts ⟨j, es⟩) (hq : q (.reached ts i) = q' (.reached ts j))
    (hij : i ≤ j) (hj : i ≤ ts.length → j ≤ ts.length) (h : Agrees ts j Q p' q') :
    Agrees ts i Q p q := by
  intro hi es
  obtain ⟨k, hjk, hk, h⟩ := h (hj hi) es
  refine ⟨k, hij.trans hjk, hk, ?_⟩
  rwa [hp, hq]

theorem congr (hp : ∀ es, p ts ⟨i, es⟩ = p' ts ⟨i, es⟩)
    (hq : q (.reached ts i) = q' (.reached ts i)) (h : Agrees ts i Q p' q') : Agrees ts i Q p q :=
  moved hp hq (Nat.le_refl i) id h

theorem mono {R : β → Nat → Prop} (h : Agrees ts i Q p q) (hR : ∀ b j, i ≤ j → Q b j → R b j) :
    Agrees ts i R p q := by
  intro hi es
  obtain ⟨j, hij, hj, ⟨b, hp, hq, hb⟩ | h⟩ := h hi es
  · exact ⟨j, hij, hj, .inl ⟨b, hp, hq, hR b j hij hb⟩⟩
  · exact ⟨j, hij, hj, .inr h⟩

theorem pure {b : β} (h : Q b i) : Agrees ts i Q (Pure.pure b) (Pure.pure b) :=
  fun hi _ => ⟨i, Nat.le_refl i, hi, .inl ⟨b, rfl, rfl, h⟩⟩

theorem stop {k : Nat} : Agrees ts i (fun o j => ∀ b, o = some b → k < j)
    (Pure.pure (none : Option β)) (Pure.pure none) :=
  pure fun _ ho => nomatch ho

theorem fail (e : ParseError) : Agrees ts i Q (Indexed.fail e) (throw e) :=
  fun hi _ => ⟨i, Nat.le_refl i, hi, .inr ⟨e, rfl, rfl⟩⟩

theorem bind {p : Indexed α} {q : Parser α} {f : α → Indexed β} {g : α → Parser β}
    (h : Agrees ts i P p q) (hf : ∀ a j, i ≤ j → P a j → Agrees ts j Q (f a) (g a)) :
    Agrees ts i Q (p >>= f) (q >>= g) := by
  intro hi es
  obtain ⟨j, hij, hj, ⟨a, hp, hq, ha⟩ | ⟨e, hp, hq⟩⟩ := h hi es
  · obtain ⟨k, hjk, hk, h⟩ := hf a j hij ha hj es
    refine ⟨k, hij.trans hjk, hk, ?_⟩
    rwa [bind_of_ok hp, Parser.bind_of_ok hq]
  · refine ⟨j, hij, hj, .inr ⟨e, ?_, ?_⟩⟩
    · rw [bind_apply, hp]
    · rw [Parser.bind_apply, hq]

theorem ite {b : Prop} [Decidable b] (h : b → Agrees ts i Q p q) (h' : ¬ b → Agrees ts i Q p' q') :
    Agrees ts i Q (if b then p else p') (if b then q else q') := by
  split
  · exact h ‹b›
  · exact h' ‹¬ b›

/-! #### What comes next -/

theorem index {f : Nat → Indexed β} (h : Agrees ts i Q (f i) q) : Agrees ts i Q (current >>= f) q :=
  congr (fun _ => rfl) rfl h

theorem cursor {g : Cursor → Parser β} (h : Agrees ts i Q p (g (.reached ts i))) :
    Agrees ts i Q p (get >>= g) :=
  congr (fun _ => rfl) rfl h

theorem peek {f : Option Token → Indexed β} {g : Option Token → Parser β}
    (h : Agrees ts i Q (f ts[i]?) (g ts[i]?)) :
    Agrees ts i Q (Indexed.peek >>= f) (Parser.peek >>= g) := by
  refine congr (fun _ => rfl) ?_ h
  rw [Parser.peek_bind, Cursor.after_head?]

theorem peekKind {f : Option TokenKind → Indexed β} {g : Option TokenKind → Parser β}
    (h : Agrees ts i Q (f (kindAt ts i)) (g (kindAt ts i))) :
    Agrees ts i Q (Indexed.peekKind >>= f) (Parser.peekKind >>= g) := by
  refine congr (fun _ => rfl) ?_ h
  rw [Parser.peekKind_bind, Cursor.after_kind?]

theorem token {f : Option Token → Indexed β} (h : Agrees ts i Q (f ts[i]?) q) :
    Agrees ts i Q (Indexed.peek >>= f) q :=
  congr (fun _ => rfl) rfl h

theorem kind {f : Option TokenKind → Indexed β} (h : Agrees ts i Q (f (kindAt ts i)) q) :
    Agrees ts i Q (Indexed.peekKind >>= f) q :=
  congr (fun _ => rfl) rfl h

theorem look {see : Cursor → α} {f : α → Indexed β}
    (hsee : ∀ last us, see ⟨last, us⟩ = see (.ofTokens us))
    (h : Agrees ts i Q (f (see (.reached ts i))) q) : Agrees ts i Q (Indexed.look see >>= f) q := by
  refine congr (fun es => ?_) rfl h
  rw [look_bind]
  exact congrArg (f · ts ⟨i, es⟩) (hsee _ _).symm

theorem atStatementEnd {f : Bool → Indexed β} {g : Bool → Parser β}
    (h : Agrees ts i Q (f (Cursor.reached ts i).atStatementEnd)
      (g (Cursor.reached ts i).atStatementEnd)) :
    Agrees ts i Q (Indexed.look Cursor.atStatementEnd >>= f) (Parser.atStatementEnd >>= g) :=
  congr (fun _ => rfl) rfl h

/-! #### Tokens that are read -/

theorem advance_reached (ts : List Token) (i : Nat) (g : Unit → Parser β) :
    (Parser.advance >>= g) (.reached ts i) = g () (.reached ts (i + 1)) := by
  rw [Parser.advance_bind, Cursor.next_after]

theorem advance {f : Option Token → Indexed β} {g : Unit → Parser β} (ht : ts[i]? = some t)
    (h : Agrees ts (i + 1) Q (f (some t)) (g ())) :
    Agrees ts i Q (Indexed.advance >>= f) (Parser.advance >>= g) := by
  have hlt := (List.getElem?_eq_some_iff.1 ht).1
  exact moved (fun _ => bind_of_ok (advance_apply ht)) (advance_reached ..) (Nat.le_succ i) (fun _ => hlt) h

theorem taken {f : Token → Indexed β} {g : Unit → Parser β} (ht : ts[i]? = some t)
    (h : Agrees ts (i + 1) Q (f t) (g ())) :
    Agrees ts i Q (Indexed.taken >>= f) (Parser.advance >>= g) := by
  have hlt := (List.getElem?_eq_some_iff.1 ht).1
  exact moved (fun _ => bind_of_ok (taken_apply ht)) (advance_reached ..) (Nat.le_succ i) (fun _ => hlt) h

theorem accept (kind : TokenKind) :
    Agrees ts i (fun b j => b = true → i < j) (Indexed.accept kind) (Parser.accept kind) := by
  unfold Indexed.accept Parser.accept
  refine peekKind (ite (fun hk => ?_) fun _ => ?_)
  · obtain ⟨t, ht⟩ := exists_of_kind hk
    exact advance ht (pure fun _ => Nat.lt_succ_self i)
  · exact pure fun hb => nomatch hb

theorem expected (what : String) : Agrees ts i Q (Indexed.expected what) (Parser.expected what) := by
  refine peek ?_
  cases ts[i]? with
  | none => exact fail _
  | some t => exact fail _

theorem expect (kind : TokenKind) (what : String) :
    Agrees ts i (fun _ j => i < j) (Indexed.expect kind what) (Parser.expect kind what) := by
  refine peek ?_
  cases ht : ts[i]? with
  | none => exact expected what
  | some t => exact ite (fun _ => taken ht (pure (Nat.lt_succ_self i))) fun _ => expected what

theorem expectWord (what : String) :
    Agrees ts i (fun _ j => i < j) (Indexed.expectWord what) (Parser.expectWord what) := by
  refine peek ?_
  cases ht : ts[i]? with
  | none => exact expected what
  | some t => exact ite (fun _ => taken ht (pure (Nat.lt_succ_self i))) fun _ => expected what

theorem tokenSpan {start : Nat} {f : Span → Indexed β} (ht : ts[start]? = some t)
    (h : Agrees ts i Q (f t.span) q) : Agrees ts i Q (Indexed.tokenSpan start >>= f) q :=
  congr (fun _ => bind_of_ok (tokenSpan_apply ht)) rfl h

theorem extent {start : Nat} {first : Extent} {f : Extent → Indexed β} (hfirst : Starts ts start first)
    (hstart : start < i) (h : Agrees ts i Q (f (first.through (Cursor.reached ts i).last)) q) :
    Agrees ts i Q (Indexed.extentFrom start >>= f) q := by
  intro hi
  have hlast : (Cursor.reached ts i).last = extentAt ts (i - 1) := by
    have h := Cursor.after_last (Mark.origin.extentTo Mark.origin) ts (show i - 1 < ts.length by omega)
    rwa [Nat.sub_add_cancel (by omega)] at h
  rw [hlast, hfirst] at h
  exact congr (fun _ => bind_of_ok (extentFrom_apply hstart hi)) rfl h hi

theorem node {start : Nat} {first : Extent} {make : Extent → β} (hfirst : Starts ts start first)
    (hstart : start < i) (h : ∀ here, Starts ts start here → Q (make here) i) :
    Agrees ts i Q (do return make (← Indexed.extentFrom start))
      (do return make (← Parser.extentFrom first)) := by
  refine extent hfirst hstart (congr (fun _ => rfl) (Parser.extentFrom_bind ..) (pure (h _ fun last => ?_)))
  exact hfirst last

theorem consuming (hQ : ∀ b j, Q b j → i < j) (h : Agrees ts i Q p q) :
    Agrees ts i Q (Indexed.consuming p) q := by
  intro hi es
  obtain ⟨j, hij, hj, ⟨b, hp, hq, hb⟩ | ⟨e, hp, hq⟩⟩ := h hi es
  · refine ⟨j, hij, hj, .inl ⟨b, ?_, hq, hb⟩⟩
    simp only [Indexed.consuming, hp, if_pos (And.intro (hQ b j hb) hj)]
  · refine ⟨j, hij, hj, .inr ⟨e, ?_, hq⟩⟩
    simp only [Indexed.consuming, hp, if_pos (And.intro hij hj)]

/-! #### Loops -/

/-- A loop that carries a value along keeps an invariant of its steps. The list of tokens that bounds
the steps of the other loop is long enough. -/
theorem iterate {step : β → Indexed (Option β)} {step' : β → Parser (Option β)} {I : β → Nat → Prop}
    (h : ∀ b k, i ≤ k → I b k → Agrees ts k (Keeps I b k) (step b) (step' b))
    {us : List Token} {k : Nat} (hik : i ≤ k) (hus : ts.length - k ≤ us.length) {b : β} (hb : I b k) :
    Agrees ts k I (Indexed.repeatFrom step b) (Parser.iterate step' us b) := by
  induction hn : ts.length - k using Nat.strongRecOn generalizing k b us with
  | _ n ih =>
    intro hk es
    obtain ⟨j, hkj, hj, ⟨_ | b', hp, hq, ho⟩ | ⟨e, hp, hq⟩⟩ := h b k hik hb hk es
    · exact ⟨j, hkj, hj, .inl ⟨b, repeatFrom_of_none step hp, Parser.iterate_of_none hq us, ho⟩⟩
    · obtain ⟨hlt, hb'⟩ : k < j ∧ I b' j := ho
      cases us with
      | nil =>
        rw [List.length_nil] at hus
        omega
      | cons u us =>
        rw [List.length_cons] at hus
        have hus : ts.length - j ≤ us.length := by omega
        have hrest := ih (ts.length - j) (by omega) (hik.trans hkj) hus hb' rfl
        obtain ⟨l, hjl, hl, h⟩ := hrest hj es
        refine ⟨l, hkj.trans hjl, hl, ?_⟩
        rwa [repeatFrom_of_some step hp hlt hj, Parser.iterate, Parser.bind_of_ok hq]
    · exact ⟨j, hkj, hj, .inr ⟨e, repeatFrom_of_error step hp, Parser.iterate_of_error hq us⟩⟩

theorem repeatFrom {step : β → Indexed (Option β)} {step' : β → Parser (Option β)}
    (I : β → Nat → Prop) {b : β} (hb : I b i)
    (h : ∀ b k, i ≤ k → I b k → Agrees ts k (Keeps I b k) (step b) (step' b)) :
    Agrees ts i I (Indexed.repeatFrom step b) (Parser.repeatFrom step' b) := by
  exact congr (fun _ => rfl) rfl (iterate h (Nat.le_refl i) (Nat.le_of_eq List.length_drop.symm) hb)

theorem collect {step : Indexed (Option β)} {step' : Parser (Option β)}
    (h : ∀ k, i ≤ k → Agrees ts k (fun o j => ∀ b, o = some b → k < j) step step')
    {us : List Token} {k : Nat} (hik : i ≤ k) (hus : ts.length - k ≤ us.length) :
    Agrees ts k (fun _ _ => True) (Indexed.many step) (Parser.collect step' us) := by
  induction hn : ts.length - k using Nat.strongRecOn generalizing k us with
  | _ n ih =>
    intro hk es
    obtain ⟨j, hkj, hj, ⟨_ | b, hp, hq, ho⟩ | ⟨e, hp, hq⟩⟩ := h k hik hk es
    · exact ⟨j, hkj, hj, .inl ⟨[], many_of_none hp, Parser.collect_of_none hq us, trivial⟩⟩
    · have hlt := ho b rfl
      cases us with
      | nil =>
        rw [List.length_nil] at hus
        omega
      | cons u us =>
        rw [List.length_cons] at hus
        have hus : ts.length - j ≤ us.length := by omega
        have hrest : Agrees ts j (fun _ _ => True) (do return b :: (← Indexed.many step))
            (do return b :: (← Parser.collect step' us)) :=
          bind (ih (ts.length - j) (by omega) (hik.trans hkj) hus rfl) fun _ _ _ _ => pure trivial
        obtain ⟨l, hjl, hl, h⟩ := hrest hj es
        refine ⟨l, hkj.trans hjl, hl, ?_⟩
        rwa [many_of_some hp hlt hj, Parser.collect, Parser.bind_of_ok hq]
    · exact ⟨j, hkj, hj, .inr ⟨e, many_of_error hp, Parser.collect_of_error hq us⟩⟩

theorem many {step : Indexed (Option β)} {step' : Parser (Option β)}
    (h : ∀ k, i ≤ k → Agrees ts k (fun o j => ∀ b, o = some b → k < j) step step') :
    Agrees ts i (fun _ _ => True) (Indexed.many step) (Parser.many step') := by
  exact congr (fun _ => rfl) rfl (collect h (Nat.le_refl i) (Nat.le_of_eq List.length_drop.symm))

/-! #### Parts of the grammar -/

theorem after {R : Nat → β → Nat → Prop} (kind : TokenKind) (h : ∀ j, i < j → Agrees ts j (R j) p q) :
    Agrees ts i (fun o j => ∀ b, o = some b → i < j) (Indexed.after kind p) (Parser.after kind q) := by
  refine bind (accept kind) fun b j _ hj => ite (fun hb => ?_) fun _ => stop
  exact bind (h j (hj hb)) fun b k hjk _ => pure fun _ _ => (hj hb).trans_le hjk

theorem commaSeparated {R : Nat → β → Nat → Prop} (closing : Symbol)
    (h : ∀ j, i ≤ j → Agrees ts j (R j) p q) :
    Agrees ts i (fun _ _ => True) (Indexed.commaSeparated closing p)
      (Parser.commaSeparated closing q) := by
  refine peekKind (ite (fun _ => pure trivial) fun _ => ?_)
  refine bind (h i (Nat.le_refl i)) fun b j hij _ => ?_
  refine bind (many fun k hjk => after _ fun l hkl => h l ?_) fun bs k _ _ => pure trivial
  exact (hij.trans hjk).trans (Nat.le_of_lt hkl)

end Agrees

end Indexed

end BrightCoverage
