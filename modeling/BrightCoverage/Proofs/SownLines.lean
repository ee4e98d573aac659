import BrightCoverage.Proofs.InstrumentedTrees
import BrightCoverage.Proofs.JoinedTexts
import BrightCoverage.Proofs.Sowing

/-! Calls in front of lines. The call of a line stands at its start, also where the owner of the line
stands further on. The tokens of the text are then those that it has if all owners come first, sown
with the calls of the other lines, as long as no bracket is open where these start. -/

namespace BrightCoverage

variable {r : Reporter} {source : Text} {program : List (Statement Extent)} {n : Nat} {t u nl : Token}
  {ts us vs rest : List Token} {d : Int} {before its after : List Item} {owners : Ownership}

/-! ### Tokens that are kept -/

theorem Rule.flat_or_literal : ∀ rule ∈ all, (∀ k ∈ rule.kind, k.Flat) ∨
    rule.pattern ∈ ["(", ")", "[", "]", "\x7b", "\x7d", "\n"].map Pattern.literal := by
  decide

theorem items_flat (text : Text) : ∀ it ∈ items text, (∀ k ∈ it.kind, k.Flat) ∨
    it.text ∈ ["(", ")", "[", "]", "\x7b", "\x7d", "\n"].map String.toList := by
  refine forall_items (fun text _ => ?_) text
  rcases nextItem_spec text with ⟨rule, k, -, hfirst, -, hn⟩ | ⟨-, hn⟩
  · obtain ⟨hr, hm⟩ := Rule.first?_some hfirst
    rw [hn]
    refine (Rule.flat_or_literal rule hr).imp_right fun hp => ?_
    obtain ⟨s, hs, hp⟩ := List.mem_map.1 hp
    rw [← hp, Pattern.matches_literal] at hm
    exact List.mem_map.2 ⟨s, hs, hm.symm⟩
  · rw [hn]
    refine .inl fun k hk => ?_
    obtain rfl := Option.mem_some_iff.1 hk
    decide

theorem kept_of_mem_lex (ht : t ∈ lex source) : Kept t t := by
  refine ⟨.refl t, fun hword => ?_⟩
  rw [lex_eq_place] at ht
  obtain ⟨it, hit, hkind, htext⟩ := exists_item_of_mem_place ht
  refine (items_flat source it hit).elim (fun h => h _ hkind) fun h => ?_
  have hwords : ∀ s ∈ ["(", ")", "[", "]", "\x7b", "\x7d", "\n"].map String.toList,
      Token.isWord ⟨t.kind, String.ofList s, t.extent⟩ = false := by
    simp only [Token.isWord, String.toList_ofList]
    decide
  have hnot := hwords _ h
  rw [htext] at hnot
  exact absurd hword (by simpa using hnot)

/-! ### Sums along lists -/

section Sums

variable {α : Type}

def total (f : α → Int) : List α → Int
  | [] => 0
  | a :: as => f a + total f as

variable {f g : α → Int} {as bs : List α} {a : α}

@[simp] theorem total_nil : total f [] = 0 :=
  rfl

@[simp] theorem total_cons : total f (a :: as) = f a + total f as :=
  rfl

theorem total_append : total f (as ++ bs) = total f as + total f bs := by
  induction as with
  | nil => exact (Int.zero_add _).symm
  | cons a as ih => rw [List.cons_append, total_cons, total_cons, ih, Int.add_assoc]

theorem total_congr (h : ∀ a ∈ as, f a = g a) : total f as = total g as := by
  induction as with
  | nil => rfl
  | cons a as ih =>
    obtain ⟨ha, has⟩ := List.forall_mem_cons.1 h
    rw [total_cons, total_cons, ha, ih has]

theorem total_eq_zero (h : ∀ a ∈ as, f a = 0) : total f as = 0 := by
  induction as with
  | nil => rfl
  | cons a as ih =>
    obtain ⟨ha, has⟩ := List.forall_mem_cons.1 h
    rw [total_cons, ha, ih has, Int.zero_add]

theorem total_add : total (fun a => f a + g a) as = total f as + total g as := by
  induction as with
  | nil => rfl
  | cons a as ih =>
    simp only [total_cons, ih]
    omega

theorem total_once [DecidableEq α] (ha : a ∈ as) (hnodup : as.Nodup) (k : Int) :
    total (fun b => if b = a then k else 0) as = k := by
  obtain ⟨xs, ys, rfl⟩ := List.append_of_mem ha
  have hnotMem := (List.nodup_cons.1 (List.nodup_middle.1 hnodup)).1
  rw [List.mem_append, not_or] at hnotMem
  have hnone : ∀ zs : List α, a ∉ zs → total (fun b => if b = a then k else 0) zs = 0 := by
    intro zs hzs
    refine total_eq_zero fun b hb => if_neg ?_
    rintro rfl
    exact hzs hb
  rw [total_append, total_cons, hnone xs hnotMem.1, hnone ys hnotMem.2, if_pos rfl, Int.zero_add,
    Int.add_zero]

end Sums

/-! ### How many brackets are open -/

def Sense.turn : Sense → Int
  | .token kind _ => kind.turn
  | .line _ => 0

theorem turn_sense (word : TokenKind × String) : (sense word).turn = word.1.turn := by
  unfold sense
  split
  · next h =>
    rw [h]
    rfl
  · rfl

/-- By how much tokens change the number of open brackets. -/
def turns (ts : List Token) : Int :=
  total (fun t => t.kind.turn) ts

theorem turns_append (ts us : List Token) : turns (ts ++ us) = turns ts + turns us :=
  total_append

/-- How many brackets are open where a line starts. -/
def openAt (source : Text) (line : Nat) : Int :=
  turns ((lex source).takeWhile (·.extent.startLine < line))

theorem turns_eq_senses (ts : List Token) : turns ts = total Sense.turn (ts.map Token.sense) := by
  induction ts with
  | nil => rfl
  | cons t ts ih =>
    have ht : t.sense.turn = t.kind.turn := turn_sense (t.kind, t.text)
    rw [List.map_cons, total_cons, ← ih, ht]
    rfl

def Lexeme.turns (ls : List Lexeme) : Int :=
  total Sense.turn ((ls.map Lexeme.face).map sense)

theorem Lexeme.turns_append (ls ls' : List Lexeme) : turns (ls ++ ls') = turns ls + turns ls' := by
  rw [turns, List.map_append, List.map_append, total_append]
  rfl

namespace Reporter

theorem turns_report (line : Nat) (kind : LineKind) : Lexeme.turns (r.report line kind) = 0 := by
  have hword : (Lexeme.word r.functionName).kind.turn = 0 := by
    cases hname : Keyword.ofWord? r.functionName <;> simp [Lexeme.kind, hname, TokenKind.turn]
  simp only [Lexeme.turns, report, List.map_cons, List.map_nil, total, turn_sense, Lexeme.face, hword]
  rfl

theorem turns_lead (line : Nat) : Lexeme.turns (r.lead (some line)) = 0 := by
  rw [show r.lead (some line) = r.report line .code ++ [.symbol .colon] from rfl,
    Lexeme.turns_append, turns_report]
  rfl

theorem turns_opening (line : Nat) : Lexeme.turns (r.opening (some line)) = 1 := by
  rw [show r.opening (some line) = r.report line .condition ++ [.binary .and, .symbol .leftParen]
    from rfl, Lexeme.turns_append, turns_report]
  rfl

theorem turns_closing (line : Nat) : Lexeme.turns (Reporter.closing (some line)) = -1 :=
  rfl

end Reporter

/-- By how much what the owner of its line puts around a token changes the number of open brackets. -/
def Ownership.surplus (r : Reporter) (owners : Ownership) (t : Token) : Int :=
  Lexeme.turns (owners.leading r t) + Lexeme.turns (owners.trailing t)

theorem turns_senses (owners : Ownership) (ts : List Token) :
    total Sense.turn (ts.flatMap (owners.senses r)) = turns ts + total (owners.surplus r) ts := by
  induction ts with
  | nil => rfl
  | cons t ts ih =>
    have htoken : total Sense.turn (owners.senses r t) = t.kind.turn + owners.surplus r t := by
      have hsense : (sense (t.kind, t.text)).turn = t.kind.turn := turn_sense _
      rw [Ownership.senses, List.map_append, List.map_cons, total_append, total_cons, hsense,
        Ownership.surplus, Lexeme.turns, Lexeme.turns]
      omega
    have hcons : turns (t :: ts) = t.kind.turn + turns ts := rfl
    rw [List.flatMap_cons, total_append, ih, htoken, hcons, total_cons]
    omega

/-! ### The brackets of a line -/

section Lines

variable (h : parse source = .ok program) (howners : owners.OwnersOf program)
include h howners

theorem IsLine.surplus_condition (hline : IsLine source n before its after) {here : Extent}
    {condition : Expr Extent} {thenBody : List (Statement Extent)} {elseIfs : List (ElseIf Extent)}
    {elseBody : Option (List (Statement Extent))}
    (howner : owners.get? n = some (.statement (.branch here condition thenBody elseIfs elseBody)))
    (hsingle : condition.here.location.isSingleLine = true) :
    total (owners.surplus r) (place (Mark.origin.advance (Item.join before)) its) = 0 := by
  have hordered := lex_ordered source
  obtain ⟨_, _, tokens, _, first, last, g, hn⟩ := owner_guard h (howners _ _ howner)
  obtain ⟨head, gap, middle, tail, hp⟩ := g.exists_parted hline hsingle hn
  have hplace : ∀ t ∈ tokens, t ∈ place (Mark.origin.advance (Item.join before)) its := by
    intro t ht
    rw [hp.split, place_append, place_append, hp.covers]
    simp [ht]
  have hnodup : (place (Mark.origin.advance (Item.join before)) its).Nodup := by
    refine hordered.nodup.sublist ?_
    rw [hline.lex_eq]
    exact (List.sublist_append_right _ _).trans (List.sublist_append_left _ _)
  have hfirst := List.mem_of_head? g.head
  have hsurplus : ∀ t ∈ place (Mark.origin.advance (Item.join before)) its, owners.surplus r t
      = (if t = first then 1 else 0) + if t = last then -1 else 0 := by
    intro t ht
    obtain ⟨ht, htn⟩ := hline.token ht
    obtain ⟨hlead, htrail⟩ := Ownership.leading_branch (r := r) (htn ▸ howner)
    have hstart : t.span.start = condition.here.span.start ↔ t = first := by
      rw [g.covers]
      exact ⟨hordered.eq_of_start ht (g.mem_of_tokens hfirst), fun h => h ▸ rfl⟩
    have hstop : t.span.stop = condition.here.span.stop ↔ t = last := by
      rw [g.covers]
      exact ⟨hordered.eq_of_stop ht g.last_mem, fun h => h ▸ rfl⟩
    simp only [Ownership.surplus, hlead, htrail, hsingle, true_and, hstart, hstop]
    congr 1
    · split
      · exact Reporter.turns_opening _
      · rfl
    · split
      · exact Reporter.turns_closing _
      · rfl
  rw [total_congr hsurplus, total_add, total_once (hplace first hfirst) hnodup,
    total_once (hplace last (List.mem_of_getLast? g.getLast)) hnodup]
  rfl

theorem IsLine.turns_senses (hline : IsLine source n before its after) :
    total Sense.turn ((place (Mark.origin.advance (Item.join before)) its).flatMap (owners.senses r))
      = turns (place (Mark.origin.advance (Item.join before)) its) := by
  have hzero : (∀ t ∈ lex source, t.extent.startLine = n → owners.surplus r t = 0) →
      total (owners.surplus r) (place (Mark.origin.advance (Item.join before)) its) = 0 :=
    fun hnone => total_eq_zero fun t ht => hnone t (hline.token ht).1 (hline.token ht).2
  suffices hsum : total (owners.surplus r) (place (Mark.origin.advance (Item.join before)) its) = 0 by
    rw [BrightCoverage.turns_senses, hsum, Int.add_zero]
  cases howner : owners.get? n with
  | none =>
    refine hzero fun t _ htn => ?_
    simp [Ownership.surplus, Ownership.leading, Ownership.trailing, htn, howner, Lexeme.turns]
  | some owner =>
    cases owner with
    | elseIf =>
      refine hzero fun t _ htn => ?_
      simp [Ownership.surplus, Ownership.leading, Ownership.trailing, htn, howner, Lexeme.turns]
    | statement s =>
      rcases claim_cases (claim_of_classify (howners _ _ howner)) with
        hs | ⟨here, condition, thenBody, elseIfs, elseBody, rfl⟩
      · refine hzero fun t _ htn => ?_
        obtain ⟨hlead, htrail⟩ := Ownership.leading_code (r := r) (htn ▸ howner) hs
        rw [Ownership.surplus, hlead, htrail]
        split
        · rw [Reporter.turns_lead]
          rfl
        · rfl
      · cases hsingle : condition.here.location.isSingleLine with
        | false =>
          refine hzero fun t _ htn => ?_
          obtain ⟨hlead, htrail⟩ := Ownership.leading_branch (r := r) (htn ▸ howner)
          rw [Ownership.surplus, hlead, htrail, hsingle]
          rfl
        | true => exact hline.surplus_condition h howners howner hsingle

end Lines

theorem IsLine.openAt_eq (hline : IsLine source n before its after) :
    openAt source n = turns (place Mark.origin before) := by
  have hfront : ∀ t ∈ place Mark.origin before, t.extent.startLine < n := by
    intro t ht
    rcases hline.starts with rfl | ⟨rest, rfl⟩
    · cases ht
    · have hnumber := congrArg Position.line (position_lineBreak.symm.trans hline.number)
      have hle : 1 ≤ t.extent.location.start.line ∧
          t.extent.location.start.line ≤ (Mark.origin.advance (Item.join rest)).position.line := by
        rw [place_append, List.mem_append] at ht
        rcases ht with ht | ht
        · exact line_of_mem_place ht
        · rw [List.mem_singleton.1 ht]
          exact ⟨Mark.line_le_advance Mark.origin _, Nat.le_refl _⟩
      simp only [Extent.startLine, Position.lineIndex] at hnumber ⊢
      omega
  have hback : ∀ t ∈ place (Mark.origin.advance (Item.join before)) (its ++ after),
      ¬ t.extent.startLine < n := by
    intro t ht
    have hle := (line_of_mem_place ht).1
    rw [hline.number] at hle
    simp only [Extent.startLine, Position.lineIndex] at hle ⊢
    omega
  have hnone : (place (Mark.origin.advance (Item.join before)) (its ++ after)).takeWhile
      (·.extent.startLine < n) = [] := by
    cases hplace : place (Mark.origin.advance (Item.join before)) (its ++ after) with
    | nil => rfl
    | cons t ts =>
      rw [hplace] at hback
      exact List.takeWhile_cons_of_neg (by simpa using hback t List.mem_cons_self)
  rw [openAt, lex_eq_place, hline.split, List.append_assoc, place_append,
    List.takeWhile_append_of_pos (by simpa using hfront), hnone, List.append_nil]

/-! ### Owners that do not come first -/

/-- Whether what owns its line as code is the first on it. -/
def Owner.leads (source : Text) : Owner → Bool
  | .statement s => !s.isCode || (lex source).all fun t =>
      decide (t.extent.startLine = s.here.startLine → s.here.span.start ≤ t.span.start)
  | .elseIf _ => true

namespace Ownership

/-- Whether the call of a line stands in front of something else than the owner of the line. -/
def lags (source : Text) (owners : Ownership) (line : Nat) : Bool :=
  (owners.get? line).any fun o => !o.leads source

def led (source : Text) (owners : Ownership) : Ownership :=
  ⟨owners.entries.filter fun entry => entry.2.leads source, owners.ascending.filter _⟩

theorem get?_led (owners : Ownership) : (owners.led source).get? n
    = (owners.get? n).filter fun o => o.leads source := by
  refine Option.ext fun o => ?_
  rw [Option.filter_eq_some_iff]
  constructor
  · intro h
    obtain ⟨hmem, hleads⟩ := List.mem_filter.1 (key_of_lookup h)
    exact ⟨lookup_of_mem owners.ascending hmem, hleads⟩
  · rintro ⟨h, hleads⟩
    exact lookup_of_mem (owners.led source).ascending
      (List.mem_filter.2 ⟨key_of_lookup h, hleads⟩ : (n, o) ∈ (owners.led source).entries)

end Ownership

section Led

theorem ownersOf_led : ((classify program).led source).OwnersOf program := by
  intro line o h
  rw [Ownership.get?_led, Option.filter_eq_some_iff] at h
  exact h.1

theorem leadsLines_led : LeadsLines source ((classify program).led source) := by
  intro line s h hs t ht hline
  rw [Ownership.get?_led, Option.filter_eq_some_iff] at h
  obtain ⟨howner, hleads⟩ := h
  have hstart := line_of_claim (claim_of_classify howner)
  simp only [Owner.leads, hs, Bool.not_true, Bool.false_or, List.all_eq_true,
    decide_eq_true_eq] at hleads
  exact hleads t ht (hline.trans hstart)

theorem unremarked_led (h : Unremarked source (classify program)) :
    Unremarked source ((classify program).led source) :=
  fun line _ _ _ _ _ howner => h line _ _ _ _ _ (ownersOf_led line _ howner)

theorem owner_of_lags (h : (classify program).lags source n = true) :
    ∃ s, (classify program).get? n = some (.statement s) ∧ s.isCode = true ∧
      ((classify program).led source).get? n = none := by
  unfold Ownership.lags at h
  cases howner : (classify program).get? n with
  | none => simp [howner] at h
  | some o =>
    have hlags : o.leads source = false := by simpa [howner] using h
    have hnone : ((classify program).led source).get? n = none := by
      simp [Ownership.get?_led, howner, hlags]
    cases o with
    | elseIf => cases hlags
    | statement s =>
      refine ⟨s, rfl, ?_, hnone⟩
      by_contra hs
      simp [Owner.leads, hs] at hlags

/-- The line that is reported in front of a line, whatever comes first on it. -/
def Ownership.front (source : Text) (owners : Ownership) (line : Nat) : Option Nat :=
  if owners.lags source line then some line else none

theorem wording_renderLine (hr : IsPlain r.stem.toList) (line u : Text) :
    wording ((renderLine r n line ((classify program).get? n)).text ++ u)
      = (r.lead ((classify program).front source n)).map Lexeme.face
        ++ wording ((renderLine r n line (((classify program).led source).get? n)).text ++ u) := by
  unfold Ownership.front
  split
  · next hlags =>
    obtain ⟨s, howner, hs, hnone⟩ := owner_of_lags hlags
    rw [howner, hnone, renderLine_code hs, List.append_assoc, wording_lead hr]
    rfl
  · next hleads =>
    have hsame : ((classify program).led source).get? n = (classify program).get? n := by
      rw [Ownership.get?_led]
      cases howner : (classify program).get? n with
      | none => rfl
      | some o =>
        have ho : o.leads source = true := by simpa [Ownership.lags, howner] using hleads
        simp [Option.filter, ho]
    rw [hsame]
    rfl

end Led

/-! ### The tokens of the text -/

namespace Sown

variable {lines : Nat → Prop}

theorem append (hts : ∀ t ∈ ts, Kept t t) (h : Sown r lines (d + turns ts) us vs) :
    Sown r lines d (ts ++ us) (ts ++ vs) := by
  induction ts generalizing d with
  | nil => simpa [turns] using h
  | cons t ts ih =>
    obtain ⟨ht, hts⟩ := List.forall_mem_cons.1 hts
    have hcons : turns (t :: ts) = t.kind.turn + turns ts := rfl
    rw [hcons, ← Int.add_assoc] at h
    exact .cons ht (ih hts h)

theorem known (h : Sown r lines d ts us) (hts : ∀ t ∈ ts, t.kind ≠ .unknown) :
    ∀ u ∈ us, u.kind ≠ .unknown := by
  induction h with
  | nil => exact hts
  | cons hk _ ih =>
    obtain ⟨ht, hts⟩ := List.forall_mem_cons.1 hts
    exact List.forall_mem_cons.2 ⟨hk.alike.kind ▸ ht, ih hts⟩
  | call _ hk _ hprinted _ ih =>
    obtain ⟨ht, hts⟩ := List.forall_mem_cons.1 hts
    refine List.forall_mem_cons.2 ⟨hk.alike.kind ▸ ht, fun u hu => ?_⟩
    exact (hprinted.kind_ne_unknown u hu).elim (ih hts u) id

end Sown

theorem Printed.suffix {ls : List Lexeme} (h : Printed ls us vs) : vs <:+ us := by
  induction h with
  | nil => exact List.suffix_rfl
  | cons _ _ _ ih => exact ih.trans (List.suffix_cons _ _)

structure Token.Breaks (t : Token) : Prop where
  kind : t.kind = .newline
  kept : Kept t t

theorem Token.Breaks.cons {lines : Nat → Prop} (hnl : nl.Breaks) (h : Sown r lines d us vs) :
    Sown r lines d (nl :: us) (nl :: vs) := by
  refine .cons hnl.kept ?_
  rw [hnl.kind]
  exact (Int.add_zero d).symm ▸ h

theorem exists_breaks {rest : List Sense} (hkept : ∀ u ∈ us, Kept u u)
    (hus : us.map Token.sense = sense (.newline, "\n") :: rest) :
    ∃ nl vs, us = nl :: vs ∧ nl.Breaks ∧ nl.sense = sense (.newline, "\n") ∧
      vs.map Token.sense = rest := by
  obtain ⟨nl, vs, rfl, hnl, hvs⟩ := List.map_eq_cons_iff.1 hus
  have hnewline : (nl.kind, nl.text) = (.newline, "\n") :=
    (sense_cases hnl).resolve_right fun h => by cases h.2.1
  exact ⟨nl, vs, rfl, ⟨(Prod.mk.inj hnewline).1, hkept nl List.mem_cons_self⟩, hnl, hvs⟩

section Text

variable (h : parse source = .ok program) (hr : IsPlain r.stem.toList)
  (hremarks : Unremarked source (classify program))
include h hr hremarks

/-- The tokens of a line are those that it has if its owner comes first, with its call in front of
them if the owner does not. -/
theorem IsLine.sown (hline : IsLine source n before its after)
    (hopen : (classify program).lags source n = true → openAt source n = 0) {u : Text}
    (hus : us.map Token.sense = (wording ((renderLine r n (dropReturn (Item.join its))
      ((classify program).get? n)).text ++ '\n' :: u)).map sense)
    (hkept : ∀ u ∈ us, Kept u u) (hnl : nl.Breaks) : ∃ ts vs,
      ts.map Token.sense = (place (Mark.origin.advance (Item.join before)) its).flatMap
        (((classify program).led source).senses r) ∧
      vs.map Token.sense = (wording ('\n' :: u)).map sense ∧ vs <:+ us ∧
      ∀ ws, Sown r ((classify program).lags source · = true) (turns (place Mark.origin (before ++ its)))
          ws vs →
        Sown r ((classify program).lags source · = true) (turns (place Mark.origin before))
          (nl :: (ts ++ ws)) (nl :: us) := by
  have hlexemes : ∀ line? l, l ∈ r.lead line? → ∀ directive, l ≠ .directive directive := by
    intro line?
    cases line? <;> simp [Reporter.lead, Reporter.report]
  rw [wording_renderLine hr, List.map_append,
    hline.senses_rendered h ownersOf_led hr leadsLines_led (unremarked_led hremarks)] at hus
  obtain ⟨us₁, hprinted, hus₁⟩ := printed_of_senses (hlexemes _) hus
  obtain ⟨ts, vs, rfl, hts, hvs⟩ := List.map_eq_append_iff.1 hus₁
  refine ⟨ts, vs, hts, hvs, (List.suffix_append ts vs).trans hprinted.suffix, fun ws hws => ?_⟩
  have hturns : turns (place Mark.origin (before ++ its)) = turns (place Mark.origin before) + turns ts := by
    rw [place_append, turns_append, turns_eq_senses ts, hts, hline.turns_senses h ownersOf_led]
  rw [hturns] at hws
  have hsown := Sown.append (fun t ht => hkept t
    (hprinted.suffix.subset (List.mem_append_left _ ht))) hws
  unfold Ownership.front at hprinted
  split at hprinted
  · next hlags =>
    rw [← hline.openAt_eq, hopen hlags] at hsown ⊢
    exact .call hnl.kind hnl.kept hlags hprinted hsown
  · obtain rfl := printed_nil.1 hprinted
    exact hnl.cons hsown

theorem sown_instrument (hopen : ∀ n, (classify program).lags source n = true → openAt source n = 0)
    (hnl : nl.Breaks) : ∃ ts, ts.map Token.sense
        = (lex source).flatMap (((classify program).led source).senses r) ++ [sense (.newline, "\n")] ∧
      Sown r ((classify program).lags source · = true) 0 (nl :: ts)
        (nl :: lex (instrument r (classify program) source).text) := by
  have hlines := @items_lines source (fun before rest n => ∀ us nl,
    us.map Token.sense = (wording (renderFrom r (classify program) n rest)).map sense →
    (∀ u ∈ us, Kept u u) → Token.Breaks nl → ∃ ts, ts.map Token.sense
        = (place (Mark.origin.advance (Item.join before)) rest).flatMap
          (((classify program).led source).senses r) ++ [sense (.newline, "\n")] ∧
      Sown r ((classify program).lags source · = true) (turns (place Mark.origin before)) (nl :: ts)
        (nl :: us))
    (fun before its n hline us nl hus hkept hnl => ?_)
    fun before its rest n hline ih us nl hus hkept hnl => ?_
  · rw [lex_eq_place]
    refine hlines _ nl ?_ (fun t ht => kept_of_mem_lex ht) hnl
    rw [map_sense_lex, instrument_text]
  · rw [hline.renderFrom_last] at hus
    obtain ⟨ts, vs, hts, hvs, hsuffix, hsown⟩ := hline.sown h hr hremarks (hopen n) hus hkept hnl
    rw [wording_newline, wording_nil] at hvs
    obtain ⟨nl', vs, rfl, hnl', hsense, hnil⟩ :=
      exists_breaks (fun u hu => hkept u (hsuffix.subset hu)) hvs
    obtain rfl := List.map_eq_nil_iff.1 hnil
    refine ⟨ts ++ [nl'], ?_, hsown _ (hnl'.cons .nil)⟩
    rw [List.map_append, hts, List.map_singleton, hsense]
  · rw [hline.renderFrom_break] at hus
    obtain ⟨ts, vs, hts, hvs, hsuffix, hsown⟩ := hline.sown h hr hremarks (hopen n) hus hkept hnl
    rw [wording_newline, List.map_cons] at hvs
    have hkept' : ∀ u ∈ vs, Kept u u := fun u hu => hkept u (hsuffix.subset hu)
    obtain ⟨nl', us, rfl, hnl', hsense, hus'⟩ := exists_breaks hkept' hvs
    obtain ⟨ts', hts', hsown'⟩ := ih us nl' hus' (List.forall_mem_cons.1 hkept').2 hnl'
    have hbreak : turns (place Mark.origin (before ++ its ++ [.lineBreak]))
        = turns (place Mark.origin (before ++ its)) := by
      rw [place_append, turns_append]
      exact Int.add_zero _
    rw [hbreak] at hsown'
    refine ⟨ts ++ nl' :: ts', ?_, hsown _ hsown'⟩
    rw [List.map_append, List.map_cons, hts, hts', hsense, place_lineBreak, List.flatMap_append,
      List.flatMap_append, hline.senses_lineBreak h ownersOf_led]
    simp

end Text

end BrightCoverage
