import BrightCoverage.Proofs.ClaimedTokens
import BrightCoverage.Proofs.LineTokens

/-! The tokens of rendered lines. What a line says with its reporting call is what it says without
it, with the lexemes of the call in between: in front of the owner of the line, or around the
condition of an `if`. -/

namespace BrightCoverage

variable {r : Reporter} {u : Text} {n : Nat} {it kw : Item} {its : List Item} {k : TokenKind} {c : Char}

/-! ### What is put in -/

section Calls

variable (hr : IsPlain r.stem.toList) (n : Nat) (u : Text)
include hr

theorem wording_lead : wording ((r.call n .code ++ ": ").toList ++ u)
    = (r.lead (some n)).map Lexeme.face ++ wording u := by
  have hcolon : ∀ u, wording (':' :: u) = _ := wording_symbol (s := .colon) (by decide)
  rw [String.toList_append, List.append_assoc, Reporter.wording_call hr]
  show _ ++ wording (':' :: ' ' :: u) = _
  rw [hcolon, wording_blank (by decide)]
  simp [Reporter.lead, Lexeme.face, Lexeme.kind, Lexeme.text]

theorem wording_opening : wording ((" " ++ r.call n .condition ++ " and (").toList ++ u)
    = (r.opening (some n)).map Lexeme.face ++ wording u := by
  have hparen : ∀ u, wording ('(' :: u) = _ := wording_symbol (s := .leftParen) (by decide)
  have hfirst : Rule.first? Rule.all "and".toList
      = some ⟨some (.keyword .andKw), Pattern.caseless "and"⟩ := rfl
  have hand : ∀ u, wording ("and".toList ++ ' ' :: u) = _ := fun u => wording_token
    (Item.before_divider (by decide) hfirst rfl rfl (by decide) (by decide) (by decide) u)
  rw [String.toList_append, String.toList_append, List.append_assoc, List.append_assoc]
  show wording (' ' :: (_ ++ (' ' :: ("and".toList ++ ' ' :: '(' :: u)))) = _
  rw [wording_blank (by decide), Reporter.wording_call hr, wording_blank (by decide), hand,
    wording_blank (by decide), hparen]
  simp [Reporter.opening, Lexeme.face, Lexeme.kind, Lexeme.text, BinaryOp.kind, BinaryOp.spelling]

omit hr in
theorem wording_closing : wording (") ".toList ++ u)
    = (Reporter.closing (some n)).map Lexeme.face ++ wording u := by
  have hclose : ∀ u, wording (')' :: u) = _ := wording_symbol (s := .rightParen) (by decide)
  show wording (')' :: ' ' :: u) = _
  rw [hclose, wording_blank (by decide)]
  rfl

end Calls

/-! ### The line of a condition -/

theorem wording_skip {b : Text} (hb : ∀ c ∈ b, c ∈ [' ', '\t', '\r']) (u : Text) :
    wording (b ++ u) = wording u := by
  induction b with
  | nil => rfl
  | cons c b ih =>
    obtain ⟨hc, hb⟩ := List.forall_mem_cons.1 hb
    rw [List.cons_append, wording_blank hc, ih hb]

theorem Rule.skipped_pattern : ∀ rule ∈ all, rule.kind = none →
    rule.pattern ∈ [blanks, comment, remark] := by
  decide

theorem Item.Before.blank (h : it.Before (c :: u)) (hk : it.kind = none) (hc : c ≠ '\n')
    (hr : ¬ Rule.remark.Matches it.text) : ∀ d ∈ it.text, d ∈ [' ', '\t', '\r'] := by
  obtain ⟨rule, hfirst, hkind⟩ := h.first
  obtain ⟨hmem, hm⟩ := Rule.first?_some hfirst
  have hp := Rule.skipped_pattern rule hmem (hkind.trans hk)
  simp only [List.mem_cons, List.not_mem_nil, or_false] at hp
  rcases hp with hp | hp | hp
  all_goals rw [hp] at hm
  · exact (Rule.matches_blanks.1 hm).2
  · obtain ⟨v, hv, hnl⟩ := Rule.matches_comment.1 hm
    have hmore : Rule.comment.Matches (it.text ++ [c]) :=
      Rule.matches_comment.2 ⟨v ++ [c], by rw [hv]; rfl, by simpa using ⟨hnl, hc.symm⟩⟩
    exact absurd (h.longest [c] (List.cons_ne_nil _ _) ⟨u, rfl⟩) fun hnone =>
      Rule.first?_eq_none.1 hnone rule hmem (hp ▸ hmore)
  · exact absurd hm hr

theorem Cut.blank (h : Cut (c :: u) its) (hk : ∀ it ∈ its, it.kind = none)
    (hc : '\n' ∉ Item.join its ++ [c]) (hr : ∀ it ∈ its, ¬ Rule.remark.Matches it.text) :
    ∀ d ∈ Item.join its, d ∈ [' ', '\t', '\r'] := by
  induction h with
  | nil => exact List.forall_mem_nil _
  | @cons it its hbefore hcut ih =>
    obtain ⟨hit, hits⟩ := List.forall_mem_cons.1 hk
    obtain ⟨hrit, hrits⟩ := List.forall_mem_cons.1 hr
    rw [Item.join_cons, List.append_assoc, List.mem_append, not_or] at hc
    rw [Item.join_cons]
    refine List.forall_mem_append.2 ⟨?_, ih hits hc.2 hrits⟩
    obtain ⟨d, v, hd⟩ := List.exists_cons_of_ne_nil
      (List.append_ne_nil_of_right_ne_nil (Item.join its) (List.cons_ne_nil c []))
    have hnext : Item.join its ++ c :: u = d :: (v ++ u) := by
      rw [← List.singleton_append, ← List.append_assoc, hd]
      rfl
    rw [hnext] at hbefore
    refine hbefore.blank hit ?_ hrit
    rintro rfl
    exact hc.2 (hd ▸ List.mem_cons_self)

/-- The item of a token that ends in front of a blank or a parenthesis. -/
def Item.IsFirm (it : Item) : Prop :=
  ∃ k, it.kind = some k ∧ k ≠ .directive ∧ k ≠ .openString

/-- The items of the line of an `if`: those up to the keyword, what is skipped behind it, those of
the condition and those behind it. -/
structure ConditionLine (head gap condition tail : List Item) : Prop where
  cut : Cut [] (head ++ gap ++ condition ++ tail)
  lines : '\n' ∉ Item.join (head ++ gap ++ condition ++ tail)
  head : ∃ its it, head = its ++ [it] ∧ it.IsFirm
  gap : ∀ it ∈ gap, it.kind = none ∧ ¬ Rule.remark.Matches it.text
  condition : ∃ its it, condition = its ++ [it] ∧ it.IsFirm

theorem Cut.firm {rest : Text} {d : Char} (h : Cut rest its) (hlines : '\n' ∉ Item.join its)
    (hlast : ∃ its' it, its = its' ++ [it] ∧ it.IsFirm) (hd : d ∈ Rule.dividers) (u : Text) :
    Cut (d :: u) its := by
  obtain ⟨its', it, rfl, k, hk, hdir, hopen⟩ := hlast
  refine h.divider (fun x hx hmem => hlines ?_) hk hdir hopen hd u
  exact List.mem_flatMap.2 ⟨x, hx, hmem⟩

theorem dropReturn_append {u v : Text} (h : v = [] → u.getLast? ≠ some '\r') :
    dropReturn (u ++ v) = u ++ dropReturn v := by
  by_cases hv : v = []
  · subst hv
    rw [List.append_nil, dropReturn, if_neg (h rfl)]
    exact (List.append_nil u).symm
  · rw [dropReturn, dropReturn, List.getLast?_append_of_ne_nil _ hv]
    split
    · exact List.dropLast_append_of_ne_nil hv
    · rfl

theorem Item.Before.getLast?_ne {rest : Text} (h : it.Before rest) (hfirm : it.IsFirm) :
    it.text.getLast? ≠ some '\r' := by
  intro hlast
  obtain ⟨k, hk, hdir, hopen⟩ := hfirm
  obtain ⟨x, hx⟩ := List.getLast?_eq_some_iff.1 hlast
  rcases h.dropReturn hx with ⟨-, hnone⟩ | ⟨-, hnone | ⟨hd, -⟩ | ⟨ho, -⟩⟩
  · simp [hk] at hnone
  · simp [hk] at hnone
  · exact hdir (by simpa [hk] using hd)
  · exact hopen (by simpa [hk] using ho)

theorem Cut.dropReturn_eq {front condition tail : List Item} (h : Cut [] (front ++ condition ++ tail))
    (hlast : ∃ its it, condition = its ++ [it] ∧ it.IsFirm) :
    dropReturn (Item.join (front ++ condition ++ tail))
      = Item.join front ++ (Item.join condition ++ dropReturn (Item.join tail)) := by
  obtain ⟨its, it, hcondition, hfirm⟩ := hlast
  obtain ⟨-, hcut⟩ := cut_append.1 (cut_append.1 h).1
  rw [hcondition] at hcut
  obtain ⟨-, _ | ⟨hbefore, -⟩⟩ := cut_append.1 hcut
  have hjoin : Item.join condition = Item.join its ++ it.text := by
    simp [hcondition, Item.join]
  rw [Item.join_append, Item.join_append, dropReturn_append, List.append_assoc]
  intro _
  rw [hjoin, ← List.append_assoc, List.getLast?_append_of_ne_nil _ hbefore.ne_nil]
  exact hbefore.getLast?_ne hfirm

namespace ConditionLine

variable {head gap condition tail : List Item} (h : ConditionLine head gap condition tail)
include h

theorem gap_blank : ∀ d ∈ Item.join gap, d ∈ [' ', '\t', '\r'] := by
  obtain ⟨hcut, -⟩ := cut_append.1 h.cut
  obtain ⟨hgap, hcondition⟩ := cut_append.1 hcut
  obtain ⟨its, it, heq, -⟩ := h.condition
  obtain ⟨c, v, hcv⟩ := List.exists_cons_of_ne_nil (hcondition.join_ne_nil (by simp [heq]))
  have hlines := h.lines
  rw [Item.join_append, Item.join_append, Item.join_append, hcv] at hlines
  rw [hcv] at hgap
  refine ((cut_append.1 hgap).2).blank (fun it hit => (h.gap it hit).1) (fun hmem => hlines ?_)
    fun it hit => (h.gap it hit).2
  simp only [List.mem_append, List.mem_cons, List.not_mem_nil, or_false] at hmem ⊢
  tauto

theorem wording_eq (hr : IsPlain r.stem.toList) (n : Nat) (u : Text) :
    wording (Item.join (head ++ gap) ++ ((" " ++ r.call n .condition ++ " and (").toList
        ++ (Item.join condition ++ (") ".toList ++ u))))
      = Item.words head ++ ((r.opening (some n)).map Lexeme.face
        ++ (Item.words condition ++ ((Reporter.closing (some n)).map Lexeme.face ++ wording u))) := by
  have hlines := h.lines
  simp only [Item.join_append, List.mem_append, not_or] at hlines
  obtain ⟨hcut, -⟩ := cut_append.1 h.cut
  obtain ⟨hcut, hcondition⟩ := cut_append.1 hcut
  obtain ⟨hhead, -⟩ := cut_append.1 hcut
  have hclosed : Cut (") ".toList ++ u) condition :=
    hcondition.firm hlines.1.2 h.condition (by decide) _
  have hopened : ∀ v, Cut (Item.join gap ++ ' ' :: v) head := by
    intro v
    have hdivider : ∀ d ∈ [' ', '\t', '\r'], d ∈ Rule.dividers :=
      List.all_iff_forall_prop.1 (by decide)
    have hblank := h.gap_blank
    generalize Item.join gap = b at hblank
    cases b with
    | nil => exact hhead.firm hlines.1.1.1 h.head (by decide) _
    | cons d b => exact hhead.firm hlines.1.1.1 h.head (hdivider d (hblank d List.mem_cons_self)) _
  have hopening := wording_opening hr n (Item.join condition ++ (") ".toList ++ u))
  rw [hclosed.wording, wording_closing n] at hopening
  obtain ⟨v, hv⟩ : ∃ v, (" " ++ r.call n .condition ++ " and (").toList = ' ' :: v :=
    ⟨(r.call n .condition).toList ++ " and (".toList, by simp [String.toList_append]⟩
  rw [← hopening, Item.join_append, List.append_assoc, hv, List.cons_append, (hopened _).wording,
    wording_skip h.gap_blank]

end ConditionLine

/-! ### What the owner of a line puts in -/

namespace Ownership

/-- What the owner of its line puts in front of a token. -/
def leading (r : Reporter) (owners : Ownership) (t : Token) : List Lexeme :=
  match owners.get? t.extent.startLine with
  | some (.statement (.branch _ condition ..)) =>
    if condition.here.location.isSingleLine ∧ t.span.start = condition.here.span.start then
      r.opening (some t.extent.startLine)
    else []
  | some (.statement s) =>
    if t.span.start = s.here.span.start then r.lead (some t.extent.startLine) else []
  | _ => []

def trailing (owners : Ownership) (t : Token) : List Lexeme :=
  match owners.get? t.extent.startLine with
  | some (.statement (.branch _ condition ..)) =>
    if condition.here.location.isSingleLine ∧ t.span.stop = condition.here.span.stop then
      Reporter.closing (some t.extent.startLine)
    else []
  | _ => []

/-- What a token says, with what the owner of its line puts around it. -/
def senses (r : Reporter) (owners : Ownership) (t : Token) : List Sense :=
  ((owners.leading r t).map Lexeme.face ++ (t.kind, t.text) ::
    (owners.trailing t).map Lexeme.face).map sense

theorem senses_eq {owners : Ownership} {ts : List Token}
    (h : ∀ t ∈ ts, owners.leading r t = [] ∧ owners.trailing t = []) :
    ts.flatMap (owners.senses r) = (ts.map fun t => (t.kind, t.text)).map sense := by
  induction ts with
  | nil => rfl
  | cons t ts ih =>
    obtain ⟨ht, hts⟩ := List.forall_mem_cons.1 h
    rw [List.flatMap_cons, ih hts, senses, ht.1, ht.2]
    rfl

theorem leading_code {owners : Ownership} {s : Statement Extent} {t : Token}
    (howner : owners.get? t.extent.startLine = some (.statement s)) (hs : s.isCode = true) :
    owners.leading r t = (if t.span.start = s.here.span.start then
      r.lead (some t.extent.startLine) else []) ∧ owners.trailing t = [] := by
  unfold leading trailing
  rw [howner]
  cases s <;> first | exact ⟨rfl, rfl⟩ | cases hs

end Ownership

theorem Ownership.leading_branch {owners : Ownership} {t : Token} {here : Extent}
    {condition : Expr Extent} {thenBody : List (Statement Extent)} {elseIfs : List (ElseIf Extent)}
    {elseBody : Option (List (Statement Extent))}
    (howner : owners.get? t.extent.startLine
      = some (.statement (.branch here condition thenBody elseIfs elseBody))) :
    owners.leading r t = (if condition.here.location.isSingleLine ∧
      t.span.start = condition.here.span.start then r.opening (some t.extent.startLine) else []) ∧
    owners.trailing t = (if condition.here.location.isSingleLine ∧
      t.span.stop = condition.here.span.stop then Reporter.closing (some t.extent.startLine) else []) := by
  unfold leading trailing
  rw [howner]
  exact ⟨rfl, rfl⟩

theorem renderLine_code {s : Statement Extent} (hs : s.isCode = true) (line : Text) :
    (renderLine r n line (some (.statement s))).text = (r.call n .code ++ ": ").toList ++ line := by
  cases s <;> first | rfl | cases hs

/-- A condition that stands in the line where its columns say is cut out of it, and there is nothing to
say about it. -/
theorem renderCondition_eq {location : Location} {a b v : Text}
    (hsingle : location.isSingleLine = true) (hstart : location.start = ⟨n + 1, byteLength a⟩)
    (hstop : location.stop.column = byteLength (a ++ b)) :
    renderCondition r n (a ++ (b ++ v)) location = ⟨.condition,
      a ++ ((" " ++ r.call n .condition ++ " and (").toList ++ (b ++ (") ".toList ++ v))), []⟩ := by
  have hfits : byteLength (a ++ b) ≤ byteLength (a ++ (b ++ v)) := by
    rw [← List.append_assoc, byteLength_append (a ++ b)]
    omega
  have hle : byteLength a ≤ byteLength (a ++ (b ++ v)) := by
    rw [byteLength_append]
    omega
  have hindex : location.start.lineIndex = n := by rw [hstart]; rfl
  have hcolumn : location.start.column = byteLength a := by rw [hstart]
  simp only [renderCondition, hsingle, hindex, hcolumn, hstop, Nat.min_eq_left hfits,
    Nat.min_eq_left hle, cutBetween_append, beq_self_eq_true, Bool.and_true, if_true,
    List.append_assoc]

theorem renderCondition_text {location : Location} {a b v : Text}
    (hsingle : location.isSingleLine = true) (hstart : location.start = ⟨n + 1, byteLength a⟩)
    (hstop : location.stop.column = byteLength (a ++ b)) :
    (renderCondition r n (a ++ (b ++ v)) location).text
      = a ++ ((" " ++ r.call n .condition ++ " and (").toList ++ (b ++ (") ".toList ++ v))) := by
  rw [renderCondition_eq hsingle hstart hstop]

def remarksFrom : Mark → List Item → List Span
  | _, [] => []
  | m, it :: its =>
    (if it.kind = none ∧ Rule.remark.accepts it.text then
      [⟨m.offset, (m.advance it.text).offset⟩]
    else []) ++ remarksFrom (m.advance it.text) its

def remarks (source : Text) : List Span :=
  remarksFrom Mark.origin (items source)

theorem mem_remarksFrom {m : Mark} {before after : List Item} (hk : it.kind = none)
    (hr : Rule.remark.Matches it.text) : ∃ span ∈ remarksFrom m (before ++ it :: after),
      span.start = (m.advance (Item.join before)).offset := by
  induction before generalizing m with
  | nil =>
    refine ⟨⟨m.offset, (m.advance it.text).offset⟩, ?_, rfl⟩
    rw [List.nil_append, remarksFrom, if_pos ⟨hk, Pattern.accepts_iff.2 hr⟩]
    exact List.mem_append_left _ List.mem_cons_self
  | cons x before ih =>
    obtain ⟨span, hspan, hstart⟩ := ih (m := m.advance x.text)
    refine ⟨span, List.mem_append_right _ hspan, ?_⟩
    rw [hstart, Item.join_cons, Mark.advance_append]

theorem forall_items_of_lex {source : Text} (h : ∀ t ∈ lex source, t.kind ≠ k) :
    ∀ it ∈ items source, it.kind ≠ some k := by
  rintro ⟨kind, text⟩ hit rfl
  obtain ⟨before, after, hsplit⟩ := List.append_of_mem hit
  rw [lex_eq_place, hsplit, place_append] at h
  exact h _ (List.mem_append_right _ List.mem_cons_self) rfl

theorem Rule.directive_pattern : ∀ rule ∈ all, rule.kind = some .directive →
    rule.pattern = directive := by
  decide

theorem items_directive (text : Text) :
    ∀ it ∈ items text, it.kind = some .directive → ∃ rest, it.text = '#' :: rest := by
  refine forall_items (fun text h hk => ?_) text
  rcases nextItem_spec text with ⟨rule, n, -, hfirst, -, hn⟩ | ⟨-, hn⟩
  · obtain ⟨hr, hm⟩ := Rule.first?_some hfirst
    rw [hn] at hk
    rw [Rule.directive_pattern rule hr hk] at hm
    obtain ⟨bs, l, z, hz, -⟩ := Rule.matches_directive.1 hm
    exact ⟨_, by rw [hn]; exact hz⟩
  · rw [hn] at hk
    cases hk

theorem isWord_of_lineEnder {source : Text} {t : Token} (ht : t ∈ lex source)
    (hk : t.kind ∈ lineEnders) : t.isWord = false := by
  simp only [lineEnders, List.mem_cons, List.not_mem_nil, or_false] at hk
  rcases hk with hk | hk
  · rw [lex_eq_place] at ht
    obtain ⟨it, hit, hkind, htext⟩ := exists_item_of_mem_place ht
    obtain ⟨rest, hrest⟩ := items_directive source it hit (hkind.trans (congrArg some hk))
    rw [Token.isWord, ← htext, String.toList_ofList, hrest]
    rfl
  · exact ((lex_ordered source).placed t ht).word (.inl hk)

theorem senses_words (m : Mark) (its : List Item) :
    (Item.words its).map sense = (place m its).flatMap fun t => [sense (t.kind, t.text)] := by
  rw [← List.map_eq_flatMap, Item.words, ← map_place m, List.map_map]
  rfl

/-! ### What a line says -/

section Lines

variable {source : Text} {program : List (Statement Extent)} {before after : List Item}
  {owners : Ownership}

namespace IsLine

theorem cut (h : IsLine source n before its after) (hknown : ∀ t ∈ lex source, t.kind ≠ .unknown) :
    Cut [] its := by
  have hall : Cut (Item.join []) (items source) :=
    cut_of_items (List.append_nil _).symm (forall_items_of_lex hknown)
  rw [h.split] at hall
  exact (cut_append.1 (cut_append.1 hall).1).2.initial List.nil_prefix

theorem token (h : IsLine source n before its after) {t : Token}
    (ht : t ∈ place (Mark.origin.advance (Item.join before)) its) :
    t ∈ lex source ∧ t.extent.startLine = n := by
  have hlex : t ∈ lex source := by
    rw [h.lex_eq]
    simp [ht]
  obtain ⟨it, hit, hkind, -⟩ := exists_item_of_mem_place ht
  refine ⟨hlex, (h.mem_iff hlex fun hk => h.inside it hit ?_).1 ht⟩
  rw [hkind, hk]

theorem senses_plain (h : IsLine source n before its after)
    (hknown : ∀ t ∈ lex source, t.kind ≠ .unknown ∧ t.kind ≠ .openString)
    (hempty : ∀ t ∈ lex source, t.extent.startLine = n →
      owners.leading r t = [] ∧ owners.trailing t = []) (u : Text) :
    (wording (dropReturn (Item.join its) ++ '\n' :: u)).map sense
      = (place (Mark.origin.advance (Item.join before)) its).flatMap (owners.senses r)
        ++ (wording ('\n' :: u)).map sense := by
  have hopen := forall_items_of_lex fun t ht => (hknown t ht).2
  rw [senses_dropReturn (h.cut fun t ht => (hknown t ht).1) (fun it hit => hopen it (by simp [h.split, hit])),
    Ownership.senses_eq (fun t ht => hempty t (h.token ht).1 (h.token ht).2), map_place]
  rfl

theorem senses_code (h : IsLine source n before its after)
    (hknown : ∀ t ∈ lex source, t.kind ≠ .unknown ∧ t.kind ≠ .openString)
    (hr : IsPlain r.stem.toList) {s : Statement Extent}
    (howner : owners.get? n = some (.statement s)) (hs : s.isCode = true) {t : Token}
    (ht : t ∈ lex source) (hk : t.kind ≠ .newline) (hstart : t.span.start = s.here.span.start)
    (hline : t.extent.startLine = n)
    (hfirst : ∀ x ∈ lex source, x.extent.startLine = n → s.here.span.start ≤ x.span.start) (u : Text) :
    (wording ((r.call n .code ++ ": ").toList ++ dropReturn (Item.join its) ++ '\n' :: u)).map sense
      = (place (Mark.origin.advance (Item.join before)) its).flatMap (owners.senses r)
        ++ (wording ('\n' :: u)).map sense := by
  have hordered := lex_ordered source
  have hsub : (place (Mark.origin.advance (Item.join before)) its).Sublist (lex source) := by
    rw [h.lex_eq]
    exact (List.sublist_append_right _ _).trans (List.sublist_append_left _ _)
  have hopen := forall_items_of_lex fun t ht => (hknown t ht).2
  rw [List.append_assoc, wording_lead hr, List.map_append,
    senses_dropReturn (h.cut fun t ht => (hknown t ht).1)
      (fun it hit => hopen it (by simp [h.split, hit]))]
  have hsenses : (place (Mark.origin.advance (Item.join before)) its).flatMap (owners.senses r)
      = (place (Mark.origin.advance (Item.join before)) its).flatMap fun x =>
        (if x = t then ((r.lead (some n)).map Lexeme.face).map sense else [])
          ++ [sense (x.kind, x.text)] := by
    refine List.flatMap_congr fun x hx => ?_
    obtain ⟨hx, hxn⟩ := h.token hx
    obtain ⟨hlead, htrail⟩ := Ownership.leading_code (r := r) (hxn ▸ howner) hs
    have hiff : x.span.start = s.here.span.start ↔ x = t :=
      ⟨fun heq => hordered.eq_of_start hx ht (heq.trans hstart.symm), fun heq => heq ▸ hstart⟩
    rw [Ownership.senses, hlead, htrail, hxn]
    simp only [hiff]
    split <;> simp
  obtain ⟨xs, ys, hplace⟩ := List.append_of_mem ((h.mem_iff ht hk).2 hline)
  have hpairs := hordered.pairwise.sublist hsub
  rw [hplace] at hpairs
  obtain rfl : xs = [] := by
    refine List.eq_nil_iff_forall_not_mem.2 fun x hx => ?_
    have hlt := (List.pairwise_append.1 hpairs).2.2 x hx t List.mem_cons_self
    obtain ⟨hx, hxn⟩ := h.token (hplace ▸ List.mem_append_left _ hx)
    have := hfirst x hx hxn
    omega
  have hys : t ∉ ys := fun hmem => ((List.pairwise_cons.1 hpairs).1 t hmem).ne rfl
  rw [hsenses, senses_words (Mark.origin.advance (Item.join before)), hplace, flatMap_before List.not_mem_nil hys]
  simp

end IsLine

namespace Guard

variable {here condition : Extent} {front tokens back : List Token} {keyword first last : Token}
  (g : Guard (lex source) here condition front keyword tokens back first last)
include g

theorem keyword_mem : keyword ∈ lex source := by
  simp [g.split]

theorem mem_of_tokens {t : Token} (ht : t ∈ tokens) : t ∈ lex source := by
  simp [g.split, ht]

theorem last_mem : last ∈ lex source :=
  g.mem_of_tokens (List.mem_of_getLast? g.getLast)

theorem keyword_kind : keyword.kind ≠ .newline := by
  intro hk
  have hkind := g.kind
  rw [hk] at hkind
  revert hkind
  decide

theorem last_kind : last.kind ∉ lineEnders := by
  intro hk
  have hword := g.ended hk
  rw [isWord_of_lineEnder g.last_mem hk] at hword
  cases hword

theorem first_line : first.extent.startLine = keyword.extent.startLine := by
  obtain ⟨rest, htokens⟩ := List.head?_eq_some_iff.1 g.head
  have hkeyword : (lex source)[front.length]? = some keyword := by
    rw [g.split]
    simp
  have hfirst : (lex source)[front.length + 1]? = some first := by
    rw [g.split, htokens]
    simp
  have hnext := ((lex_ordered source).next _ _ _ hkeyword hfirst).line
  rw [((lex_ordered source).placed _ g.keyword_mem).line g.keyword_kind] at hnext
  rw [Extent.startLine, Extent.startLine, Position.lineIndex, Position.lineIndex, hnext]

theorem last_line (hsingle : condition.location.isSingleLine = true) :
    last.extent.startLine = keyword.extent.startLine := by
  have hline : condition.location.start.line = condition.location.stop.line := by
    simpa [Location.isSingleLine] using hsingle
  have hlast := ((lex_ordered source).placed _ g.last_mem).line
    fun hk => g.last_kind (by simp [hk, lineEnders])
  rw [g.covers] at hline
  rw [← g.first_line, Extent.startLine, Extent.startLine, Position.lineIndex, Position.lineIndex,
    ← hlast]
  exact congrArg (· - 1) hline.symm

theorem exists_parted (h : IsLine source n before its after)
    (hsingle : condition.location.isSingleLine = true) (hn : keyword.extent.startLine = n) :
    ∃ head gap middle tail, Parted (Mark.origin.advance (Item.join before)) its keyword first last
      tokens head gap middle tail := by
  have hkeyword := (h.mem_iff g.keyword_mem g.keyword_kind).2 hn
  have hlast := (h.mem_iff g.last_mem fun hk => g.last_kind (by simp [hk, lineEnders])).2
    ((g.last_line hsingle).trans hn)
  obtain ⟨xs, ys, hplace⟩ := List.append_of_mem hkeyword
  have hnodup := (lex_ordered source).nodup
  have hlex := h.lex_eq
  rw [hplace] at hlex hlast
  rw [hlex] at hnodup
  generalize place Mark.origin before = xs₀ at hlex hnodup
  generalize place (Mark.origin.advance (Item.join (before ++ its))) after = zs at hlex hnodup
  have hmiddle : ((xs₀ ++ xs) ++ keyword :: (ys ++ zs)).Nodup := by simpa using hnodup
  obtain ⟨hnotin, -⟩ := List.nodup_cons.1 (List.nodup_middle.1 hmiddle)
  rw [List.mem_append, not_or] at hnotin
  have hsplit : (xs₀ ++ xs) ++ keyword :: (ys ++ zs) = front ++ keyword :: (tokens ++ back) := by
    rw [← g.split, hlex]
    simp
  obtain ⟨-, -, hbehind⟩ := (List.append_cons_inj_of_notMem hnotin.1 hnotin.2).1 hsplit
  rcases List.append_eq_append_iff.1 hbehind with ⟨as, rfl, rfl⟩ | ⟨cs, rfl, -⟩
  · cases as with
    | nil =>
      rw [List.append_nil] at g ⊢
      rw [← List.append_nil ys] at hplace
      exact BrightCoverage.exists_parted hplace g.head g.getLast
    | cons a as =>
      have hmem := g.getLast
      rw [List.getLast?_append_of_ne_nil _ (List.cons_ne_nil a as)] at hmem
      have hdisjoint := (List.nodup_append.1 hnodup).2.2
      exact absurd rfl (hdisjoint last (List.mem_append_right _ hlast) last
        (List.mem_append_left _ (List.mem_of_getLast? hmem)))
  · exact BrightCoverage.exists_parted hplace g.head g.getLast

theorem firm (hknown : ∀ t ∈ lex source, t.kind ≠ .unknown ∧ t.kind ≠ .openString)
    {m : Mark} {head gap middle tail : List Item}
    (hp : Parted m its keyword first last tokens head gap middle tail) :
    ∃ its it, middle = its ++ [it] ∧ it.IsFirm := by
  obtain ⟨bs, it, hmiddle, hkind⟩ := hp.closes
  exact ⟨bs, it, hmiddle, _, hkind, fun hk => g.last_kind (by simp [hk, lineEnders]),
    (hknown _ g.last_mem).2⟩

theorem columns (h : IsLine source n before its after) {head gap middle tail : List Item}
    (hp : Parted (Mark.origin.advance (Item.join before)) its keyword first last tokens head gap
      middle tail) :
    condition.location.start = ⟨n + 1, byteLength (Item.join (head ++ gap))⟩ ∧
      condition.location.stop.column = byteLength (Item.join (head ++ gap) ++ Item.join middle) := by
  have hline := h.notMem
  rw [hp.split] at hline
  have hnotin : '\n' ∉ Item.join (head ++ gap) ∧ '\n' ∉ Item.join (head ++ gap ++ middle) := by
    simp only [Item.join_append, List.mem_append, not_or] at hline ⊢
    tauto
  have hfirst := hp.starts.2
  have hlast := hp.stops
  rw [Mark.advance_position_of_notMem hnotin.1, h.number] at hfirst
  rw [Mark.advance_position_of_notMem hnotin.2, h.number, Item.join_append] at hlast
  rw [g.covers]
  exact ⟨hfirst.trans (by simp), (congrArg Position.column hlast).trans (by simp)⟩

theorem conditionLine (h : IsLine source n before its after)
    (hknown : ∀ t ∈ lex source, t.kind ≠ .unknown ∧ t.kind ≠ .openString)
    {head gap middle tail : List Item}
    (hp : Parted (Mark.origin.advance (Item.join before)) its keyword first last tokens head gap
      middle tail)
    (hremarks : ∀ span ∈ remarks source,
      ¬ (here.span.start ≤ span.start ∧ span.start < condition.span.start)) :
    ConditionLine head gap middle tail := by
  obtain ⟨bs, it, hhead, hit⟩ := hp.ends
  obtain ⟨hkind, -, hextent⟩ := place_singleton hit
  have hfirm : ∀ k ∈ [TokenKind.keyword .ifKw, .keyword .elseIfKw], k ≠ .directive ∧ k ≠ .openString := by
    decide
  refine ⟨hp.split ▸ h.cut fun t ht => (hknown t ht).1, hp.split ▸ h.notMem,
    ⟨bs, it, hhead, _, hkind, hfirm _ g.kind⟩, fun x hx => ⟨hp.skipped x hx, fun hm => ?_⟩,
    g.firm hknown hp⟩
  obtain ⟨gap₁, gap₂, rfl⟩ := List.append_of_mem hx
  have hitems : items source = (before ++ head ++ gap₁) ++ x :: (gap₂ ++ middle ++ tail ++ after) := by
    rw [h.split, hp.split]
    simp
  obtain ⟨span, hspan, hstart⟩ : ∃ span ∈ remarks source,
      span.start = (Mark.origin.advance (Item.join (before ++ head ++ gap₁))).offset := by
    rw [remarks, hitems]
    exact mem_remarksFrom (hp.skipped x hx) hm
  have hfrom : here.span.start = (Mark.origin.advance (Item.join before)).offset
      + byteLength (Item.join bs) := by
    rw [g.starts, Token.span, hextent, ← Mark.advance_offset]
    rfl
  have hto : condition.span.start = (Mark.origin.advance (Item.join before)).offset
      + byteLength (Item.join (head ++ (gap₁ ++ x :: gap₂))) := by
    rw [g.covers, ← Mark.advance_offset, ← hp.starts.1]
    rfl
  have hpos := byteLength_pos (items_text_ne_nil source x (by simp [hitems]))
  rw [List.append_assoc, Item.join_append, Mark.advance_append, Mark.advance_offset] at hstart
  refine hremarks span hspan ?_
  rw [hstart, hfrom, hto, hhead]
  simp only [Item.join_append, Item.join_cons, byteLength_append]
  omega

theorem senses_condition (h : IsLine source n before its after)
    (hknown : ∀ t ∈ lex source, t.kind ≠ .unknown ∧ t.kind ≠ .openString)
    (hr : IsPlain r.stem.toList) (hsingle : condition.location.isSingleLine = true)
    (hn : keyword.extent.startLine = n)
    (hremarks : ∀ span ∈ remarks source,
      ¬ (here.span.start ≤ span.start ∧ span.start < condition.span.start))
    (howner : ∀ t ∈ lex source, t.extent.startLine = n →
      owners.leading r t = (if t.span.start = condition.span.start then r.opening (some n) else []) ∧
      owners.trailing t = (if t.span.stop = condition.span.stop then Reporter.closing (some n) else []))
    (u : Text) :
    (wording ((renderCondition r n (dropReturn (Item.join its)) condition.location).text
        ++ '\n' :: u)).map sense
      = (place (Mark.origin.advance (Item.join before)) its).flatMap (owners.senses r)
        ++ (wording ('\n' :: u)).map sense := by
  have hordered := lex_ordered source
  obtain ⟨head, gap, middle, tail, hp⟩ := g.exists_parted h hsingle hn
  have hc := g.conditionLine h hknown hp hremarks
  -- Tokens differ in where they start and in where they stop, so only the first and the last token of
  -- the condition have something around them.
  have hsenses : (place (Mark.origin.advance (Item.join before)) its).flatMap (owners.senses r)
      = (place (Mark.origin.advance (Item.join before)) its).flatMap fun t =>
        (if t = first then ((r.opening (some n)).map Lexeme.face).map sense else [])
          ++ ([sense (t.kind, t.text)]
            ++ (if t = last then ((Reporter.closing (some n)).map Lexeme.face).map sense else [])) := by
    refine List.flatMap_congr fun t ht => ?_
    obtain ⟨ht, htn⟩ := h.token ht
    obtain ⟨hlead, htrail⟩ := howner t ht htn
    have hfirst : t.span.start = condition.span.start ↔ t = first := by
      rw [g.covers]
      exact ⟨hordered.eq_of_start ht (g.mem_of_tokens (List.mem_of_head? g.head)), fun h => h ▸ rfl⟩
    have hlast : t.span.stop = condition.span.stop ↔ t = last := by
      rw [g.covers]
      exact ⟨hordered.eq_of_stop ht g.last_mem, fun h => h ▸ rfl⟩
    rw [Ownership.senses, hlead, htrail]
    simp only [hfirst, hlast]
    split <;> split <;> simp
  have hplace : place (Mark.origin.advance (Item.join before)) its
      = place (Mark.origin.advance (Item.join before)) head ++ tokens
        ++ place ((Mark.origin.advance (Item.join before)).advance
          (Item.join (head ++ gap ++ middle))) tail := by
    rw [hp.split, place_append, place_append, place_append, hp.covers, place_eq_nil.2 hp.skipped,
      List.append_nil]
  have hnodup : (place (Mark.origin.advance (Item.join before)) its).Nodup := by
    refine hordered.nodup.sublist ?_
    rw [h.lex_eq]
    exact (List.sublist_append_right _ _).trans (List.sublist_append_left _ _)
  rw [hplace] at hnodup
  obtain ⟨hstart, hstop⟩ := g.columns h hp
  have hopen := forall_items_of_lex fun t ht => (hknown t ht).2
  have htail : ∀ it ∈ tail, it.kind ≠ some .openString := fun it hit =>
    hopen it (by simp [h.split, hp.split, hit])
  rw [hsenses, hplace, flatMap_around hnodup g.head g.getLast, hp.split,
    hc.cut.dropReturn_eq hc.condition,
    renderCondition_text hsingle hstart hstop]
  simp only [List.append_assoc]
  rw [hc.wording_eq hr]
  simp only [List.map_append]
  rw [senses_dropReturn (cut_append.1 hc.cut).2 htail,
    senses_words (Mark.origin.advance (Item.join before)) head,
    senses_words ((Mark.origin.advance (Item.join before)).advance (Item.join (head ++ gap))) middle,
    hp.covers, senses_words ((Mark.origin.advance (Item.join before)).advance
      (Item.join (head ++ gap ++ middle))) tail]
  simp only [List.append_assoc]

end Guard

end Lines

end BrightCoverage
