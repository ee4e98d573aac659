import Mathlib.Data.List.Infix
import BrightCoverage.Coverage.Template

/-! What rendering a template gives. A text can be divided at placeholders in one way only such that no
placeholder starts before the ones at which it is divided; rendering puts values in their place and
keeps what stands between them. Hash marks are shared by neighbours, so the text before a placeholder
is looked at together with the mark that follows. -/

namespace BrightCoverage

namespace Template

def marked (key : Text) : Text :=
  '#' :: key ++ ['#']

/-- The keys that are replaced: there is a value for them, and they are made of upper-case letters,
digits and underscores. -/
structure Known (values : List (Text × Text)) (key : Text) : Prop where
  ne_nil : key ≠ []
  chars : ∀ c ∈ key, 'A' ≤ c ∧ c ≤ 'Z' ∨ '0' ≤ c ∧ c ≤ '9' ∨ c = '_'
  supplied : key ∈ values.map Prod.fst

/-- A text divided at placeholders: what stands before each of them and its key, and what stands
behind the last. -/
structure Division where
  pieces : List (Text × Text)
  rest : Text

namespace Division

def text (d : Division) : Text :=
  d.pieces.flatMap (fun (before, key) => before ++ marked key) ++ d.rest

/-- The text with the first value for each key in place of its placeholder. -/
def filled (values : List (Text × Text)) (d : Division) : Text :=
  d.pieces.flatMap (fun (before, key) => before ++ (values.lookup key).getD []) ++ d.rest

/-- The text is divided at the leftmost placeholder, what is behind it at the leftmost there, and so
on to the end. -/
structure Divides (values : List (Text × Text)) (whole : Text) (d : Division) : Prop where
  text_eq : d.text = whole
  known : ∀ key ∈ d.pieces.map Prod.snd, Known values key
  before : ∀ piece ∈ d.pieces, ∀ key, Known values key → ¬ marked key <:+: piece.1 ++ ['#']
  rest : ∀ key, Known values key → ¬ marked key <:+: d.rest

def push (c : Char) : Division → Division
  | ⟨[], rest⟩ => ⟨[], c :: rest⟩
  | ⟨(before, key) :: pieces, rest⟩ => ⟨(c :: before, key) :: pieces, rest⟩

def lead (key : Text) (d : Division) : Division :=
  ⟨([], key) :: d.pieces, d.rest⟩

variable {values : List (Text × Text)} {key before after whole : Text} {c : Char} {d e : Division}

theorem text_push : (d.push c).text = c :: d.text := by
  obtain ⟨_ | ⟨⟨before, key⟩, pieces⟩, rest⟩ := d <;> rfl

theorem text_lead : (d.lead key).text = marked key ++ d.text := by
  simp [text, lead]

theorem filled_push : (d.push c).filled values = c :: d.filled values := by
  obtain ⟨_ | ⟨⟨before, key⟩, pieces⟩, rest⟩ := d <;> rfl

theorem filled_lead :
    (d.lead key).filled values = (values.lookup key).getD [] ++ d.filled values := by
  simp [filled, lead]

theorem eq_of_text_nil (h : d.text = []) : d = ⟨[], []⟩ := by
  obtain ⟨_ | ⟨⟨before, key⟩, pieces⟩, rest⟩ := d
  · exact congrArg _ h
  · simp [text, marked] at h

theorem lead_or_push (h : d.text ≠ []) : (∃ key e, d = lead key e) ∨ ∃ c e, d = push c e := by
  obtain ⟨_ | ⟨⟨_ | ⟨c, before⟩, key⟩, pieces⟩, rest⟩ := d
  · obtain ⟨c, rest, rfl⟩ := List.exists_cons_of_ne_nil (show rest ≠ [] from h)
    exact .inr ⟨c, ⟨[], rest⟩, rfl⟩
  · exact .inl ⟨key, ⟨pieces, rest⟩, rfl⟩
  · exact .inr ⟨c, ⟨(before, key) :: pieces, rest⟩, rfl⟩

end Division

variable {values : List (Text × Text)} {key before after whole : Text} {c : Char}

theorem Known.hash_notMem (h : Known values key) : '#' ∉ key := by
  intro hmem
  have hchar := h.chars '#' hmem
  revert hchar
  decide

theorem Known.exists_lookup (h : Known values key) : ∃ value, values.lookup key = some value := by
  cases hlookup : values.lookup key with
  | some value => exact ⟨value, rfl⟩
  | none =>
    obtain ⟨⟨key', value⟩, hmem, rfl⟩ := List.mem_map.1 h.supplied
    have hne := List.lookup_eq_none_iff.1 hlookup _ hmem
    simp at hne

theorem isName_iff : isName key = true ↔
    key ≠ [] ∧ ∀ c ∈ key, 'A' ≤ c ∧ c ≤ 'Z' ∨ '0' ≤ c ∧ c ≤ '9' ∨ c = '_' := by
  have hupper : ∀ c : Char, c.isUpper = true ↔ 'A' ≤ c ∧ c ≤ 'Z' := fun c => decide_eq_true_iff
  simp [isName, isNameChar, hupper, Char.isDigit, Char.le_def, or_assoc]

theorem cutAtHash_eq_some : cutAtHash whole = some (before, after) ↔
    whole = before ++ '#' :: after ∧ '#' ∉ before := by
  induction whole generalizing before with
  | nil => simp [cutAtHash]
  | cons c whole ih =>
    rw [cutAtHash]
    split
    · next hc =>
      subst hc
      cases before with
      | nil => simp [eq_comm]
      | cons d before => simp +contextual [eq_comm]
    · next hc =>
      cases before with
      | nil => simp [hc]
      | cons d before =>
        have hd : c = d → '#' ≠ d := fun hd hash => hc (hd.trans hash.symm)
        simp only [Option.map_eq_some_iff, Prod.exists, Prod.mk.injEq, List.cons.injEq, List.cons_append,
          List.mem_cons, not_or]
        grind

theorem placeholder_eq_some {value : Text} : placeholder values whole = some (value, after) ↔
    ∃ key, whole = key ++ '#' :: after ∧ Known values key ∧ values.lookup key = some value := by
  have hsupplied : ∀ {key}, values.lookup key = some value → key ∈ values.map Prod.fst := by
    intro key h
    obtain ⟨front, back, rfl, -⟩ := List.lookup_eq_some_iff.1 h
    simp
  simp only [placeholder, Option.bind_eq_bind, Option.bind_eq_some_iff, Prod.exists,
    cutAtHash_eq_some]
  constructor
  · rintro ⟨key, rest, ⟨rfl, -⟩, h⟩
    split at h
    · next hname =>
      obtain ⟨hne, hchars⟩ := isName_iff.1 hname
      obtain ⟨value', hlookup, h⟩ := Option.bind_eq_some_iff.1 h
      cases h
      exact ⟨key, rfl, ⟨hne, hchars, hsupplied hlookup⟩, hlookup⟩
    · cases h
  · rintro ⟨key, rfl, hknown, hlookup⟩
    refine ⟨key, after, ⟨rfl, hknown.hash_notMem⟩, ?_⟩
    rw [if_pos (isName_iff.2 ⟨hknown.ne_nil, hknown.chars⟩), hlookup]
    rfl

theorem append_hash_prefix (hkey : '#' ∉ key) :
    key ++ ['#'] <+: before ++ '#' :: after ↔ key ++ ['#'] <+: before ++ ['#'] := by
  have hbefore : before ++ ['#'] <+: before ++ '#' :: after := ⟨after, by simp⟩
  refine ⟨fun h => ?_, fun h => h.trans hbefore⟩
  rcases List.prefix_or_prefix_of_prefix h hbefore with hle | hle
  · exact hle
  · rcases List.prefix_concat_iff.1 hle with heq | hle
    · exact heq ▸ List.prefix_refl _
    · exact absurd (hle.subset (List.mem_append_right _ List.mem_cons_self)) hkey

theorem marked_prefix (hkey : '#' ∉ key) :
    marked key <+: c :: (before ++ '#' :: after) ↔ marked key <+: c :: (before ++ ['#']) := by
  rw [marked, List.cons_append, List.cons_prefix_cons, List.cons_prefix_cons,
    append_hash_prefix hkey]

namespace Division

variable {d : Division}

theorem divides_nil : Divides values [] d ↔ d = ⟨[], []⟩ := by
  constructor
  · intro h
    exact eq_of_text_nil h.text_eq
  · rintro rfl
    exact ⟨rfl, List.forall_mem_nil _, List.forall_mem_nil _, fun key _ h => by simp [marked] at h⟩

theorem divides_push : Divides values (c :: whole) (d.push c) ↔
    Divides values whole d ∧ ∀ key, Known values key → ¬ marked key <+: c :: whole := by
  obtain ⟨_ | ⟨⟨before, key₀⟩, pieces⟩, rest⟩ := d
  · constructor
    · rintro ⟨htext, hknown, hbefore, hrest⟩
      obtain rfl : rest = whole := (List.cons.inj htext).2
      refine ⟨⟨rfl, hknown, hbefore, fun key hkey h => ?_⟩, fun key hkey h => ?_⟩
      · exact hrest key hkey (h.trans (List.suffix_cons c rest).isInfix)
      · exact hrest key hkey h.isInfix
    · rintro ⟨⟨rfl, hknown, hbefore, hrest⟩, hno⟩
      refine ⟨rfl, hknown, hbefore, fun key hkey h => ?_⟩
      rcases List.infix_cons_iff.1 h with h | h
      · exact hno key hkey h
      · exact hrest key hkey h
  · have htail : text ⟨(before, key₀) :: pieces, rest⟩
        = before ++ '#' :: (key₀ ++ '#' :: text ⟨pieces, rest⟩) := by
      simp [text, marked]
    constructor
    · rintro ⟨htext, hknown, hbefore, hrest⟩
      obtain rfl : text ⟨(before, key₀) :: pieces, rest⟩ = whole := (List.cons.inj htext).2
      obtain ⟨hfirst, hothers⟩ := List.forall_mem_cons.1 hbefore
      refine ⟨⟨rfl, hknown, List.forall_mem_cons.2 ⟨fun key hkey h => ?_, hothers⟩, hrest⟩,
        fun key hkey h => ?_⟩
      · exact hfirst key hkey (h.trans (List.suffix_cons c _).isInfix)
      · rw [htail, marked_prefix hkey.hash_notMem] at h
        exact hfirst key hkey h.isInfix
    · rintro ⟨⟨rfl, hknown, hbefore, hrest⟩, hno⟩
      obtain ⟨hfirst, hothers⟩ := List.forall_mem_cons.1 hbefore
      refine ⟨rfl, hknown, List.forall_mem_cons.2 ⟨fun key hkey h => ?_, hothers⟩, hrest⟩
      rcases List.infix_cons_iff.1 h with h | h
      · refine hno key hkey ?_
        rw [htail, marked_prefix hkey.hash_notMem]
        exact h
      · exact hfirst key hkey h

theorem divides_lead : Divides values whole (d.lead key) ↔
    Known values key ∧ ∃ after, whole = marked key ++ after ∧ Divides values after d := by
  constructor
  · rintro ⟨rfl, hknown, hbefore, hrest⟩
    obtain ⟨hkey, hknown⟩ := List.forall_mem_cons.1 hknown
    exact ⟨hkey, d.text, text_lead, rfl, hknown, (List.forall_mem_cons.1 hbefore).2, hrest⟩
  · rintro ⟨hkey, _, rfl, rfl, hknown, hbefore, hrest⟩
    refine ⟨text_lead, List.forall_mem_cons.2 ⟨hkey, hknown⟩,
      List.forall_mem_cons.2 ⟨fun key' hkey' h => ?_, hbefore⟩, hrest⟩
    -- a placeholder is longer than the one mark that stands there
    have hlength := h.length_le
    simp [marked] at hlength

end Division

theorem marked_append : marked key ++ after = '#' :: (key ++ '#' :: after) := by
  simp [marked]

theorem marked_append_inj {key' after' : Text} (hkey : '#' ∉ key) (hkey' : '#' ∉ key')
    (h : marked key ++ after = marked key' ++ after') : key = key' ∧ after = after' := by
  rw [marked_append, marked_append, List.cons.injEq] at h
  have hcut := cutAtHash_eq_some.2 ⟨h.2, hkey'⟩
  rw [cutAtHash_eq_some.2 ⟨rfl, hkey⟩] at hcut
  exact Prod.mk.inj (Option.some.inj hcut)

namespace Division

variable {d e : Division}

theorem eq_lead (hkey : Known values key) (honly : ∀ e : Division, e.Divides values after → e = d)
    (he : e.Divides values (marked key ++ after)) : e = d.lead key := by
  have hne : e.text ≠ [] := by
    rw [he.text_eq, marked_append]
    exact List.cons_ne_nil _ _
  rcases lead_or_push hne with ⟨key', e, rfl⟩ | ⟨c, e, rfl⟩
  · obtain ⟨hkey', after', heq, he⟩ := divides_lead.1 he
    obtain ⟨rfl, rfl⟩ := marked_append_inj hkey.hash_notMem hkey'.hash_notMem heq
    rw [honly e he]
  · have htext := text_push.symm.trans he.text_eq
    rw [marked_append] at he htext
    obtain ⟨rfl, -⟩ := List.cons.inj htext
    exact absurd ⟨after, marked_append⟩ ((divides_push.1 he).2 key hkey)

theorem eq_push (hno : ∀ key, Known values key → ¬ marked key <+: c :: whole)
    (honly : ∀ e : Division, e.Divides values whole → e = d)
    (he : e.Divides values (c :: whole)) : e = d.push c := by
  have hne : e.text ≠ [] := by
    rw [he.text_eq]
    exact List.cons_ne_nil _ _
  rcases lead_or_push hne with ⟨key, e, rfl⟩ | ⟨c', e, rfl⟩
  · obtain ⟨hkey, after, heq, -⟩ := divides_lead.1 he
    exact absurd ⟨after, heq.symm⟩ (hno key hkey)
  · obtain ⟨rfl, -⟩ := List.cons.inj (text_push.symm.trans he.text_eq)
    rw [honly e (divides_push.1 he).1]

end Division

theorem renderText_marked {steps : Nat} (hkey : Known values key) :
    renderText values (steps + 1) (marked key ++ after)
      = (values.lookup key).getD [] ++ renderText values steps after := by
  obtain ⟨value, hlookup⟩ := hkey.exists_lookup
  have hplaceholder : placeholder values (key ++ '#' :: after) = some (value, after) :=
    placeholder_eq_some.2 ⟨key, rfl, hkey, hlookup⟩
  rw [marked_append, renderText, if_pos rfl, hplaceholder, hlookup]
  rfl

theorem renderText_cons {steps : Nat} (hno : ∀ key, Known values key → ¬ marked key <+: c :: whole) :
    renderText values (steps + 1) (c :: whole) = c :: renderText values steps whole := by
  rw [renderText]
  split
  · next hc =>
    split
    · next value after hplaceholder =>
      obtain ⟨key, rfl, hkey, -⟩ := placeholder_eq_some.1 hplaceholder
      exact absurd ⟨after, by rw [marked_append, hc]⟩ (hno key hkey)
    · rfl
  · rfl

/-- Rendering puts values in at the only division of a text at its leftmost placeholders. -/
theorem renderText_divides {steps : Nat} (h : whole.length ≤ steps) :
    ∃ d : Division, d.Divides values whole ∧ (∀ e : Division, e.Divides values whole → e = d) ∧
      renderText values steps whole = d.filled values := by
  induction steps generalizing whole with
  | zero =>
    obtain rfl := List.eq_nil_of_length_eq_zero (Nat.le_zero.1 h)
    exact ⟨⟨[], []⟩, Division.divides_nil.2 rfl, fun e he => Division.divides_nil.1 he, rfl⟩
  | succ steps ih =>
    cases whole with
    | nil => exact ⟨⟨[], []⟩, Division.divides_nil.2 rfl, fun e he => Division.divides_nil.1 he, rfl⟩
    | cons c whole =>
      by_cases hstarts : ∃ key, Known values key ∧ marked key <+: c :: whole
      · obtain ⟨key, hkey, after, hwhole⟩ := hstarts
        rw [← hwhole] at h ⊢
        have hlength : after.length ≤ steps := by
          rw [marked_append, List.length_cons, List.length_append, List.length_cons] at h
          omega
        obtain ⟨d, hd, honly, hrender⟩ := ih hlength
        refine ⟨d.lead key, Division.divides_lead.2 ⟨hkey, after, rfl, hd⟩,
          fun e he => Division.eq_lead hkey honly he, ?_⟩
        rw [renderText_marked hkey, hrender, Division.filled_lead]
      · have hno : ∀ key, Known values key → ¬ marked key <+: c :: whole :=
          fun key hkey hprefix => hstarts ⟨key, hkey, hprefix⟩
        obtain ⟨d, hd, honly, hrender⟩ := ih (Nat.le_of_succ_le_succ h)
        refine ⟨d.push c, Division.divides_push.2 ⟨hd, hno⟩,
          fun e he => Division.eq_push hno honly he, ?_⟩
        rw [renderText_cons hno, hrender, Division.filled_push]

theorem Division.divides_of_hash_notMem {d : Division}
    (hknown : ∀ key ∈ d.pieces.map Prod.snd, Known values key)
    (hbefore : ∀ piece ∈ d.pieces, '#' ∉ piece.1) (hrest : '#' ∉ d.rest) :
    d.Divides values d.text := by
  refine ⟨rfl, hknown, fun piece hpiece key _ h => ?_, fun key _ h => ?_⟩
  · have hcount := h.sublist.count_le '#'
    rw [List.count_append, List.count_eq_zero_of_not_mem (hbefore piece hpiece)] at hcount
    simp [marked] at hcount
  · exact hrest (h.subset List.mem_cons_self)

theorem render_eq_filled {t : Template} {d : Division} (h : d.Divides values t.text) :
    t.render values = d.filled values := by
  obtain ⟨e, -, honly, hrender⟩ := @renderText_divides values t.text _ (Nat.le_refl _)
  rw [honly d h]
  exact hrender

end Template

/-- There is one division of a template at its leftmost placeholders, and rendering keeps what stands
between them and puts the first value for its key in place of each. -/
theorem render_leftmost (t : Template) (values : List (Text × Text)) :
    ∃ d : Template.Division, d.Divides values t.text ∧
      (∀ e : Template.Division, e.Divides values t.text → e = d) ∧
      t.render values = d.filled values :=
  Template.renderText_divides (Nat.le_refl _)

/-- The mark between two placeholders belongs to the first, and one in a value opens none. -/
example : Template.render ⟨"t", "#A#B#A##b#".toList⟩ [("A".toList, "#B".toList), ("B".toList, []),
    ("A".toList, "2".toList), ("b".toList, [])] = "#BB#B#b#".toList := by decide

end BrightCoverage
