import BrightCoverage.Proofs.LineTokens
import BrightCoverage.Proofs.MirroredFiles
import BrightCoverage.Proofs.Resemblance

/-! Texts joined by a line break. No item goes over a line break, so the tokens of the joined text are
those of the first, the line break and those of the second further on. What the parsers read of the
first they also read in front of the line break, and behind it they read what they read of the second. -/

namespace BrightCoverage

/-! ### Items of lines -/

namespace Pattern

variable {p : Pattern} {d : Char}

theorem avoids_deriv (h : p.avoids d = true) (c : Char) : (p.deriv c).avoids d = true :=
  avoids_iff.2 fun k hk => avoids_iff.1 h k (mem_charClasses_deriv hk)

theorem deriv_of_avoids (h : p.avoids d = true) : p.deriv d = fail := by
  induction p with
  | fail | empty => rfl
  | one k =>
    rw [avoids, Bool.not_eq_true'] at h
    simp [deriv, h]
  | seq p q hp hq =>
    rw [avoids, Bool.and_eq_true] at h
    rw [deriv, hp h.1, hq h.2]
    split <;> rfl
  | alt p q hp hq =>
    rw [avoids, Bool.and_eq_true] at h
    rw [deriv, hp h.1, hq h.2]
    rfl
  | star p hp =>
    rw [deriv, hp h]
    rfl

theorem longest_of_avoids (h : p.avoids d = true) (x u : Text) :
    p.longest (x ++ d :: u) = p.longest x := by
  induction x generalizing p with
  | nil =>
    rw [List.nil_append, longest_cons, deriv_of_avoids h, longest_fail]
    rfl
  | cons c x ih => rw [List.cons_append, longest_cons, longest_cons, ih (avoids_deriv h c)]

theorem longest_newline {x : Text} (hx : x ≠ []) (u : Text) :
    (literal "\n").longest (x ++ u) = (literal "\n").longest x := by
  obtain ⟨c, x, rfl⟩ := List.exists_cons_of_ne_nil hx
  have hempty : ∀ v : Text, empty.longest v = some 0 := fun v => by
    cases v with
    | nil => rfl
    | cons c v => rfl
  by_cases hc : c = '\n'
  · subst hc
    rw [List.cons_append, longest_cons, longest_cons,
      show (literal "\n").deriv '\n' = empty from rfl, hempty, hempty]
  · have hcontains : (CharClass.of ['\n']).contains c = false := by
      rw [Bool.eq_false_iff, ne_eq, CharClass.contains_of, List.mem_singleton]
      exact hc
    have hderiv : (literal "\n").deriv c = fail :=
      deriv_of_avoids (avoids_iff.2 (List.forall_mem_singleton.2 hcontains))
    rw [List.cons_append, longest_cons, longest_cons, hderiv, longest_fail, longest_fail]

end Pattern

variable {s s' : Text}

theorem unknownLength_append {x : Text} (hx : x ≠ []) {d : Char} (hd : Rule.blank.contains d = false)
    (u : Text) : unknownLength (x ++ d :: u) = unknownLength x := by
  obtain ⟨c, x, rfl⟩ := List.exists_cons_of_ne_nil hx
  by_cases hc : c = '#'
  · subst hc
    show 1 + ((x ++ d :: u).takeWhile _).length = 1 + (x.takeWhile _).length
    congr 2
    induction x with
    | nil => simp [hd]
    | cons c x ih => rw [List.cons_append, List.takeWhile_cons, List.takeWhile_cons, ih (by simp)]
  · simp [unknownLength, hc]

theorem nextItem_append_newline {x : Text} (hx : x ≠ []) (u : Text) :
    nextItem (x ++ '\n' :: u) = nextItem x := by
  have hmatch : longestMatch (x ++ '\n' :: u) Rule.all = longestMatch x Rule.all := by
    refine longestMatch_congr fun rule hrule => ?_
    by_cases hk : rule.kind = some .newline
    · rw [Rule.newline_pattern rule hrule hk, Pattern.longest_newline hx]
    · exact Pattern.longest_of_avoids (Rule.avoids_newline rule hrule hk) x u
  simp only [nextItem, hmatch, unknownLength_append hx (show Rule.blank.contains '\n' = false by decide)]

theorem items_append_newline (s u : Text) :
    items (s ++ '\n' :: u) = items s ++ .lineBreak :: items u := by
  induction s using items_induction with
  | nil =>
    rw [items_nil]
    exact (Item.newline_before u).items_append
  | step s hs ih =>
    have hle := nextItem_le hs
    rw [items_ne_nil (List.append_ne_nil_of_left_ne_nil hs _), nextItem_append_newline hs,
      List.take_append_of_le_length hle, List.drop_append_of_le_length hle, ih, items_ne_nil hs]
    rfl

/-! ### Places further on -/

def Position.down (lines : Nat) (p : Position) : Position :=
  ⟨p.line + lines, p.column⟩

def Extent.shift (bytes lines : Nat) (e : Extent) : Extent :=
  ⟨⟨e.span.start + bytes, e.span.stop + bytes⟩,
    ⟨e.location.start.down lines, e.location.stop.down lines⟩⟩

def Mark.shift (bytes lines : Nat) (m : Mark) : Mark :=
  ⟨m.offset + bytes, m.position.down lines⟩

def Copy.ofPlaces (offset : Nat → Nat) (position : Position → Position) (h : Monotone offset) :
    Copy where
  offset := offset
  position := position
  text := fun _ => id
  name := id
  offset_mono := h
  text_identifier _ := rfl
  text_keyword _ _ := rfl
  isWord_text _ _ _ := rfl
  text_word _ _ _ _ := rfl
  integerValue_text _ := rfl
  hexValue_text _ := rfl
  floatBits_text _ := rfl
  unquoteText_text _ := rfl
  ofLine_text _ := ⟨rfl, rfl, rfl, rfl⟩

def Copy.shift (bytes lines : Nat) : Copy :=
  .ofPlaces (· + bytes) (Position.down lines) fun _ _ h => Nat.add_le_add_right h bytes

section Shift

variable {bytes lines : Nat}

theorem Mark.shift_advance (m : Mark) (u : Text) :
    (m.shift bytes lines).advance u = (m.advance u).shift bytes lines := by
  induction u generalizing m with
  | nil => rfl
  | cons c u ih =>
    have hnext : (m.shift bytes lines).next c = (m.next c).shift bytes lines := by
      unfold Mark.next
      split <;> simp only [Mark.shift, Position.down, Nat.add_right_comm]
    show ((m.shift bytes lines).next c).advance u = _
    rw [hnext, ih]
    rfl

theorem place_shift (m : Mark) (its : List Item) :
    place (m.shift bytes lines) its = (place m its).map (Copy.shift bytes lines).token := by
  induction its generalizing m with
  | nil => rfl
  | cons it its ih =>
    obtain ⟨_ | kind, text⟩ := it
    · rw [place, place, Mark.shift_advance, ih]
    · rw [place, place, Mark.shift_advance, ih]
      rfl

end Shift

theorem Mark.advance_line (m : Mark) (u : Text) :
    (m.advance u).position.line + 1 = m.position.line + (cutAt '\n' u).length := by
  induction u generalizing m with
  | nil => rfl
  | cons c u ih =>
    show ((m.next c).advance u).position.line + 1 = _
    rw [ih, Mark.next, cutAt]
    split
    · rw [List.length_cons]
      simp only
      omega
    · split
      · next hcut => exact absurd hcut (cutAt_ne_nil _ u)
      · next hcut => rw [hcut, List.length_cons, List.length_cons]

theorem Mark.advance_origin_line (s : Text) :
    (Mark.origin.advance s).position.line = (splitLines s).length := by
  have hline := Mark.origin.advance_line s
  rw [splitLines, List.length_map]
  simp only [Mark.origin] at hline ⊢
  omega

theorem Mark.advance_newline (s : Text) : (Mark.origin.advance s).advance ['\n']
    = Mark.origin.shift (byteLength s + 1) (splitLines s).length := by
  show Mark.mk _ _ = Mark.mk _ _
  rw [Mark.advance_offset, ← Mark.advance_origin_line]
  simp only [Mark.origin, Position.down, Nat.zero_add, Nat.add_comm 1]
  rfl

def Token.lineBreak (s : Text) : Token :=
  ⟨.newline, "\n",
    (Mark.origin.advance s).extentTo (Mark.origin.shift (byteLength s + 1) (splitLines s).length)⟩

theorem Token.isWord_lineBreak (s : Text) : (Token.lineBreak s).isWord = false := by
  have htext : "\n".toList = ['\n'] := by decide
  simp only [Token.isWord, Token.lineBreak, htext]
  decide

/-- What stands behind a text and a line break is moved by their bytes and lines. -/
def Copy.behind (s : Text) : Copy :=
  .shift (byteLength s + 1) (splitLines s).length

theorem lex_append_newline (s s' : Text) :
    lex (s ++ '\n' :: s') = lex s ++ .lineBreak s :: (lex s').map (Copy.behind s).token := by
  rw [lex_eq_place, lex_eq_place, lex_eq_place, items_append_newline, place_append, join_items]
  show _ ++ Token.mk _ _ _ :: place ((Mark.origin.advance s).advance ['\n']) _ = _
  rw [Mark.advance_newline, place_shift]
  rfl

/-! ### Programs one after the other -/

section Programs

open BrightCoverage.Parser

variable {ts us : List Token} {program program' : List (Statement Extent)} {nl : Token}

theorem Copy.body_eq_self {h : Copy} (hoffset : h.offset 0 = 0)
    (hposition : h.position ⟨1, 0⟩ = ⟨1, 0⟩) (hfix : ∀ t ∈ ts, h.token t = t)
    (hp : parseTokens ts = .ok program) : h.body program = program := by
  have hcopy := h.parseTokens_copy hoffset hposition ts
  rw [List.map_congr_left hfix, List.map_id', hp] at hcopy
  exact (Except.ok.inj hcopy).symm

theorem readStatements_nil (self : Recursion) (k : Nat) (last : Extent) :
    readStatements self k ⟨last, []⟩ = .done := by
  cases k <;> rfl

theorem parseTokens_newline (hp : parseTokens ts = .ok program) (hkind : nl.kind = .newline) :
    ∃ program', parseTokens (ts ++ [nl]) = .ok program' := by
  have halike : Alikes [] [] ts ts := by
    simpa using alikes_append (ts.nil_suffix) []
  have hplain : Spells Plain (.block .never program) ts [] :=
    (parseTokens_spelled hp).transcribed ts [] halike Agree.nil
  have hknown : ∀ t ∈ ts ++ [nl], t.kind ≠ .unknown := by
    refine List.forall_mem_append.2 ⟨(parseTokens_eq_ok hp).1, List.forall_mem_singleton.2 ?_⟩
    rw [hkind]
    nofun
  obtain ⟨program', hp', -⟩ := parseTokens_of_spells (hplain.append_newline hkind) hknown
  exact ⟨program', hp'⟩

theorem readStatements_newline (hp : parseTokens ts = .ok program) (hkind : nl.kind = .newline)
    (hword : nl.isWord = false) (vs : List Token) {k depth : Nat}
    (hk : (ts ++ nl :: vs).length < k) (hd : (ts ++ nl :: vs).length < depth) :
    ∃ last k', (nl :: vs).length < k' ∧
      readStatements (.ofDepth depth) k (.ofTokens (ts ++ nl :: vs))
        = ⟨program ++ (readStatements (.ofDepth depth) k' ⟨last, nl :: vs⟩).statements,
          (readStatements (.ofDepth depth) k' ⟨last, nl :: vs⟩).errors⟩ := by
  let same := Copy.ofPlaces id id monotone_id
  obtain ⟨program', hp'⟩ := parseTokens_newline hp hkind
  have hbody : same.body program' = program' := Copy.body_eq_self rfl rfl (fun t _ => rfl) hp'
  simp only [List.length_append, List.length_cons] at hk hd
  have hread' : readStatements (.ofDepth depth) (ts.length + 2) (.ofTokens (ts ++ [nl]))
      = ⟨program', []⟩ :=
    readStatements_of_parseTokens hp' (by simp; omega) (by simp)
  -- In front of the line break the same is read, whatever it becomes.
  have hmirror : ∀ m : Mirror, m.copy = same → m.tail = [nl] → (ts ++ m.tail').length < k →
      ∃ last k', m.tail'.length < k' ∧
        readStatements (.ofDepth depth) k (.ofTokens (ts ++ m.tail'))
          = ⟨program' ++ (readStatements (.ofDepth depth) k' ⟨last, m.tail'⟩).statements,
            (readStatements (.ofDepth depth) k' ⟨last, m.tail'⟩).errors⟩ := by
    intro m hcopy htail hlt
    have hsame : ts.map same.token = ts := List.map_id ts
    have hmeets : m.Meets (.ofTokens (ts ++ [nl])) (.ofTokens (ts ++ m.tail')) :=
      ⟨ts, by rw [htail]; rfl, by rw [hcopy, hsame]; rfl, by rw [hcopy]; exact ⟨rfl, rfl⟩⟩
    have hlength : (Cursor.ofTokens (ts ++ [nl])).rest.length < ts.length + 2 := by
      simp [Cursor.ofTokens]
    have happend := readStatements_append (sound_ofDepth depth) (Recursion.mirrored_ofDepth m depth)
      htail hmeets hlength hlt (by rw [hread'])
    rwa [hread', hcopy, hbody] at happend
  have hending : ∀ t ∈ [nl].head?, t.kind = .newline ∧ t.isWord = false := by
    simp [hkind, hword]
  obtain ⟨last, k', -, hend⟩ := hmirror ⟨same, [nl], [], hending, .inr ⟨by simp [hkind], rfl⟩⟩ rfl rfl
    (by simp; omega)
  rw [readStatements_nil, List.append_nil, readStatements_of_parseTokens hp (by omega) (by omega)]
    at hend
  obtain rfl : program = program' := by simpa [Reading.done] using hend
  exact hmirror ⟨same, [nl], nl :: vs, hending, .refl _⟩ rfl rfl (by simp; omega)

/-- What comes of two files with a line break between them: the statements of both, if the second is
copied to where the line break ends. -/
theorem parseTokens_append (hp : parseTokens ts = .ok program) (hp' : parseTokens us = .ok program')
    (hkind : nl.kind = .newline) (hword : nl.isWord = false) {h : Copy}
    (hends : h.Ends (Cursor.ofTokens us).last nl.extent) :
    parseTokens (ts ++ nl :: us.map h.token) = .ok (program ++ h.body program') := by
  have hlength : us.length < (ts ++ nl :: us.map h.token).length + 1 := by
    simp
    omega
  obtain ⟨last, k, hk, hread⟩ := readStatements_newline hp hkind hword (us.map h.token)
    (Nat.lt_succ_self _) (Nat.lt_succ_self _)
  rw [List.length_cons, List.length_map] at hk
  have hskip : Cursor.skipSeparators ⟨last, nl :: us.map h.token⟩
      = Cursor.skipSeparators ⟨nl.extent, us.map h.token⟩ := by
    show Cursor.skip _ last (nl :: us.map h.token) = _
    rw [Cursor.skip, if_pos (by rw [hkind]; decide)]
    rfl
  have hmeets : h.mirror.Meets (.ofTokens us) ⟨nl.extent, us.map h.token⟩ :=
    Copy.meets_iff.2 ⟨rfl, hends⟩
  rw [readStatements_of_skip hskip,
    Copy.readStatements_copy (Recursion.mirrored_ofDepth _ _) _ hmeets,
    readStatements_of_parseTokens hp' hlength (by omega)] at hread
  have hinvalid : invalidCharacters (ts ++ nl :: us.map h.token) = [] := by
    have hknown := (parseTokens_eq_ok hp).1
    have hknown' := (parseTokens_eq_ok hp').1
    simpa [invalidCharacters, hkind, or_imp, forall_and] using ⟨hknown, hknown'⟩
  simp only [parseTokens, hinvalid, hread, List.nil_append]
  rfl

end Programs

/-! ### Owners of lines -/

/-- Keeps the positions with a property and moves the others to the start of the text. -/
def Copy.keep (P : Position → Prop) [DecidablePred P] : Copy :=
  .ofPlaces id (fun p => if P p then p else ⟨1, 0⟩) monotone_id

theorem claimants_position {P : Position → Prop} [DecidablePred P] (horigin : P ⟨1, 0⟩)
    {ts : List Token} {program : List (Statement Extent)}
    (ht : ∀ t ∈ ts, P t.extent.location.start ∧ P t.extent.location.stop)
    (hp : parseTokens ts = .ok program) :
    ∀ o ∈ claimants (visitAll program), P o.here.location.start := by
  have hfix : ∀ t ∈ ts, (Copy.keep P).token t = t := by
    intro t hmem
    obtain ⟨hstart, hstop⟩ := ht t hmem
    simp [Copy.keep, Copy.ofPlaces, Copy.token, Copy.extent, Copy.span, hstart, hstop]
  have hbody : (Copy.keep P).body program = program :=
    Copy.body_eq_self rfl (if_pos horigin) hfix hp
  have hclaimants := claimants_copyBody (Copy.keep P).extent id program
  rw [show copyBody (Copy.keep P).extent id program = program from hbody] at hclaimants
  intro o ho
  have howner : o.copy (Copy.keep P).extent id = o :=
    List.map_eq_map_iff.1 (hclaimants.symm.trans (List.map_id _).symm) o ho
  have hstart : (if P o.here.location.start then o.here.location.start else ⟨1, 0⟩)
      = o.here.location.start := by
    conv_rhs => rw [← howner, Owner.copy_here]
    rfl
  split at hstart
  · assumption
  · rwa [← hstart]

theorem extent_of_mem_place {m : Mark} {its : List Item} {t : Token} (h : t ∈ place m its) :
    ∃ u v w, Item.join its = u ++ v ++ w ∧ t.extent = (m.advance u).extentTo (m.advance (u ++ v)) := by
  induction its generalizing m with
  | nil => cases h
  | cons it its ih =>
    have hlater : t ∈ place (m.advance it.text) its → ∃ u v w, Item.join (it :: its) = u ++ v ++ w ∧
        t.extent = (m.advance u).extentTo (m.advance (u ++ v)) := by
      intro h
      obtain ⟨u, v, w, hjoin, hextent⟩ := ih h
      refine ⟨it.text ++ u, v, w, ?_, ?_⟩
      · rw [Item.join_cons, hjoin]
        simp
      · rw [hextent, List.append_assoc, Mark.advance_append m, Mark.advance_append m]
    obtain ⟨_ | kind, text⟩ := it
    · exact hlater h
    · rcases List.mem_cons.1 h with rfl | h
      · exact ⟨[], text, Item.join its, Item.join_cons, rfl⟩
      · exact hlater h

/-- The line of the position is one of the text. -/
def Position.OnLineOf (s : Text) (p : Position) : Prop :=
  1 ≤ p.line ∧ p.line ≤ (splitLines s).length

instance (s : Text) : DecidablePred (Position.OnLineOf s) := fun p =>
  inferInstanceAs (Decidable (1 ≤ p.line ∧ p.line ≤ (splitLines s).length))

theorem Mark.onLineOf_advance (u v : Text) : (Mark.origin.advance u).position.OnLineOf (u ++ v) := by
  rw [Position.OnLineOf, ← Mark.advance_origin_line, Mark.advance_append]
  exact ⟨Mark.line_le_advance Mark.origin u, Mark.line_le_advance _ v⟩

theorem onLineOf_of_mem_lex {t : Token} (h : t ∈ lex s) :
    t.extent.location.start.OnLineOf s ∧ t.extent.location.stop.OnLineOf s := by
  rw [lex_eq_place] at h
  obtain ⟨u, v, w, hjoin, hextent⟩ := extent_of_mem_place h
  rw [join_items] at hjoin
  rw [hextent, hjoin]
  refine ⟨?_, Mark.onLineOf_advance (u ++ v) w⟩
  rw [List.append_assoc]
  exact Mark.onLineOf_advance u (v ++ w)

theorem claimants_onLineOf {program : List (Statement Extent)} (h : parse s = .ok program) :
    ∀ o ∈ claimants (visitAll program), o.here.location.start.OnLineOf s :=
  claimants_position (Mark.onLineOf_advance [] s) (fun _ => onLineOf_of_mem_lex) h

section Tables

variable {α β : Type} {as bs : List (Nat × α)} {k n : Nat}

theorem key_of_lookup {a : α} (h : as.lookup n = some a) : (n, a) ∈ as := by
  obtain ⟨before, after, rfl, -⟩ := List.lookup_eq_some_iff.1 h
  simp

theorem lookup_of_head {a : Nat × α} : (a :: as).lookup a.1 = some a.2 := by
  rw [Table.lookup_cons, if_pos rfl]

theorem lookup_of_lt (h : ∀ a ∈ as, n < a.1) : as.lookup n = none := by
  refine Option.eq_none_iff_forall_ne_some.2 fun a ha => ?_
  exact absurd (h _ (key_of_lookup ha)) (Nat.lt_irrefl n)

theorem eq_of_lookup (ha : as.Pairwise fun a b => a.1 < b.1) (hb : bs.Pairwise fun a b => a.1 < b.1)
    (h : ∀ n, as.lookup n = bs.lookup n) : as = bs := by
  induction as generalizing bs with
  | nil =>
    cases bs with
    | nil => rfl
    | cons b bs =>
      have := h b.1
      rw [lookup_of_head] at this
      cases this
  | cons a as ih =>
    cases bs with
    | nil =>
      have := h a.1
      rw [lookup_of_head] at this
      cases this
    | cons b bs =>
      obtain ⟨hahead, ha⟩ := List.pairwise_cons.1 ha
      obtain ⟨hbhead, hb⟩ := List.pairwise_cons.1 hb
      have hkey : a.1 = b.1 := by
        have hfirst := h a.1
        have hfirst' := h b.1
        rw [lookup_of_head] at hfirst hfirst'
        rcases List.mem_cons.1 (key_of_lookup hfirst.symm) with heq | hmem
        · rw [← heq]
        · rcases List.mem_cons.1 (key_of_lookup hfirst') with heq | hmem'
          · rw [← heq]
          · exact absurd (hbhead _ hmem) (Nat.lt_asymm (hahead _ hmem'))
      have hvalue : a.2 = b.2 := by
        have hfirst := h a.1
        rw [lookup_of_head, hkey, lookup_of_head] at hfirst
        exact Option.some.inj hfirst
      rw [Prod.ext hkey hvalue, ih ha hb fun n => ?_]
      by_cases hn : n = a.1
      · subst hn
        rw [lookup_of_lt hahead, lookup_of_lt (hkey ▸ hbhead)]
      · have hrest := h n
        rwa [Table.lookup_cons, Table.lookup_cons, if_neg hn, if_neg (hkey ▸ hn)] at hrest

theorem lookup_of_mem (h : as.Pairwise fun a b => a.1 < b.1) {a : Nat × α} (ha : a ∈ as) :
    as.lookup a.1 = some a.2 := by
  induction as with
  | nil => cases ha
  | cons b as ih =>
    obtain ⟨hhead, htail⟩ := List.pairwise_cons.1 h
    rcases List.mem_cons.1 ha with rfl | ha
    · exact lookup_of_head
    · rw [Table.lookup_cons, if_neg (hhead a ha).ne', ih htail ha]

theorem lookup_shift (f : α → β) :
    (as.map fun e => (e.1 + k, f e.2)).lookup (n + k) = (as.lookup n).map f := by
  induction as with
  | nil => rfl
  | cons a as ih =>
    rw [List.map_cons, Table.lookup_cons, Table.lookup_cons, ih]
    simp only [Nat.add_right_cancel_iff]
    split <;> rfl

end Tables

section Owners

variable {bytes lines : Nat} {program : List (Statement Extent)}

theorem get?_classify_shift (h : ∀ o ∈ claimants (visitAll program), 1 ≤ o.here.location.start.line)
    (n : Nat) : (classify (copyBody (Extent.shift bytes lines) id program)).get? n
      = ((classify program).entries.map fun e =>
          (e.1 + lines, e.2.copy (Extent.shift bytes lines) id)).lookup n := by
  have hline : ∀ o ∈ claimants (visitAll program),
      (o.here.shift bytes lines).startLine = o.here.startLine + lines := by
    intro o ho
    have := h o ho
    simp only [Extent.startLine, Extent.shift, Position.down, Position.lineIndex]
    omega
  by_cases hn : n < lines
  · rw [lookup_of_lt (by simp; omega), get?_classify, claimants_copyBody, List.find?_eq_none]
    intro _ hcopy
    obtain ⟨o, ho, rfl⟩ := List.mem_map.1 hcopy
    rw [Owner.copy_here, hline o ho, decide_eq_true_eq]
    omega
  · obtain ⟨n, rfl⟩ : ∃ m, n = m + lines := ⟨n - lines, by omega⟩
    rw [lookup_shift]
    exact get?_classify_copyBody (g := (· + lines)) (fun _ _ => Nat.add_right_cancel) hline n

end Owners

/-- Two accepted texts with a line break between them are accepted. The statements are those of the
first, and those of the second as many bytes and lines further on as the first and the line break
take; the same holds of the owners of lines. -/
theorem parse_joined {program program' : List (Statement Extent)} (h : parse s = .ok program)
    (h' : parse s' = .ok program') :
    let further := Extent.shift (byteLength s + 1) (splitLines s).length
    parse (s ++ '\n' :: s') = .ok (program ++ mapBody further program') ∧
      (classify (program ++ mapBody further program')).entries
        = (classify program).entries ++ (classify program').entries.map fun e =>
            (e.1 + (splitLines s).length, e.2.copy further id) := by
  intro further
  constructor
  · rw [parse, lex_append_newline, ← copyBody_id]
    exact parseTokens_append h h' rfl (Token.isWord_lineBreak s) ⟨rfl, rfl⟩
  · have hkeys : ∀ e ∈ (classify program).entries, e.1 < (splitLines s).length := by
      intro e he
      have hget := lookup_of_mem (classify program).ascending he
      rw [← Table.get?, get?_classify] at hget
      have hline := claimants_onLineOf h e.2 (List.mem_of_find?_eq_some hget)
      have hkey : e.2.here.startLine = e.1 := by simpa using List.find?_some hget
      simp only [Extent.startLine, Position.lineIndex, Position.OnLineOf] at hkey hline
      omega
    refine eq_of_lookup (Table.ascending _) (List.pairwise_append.2 ⟨Table.ascending _, ?_, ?_⟩)
      fun n => ?_
    · rw [List.pairwise_map]
      exact (classify program').ascending.imp fun hlt => Nat.add_lt_add_right hlt _
    · intro e he e' he'
      obtain ⟨e', -, rfl⟩ := List.mem_map.1 he'
      exact Nat.lt_of_lt_of_le (hkeys e he) (Nat.le_add_left _ _)
    · rw [List.lookup_append, ← copyBody_id]
      show (classify _).get? n = _
      rw [get?_classify_append,
        get?_classify_shift (fun o ho => (claimants_onLineOf h' o ho).1)]
      rfl

theorem parse_joined_label :
    let label := Statement.label ⟨⟨0, 2⟩, ⟨⟨1, 0⟩, ⟨1, 2⟩⟩⟩ "a"
    let giveBack := Statement.giveBack ⟨⟨3, 9⟩, ⟨⟨2, 0⟩, ⟨2, 6⟩⟩⟩ none
    parse "a:\nreturn".toList = .ok [label, giveBack] ∧
      (classify [label, giveBack]).entries = [(1, .statement giveBack)] :=
  have h : parse "a:".toList = .ok [.label ⟨⟨0, 2⟩, ⟨⟨1, 0⟩, ⟨1, 2⟩⟩⟩ "a"] := rfl
  have h' : parse "return".toList = .ok [.giveBack ⟨⟨0, 6⟩, ⟨⟨1, 0⟩, ⟨1, 6⟩⟩⟩ none] := rfl
  parse_joined h h'

end BrightCoverage
