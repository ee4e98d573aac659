import Mathlib.Data.List.Forall2
import BrightCoverage.Proofs.LineEndings

/-! Lines counted in bytes and lines cut from the text. The line index knows where each line starts,
the splitter what is written on it; they find as many lines, and a line starts with the bytes of the
source behind its start. Nothing but line breaks is left out of the lines. -/

namespace BrightCoverage

def bytes (text : Text) : List UInt8 :=
  text.flatMap String.utf8EncodeChar

def lineFeed : UInt8 :=
  10

namespace Position

/-- One position comes before another: on an earlier line, or on its line in an earlier column. -/
def Before (p q : Position) : Prop :=
  p.line < q.line ∨ (p.line = q.line ∧ p.column < q.column)

end Position

section Bytes

variable {u v : Text} {c : Char}

theorem bytes_cons (c : Char) (u : Text) : bytes (c :: u) = String.utf8EncodeChar c ++ bytes u :=
  List.flatMap_cons

theorem bytes_append (u v : Text) : bytes (u ++ v) = bytes u ++ bytes v :=
  List.flatMap_append

theorem length_bytes (u : Text) : (bytes u).length = byteLength u := by
  induction u with
  | nil => rfl
  | cons c u ih => rw [bytes_cons, List.length_append, String.length_utf8EncodeChar, ih, byteLength]

theorem bytes_lineBreak : String.utf8EncodeChar '\n' = [lineFeed] := by
  decide

theorem lineFeed_notMem (hc : c ≠ '\n') : lineFeed ∉ String.utf8EncodeChar c := by
  have hval : c.val.toNat ≠ 10 := fun h => hc (Char.ext (UInt32.toNat_inj.1 h))
  have heq : ∀ n, lineFeed = UInt8.ofNat n ↔ n % 256 = 10 := by
    intro n
    rw [← UInt8.toNat_inj, UInt8.toNat_ofNat']
    exact eq_comm
  unfold String.utf8EncodeChar
  dsimp only
  split_ifs <;> simp only [List.mem_cons, List.not_mem_nil, or_false, heq] <;> omega

theorem count_lineFeed (hc : c ≠ '\n') (k : Nat) :
    ((String.utf8EncodeChar c).take k).count lineFeed = 0 :=
  List.count_eq_zero_of_not_mem fun h => lineFeed_notMem hc (List.mem_of_mem_take h)

end Bytes

/-! ### Starts of lines -/

section Starts

variable {source u : Text} {o o' base start : Nat}

theorem le_of_mem_starts (h : start ∈ startsAfterBreaks base (c :: u)) :
    base + c.utf8Size ≤ start := by
  rw [startsAfterBreaks] at h
  have hrest : start ∈ startsAfterBreaks (base + c.utf8Size) u → base + c.utf8Size ≤ start :=
    fun h => (startsAfterBreaks_bounds h).1.le
  split at h
  · rcases List.mem_cons.1 h with rfl | h
    · exact Nat.le_refl _
    · exact hrest h
  · exact hrest h

theorem pairwise_starts (base : Nat) (u : Text) : (startsAfterBreaks base u).Pairwise (· < ·) := by
  induction u generalizing base with
  | nil => exact .nil
  | cons c u ih =>
    rw [startsAfterBreaks]
    split
    · exact .cons (fun start h => (startsAfterBreaks_bounds h).1) (ih _)
    · exact ih _

theorem lineFeed_before_start (h : start ∈ startsAfterBreaks base u) :
    (bytes u)[start - 1 - base]? = some lineFeed := by
  induction u generalizing base with
  | nil => cases h
  | cons c u ih =>
    have hrest : start ∈ startsAfterBreaks (base + c.utf8Size) u →
        (bytes (c :: u))[start - 1 - base]? = some lineFeed := by
      intro h
      have hlt := (startsAfterBreaks_bounds h).1
      have hsize := String.length_utf8EncodeChar c
      rw [bytes_cons, List.getElem?_append_right (by omega), hsize, Nat.sub_sub _ base]
      exact ih h
    rw [startsAfterBreaks] at h
    split at h
    · next hc =>
      rcases List.mem_cons.1 h with rfl | h
      · subst hc
        rw [bytes_cons, bytes_lineBreak, show base + '\n'.utf8Size - 1 - base = 0 by simp +decide]
        rfl
      · exact hrest h
    · exact hrest h

theorem length_takeWhile_starts (h : base ≤ o) :
    ((startsAfterBreaks base u).takeWhile (· ≤ o)).length
      = ((bytes u).take (o - base)).count lineFeed := by
  induction u generalizing base with
  | nil => simp [startsAfterBreaks, bytes]
  | cons c u ih =>
    have hsize := String.length_utf8EncodeChar c
    rw [bytes_cons, List.take_append, hsize, List.count_append, Nat.sub_sub]
    by_cases hle : base + c.utf8Size ≤ o
    · have htake : (String.utf8EncodeChar c).take (o - base) = String.utf8EncodeChar c :=
        List.take_of_length_le (by omega)
      by_cases hc : c = '\n'
      · subst hc
        rw [startsAfterBreaks, if_pos rfl, List.takeWhile_cons_of_pos (by simpa using hle),
          List.length_cons, ih hle, htake, bytes_lineBreak, List.count_singleton_self, Nat.add_comm]
      · rw [startsAfterBreaks, if_neg hc, ih hle, count_lineFeed hc, Nat.zero_add]
    · -- the offset is inside the character, and all lines start behind it
      have hstop : (startsAfterBreaks base (c :: u)).takeWhile (· ≤ o) = [] := by
        cases hstarts : startsAfterBreaks base (c :: u) with
        | nil => rfl
        | cons start starts =>
          have hbehind := le_of_mem_starts (hstarts ▸ List.mem_cons_self : start ∈ _)
          exact List.takeWhile_cons_of_neg (by simp only [decide_eq_true_eq]; omega)
      have hinside : ((String.utf8EncodeChar c).take (o - base)).count lineFeed = 0 := by
        by_cases hc : c = '\n'
        · subst hc
          have hone : '\n'.utf8Size = 1 := by decide
          rw [show o - base = 0 by omega]
          rfl
        · exact count_lineFeed hc _
      rw [hstop, hinside, Nat.sub_eq_zero_of_le (by omega)]
      rfl

/-- A position and the start of its line: a line starts there, no later than the offset. -/
structure OnLine (source : Text) (o start : Nat) (p : Position) : Prop where
  pos : 1 ≤ p.line
  starts : (LineIndex.ofText source).starts[p.line - 1]? = some start
  column : start + p.column = o
  behind : start = 0 ∨ (bytes source)[start - 1]? = some lineFeed
  newlines : p.line - 1 = ((bytes source).take o).count lineFeed

theorem exists_onLine (source : Text) (o : Nat) :
    ∃ start, OnLine source o start ((LineIndex.ofText source).position o) := by
  obtain ⟨breaks, hbreaks⟩ : ∃ breaks, (startsAfterBreaks 0 source).takeWhile (· ≤ o) = breaks :=
    ⟨_, rfl⟩
  have hbefore : (LineIndex.ofText source).starts.takeWhile (· ≤ o) = 0 :: breaks := by
    rw [LineIndex.ofText, List.takeWhile_cons_of_pos (by simp), hbreaks]
  obtain ⟨start, hlast⟩ : ∃ start, (0 :: breaks).getLast? = some start :=
    ⟨_, List.getLast?_eq_some_getLast (List.cons_ne_nil 0 breaks)⟩
  have hposition : (LineIndex.ofText source).position o = ⟨breaks.length + 1, o - start⟩ := by
    rw [LineIndex.position, hbefore, List.getLastD_eq_getLast?, hlast]
    rfl
  have hmem : start ∈ (LineIndex.ofText source).starts.takeWhile (· ≤ o) :=
    hbefore ▸ List.mem_of_getLast? hlast
  have hle : start ≤ o := by simpa using List.mem_takeWhile_imp hmem
  refine ⟨start, ?_⟩
  rw [hposition]
  constructor
  · exact Nat.le_add_left 1 _
  · have hsplit := List.takeWhile_append_dropWhile (p := (· ≤ o)) (l := (LineIndex.ofText source).starts)
    rw [← hsplit, hbefore, List.getElem?_append_left (by simp)]
    rwa [List.getLast?_eq_getElem?] at hlast
  · exact Nat.add_sub_cancel' hle
  · rcases List.mem_cons.1 (List.mem_of_getLast? hlast) with hzero | hbreak
    · exact .inl hzero
    · rw [← hbreaks] at hbreak
      exact .inr (lineFeed_before_start ((List.takeWhile_prefix _).mem hbreak))
  · rw [Nat.add_sub_cancel, ← hbreaks, length_takeWhile_starts (Nat.zero_le o), Nat.sub_zero]

theorem position_before (source : Text) (h : o < o') :
    ((LineIndex.ofText source).position o).Before ((LineIndex.ofText source).position o') := by
  obtain ⟨start, hline⟩ := exists_onLine source o
  obtain ⟨start', hline'⟩ := exists_onLine source o'
  have hcount : ((bytes source).take o).count lineFeed ≤ ((bytes source).take o').count lineFeed :=
    ((List.take_prefix_take_left (by omega)).sublist).count_le _
  rw [← hline.newlines, ← hline'.newlines] at hcount
  have := hline.pos
  have := hline'.pos
  rcases Nat.lt_or_ge ((LineIndex.ofText source).position o).line
    ((LineIndex.ofText source).position o').line with hlt | hge
  · exact .inl hlt
  · -- on one line the columns count from the same start
    have heq : ((LineIndex.ofText source).position o).line
        = ((LineIndex.ofText source).position o').line := by omega
    have hstart := hline.starts
    rw [heq, hline'.starts] at hstart
    obtain rfl := Option.some.inj hstart
    have := hline.column
    have := hline'.column
    exact .inr ⟨heq, by omega⟩

end Starts

/-! ### Lines of the text -/

section Split

variable {l : Text}

theorem dropReturn_or (l : Text) : l = dropReturn l ∨ l = dropReturn l ++ ['\r'] := by
  unfold dropReturn
  split
  · next hlast =>
    right
    obtain ⟨front, rfl⟩ := List.getLast?_eq_some_iff.1 hlast
    rw [List.dropLast_concat]
  · exact .inl rfl

theorem bytes_dropReturn (l : Text) : bytes (dropReturn l) <+: bytes l := by
  rcases dropReturn_or l with h | h
  · rw [← h]
  · conv_rhs => rw [h, bytes_append]
    exact List.prefix_append _ _

theorem intercalate_cutAt (mark : Char) (s : Text) : [mark].intercalate (cutAt mark s) = s := by
  induction s with
  | nil => rfl
  | cons c rest ih =>
    obtain ⟨piece, pieces, hcut⟩ := List.exists_cons_of_ne_nil (cutAt_ne_nil mark rest)
    rw [hcut] at ih
    rw [cutAt, hcut]
    split
    · next hc =>
      rw [List.intercalate_cons_cons, ih, hc]
      rfl
    · cases pieces with
      | nil => simpa using ih
      | cons next pieces =>
        rw [List.intercalate_cons_cons] at ih
        rw [List.intercalate_cons_cons, List.cons_append, List.cons_append, ih]

theorem startsAfterBreaks_of_notMem (hl : '\n' ∉ l) (base : Nat) : startsAfterBreaks base l = [] := by
  induction l generalizing base with
  | nil => rfl
  | cons c l ih =>
    obtain ⟨hc, hl⟩ := not_or.1 (mt List.mem_cons.2 hl)
    rw [startsAfterBreaks, if_neg (Ne.symm hc), ih hl]

theorem startsAfterBreaks_line (hl : '\n' ∉ l) (base : Nat) (rest : Text) :
    startsAfterBreaks base (l ++ '\n' :: rest) = (base + byteLength (l ++ ['\n']))
      :: startsAfterBreaks (base + byteLength (l ++ ['\n'])) rest := by
  rw [startsAfterBreaks_append, startsAfterBreaks_of_notMem hl, List.nil_append, startsAfterBreaks,
    if_pos rfl, byteLength_append, Nat.add_assoc]
  rfl

theorem prefix_line (front l rest : Text) :
    bytes (dropReturn l) <+: (bytes (front ++ (l ++ rest))).drop (byteLength front) := by
  rw [bytes_append, ← length_bytes, List.drop_left, bytes_append]
  exact (bytes_dropReturn l).trans (List.prefix_append _ _)

theorem forall₂_lines (front s : Text) : List.Forall₂
    (fun start line => bytes line <+: (bytes (front ++ s)).drop start)
      (byteLength front :: startsAfterBreaks (byteLength front) s) (splitLines s) := by
  induction s using lines_induction generalizing front with
  | last l hl =>
    rw [startsAfterBreaks_of_notMem hl, splitLines, cutAt_of_notMem hl]
    have hline := prefix_line front l []
    rw [List.append_nil] at hline
    exact .cons hline .nil
  | line l rest hl ih =>
    rw [startsAfterBreaks_line hl, splitLines_line hl]
    refine .cons (prefix_line front l _) ?_
    have hrest := ih (front ++ (l ++ ['\n']))
    rw [byteLength_append front] at hrest
    simpa using hrest

/-- A text is its lines with a line break between them, after at most one carriage return. -/
theorem exists_pieces (s : Text) : ∃ pieces : List Text,
    List.Forall₂ (fun line piece => piece = line ∨ piece = line ++ ['\r']) (splitLines s) pieces ∧
      s = ['\n'].intercalate pieces := by
  refine ⟨cutAt '\n' s, ?_, (intercalate_cutAt '\n' s).symm⟩
  rw [splitLines, List.forall₂_map_left_iff, List.forall₂_same]
  exact fun l _ => dropReturn_or l

end Split

/-- The two notions of a line agree: what the line index says of offsets holds of the bytes of the
source, and the lines of the text are those that it numbers. -/
structure LinesAgree (source : Text) : Prop where
  sorted : (LineIndex.ofText source).starts.Pairwise (· < ·)
  line : ∀ o, ∃ start, OnLine source o start ((LineIndex.ofText source).position o)
  ascending : ∀ o o', o < o' →
    ((LineIndex.ofText source).position o).Before ((LineIndex.ofText source).position o')
  count : (LineIndex.ofText source).lineCount = (splitLines source).length
  content : ∀ o, ∃ line,
    (splitLines source)[((LineIndex.ofText source).position o).line - 1]? = some line ∧
      (((LineIndex.ofText source).position o).column ≤ byteLength line →
        (bytes line).take ((LineIndex.ofText source).position o).column
          = ((bytes source).take o).drop (o - ((LineIndex.ofText source).position o).column))
  complete : ∃ pieces : List Text,
    List.Forall₂ (fun line piece => piece = line ∨ piece = line ++ ['\r']) (splitLines source) pieces ∧
      source = ['\n'].intercalate pieces

theorem lines_agree (source : Text) : LinesAgree source := by
  have hlines : List.Forall₂ (fun start line => bytes line <+: (bytes source).drop start)
      (LineIndex.ofText source).starts (splitLines source) := forall₂_lines [] source
  constructor
  · exact .cons (fun start h => (startsAfterBreaks_bounds h).1) (pairwise_starts 0 source)
  · exact exists_onLine source
  · exact fun o o' h => position_before source h
  · exact hlines.length_eq
  · intro o
    obtain ⟨start, hline⟩ := exists_onLine source o
    obtain ⟨hlength, hget⟩ := List.forall₂_iff_get.1 hlines
    obtain ⟨hstarts, hstart⟩ := List.getElem?_eq_some_iff.1 hline.starts
    refine ⟨_, List.getElem?_eq_getElem (hlength ▸ hstarts), fun hcolumn => ?_⟩
    obtain ⟨behind, hbehind⟩ := hget _ hstarts (hlength ▸ hstarts)
    rw [List.get_eq_getElem, List.get_eq_getElem, hstart] at hbehind
    have hcolumn' := hline.column
    rw [← length_bytes] at hcolumn
    rw [show o - ((LineIndex.ofText source).position o).column = start by omega, List.drop_take,
      ← hbehind, show o - start = ((LineIndex.ofText source).position o).column by omega]
    exact (List.take_append_of_le_length hcolumn).symm
  · exact exists_pieces source

end BrightCoverage
