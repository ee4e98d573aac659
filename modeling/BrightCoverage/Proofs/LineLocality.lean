import BrightCoverage.Proofs.JoinedTexts

/-! Lexing line by line. The tokens of two texts with a line break between them are those of the first,
the line break, and those of the second as many bytes and lines further on as the first text and the
line break take. So a line break is always a token of its own, and every other token stands on one
line. -/

namespace BrightCoverage

def Token.shift (bytes lines : Nat) (t : Token) : Token :=
  ⟨t.kind, t.text, t.extent.shift bytes lines⟩

def Token.breakBehind (u : Text) : Token :=
  ⟨.newline, "\n", ⟨byteLength u, byteLength u + 1⟩,
    (LineIndex.ofText u).position (byteLength u), ⟨u.count '\n' + 2, 0⟩⟩

theorem length_cutAt (mark : Char) (u : Text) : (cutAt mark u).length = u.count mark + 1 := by
  induction u with
  | nil => rfl
  | cons c u ih =>
    rw [cutAt]
    split
    · next hc => rw [List.length_cons, ih, hc, List.count_cons_self]
    · next hc =>
      rw [List.count_cons_of_ne hc, ← ih]
      split
      · next hnil => exact absurd hnil (cutAt_ne_nil mark u)
      · next hcut => rw [hcut, List.length_cons, List.length_cons]

theorem length_splitLines (u : Text) : (splitLines u).length = u.count '\n' + 1 := by
  rw [splitLines, List.length_map, length_cutAt]

theorem Token.lineBreak_eq (u : Text) : Token.lineBreak u = .breakBehind u := by
  have hoffset := Mark.offset_origin_advance u
  have hposition := position_advance u []
  rw [List.append_nil, hoffset] at hposition
  rw [lineBreak, breakBehind, hposition, ← hoffset, length_splitLines]
  simp only [Mark.extentTo, Mark.shift, Mark.origin, Position.down, Nat.zero_add, Nat.add_comm 1]

/-- Line breaks and tokens of a text: every line break is a token of its own, no other token has one
in it, and every other token ends on the line on which it starts. -/
structure LineBound (source : Text) : Prop where
  breaks : ∀ u v, source = u ++ '\n' :: v → .breakBehind u ∈ lex source
  single : ∀ t ∈ lex source, t.kind = .newline → t.text = "\n"
  clean : ∀ t ∈ lex source, t.kind ≠ .newline → '\n' ∉ t.text.toList
  level : ∀ t ∈ lex source, t.kind ≠ .newline →
    t.extent.location.stop.line = t.extent.location.start.line

theorem lineBound (source : Text) : LineBound source := by
  have hclean : ∀ t ∈ lex source,
      if t.kind = .newline then t.text.toList = ['\n'] else '\n' ∉ t.text.toList := by
    intro t ht
    rw [lex_eq_place] at ht
    obtain ⟨it, hit, hkind, htext⟩ := exists_item_of_mem_place ht
    have hclean := items_clean source it hit
    simp only [Item.Clean, hkind, Option.some.injEq] at hclean
    rwa [← htext, String.toList_ofList]
  refine ⟨fun u v hsource => ?_, fun t ht hk => ?_, fun t ht hk => ?_, fun t ht hk => ?_⟩
  · rw [hsource, lex_append_newline, Token.lineBreak_eq]
    exact List.mem_append_right _ List.mem_cons_self
  · have htext := hclean t ht
    rw [if_pos hk] at htext
    exact String.toList_inj.1 htext
  · have htext := hclean t ht
    rwa [if_neg hk] at htext
  · exact ((lex_ordered source).placed t ht).line hk

/-- Lexing is local to lines. -/
theorem lex_lineLocal :
    (∀ a b : Text, lex (a ++ '\n' :: b) = lex a ++
      .breakBehind a :: (lex b).map (Token.shift (byteLength a + 1) (a.count '\n' + 1))) ∧
    ∀ source, LineBound source := by
  refine ⟨fun a b => ?_, lineBound⟩
  rw [lex_append_newline, Token.lineBreak_eq, Copy.behind, length_splitLines]
  rfl

end BrightCoverage
