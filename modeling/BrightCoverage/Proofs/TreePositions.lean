import BrightCoverage.Proofs.ProgramLayout
import BrightCoverage.Proofs.TokenPlaces

/-! Positions in the tree. Every node of an accepted file starts and ends with a token, its location
is that of its span, and its parts stand inside it one after another. The condition of an `if` or
`else if` starts on the line of its keyword. -/

namespace BrightCoverage

namespace Piece

def extents : Piece → List Extent
  | expression e | opening e => [e.here]
  | clause keyword e => [keyword, e.here]
  | statements body => body.map Statement.here

end Piece

namespace Node

/-- The extents of the nodes directly inside a node and of its `else if` keywords, in order. -/
def parts (n : Node) : List Extent :=
  n.pieces.flatMap Piece.extents

/-- The conditions of a node, each with the extent whose first line is that of its keyword. -/
def guards (n : Node) : List (Extent × Extent) :=
  n.pieces.filterMap fun
    | .opening e => some (n.here, e.here)
    | .clause keyword e => some (keyword, e.here)
    | _ => none

/-- How a node and its parts stand in a text. -/
structure WellPlaced (source : Text) (n : Node) : Prop where
  tokens : ∃ (i j : Nat) (first last : Token), i ≤ j ∧ (lex source)[i]? = some first ∧
    (lex source)[j]? = some last ∧ n.here.span = ⟨first.span.start, last.span.stop⟩
  located : ∀ e ∈ n.here :: n.parts, e.location =
    ⟨(LineIndex.ofText source).position e.span.start, (LineIndex.ofText source).position e.span.stop⟩
  inside : ∀ e ∈ n.parts, n.here.span.start ≤ e.span.start ∧ e.span.stop ≤ n.here.span.stop
  nonempty : ∀ e ∈ n.here :: n.parts, e.span.start < e.span.stop
  ordered : n.parts.Pairwise fun a b => a.span.stop ≤ b.span.start
  guarded : ∀ g ∈ n.guards, g.2.location.start.line = g.1.location.start.line

end Node

variable {ts : List Token} {source : Text} {i j : Nat}

/-- Extents one after another over a range of tokens. -/
inductive Spread (ts : List Token) : List Extent → Nat → Nat → Prop
  | nil {i j : Nat} : i ≤ j → Spread ts [] i j
  | cons {rest : List Extent} {i a b j : Nat} : i ≤ a → a < b → b ≤ ts.length →
    Spread ts rest b j → Spread ts (extentBetween ts a b :: rest) i j

namespace Spread

variable {es fs : List Extent} {k : Nat}

theorem widen_left (h : Spread ts es i j) (hk : k ≤ i) : Spread ts es k j := by
  cases h with
  | nil h => exact .nil (hk.trans h)
  | cons h lt le rest => exact .cons (hk.trans h) lt le rest

theorem append (h : Spread ts es i k) (h' : Spread ts fs k j) : Spread ts (es ++ fs) i j := by
  induction h with
  | nil h => exact h'.widen_left h
  | cons h lt le _ ih => exact .cons h lt le (ih h')

theorem le (h : Spread ts es i j) : i ≤ j := by
  induction h with
  | nil h => exact h
  | cons h lt _ _ ih => exact (h.trans lt.le).trans ih

theorem mem (h : Spread ts es i j) {e : Extent} (he : e ∈ es) :
    ∃ a b, (i ≤ a ∧ a < b ∧ b ≤ j ∧ b ≤ ts.length) ∧ e = extentBetween ts a b := by
  induction h with
  | nil => cases he
  | @cons rest i a b j hia hab hb hrest ih =>
    rcases List.mem_cons.1 he with rfl | he
    · exact ⟨a, b, ⟨hia, hab, hrest.le, hb⟩, rfl⟩
    · obtain ⟨a', b', h₁, h₂⟩ := ih he
      exact ⟨a', b', by omega, h₂⟩

end Spread

theorem Lines.spread {body : List (Statement Extent)} (h : Lines ts (Laid ts) body i j) :
    Spread ts (body.map Statement.here) i j := by
  induction h with
  | nil gap => exact .nil gap.le
  | @cons s rest i a b j gap laid _ ih =>
    rw [List.map_cons, show s.here = extentBetween ts a b from laid.here_eq]
    exact .cons gap.le laid.lt laid.le_length ih

theorem Row.spread {ps : List Piece} (h : Row ts (Laid ts) ps i j) :
    Spread ts (ps.flatMap Piece.extents) i j := by
  induction h with
  | nil h => exact .nil h
  | @expression e rest i a b j h laid _ ih =>
    rw [List.flatMap_cons, Piece.extents, show e.here = extentBetween ts a b from laid.here_eq]
    exact .cons h laid.lt laid.le_length ih
  | @opening e rest i b j _ laid _ ih =>
    rw [List.flatMap_cons, Piece.extents,
      show e.here = extentBetween ts (i + 1) b from laid.here_eq]
    exact .cons (Nat.le_succ i) laid.lt laid.le_length ih
  | @clause here e rest i a b c j h lt hs he laid _ ih =>
    rw [List.flatMap_cons, Piece.extents, show e.here = extentBetween ts b c from laid.here_eq, he]
    have := laid.lt
    have := laid.le_length
    exact .cons h lt (by omega) (.cons (Nat.le_refl b) laid.lt laid.le_length ih)
  | @statements body rest i a b j h lines _ ih =>
    rw [List.flatMap_cons, Piece.extents]
    exact (lines.spread.append ih).widen_left h

theorem Solid.token (h : Ordered source ts) (hi : Solid ts i) :
    ∃ t, ts[i]? = some t ∧ t.kind ≠ .newline := by
  obtain ⟨t, ht, hk⟩ := hi
  refine ⟨t, ht, hk.elim (fun hw hk => ?_) And.left⟩
  rw [(h.placed_at ht).word (.inl hk)] at hw
  cases hw

theorem Solid.colon (h : Ordered source ts) (hi : Solid ts i)
    (hk : kindAt ts i = some (.symbol .colon)) : LineEnds ts (i + 1) := by
  obtain ⟨t, ht, hs⟩ := hi
  rw [kindAt_eq ht, Option.some.injEq] at hk
  rcases hs with hw | ⟨-, hend⟩
  · rw [(h.placed_at ht).word (.inr hk)] at hw
    cases hw
  · exact hend hk

theorem exists_tokens (hij : i < j) (hj : j ≤ ts.length) :
    ∃ a b, ts[i]? = some a ∧ ts[j - 1]? = some b ∧ extentBetween ts i j = a.extent.through b.extent := by
  have ha : ts[i]? = some ts[i] := List.getElem?_eq_getElem (by omega)
  have hb : ts[j - 1]? = some ts[j - 1] := List.getElem?_eq_getElem (by omega)
  exact ⟨ts[i], ts[j - 1], ha, hb, by rw [extentBetween, extentAt_eq ha, extentAt_eq hb]⟩

namespace Ordered

variable (h : Ordered source ts)
include h

theorem extentBetween_location (hij : i < j) (hj : j ≤ ts.length) :
    (extentBetween ts i j).location =
      ⟨(LineIndex.ofText source).position (extentBetween ts i j).span.start,
        (LineIndex.ofText source).position (extentBetween ts i j).span.stop⟩ := by
  obtain ⟨a, b, ha, hb, he⟩ := exists_tokens hij hj
  have hla := (h.placed_at ha).location
  have hlb := (h.placed_at hb).location
  rw [he]
  simp only [Extent.through, hla, hlb]
  rfl

theorem extentBetween_lt (hij : i < j) (hj : j ≤ ts.length) :
    (extentBetween ts i j).span.start < (extentBetween ts i j).span.stop := by
  obtain ⟨a, b, ha, hb, he⟩ := exists_tokens hij hj
  rw [he]
  exact (h.placed_at ha).lt.trans_le (h.stop_le_stop (by omega) ha hb)

theorem extentBetween_inside {k l : Nat} (hik : i ≤ k) (hkl : k < l) (hlj : l ≤ j)
    (hj : j ≤ ts.length) :
    (extentBetween ts i j).span.start ≤ (extentBetween ts k l).span.start ∧
      (extentBetween ts k l).span.stop ≤ (extentBetween ts i j).span.stop := by
  obtain ⟨a, b, ha, hb, he⟩ := exists_tokens (show i < j by omega) hj
  obtain ⟨a', b', ha', hb', he'⟩ := exists_tokens hkl (hlj.trans hj)
  rw [he, he']
  exact ⟨h.start_le_start hik ha ha', h.stop_le_stop (by omega) hb' hb⟩

theorem extentBetween_disjoint {k l : Nat} (hij : i < j) (hjk : j ≤ k) (hkl : k < l)
    (hl : l ≤ ts.length) :
    (extentBetween ts i j).span.stop ≤ (extentBetween ts k l).span.start := by
  obtain ⟨a, b, ha, hb, he⟩ := exists_tokens hij ((hjk.trans hkl.le).trans hl)
  obtain ⟨a', b', ha', hb', he'⟩ := exists_tokens hkl hl
  rw [he, he']
  exact h.stop_le_start (by omega) hb ha'

theorem same_line {a b : Token} (hij : i ≤ j) (hs : ∀ x, i ≤ x → x < j → Solid ts x)
    (ha : ts[i]? = some a) (hb : ts[j]? = some b) :
    b.extent.location.start.line = a.extent.location.start.line := by
  induction j generalizing b with
  | zero =>
    obtain rfl : i = 0 := by omega
    rw [ha] at hb
    cases hb
    rfl
  | succ j ih =>
    rcases Nat.eq_or_lt_of_le hij with rfl | hlt
    · rw [ha] at hb
      cases hb
      rfl
    · obtain ⟨c, hc, hk⟩ := (hs j (by omega) (Nat.lt_succ_self j)).token h
      rw [(h.next j c b hc hb).line, (h.placed_at hc).line hk]
      exact ih (by omega) (fun x hx hx' => hs x hx (by omega)) hc

theorem spread_pairwise {es : List Extent} (hes : Spread ts es i j) :
    es.Pairwise fun a b => a.span.stop ≤ b.span.start := by
  induction hes with
  | nil => exact .nil
  | cons hia hab hb rest ih =>
    refine List.pairwise_cons.2 ⟨fun e he => ?_, ih⟩
    obtain ⟨c, d, ⟨hc, hcd, -, hd⟩, rfl⟩ := rest.mem he
    exact h.extentBetween_disjoint hab hc hcd hd

theorem extentBetween_line {k l : Nat} (hij : i < j) (hj : j ≤ ts.length) (hik : i ≤ k)
    (hkl : k < l) (hl : l ≤ ts.length) (hs : ∀ x, i ≤ x → x < k → Solid ts x) :
    (extentBetween ts k l).location.start.line = (extentBetween ts i j).location.start.line := by
  obtain ⟨a, b, ha, hb, he⟩ := exists_tokens hij hj
  obtain ⟨a', b', ha', hb', he'⟩ := exists_tokens hkl hl
  rw [he, he']
  exact h.same_line hik hs ha ha'

theorem clause_line {ps : List Piece} (hrow : Row ts (Laid ts) ps i j) {keyword : Extent}
    {e : Expr Extent} (hmem : .clause keyword e ∈ ps) :
    e.here.location.start.line = keyword.location.start.line := by
  induction hrow with
  | nil => cases hmem
  | expression _ _ _ ih | opening _ _ _ ih | statements _ _ _ ih =>
    rcases List.mem_cons.1 hmem with heq | hmem
    · cases heq
    · exact ih hmem
  | clause _ lt hs he laid _ ih =>
    rcases List.mem_cons.1 hmem with heq | hmem
    · cases heq
      have hlt := laid.lt
      have hle := laid.le_length
      rw [he, show e.here = _ from laid.here_eq]
      exact h.extentBetween_line lt (hlt.le.trans hle) lt.le hlt hle hs
    · exact ih hmem

end Ordered

theorem Node.eq_cons_of_opening_mem {n : Node} {e : Expr Extent} (h : .opening e ∈ n.pieces) :
    ∃ rest, n.pieces = .opening e :: rest := by
  cases n with
  | expression x => cases x <;> simp [pieces, Procedure.pieces] at h
  | statement s =>
    cases s
    case branch =>
      simp only [pieces, List.mem_cons, Piece.opening.injEq, reduceCtorEq, List.mem_append,
        List.mem_flatMap, ElseIf.pieces, List.not_mem_nil, List.mem_map, and_false,
        or_false, exists_false] at h
      exact ⟨_, by rw [h]; rfl⟩
    all_goals simp [pieces, Procedure.pieces] at h

theorem Laid.wellPlaced (h : Ordered source (lex source)) {n : Node}
    (laid : Laid (lex source) n i j) : n.WellPlaced source := by
  have hlt := laid.lt
  have hle := laid.le_length
  have hspread : Spread (lex source) n.parts i j := laid.row.spread
  have hpart : ∀ e ∈ n.here :: n.parts, ∃ a b, (i ≤ a ∧ a < b ∧ b ≤ j ∧
      b ≤ (lex source).length) ∧ e = extentBetween (lex source) a b := by
    intro e he
    rcases List.mem_cons.1 he with rfl | he
    · exact ⟨i, j, ⟨Nat.le_refl i, hlt, Nat.le_refl j, hle⟩, laid.here_eq⟩
    · exact hspread.mem he
  refine ⟨?_, fun e he => ?_, fun e he => ?_, fun e he => ?_, h.spread_pairwise hspread,
    fun g hg => ?_⟩
  · obtain ⟨first, last, hfirst, hlast, heq⟩ := exists_tokens hlt hle
    refine ⟨i, j - 1, first, last, by omega, hfirst, hlast, ?_⟩
    rw [laid.here_eq, heq]
    rfl
  · obtain ⟨a, b, ⟨-, hab, -, hb⟩, rfl⟩ := hpart e he
    exact h.extentBetween_location hab hb
  · obtain ⟨a, b, ⟨hia, hab, hbj, -⟩, rfl⟩ := hspread.mem he
    rw [laid.here_eq]
    exact h.extentBetween_inside hia hab hbj hle
  · obtain ⟨a, b, ⟨-, hab, -, hb⟩, rfl⟩ := hpart e he
    exact h.extentBetween_lt hab hb
  · obtain ⟨p, hp, hg⟩ := List.mem_filterMap.1 hg
    cases p with
    | expression | statements => cases hg
    | clause keyword e =>
      cases hg
      exact h.clause_line laid.row hp
    | opening e =>
      cases hg
      obtain ⟨rest, hrest⟩ := Node.eq_cons_of_opening_mem hp
      have hrow := laid.row
      rw [hrest] at hrow
      cases hrow with
      | opening hsolid he _ =>
        rw [laid.here_eq, show e.here = _ from he.here_eq]
        refine h.extentBetween_line hlt hle (Nat.le_succ i) he.lt he.le_length fun x hx hx' => ?_
        obtain rfl : x = i := by omega
        exact hsolid

/-- Every statement and expression of an accepted file, at any depth, stands where its span and its
location say, with its parts in order inside it. -/
theorem parse_wellPlaced {program : List (Statement Extent)} (h : parse source = .ok program)
    {s : Statement Extent} (hs : s ∈ program) {n : Node} (hn : Node.Below (.statement s) n) :
    n.WellPlaced source := by
  obtain ⟨a, b, -, -, laid⟩ := (parseTokens_lines h).laid_of_mem hs
  obtain ⟨i, j, -, -, laid⟩ := laid.of_below hn
  exact laid.wellPlaced (lex_ordered source)

theorem parse_wellPlaced_branch :
    (Node.statement (.branch ⟨⟨0, 40⟩, ⟨⟨1, 0⟩, ⟨5, 6⟩⟩⟩
      (.identifier ⟨⟨3, 4⟩, ⟨⟨1, 3⟩, ⟨1, 4⟩⟩⟩ "a") [.stop ⟨⟨10, 14⟩, ⟨⟨2, 0⟩, ⟨2, 4⟩⟩⟩]
      [.mk ⟨⟨15, 22⟩, ⟨⟨3, 0⟩, ⟨3, 7⟩⟩⟩ (.identifier ⟨⟨23, 24⟩, ⟨⟨3, 8⟩, ⟨3, 9⟩⟩⟩ "b")
        [.endProgram ⟨⟨30, 33⟩, ⟨⟨4, 0⟩, ⟨4, 3⟩⟩⟩]] none)).WellPlaced
      "if a then\nstop\nelse if b then\nend\nend if".toList :=
  parse_wellPlaced rfl (List.mem_singleton.2 rfl) .refl

end BrightCoverage
