import BrightCoverage.Proofs.Acceptance
import BrightCoverage.Proofs.MirroredParsers

/-! Whole files in the mirror. The statements and the errors of copied tokens are the copies of those
of the originals. A file that is accepted is also read the same in front of a line break with more
behind it: reading goes on with what comes then. -/

namespace BrightCoverage

open BrightCoverage.Parser

variable {m : Mirror} {self : Recursion} {c d : Cursor}

/-! ### Copies of whole files -/

namespace Copy

def mirror (h : Copy) : Mirror :=
  ⟨h, [], [], nofun, .refl _⟩

def reading (h : Copy) (r : Reading) : Reading :=
  ⟨h.body r.statements, r.errors.map h.error⟩

def outcome (h : Copy) : Except (List ParseError) (List (Statement Extent)) →
    Except (List ParseError) (List (Statement Extent))
  | .ok program => .ok (h.body program)
  | .error errors => .error (errors.map h.error)

variable {h : Copy}

theorem meets_iff : h.mirror.Meets c d ↔ d.rest = c.rest.map h.token ∧ h.Ends c.last d.last := by
  constructor
  · rintro ⟨ts, hc, hd, hends⟩
    rw [show c.rest = ts from hc.trans (List.append_nil ts)]
    exact ⟨hd.trans (List.append_nil _), hends⟩
  · rintro ⟨hd, hends⟩
    exact ⟨c.rest, (List.append_nil _).symm, hd.trans (List.append_nil _).symm, hends⟩

theorem meets_resume (t : Token) (ts : List Token) :
    h.mirror.Meets (Cursor.resume t ts) (Cursor.resume (h.token t) (ts.map h.token)) := by
  induction ts generalizing t with
  | nil => exact meets_iff.2 ⟨rfl, h.ends_extent t.extent⟩
  | cons next ts ih =>
    rw [List.map_cons, Cursor.resume, Cursor.resume, token_kind, token_kind]
    split
    · exact meets_iff.2 ⟨rfl, h.ends_extent t.extent⟩
    · exact ih next

theorem meets_synchronize (hd : h.mirror.Meets c d) :
    h.mirror.Meets c.synchronize d.synchronize := by
  obtain ⟨hrest, hends⟩ := meets_iff.1 hd
  unfold Cursor.synchronize
  rw [hrest]
  cases c.rest with
  | nil => exact hd
  | cons t ts => exact meets_resume t ts

theorem meets_skipSeparators (hd : h.mirror.Meets c d) :
    h.mirror.Meets c.skipSeparators d.skipSeparators := by
  obtain ⟨d', hd', hmeets⟩ := (Mirrors.skipSeparators c).ok rfl hd List.nil_suffix
  cases hd'
  exact hmeets

theorem readStatements_copy (hm : self.Mirrored h.mirror) (rounds : Nat)
    (hd : h.mirror.Meets c d) :
    readStatements self rounds d = h.reading (readStatements self rounds c) := by
  induction rounds generalizing c d with
  | zero => rfl
  | succ rounds ih =>
    have hskip := meets_skipSeparators hd
    have hempty : d.skipSeparators.rest.isEmpty = c.skipSeparators.rest.isEmpty := by
      rw [(meets_iff.1 hskip).1, List.isEmpty_map]
    have hwhole := wholeStatement_mirrors hm c.skipSeparators
    simp only [readStatements, hempty]
    split
    · rfl
    · cases hw : wholeStatement self c.skipSeparators with
      | ok s c₁ =>
        obtain ⟨d₁, hq, hd₁⟩ := hwhole.ok hw hskip List.nil_suffix
        simp only [hq, ih hd₁]
        rfl
      | error e c₁ =>
        obtain ⟨d₁, hq, hd₁⟩ := hwhole.error hw hskip rfl
        simp only [hq, ih (meets_synchronize hd₁)]
        rfl

theorem invalidCharacters_copy (h : Copy) (ts : List Token) :
    invalidCharacters (ts.map h.token) = (invalidCharacters ts).map h.error := by
  unfold invalidCharacters
  rw [List.filter_map, List.map_map, List.map_map]
  rfl

theorem parseTokens_copy (h : Copy) (hoffset : h.offset 0 = 0)
    (hposition : h.position ⟨1, 0⟩ = ⟨1, 0⟩) (ts : List Token) :
    parseTokens (ts.map h.token) = h.outcome (parseTokens ts) := by
  have hmeets : h.mirror.Meets (.ofTokens ts) (.ofTokens (ts.map h.token)) :=
    meets_iff.2 ⟨rfl, hoffset.symm, hposition.symm⟩
  simp only [parseTokens, List.length_map, invalidCharacters_copy,
    readStatements_copy (Recursion.mirrored_ofDepth _ _) _ hmeets, reading, ← List.map_append]
  cases invalidCharacters ts ++ (readStatements (.ofDepth (ts.length + 1)) (ts.length + 1)
    (.ofTokens ts)).errors <;> rfl

end Copy

/-! ### Depths and rounds -/

theorem Recursion.follows_ofDepth {n k : Nat} (h : n ≤ k) : (ofDepth n).Follows (ofDepth k) := by
  induction n generalizing k with
  | zero => exact ⟨fun _ => .expected _, .expected _, .expected _⟩
  | succ n ih =>
    obtain ⟨k, rfl⟩ : ∃ k', k = k' + 1 := ⟨k - 1, by omega⟩
    have hf := ih (k := k) (by omega)
    exact ⟨expression_follows hf, statement_follows hf, inlineElseIf_follows hf⟩

theorem Cursor.skipSeparators_le (c : Cursor) : c.skipSeparators.rest.length ≤ c.rest.length :=
  (Cursor.skip_suffix _ c.last c.rest).length_le

theorem readStatements_of_le (hs : self.Sound) {n k : Nat} (hn : c.rest.length < n) (hk : n ≤ k)
    (h : (readStatements self n c).errors = []) :
    readStatements self k c = readStatements self n c := by
  induction n generalizing c k with
  | zero => omega
  | succ n ih =>
    obtain ⟨k, rfl⟩ : ∃ k', k = k' + 1 := ⟨k - 1, by omega⟩
    have hle := c.skipSeparators_le
    simp only [readStatements] at h ⊢
    split at h
    · rw [if_pos ‹_›, if_pos ‹_›]
    · rw [if_neg ‹_›, if_neg ‹_›]
      cases hw : wholeStatement self c.skipSeparators with
      | error e c₁ => simp [hw, Reading.addError] at h
      | ok s c₁ =>
        have hlt := wholeStatement_lt hs hw
        simp only [hw, Reading.addStatement] at h
        simp only [ih (c := c₁) (k := k) (by omega) (by omega) h]

theorem readStatements_of_parseTokens {ts : List Token} {program : List (Statement Extent)}
    (h : parseTokens ts = .ok program) {depth rounds : Nat} (hd : ts.length < depth)
    (hr : ts.length < rounds) :
    readStatements (.ofDepth depth) rounds (.ofTokens ts) = ⟨program, []⟩ := by
  have hread := (parseTokens_eq_ok h).2
  have hdeep : readStatements (.ofDepth depth) (ts.length + 1) (.ofTokens ts) = ⟨program, []⟩ := by
    rw [readStatements_of_follows (Recursion.follows_ofDepth hd) (by rw [hread]), hread]
  rw [readStatements_of_le (n := ts.length + 1) (sound_ofDepth _) (Nat.lt_succ_self ts.length) hr
    (by rw [hdeep]), hdeep]

/-! ### In front of a line break -/

theorem readStatements_of_skip {rounds : Nat} (h : c.skipSeparators = d.skipSeparators) :
    readStatements self rounds c = readStatements self rounds d := by
  cases rounds with
  | zero => rfl
  | succ rounds => simp only [readStatements, h]

theorem Cursor.skip_append {kinds : List TokenKind} (last : Extent) {ts : List Token}
    (h : ∀ t ∈ ts, t.kind ∈ kinds) (us : List Token) :
    ∃ last', Cursor.skip kinds last (ts ++ us) = Cursor.skip kinds last' us := by
  induction ts generalizing last with
  | nil => exact ⟨last, rfl⟩
  | cons t ts ih =>
    obtain ⟨ht, hts⟩ := List.forall_mem_cons.1 h
    rw [List.cons_append, Cursor.skip, if_pos ht]
    exact ih t.extent hts

theorem Cursor.kinds_of_skip_eq_nil {kinds : List TokenKind} {last : Extent} {ts : List Token}
    (h : (Cursor.skip kinds last ts).rest = []) : ∀ t ∈ ts, t.kind ∈ kinds := by
  induction ts generalizing last with
  | nil => nofun
  | cons t ts ih =>
    rw [Cursor.skip] at h
    split at h
    · next ht => exact List.forall_mem_cons.2 ⟨ht, ih h⟩
    · cases h

theorem suffix_singleton {α : Type} {xs ts : List α} {x : α} (h : xs <:+ ts ++ [x]) (hne : xs ≠ []) :
    [x] <:+ xs :=
  List.suffix_of_suffix_length_le (List.suffix_append ts [x]) h
    (by rw [List.length_singleton]; exact List.length_pos_iff.2 hne)

theorem wholeStatement_ne_nil (hs : self.Sound) {s : Statement Extent} {c' : Cursor} {ts : List Token}
    {nl : Token} (hrest : c.rest = ts ++ [nl]) (hkind : nl.kind = .newline)
    (hword : nl.isWord = false) (h : wholeStatement self c = .ok s c') : c'.rest ≠ [] := by
  intro hnil
  rw [c.eq_after, hrest] at h
  obtain ⟨j, rfl, laid⟩ := wholeStatement_run hs h
  have hle := laid.le_length
  have hj : j = (ts ++ [nl]).length := by
    have : (ts ++ [nl]).length ≤ j := by simpa using hnil
    omega
  obtain ⟨t, ht, hsolid⟩ := laid.solid
  obtain rfl : nl = t := by simpa [hj] using ht
  rcases hsolid with hsolid | ⟨hsolid, -⟩
  · rw [hword] at hsolid
    cases hsolid
  · exact hsolid hkind

/-- What stands in front of the last line break is read alike when more follows; then reading goes on
with what follows. -/
theorem readStatements_append (hs : self.Sound) (hm : self.Mirrored m) {nl : Token}
    (htail : m.tail = [nl]) {n k : Nat} (hd : m.Meets c d) (hn : c.rest.length < n)
    (hk : d.rest.length < k) (h : (readStatements self n c).errors = []) :
    ∃ last k', m.tail'.length < k' ∧ readStatements self k d
      = ⟨m.copy.body (readStatements self n c).statements
          ++ (readStatements self k' ⟨last, m.tail'⟩).statements,
        (readStatements self k' ⟨last, m.tail'⟩).errors⟩ := by
  have hnl := m.ending nl (by simp [htail])
  -- By the number of rounds on the left. Each round that reads a statement reads its copy on the right;
  -- the right has rounds left when the left is done.
  induction n generalizing c d k with
  | zero => omega
  | succ n ih =>
    obtain ⟨ts, hc, hrest, hends⟩ := id hd
    have hle := c.skipSeparators_le
    by_cases hnil : c.skipSeparators.rest = []
    · -- Nothing but separators is left, on both sides of which what follows is read.
      have hkinds : ∀ t ∈ ts, t.kind ∈ [TokenKind.newline, .symbol .colon] := fun t ht =>
        Cursor.kinds_of_skip_eq_nil hnil t (by rw [hc]; exact List.mem_append_left _ ht)
      have hkinds' : ∀ t ∈ ts.map m.copy.token, t.kind ∈ [TokenKind.newline, .symbol .colon] := by
        simpa using hkinds
      obtain ⟨last, hlast⟩ := Cursor.skip_append d.last hkinds' m.tail'
      refine ⟨last, k, ?_, ?_⟩
      · rw [hrest, List.length_append] at hk
        omega
      · rw [readStatements_of_skip (d := ⟨last, m.tail'⟩)
          (by rw [Cursor.skipSeparators, hrest, hlast]; rfl)]
        simp [readStatements, hnil, Reading.done, copyBody]
    · have hsuffix : m.tail <:+ c.skipSeparators.rest := by
        rw [htail]
        have hskip : c.skipSeparators.rest <:+ ts ++ [nl] := by
          rw [← htail, ← hc]
          exact Cursor.skip_suffix _ c.last c.rest
        exact suffix_singleton hskip hnil
      obtain ⟨d₁, hd₁, hmeets⟩ := (Mirrors.skipSeparators c).ok rfl hd hsuffix
      obtain rfl : d.skipSeparators = d₁ := by cases hd₁; rfl
      obtain ⟨us, hus, hus', -⟩ := id hmeets
      have hempty : d.skipSeparators.rest ≠ [] := by
        intro hnil'
        rw [hus', List.append_eq_nil_iff, List.map_eq_nil_iff] at hnil'
        rw [hnil'.1, htail] at hus
        have hskip := Cursor.skip_kind? [.newline, .symbol .colon] c.last c.rest .newline (by simp)
        apply hskip
        show c.skipSeparators.rest.head?.map Token.kind = _
        rw [hus]
        exact congrArg some hnl.1
      obtain ⟨k, rfl⟩ : ∃ k', k = k' + 1 := ⟨k - 1, by omega⟩
      simp only [readStatements, List.isEmpty_iff, hnil, hempty, if_false] at h ⊢
      cases hw : wholeStatement self c.skipSeparators with
      | error e c₁ => simp [hw, Reading.addError] at h
      | ok s c₁ =>
        have hwhole := wholeStatement_mirrors hm c.skipSeparators
        have hend : m.tail <:+ c₁.rest := by
          rw [htail] at hus ⊢
          exact suffix_singleton (hus ▸ hwhole.forward hw)
            (wholeStatement_ne_nil hs hus hnl.1 hnl.2 hw)
        obtain ⟨d₂, hq, hd₂⟩ := hwhole.ok hw hmeets hend
        have hlt := wholeStatement_lt hs hw
        have hlt' := wholeStatement_lt hs hq
        have hle' := d.skipSeparators_le
        simp only [hw, Reading.addStatement] at h
        obtain ⟨last, k', hk', hread⟩ := ih hd₂ (by omega) (show d₂.rest.length < k by omega) h
        refine ⟨last, k', hk', ?_⟩
        simp only [hq, hread, Reading.addStatement, Copy.body, copyBody, List.cons_append]

end BrightCoverage
