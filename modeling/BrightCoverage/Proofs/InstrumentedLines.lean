import BrightCoverage.Proofs.EmittedMaps
import BrightCoverage.Proofs.InstrumentedText
import BrightCoverage.Proofs.LineEndings
import BrightCoverage.Proofs.SessionHistory

/-! The lines of an instrumented text. There are as many as before, and each differs from what it was
by the call of its owner and nothing else. The map of the coverage has a line if and only if the line
has an owner. -/

namespace BrightCoverage

variable {r : Reporter} {source : Text} {program : List (Statement Extent)} {n : Nat}

/-! ### Where the calls are put -/

/-- The part of a text that an extent covers. -/
def Extent.Covers (source : Text) (here : Extent) (text : Text) : Prop :=
  ∃ before after, source = before ++ (text ++ after) ∧ byteLength before = here.span.start ∧
    byteLength (before ++ text) = here.span.stop

/-- How a line of a text is written, by its owner. The line of an `if` has its call around the condition,
which stands where its columns say. -/
inductive Rewritten (r : Reporter) (source : Text) (n : Nat) (line : Text) : Option Owner → Text → Prop
  | unowned : Rewritten r source n line none line
  | header {clause : ElseIf Extent} : Rewritten r source n line (some (.elseIf clause)) line
  | spread {here : Extent} {condition : Expr Extent} {thenBody : List (Statement Extent)}
    {elseIfs : List (ElseIf Extent)} {elseBody : Option (List (Statement Extent))} :
    condition.here.location.isSingleLine = false →
    Rewritten r source n line
      (some (.statement (.branch here condition thenBody elseIfs elseBody))) line
  | around {here : Extent} {condition : Expr Extent} {thenBody : List (Statement Extent)}
    {elseIfs : List (ElseIf Extent)} {elseBody : Option (List (Statement Extent))}
    {before text after : Text} :
    condition.here.location.isSingleLine = true → line = before ++ (text ++ after) →
    condition.here.location.start.column = byteLength before →
    condition.here.location.stop.column = byteLength (before ++ text) →
    condition.here.Covers source text →
    Rewritten r source n line (some (.statement (.branch here condition thenBody elseIfs elseBody)))
      (before ++ ((" " ++ r.call n .condition ++ " and (").toList ++ (text ++ (") ".toList ++ after))))
  | code {s : Statement Extent} : s.isCode = true →
    Rewritten r source n line (some (.statement s)) ((r.call n .code ++ ": ").toList ++ line)

def Owner.kind : Owner → LineKind
  | .elseIf _ | .statement (.branch ..) => .condition
  | .statement _ => .code

/-! ### The lines of a text by their items -/

theorem IsLine.behind {l rest : Text} {before its after : List Item} (hl : '\n' ∉ l)
    (h : IsLine rest n before its after) :
    IsLine (l ++ '\n' :: rest) (n + 1) (items l ++ .lineBreak :: before) its after where
  split := by rw [items_append_newline, h.split]; simp
  starts := by
    rcases h.starts with rfl | ⟨front, rfl⟩
    · exact .inr ⟨_, rfl⟩
    · exact .inr ⟨items l ++ .lineBreak :: front, by simp⟩
  number := by
    have hjoin : Item.join (items l ++ .lineBreak :: before) = l ++ (['\n'] ++ Item.join before) := by
      rw [Item.join_append, join_items, Item.join_cons]
      rfl
    have hlength : (splitLines l).length = 1 := by
      rw [splitLines, cutAt_of_notMem hl]
      rfl
    rw [hjoin, Mark.advance_append, Mark.advance_append, Mark.advance_newline, Mark.shift_advance,
      hlength, Mark.shift, h.number]
    rfl
  inside := h.inside
  ends := h.ends

theorem exists_isLine {line : Text} (h : (cutAt '\n' source)[n]? = some line) :
    ∃ before its after, IsLine source n before its after ∧ Item.join its = line := by
  have hbreak : ∀ l : Text, '\n' ∉ l → ∀ it ∈ items l, it.kind ≠ some .newline := by
    intro l hl it hit hk
    have hclean := items_clean l it hit
    rw [Item.Clean, if_pos hk] at hclean
    refine hl ?_
    rw [← join_items l]
    exact List.mem_flatMap.2 ⟨it, hit, hclean ▸ List.mem_singleton_self _⟩
  induction source using lines_induction generalizing n with
  | last l hl =>
    rw [cutAt_of_notMem hl, List.getElem?_singleton] at h
    split at h
    · next hn =>
      subst hn
      exact ⟨[], items l, [], ⟨by simp, .inl rfl, rfl, hbreak l hl, .inl rfl⟩,
        (join_items l).trans (Option.some.inj h)⟩
    · cases h
  | line l rest hl ih =>
    rw [cutAt_append, cutAt_of_notMem hl] at h
    cases n with
    | zero =>
      exact ⟨[], items l, _, ⟨items_append_newline l rest, .inl rfl, rfl, hbreak l hl, .inr ⟨_, rfl⟩⟩,
        (join_items l).trans (Option.some.inj h)⟩
    | succ n =>
      obtain ⟨before, its, after, hline, hjoin⟩ := ih h
      exact ⟨_, its, after, hline.behind hl, hjoin⟩

/-! ### The line of a condition -/

theorem Parted.stop_offset {m : Mark} {its head gap middle tail : List Item} {keyword first last : Token}
    {tokens : List Token} (h : Parted m its keyword first last tokens head gap middle tail)
    (hlast : tokens.getLast? = some last) :
    last.span.stop = (m.advance (Item.join (head ++ gap ++ middle))).offset := by
  obtain ⟨front, ⟨kind, text⟩, rfl, rfl⟩ := h.closes
  rw [← h.covers, place_append, place, place, List.getLast?_concat] at hlast
  rw [← Option.some.inj hlast]
  simp [Token.span, Mark.extentTo, Item.join, Mark.advance_append]

/-- The condition of an `if` on its line and in the text. -/
theorem Guard.exists_cut {here condition : Extent} {front tokens back : List Token}
    {keyword first last : Token}
    (g : Guard (lex source) here condition front keyword tokens back first last)
    {before its after : List Item} (hline : IsLine source n before its after)
    (hknown : ∀ t ∈ lex source, t.kind ≠ .unknown ∧ t.kind ≠ .openString)
    (hsingle : condition.location.isSingleLine = true) (hn : keyword.extent.startLine = n) :
    ∃ u c v, dropReturn (Item.join its) = u ++ (c ++ v) ∧
      condition.location.start = ⟨n + 1, byteLength u⟩ ∧
      condition.location.stop.column = byteLength (u ++ c) ∧ condition.Covers source c := by
  obtain ⟨head, gap, middle, tail, hp⟩ := g.exists_parted hline hsingle hn
  obtain ⟨hstart, hstop⟩ := g.columns hline hp
  have hcut : Cut [] (head ++ gap ++ middle ++ tail) := hp.split ▸ hline.cut fun t ht => (hknown t ht).1
  refine ⟨Item.join (head ++ gap), Item.join middle, dropReturn (Item.join tail), ?_, hstart, hstop, ?_⟩
  · rw [hp.split]
    exact hcut.dropReturn_eq (g.firm hknown hp)
  · have hfrom := hp.starts.1
    have hto := hp.stop_offset g.getLast
    rw [← Mark.advance_append, Mark.offset_origin_advance] at hfrom hto
    refine ⟨Item.join before ++ Item.join (head ++ gap), Item.join tail ++ Item.join after, ?_, ?_, ?_⟩
    · rw [← join_items source, hline.split, hp.split]
      simp [Item.join_append]
    · rw [g.covers]
      exact hfrom.symm
    · rw [g.covers, List.append_assoc, ← Item.join_append]
      exact hto.symm

theorem rewritten_renderLine (h : parse source = .ok program) {line : Text}
    (hline : (splitLines source)[n]? = some line) :
    Rewritten r source n line ((classify program).get? n)
      (renderLine r n line ((classify program).get? n)).text := by
  rw [splitLines, List.getElem?_map, Option.map_eq_some_iff] at hline
  obtain ⟨raw, hraw, rfl⟩ := hline
  obtain ⟨before, its, after, hline, rfl⟩ := exists_isLine hraw
  cases howner : (classify program).get? n with
  | none => exact .unowned
  | some owner =>
    cases owner with
    | elseIf clause => exact .header
    | statement s =>
      rcases claim_cases (claim_of_classify howner) with
        hs | ⟨here, condition, thenBody, elseIfs, elseBody, rfl⟩
      · rw [renderLine_code hs]
        exact .code hs
      · show Rewritten r source n _ _ (renderCondition r n _ condition.here.location).text
        cases hsingle : condition.here.location.isSingleLine with
        | false =>
          have htext : (renderCondition r n (dropReturn (Item.join its)) condition.here.location).text
              = dropReturn (Item.join its) := by
            simp [renderCondition, hsingle]
          rw [htext]
          exact .spread hsingle
        | true =>
          obtain ⟨_, _, _, _, _, _, g, hn⟩ := owner_guard h howner
          obtain ⟨u, c, v, hcut, hstart, hstop, hcovers⟩ :=
            g.exists_cut hline (complete_of_parse h).known hsingle hn
          rw [hcut, renderCondition_text hsingle hstart hstop]
          exact .around hsingle rfl (by rw [hstart]) hstop hcovers

theorem newline_notMem_of_mem_splitLines {line : Text} (h : line ∈ splitLines source) : '\n' ∉ line := by
  obtain ⟨raw, hraw, rfl⟩ := List.mem_map.1 h
  have hnot := notMem_of_mem_cutAt hraw
  unfold dropReturn
  split
  · exact fun hmem => hnot (List.dropLast_subset raw hmem)
  · exact hnot

theorem newline_notMem_call (hr : '\n' ∉ r.stem.toList) (line : Nat) (kind : LineKind) :
    '\n' ∉ (r.call line kind).toList := by
  have hdigits : ∀ k, '\n' ∉ Nat.toDigits 10 k := fun k =>
    (isDecimal_toDigits k).unescaped.newline_notMem
  simp [Reporter.call, Reporter.functionName, hr, hdigits]

theorem Rewritten.newline_notMem {line text : Text} {owner : Option Owner}
    (h : Rewritten r source n line owner text) (hr : '\n' ∉ r.stem.toList) (hline : '\n' ∉ line) :
    '\n' ∉ text := by
  cases h with
  | unowned | header | spread => exact hline
  | around _ heq =>
    subst heq
    simp only [List.mem_append, not_or] at hline
    simp [hline, newline_notMem_call hr]
  | code => simp [hline, newline_notMem_call hr]

/-! ### The map of the coverage -/

theorem get?_record (coverage : Coverage) (line : Nat) (kind : LineKind) :
    (coverage.record line kind).get? n
      = if n = line ∧ kind ≠ .noCode then some kind else coverage.get? n := by
  unfold Coverage.record
  split
  · next hkind => simp [hkind]
  · next hkind =>
    rw [show (coverage.insert line kind).get? n = _ from Table.lookup_insertEntry coverage.entries]
    simp [hkind]
    rfl

theorem get?_ofLines {α : Type} (f : Nat → α → LineKind) (lines : List α) :
    (Coverage.ofLines (lines.mapIdx fun i line => (i, f i line))).get? n
      = (lines[n]?.map (f n)).filter (· ≠ .noCode) := by
  induction lines using List.reverseRecOn with
  | nil => rfl
  | append_singleton lines line ih =>
    have hstep : Coverage.ofLines ((lines ++ [line]).mapIdx fun i line => (i, f i line))
        = (Coverage.ofLines (lines.mapIdx fun i line => (i, f i line))).record lines.length
          (f lines.length line) := by
      rw [Coverage.ofLines, List.mapIdx_concat, List.foldl_append]
      rfl
    rw [hstep, get?_record, ih]
    rcases Nat.lt_trichotomy n lines.length with hlt | rfl | hgt
    · rw [if_neg (by omega), List.getElem?_append_left hlt]
    · rw [List.getElem?_eq_none (Nat.le_refl _), List.getElem?_concat_length]
      by_cases hkind : f lines.length line = .noCode <;> simp [hkind, Option.filter]
    · rw [if_neg (by omega), List.getElem?_eq_none hgt.le, List.getElem?_eq_none (by simp; omega)]

theorem renderLine_kind (line : Text) (owner : Option Owner) :
    (renderLine r n line owner).kind = owner.elim .noCode Owner.kind := by
  cases owner with
  | none => rfl
  | some owner =>
    cases owner with
    | elseIf => rfl
    | statement s =>
      cases s with
      | branch here condition thenBody elseIfs elseBody =>
        show (renderCondition r n line condition.here.location).kind = .condition
        unfold renderCondition
        split
        · dsimp only
          split <;> rfl
        · rfl
      | _ => rfl

theorem Owner.kind_ne_noCode (owner : Owner) : owner.kind ≠ .noCode := by
  cases owner with
  | elseIf => simp [kind]
  | statement s => cases s <;> simp [kind]

theorem line_lt_of_owner (h : parse source = .ok program) {owner : Owner}
    (howner : (classify program).get? n = some owner) : n < (splitLines source).length := by
  rw [get?_classify] at howner
  obtain ⟨hfirst, hlast⟩ := claimants_onLineOf h owner (List.mem_of_find?_eq_some howner)
  have hline : owner.here.startLine = n := by simpa using List.find?_some howner
  simp only [Extent.startLine, Position.lineIndex] at hline
  omega

theorem coverage_entries (h : parse source = .ok program) :
    (instrument r (classify program) source).coverage.entries
      = (classify program).entries.map fun entry => (entry.1, entry.2.kind) := by
  refine eq_of_lookup (Table.ascending _) (List.pairwise_map.2 (classify program).ascending) fun n => ?_
  have hmap : ((classify program).entries.map fun entry => (entry.1, entry.2.kind)).lookup n
      = ((classify program).get? n).map Owner.kind := lookup_shift (k := 0) Owner.kind
  have hkinds : (instrument r (classify program) source).coverage.get? n = _ :=
    get?_ofLines (fun _ => RenderedLine.kind) (renderLines r (classify program) source)
  rw [hmap]
  refine hkinds.trans ?_
  rw [renderLines, List.getElem?_mapIdx, Option.map_map]
  cases hline : (splitLines source)[n]? with
  | none =>
    cases howner : (classify program).get? n with
    | none => rfl
    | some owner =>
      have hlt := line_lt_of_owner h howner
      rw [List.getElem?_eq_getElem hlt] at hline
      cases hline
  | some line =>
    cases howner : (classify program).get? n with
    | none => rfl
    | some owner => simp [renderLine_kind, owner.kind_ne_noCode]

/-! ### The whole text -/

/-- An instrumented text has a line for each line of the text, ended by a line break, and the lines
differ by the calls of their owners alone. The coverage has exactly the lines with owners. -/
theorem instrument_frame (h : parse source = .ok program) (hr : '\n' ∉ r.stem.toList) :
    (∃ lines, (instrument r (classify program) source).text = unlines lines ∧
      lines.length = (splitLines source).length ∧ (∀ line ∈ lines, '\n' ∉ line) ∧
      ∀ n line, (splitLines source)[n]? = some line → ∃ text, lines[n]? = some text ∧
        Rewritten r source n line ((classify program).get? n) text) ∧
    (∀ entry ∈ (classify program).entries, entry.1 < (splitLines source).length) ∧
    (instrument r (classify program) source).coverage.entries
      = (classify program).entries.map (fun entry => (entry.1, entry.2.kind)) ∧
    ∀ entry ∈ (instrument r (classify program) source).coverage.entries, entry.2 ≠ .noCode := by
  have hlines : ∀ n line, (splitLines source)[n]? = some line →
      ∃ text, ((renderLines r (classify program) source).map RenderedLine.text)[n]? = some text ∧
        Rewritten r source n line ((classify program).get? n) text := by
    intro n line hline
    refine ⟨_, ?_, rewritten_renderLine h hline⟩
    rw [List.getElem?_map, renderLines, List.getElem?_mapIdx, hline]
    rfl
  refine ⟨⟨_, rfl, by simp [renderLines], fun text htext => ?_, hlines⟩, fun entry hentry => ?_,
    coverage_entries h, Coverage.dense_ofLines _⟩
  · obtain ⟨rendered, hrendered, rfl⟩ := List.mem_map.1 htext
    obtain ⟨n, hn, rfl⟩ := List.mem_mapIdx.1 hrendered
    exact (rewritten_renderLine h (List.getElem?_eq_getElem hn)).newline_notMem hr
      (newline_notMem_of_mem_splitLines (List.getElem_mem hn))
  · exact line_lt_of_owner h (lookup_of_mem (classify program).ascending hentry)

theorem instrument_frame_branch :
    let source := "if a then\nreturn\nend if".toList
    let r : Reporter := ⟨"RBS_CC", 0⟩
    let program : List (Statement Extent) := [.branch ⟨⟨0, 23⟩, ⟨⟨1, 0⟩, ⟨3, 6⟩⟩⟩
      (.identifier ⟨⟨3, 4⟩, ⟨⟨1, 3⟩, ⟨1, 4⟩⟩⟩ "a") [.giveBack ⟨⟨10, 16⟩, ⟨⟨2, 0⟩, ⟨2, 6⟩⟩⟩ none] [] none]
    parse source = .ok program ∧ '\n' ∉ r.stem.toList ∧
      (∃ lines, (instrument r (classify program) source).text = unlines lines ∧ lines.length = 3 ∧
        ∃ text, lines[0]? = some text ∧
          Rewritten r source 0 "if a then".toList ((classify program).get? 0) text) ∧
      (instrument r (classify program) source).coverage.entries = [(0, .condition), (1, .code)] := by
  intro source r program
  have h : parse source = .ok program := rfl
  have hr : '\n' ∉ r.stem.toList := by decide
  obtain ⟨⟨lines, htext, hlength, -, hlines⟩, -, hentries, -⟩ := instrument_frame h hr
  exact ⟨h, hr, ⟨lines, htext, hlength, hlines 0 _ rfl⟩, hentries⟩

/-! ### The columns of a condition -/

/-- If the condition of the `if` that owns a line stands on one line, it stands on that line and inside
of it: the columns cut the line into three parts, of which the middle one is the text of the condition,
and the call is put around that. -/
theorem condition_columns (h : parse source = .ok program) {here : Extent} {condition : Expr Extent}
    {thenBody : List (Statement Extent)} {elseIfs : List (ElseIf Extent)}
    {elseBody : Option (List (Statement Extent))}
    (howner : (classify program).get? n
      = some (.statement (.branch here condition thenBody elseIfs elseBody)))
    (hsingle : condition.here.location.isSingleLine = true) :
    ∃ line before text after, (splitLines source)[n]? = some line ∧
      condition.here.location.start.lineIndex = n ∧
      condition.here.location.start.column ≤ byteLength line ∧
      condition.here.location.stop.column ≤ byteLength line ∧
      cutBetween condition.here.location.start.column condition.here.location.stop.column line
        = some (before, text, after) ∧
      line = before ++ (text ++ after) ∧ condition.here.Covers source text ∧
      ∀ r : Reporter, renderCondition r n line condition.here.location = ⟨.condition,
        before ++ ((" " ++ r.call n .condition ++ " and (").toList ++ (text ++ (") ".toList ++ after))),
        []⟩ := by
  obtain ⟨raw, hraw⟩ : ∃ raw, (cutAt '\n' source)[n]? = some raw := by
    have hlt := line_lt_of_owner h howner
    rw [splitLines, List.length_map] at hlt
    exact ⟨_, List.getElem?_eq_getElem hlt⟩
  obtain ⟨front, its, back, hline, rfl⟩ := exists_isLine hraw
  obtain ⟨_, _, _, _, _, _, g, hn⟩ := owner_guard h howner
  obtain ⟨before, text, after, hcut, hstart, hstop, hcovers⟩ :=
    g.exists_cut hline (complete_of_parse h).known hsingle hn
  have hcolumn : condition.here.location.start.column = byteLength before := by rw [hstart]
  refine ⟨_, before, text, after, ?_, by rw [hstart]; rfl, ?_, ?_, ?_, hcut, hcovers, fun r => ?_⟩
  · rw [splitLines, List.getElem?_map, hraw]
    rfl
  · rw [hcut, hcolumn, byteLength_append]
    omega
  · rw [hcut, hstop, ← List.append_assoc, byteLength_append (before ++ text)]
    omega
  · rw [hcut, hcolumn, hstop, cutBetween_append]
  · rw [hcut, renderCondition_eq hsingle hstart hstop]

/-- A condition behind a character of two bytes, in a text whose lines end with CR LF. -/
theorem condition_columns_return :
    let source := "if \"é\" = a then\r\nstop\r\nend if".toList
    let condition : Expr Extent := .binary ⟨⟨3, 11⟩, ⟨⟨1, 3⟩, ⟨1, 11⟩⟩⟩ .equal
      (.string ⟨⟨3, 7⟩, ⟨⟨1, 3⟩, ⟨1, 7⟩⟩⟩ "é") (.identifier ⟨⟨10, 11⟩, ⟨⟨1, 10⟩, ⟨1, 11⟩⟩⟩ "a")
    let branch : Statement Extent := .branch ⟨⟨0, 30⟩, ⟨⟨1, 0⟩, ⟨3, 6⟩⟩⟩ condition
      [.stop ⟨⟨18, 22⟩, ⟨⟨2, 0⟩, ⟨2, 4⟩⟩⟩] [] none
    parse source = .ok [branch] ∧ (classify [branch]).get? 0 = some (.statement branch) ∧
      condition.here.location.isSingleLine = true ∧
      ∃ line before text after, (splitLines source)[0]? = some line ∧
        cutBetween 3 11 line = some (before, text, after) ∧ condition.here.Covers source text ∧
        ∀ r : Reporter, renderCondition r 0 line condition.here.location = ⟨.condition,
          before ++ ((" " ++ r.call 0 .condition ++ " and (").toList ++ (text ++ (") ".toList ++ after))),
          []⟩ := by
  intro source condition branch
  have h : parse source = .ok [branch] := rfl
  obtain ⟨line, before, text, after, hline, -, -, -, hcut, -, hcovers, hrender⟩ :=
    condition_columns h (n := 0) rfl rfl
  exact ⟨h, rfl, rfl, line, before, text, after, hline, hcut, hcovers, hrender⟩

end BrightCoverage
