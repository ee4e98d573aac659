import BrightCoverage.Proofs.RenderedLines

/-! What an instrumented text says. Line by line it says what the text said before, with what the
owners of the lines put around their tokens. -/

namespace BrightCoverage

variable {r : Reporter} {source : Text} {program : List (Statement Extent)} {n : Nat}
  {before its after : List Item} {t : Token}

/-- Every statement that owns its line as code is the first on it. -/
def LeadsLines (source : Text) (owners : Ownership) : Prop :=
  ∀ line s, owners.get? line = some (.statement s) → s.isCode = true →
    ∀ t ∈ lex source, t.extent.startLine = line → s.here.span.start ≤ t.span.start

/-- No REM comment stands between the keyword of an `if` that owns its line and the condition. -/
def Unremarked (source : Text) (owners : Ownership) : Prop :=
  ∀ line here condition thenBody elseIfs elseBody,
    owners.get? line = some (.statement (.branch here condition thenBody elseIfs elseBody)) →
    ∀ span ∈ remarks source, ¬ (here.span.start ≤ span.start ∧ span.start < condition.here.span.start)

/-- Owners of lines of a program, perhaps not of all that have one. -/
def Ownership.OwnersOf (owners : Ownership) (program : List (Statement Extent)) : Prop :=
  ∀ line o, owners.get? line = some o → (classify program).get? line = some o

theorem ownersOf_classify (program : List (Statement Extent)) : (classify program).OwnersOf program :=
  fun _ _ h => h

theorem claim_cases {s : Statement Extent} (hc : .claim n (.statement s) ∈ visitAll program) :
    s.isCode = true ∨ ∃ here condition thenBody elseIfs elseBody,
      s = .branch here condition thenBody elseIfs elseBody := by
  obtain ⟨s₀, -, hc⟩ := mem_visitAll.1 hc
  have hclaims := (Statement.below_of_claim hc).2.2
  cases s
  case branch => exact .inr ⟨_, _, _, _, _, rfl⟩
  all_goals exact .inl hclaims

/-! ### Line by line -/

def renderFrom (r : Reporter) (owners : Ownership) (n : Nat) (rest : List Item) : Text :=
  unlines (((cutAt '\n' (Item.join rest)).map dropReturn).mapIdx fun i line =>
    (renderLine r (n + i) line (owners.get? (n + i))).text)

theorem instrument_text (owners : Ownership) :
    (instrument r owners source).text = renderFrom r owners 0 (items source) := by
  have htexts : (renderLines r owners source).map RenderedLine.text
      = (splitLines source).mapIdx fun i line =>
        (renderLine r (0 + i) line (owners.get? (0 + i))).text :=
    List.ext_getElem? fun i => by simp [renderLines, Function.comp_def]
  rw [instrument, htexts, renderFrom, join_items]
  rfl

theorem IsLine.renderFrom_last (hline : IsLine source n before its []) (owners : Ownership) :
    renderFrom r owners n its
      = (renderLine r n (dropReturn (Item.join its)) (owners.get? n)).text ++ ['\n'] := by
  rw [renderFrom, cutAt_of_notMem hline.notMem]
  simp [unlines]

theorem IsLine.renderFrom_break (hline : IsLine source n before its (.lineBreak :: after))
    (owners : Ownership) : renderFrom r owners n (its ++ .lineBreak :: after)
      = (renderLine r n (dropReturn (Item.join its)) (owners.get? n)).text
        ++ '\n' :: renderFrom r owners (n + 1) after := by
  have hjoin : Item.join (its ++ .lineBreak :: after) = Item.join its ++ '\n' :: Item.join after := by
    rw [Item.join_append, Item.join_cons]
    rfl
  rw [renderFrom, hjoin, cutAt_append, cutAt_of_notMem hline.notMem, List.singleton_append,
    List.map_cons, List.mapIdx_cons, unlines, List.flatMap_cons, ← unlines, List.append_assoc,
    List.singleton_append, renderFrom]
  simp only [Nat.add_zero, Nat.add_assoc, Nat.add_comm 1]

theorem place_lineBreak (m : Mark) : place (m.advance (Item.join before)) (its ++ .lineBreak :: after)
    = place (m.advance (Item.join before)) its
      ++ (place (m.advance (Item.join (before ++ its))) [.lineBreak]
        ++ place (m.advance (Item.join (before ++ its ++ [.lineBreak]))) after) := by
  rw [← List.singleton_append (l := after)]
  simp only [place_append, Item.join_append, Mark.advance_append]

theorem items_lines {motive : List Item → List Item → Nat → Prop}
    (last : ∀ before its n, IsLine source n before its [] → motive before its n)
    (line : ∀ before its rest n, IsLine source n before its (.lineBreak :: rest) →
      motive (before ++ its ++ [.lineBreak]) rest (n + 1) →
      motive before (its ++ .lineBreak :: rest) n) : motive [] (items source) 0 := by
  have hfrom : ∀ (size : Nat) (before rest : List Item) (n : Nat), rest.length = size →
      items source = before ++ rest → (before = [] ∨ ∃ rest, before = rest ++ [.lineBreak]) →
      (Mark.origin.advance (Item.join before)).position = ⟨n + 1, 0⟩ → motive before rest n := by
    intro size
    -- Induction on the items; each step takes those of a line and the line break behind it.
    induction size using Nat.strongRecOn with
    | _ size ih =>
      intro before rest n hlength hsplit hstarts hnumber
      have hbreak : ∀ it ∈ rest, it.kind = some .newline → it = .lineBreak := by
        rintro ⟨kind, text⟩ hit rfl
        have hclean := items_clean source _ (by rw [hsplit]; exact List.mem_append_right _ hit)
        rw [Item.Clean, if_pos rfl] at hclean
        exact congrArg _ hclean
      by_cases hmem : Item.lineBreak ∈ rest
      · obtain ⟨its, rest', rfl, hits⟩ := List.eq_append_cons_of_mem hmem
        have hline : IsLine source n before its (.lineBreak :: rest') :=
          ⟨by rw [hsplit, List.append_assoc], hstarts, hnumber, fun it hit hk =>
            hits (hbreak it (List.mem_append_left _ hit) hk ▸ hit), .inr ⟨rest', rfl⟩⟩
        have hless : rest'.length < size := by
          rw [← hlength, List.length_append, List.length_cons]
          exact Nat.lt_add_left _ (Nat.lt_succ_self _)
        have hsplit' : items source = (before ++ its ++ [.lineBreak]) ++ rest' := by
          rw [hsplit]
          simp
        exact line before its rest' n hline (ih rest'.length hless _ rest' (n + 1) rfl hsplit'
          (.inr ⟨_, rfl⟩) (by rw [position_lineBreak, hline.end_position]))
      · exact last before rest n ⟨by rw [hsplit, List.append_nil], hstarts, hnumber, fun it hit hk =>
          hmem (hbreak it hit hk ▸ hit), .inl rfl⟩
  exact hfrom _ [] (items source) 0 rfl rfl (.inl rfl) rfl

section Owners

variable (h : parse source = .ok program)
include h

theorem owner_guard {here : Extent} {condition : Expr Extent} {thenBody : List (Statement Extent)}
    {elseIfs : List (ElseIf Extent)} {elseBody : Option (List (Statement Extent))}
    (howner : (classify program).get? n
      = some (.statement (.branch here condition thenBody elseIfs elseBody))) :
    ∃ front keyword tokens back first last,
      Guard (lex source) here condition.here front keyword tokens back first last ∧
        keyword.extent.startLine = n := by
  have hc := claim_of_classify howner
  obtain ⟨front, keyword, tokens, back, first, last, g⟩ := claim_guard h hc
  obtain ⟨t, ht, -, hstart, hline⟩ := claim_token h hc
  obtain rfl := (lex_ordered source).eq_of_start ht g.keyword_mem (hstart.trans g.starts)
  exact ⟨_, _, _, _, _, _, g, hline⟩

variable {owners : Ownership} (howners : owners.OwnersOf program)
include howners

theorem newline_alone (ht : t ∈ lex source) (hk : t.kind = .newline) :
    owners.leading r t = [] ∧ owners.trailing t = [] := by
  have hordered := lex_ordered source
  cases howner : owners.get? t.extent.startLine with
  | none => simp [Ownership.leading, Ownership.trailing, howner]
  | some owner =>
    cases owner with
    | elseIf => simp [Ownership.leading, Ownership.trailing, howner]
    | statement s =>
      have hc := claim_of_classify (howners _ _ howner)
      rcases claim_cases hc with hs | ⟨here, condition, thenBody, elseIfs, elseBody, rfl⟩
      · obtain ⟨hlead, htrail⟩ := Ownership.leading_code (r := r) howner hs
        obtain ⟨t', ht', hk', hstart, -⟩ := claim_token h hc
        refine ⟨hlead.trans (if_neg fun heq => hk' ?_), htrail⟩
        rw [hordered.eq_of_start ht' ht (hstart.trans heq.symm), hk]
      · obtain ⟨_, _, _, _, first, last, g, -⟩ := owner_guard h (howners _ _ howner)
        obtain ⟨hlead, htrail⟩ := Ownership.leading_branch (r := r) howner
        refine ⟨hlead.trans (if_neg fun ⟨_, heq⟩ => g.opens ?_),
          htrail.trans (if_neg fun ⟨_, heq⟩ => g.last_kind ?_)⟩
        · rw [g.covers] at heq
          rw [← hordered.eq_of_start ht (g.mem_of_tokens (List.mem_of_head? g.head)) heq, hk]
        · rw [g.covers] at heq
          rw [← hordered.eq_of_stop ht g.last_mem heq, hk]
          decide

theorem IsLine.senses_rendered (hline : IsLine source n before its after)
    (hr : IsPlain r.stem.toList) (hleads : LeadsLines source owners)
    (hremarks : Unremarked source owners) (u : Text) :
    (wording ((renderLine r n (dropReturn (Item.join its)) (owners.get? n)).text
        ++ '\n' :: u)).map sense
      = (place (Mark.origin.advance (Item.join before)) its).flatMap (owners.senses r)
        ++ (wording ('\n' :: u)).map sense := by
  have hknown := (complete_of_parse h).known
  cases howner : owners.get? n with
  | none =>
    refine hline.senses_plain hknown (fun t _ htn => ?_) u
    simp [Ownership.leading, Ownership.trailing, htn, howner]
  | some owner =>
    cases owner with
    | elseIf =>
      refine hline.senses_plain hknown (fun t _ htn => ?_) u
      simp [Ownership.leading, Ownership.trailing, htn, howner]
    | statement s =>
      have hc := claim_of_classify (howners _ _ howner)
      rcases claim_cases hc with hs | ⟨here, condition, thenBody, elseIfs, elseBody, rfl⟩
      · obtain ⟨t, ht, hk, hstart, htn⟩ := claim_token h hc
        rw [renderLine_code hs]
        exact hline.senses_code hknown hr howner hs ht hk hstart htn (hleads n s howner hs) u
      · have hbranch : ∀ t ∈ lex source, t.extent.startLine = n → _ := fun t _ htn =>
          Ownership.leading_branch (r := r) (htn ▸ howner)
        show (wording ((renderCondition r n _ condition.here.location).text ++ '\n' :: u)).map sense = _
        cases hsingle : condition.here.location.isSingleLine with
        | false =>
          have htext : (renderCondition r n (dropReturn (Item.join its)) condition.here.location).text
              = dropReturn (Item.join its) := by
            simp [renderCondition, hsingle]
          rw [htext]
          refine hline.senses_plain hknown (fun t ht htn => ?_) u
          simpa [hsingle] using hbranch t ht htn
        | true =>
          obtain ⟨_, _, _, _, _, _, g, hn⟩ := owner_guard h (howners _ _ howner)
          refine g.senses_condition hline hknown hr hsingle hn
            (hremarks n here condition thenBody elseIfs elseBody howner) (fun t ht htn => ?_) u
          simpa [hsingle, htn] using hbranch t ht htn

theorem IsLine.senses_lineBreak (hline : IsLine source n before its (.lineBreak :: after)) :
    (place (Mark.origin.advance (Item.join (before ++ its))) [.lineBreak]).flatMap
      (owners.senses r) = [sense (.newline, "\n")] := by
  refine (Ownership.senses_eq fun t ht => newline_alone h howners ?_ ?_).trans rfl
  · rw [hline.lex_eq, ← List.singleton_append (l := after), place_append]
    exact List.mem_append_right _ (List.mem_append_left _ ht)
  · rw [List.mem_singleton.1 ht]

/-- The instrumented text says what the text said, with what the owners of its lines put around its
tokens, and ends with a line break. -/
theorem senses_instrument (hr : IsPlain r.stem.toList) (hleads : LeadsLines source owners)
    (hremarks : Unremarked source owners) :
    (wording (instrument r owners source).text).map sense
      = (lex source).flatMap (owners.senses r) ++ [sense (.newline, "\n")] := by
  rw [instrument_text, lex_eq_place]
  refine items_lines (motive := fun before rest n => (wording (renderFrom r owners n rest)).map sense
    = (place (Mark.origin.advance (Item.join before)) rest).flatMap (owners.senses r)
      ++ [sense (.newline, "\n")]) (fun before its n hline => ?_) fun before its rest n hline ih => ?_
  · have hrendered := hline.senses_rendered h howners hr hleads hremarks []
    rwa [wording_newline, wording_nil, ← hline.renderFrom_last] at hrendered
  · rw [hline.renderFrom_break, hline.senses_rendered h howners hr hleads hremarks, wording_newline,
      List.map_cons, ih, place_lineBreak, List.flatMap_append, List.flatMap_append,
      hline.senses_lineBreak h howners]
    simp

end Owners

end BrightCoverage
