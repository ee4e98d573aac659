import BrightCoverage.Proofs.LineTokens
import BrightCoverage.Proofs.ReadingBack

/-! String literals and the texts that they denote. Doubling the quotes of a text and putting one more
at each end gives a literal that is cut off in front of everything but another quote, and reading it
gives the text again. No other text is cut off as a literal, so every text has exactly one. -/

namespace BrightCoverage

theorem Rule.string_pattern : ∀ rule ∈ all, rule.kind = some .string → rule.pattern = string := by
  decide

theorem items_string (text : Text) :
    ∀ it ∈ items text, it.kind = some .string → ∃ v, it.text = quote v ∧ '\n' ∉ v := by
  refine forall_items (fun text _ hk => ?_) text
  rcases nextItem_spec text with ⟨rule, n, -, hfirst, -, hn⟩ | ⟨-, hn⟩
  · obtain ⟨hr, hm⟩ := Rule.first?_some hfirst
    rw [hn] at hk ⊢
    rw [Rule.string_pattern rule hr hk] at hm
    exact Rule.matches_string.1 hm
  · rw [hn] at hk
    cases hk

theorem unquoteText_ofList_quote (v : Text) :
    unquoteText (String.ofList (quote v)) = String.ofList v := by
  have h := unquoteText_quote (String.ofList v)
  rwa [String.toList_ofList] at h

theorem quote_unquoteText {source : Text} {t : Token} (ht : t ∈ lex source)
    (hk : t.kind = .string) : String.ofList (quote (unquoteText t.text).toList) = t.text := by
  rw [lex_eq_place] at ht
  obtain ⟨it, hit, hkind, htext⟩ := exists_item_of_mem_place ht
  obtain ⟨v, hv, -⟩ := items_string source it hit (hkind.trans (congrArg some hk))
  rw [← htext, hv, unquoteText_ofList_quote, String.toList_ofList]

/-- The literal of a text without a line break is read as one token, unless one more quote follows,
and denotes the text. Every literal of a source is the one of the text that it denotes, so literals
that denote the same text are the same. -/
theorem stringLiteral_roundTrip :
    (∀ v rest : Text, '\n' ∉ v → rest.head? ≠ some '"' →
      lex (quote v ++ rest)
        = ⟨.string, String.ofList (quote v), Mark.origin.extentTo (Mark.origin.advance (quote v))⟩
          :: place (Mark.origin.advance (quote v)) (items rest) ∧
      unquoteText (String.ofList (quote v)) = String.ofList v) ∧
    (∀ source : Text, ∀ t ∈ lex source, t.kind = .string →
      String.ofList (quote (unquoteText t.text).toList) = t.text) ∧
    ∀ source source' : Text, ∀ t ∈ lex source, ∀ t' ∈ lex source', t.kind = .string →
      t'.kind = .string → unquoteText t.text = unquoteText t'.text → t.text = t'.text := by
  refine ⟨fun v rest hv hrest => ⟨?_, unquoteText_ofList_quote v⟩,
    fun source t ht hk => quote_unquoteText ht hk, fun source source' t ht t' ht' hk hk' h => ?_⟩
  · have hitems : items (quote v ++ rest) = ⟨some .string, quote v⟩ :: items rest :=
      (Item.before_string hv hrest).items_append
    rw [lex_eq_place, hitems, place]
  · calc t.text = String.ofList (quote (unquoteText t.text).toList) := (quote_unquoteText ht hk).symm
      _ = String.ofList (quote (unquoteText t'.text).toList) := by rw [h]
      _ = t'.text := quote_unquoteText ht' hk'

/-- A text that is nothing but a quote, in front of an operator. -/
theorem stringLiteral_roundTrip_lone :
    '\n' ∉ ['"'] ∧ "+x".toList.head? ≠ some '"' ∧ quote ['"'] = "\"\"\"\"".toList ∧
      (lex (quote ['"'] ++ "+x".toList)).head? = some ⟨.string, "\"\"\"\"",
        Mark.origin.extentTo (Mark.origin.advance (quote ['"']))⟩ ∧
      unquoteText "\"\"\"\"" = "\"" := by
  obtain ⟨hlex, hvalue⟩ := stringLiteral_roundTrip.1 ['"'] "+x".toList (by decide) (by decide)
  exact ⟨by decide, by decide, by decide, by rw [hlex]; rfl, hvalue⟩

end BrightCoverage
