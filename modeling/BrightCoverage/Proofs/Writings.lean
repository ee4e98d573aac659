import BrightCoverage.Proofs.RoundTrip
import BrightCoverage.Proofs.Wording

/-! Statements that are not written canonically: with blank lines between them, with the `then` of a
block left out, with an `if` on one line. `Writes` and `WritesBody` say that lexemes are read as given
statements; what is written canonically is so, and there is one lemma for each of the other layouts. -/

namespace BrightCoverage

variable {s : Statement Extent} {body : List (Statement Extent)} {condition : Expr Extent}
  {ls ms : List Lexeme}

def Writes (s : Statement Extent) (ls : List Lexeme) : Prop :=
  ∀ ts rest, Printed ls ts rest → kindOf rest = some .newline →
    Opens ts ∧ Spells Plain (.statement s) ts rest

/-- The lexemes are read as the statements, wherever a list of statements may end behind them. -/
def WritesBody (body : List (Statement Extent)) (ls : List Lexeme) : Prop :=
  ∀ stop ts rest, Printed ls ts rest → Stop.Ends stop rest → Spells Plain (.block stop body) ts rest

theorem Node.Fine.writes (h : (Node.statement s).Fine) : Writes s s.render :=
  h.rendered

theorem Opens.atBlockForm {ts : List Token} (h : Opens ts) : (Cursor.ofTokens ts).atBlockForm = false := by
  obtain ⟨t, us, rfl⟩ := List.exists_cons_of_ne_nil h.ne_nil
  have hnl : t.kind ≠ .newline := fun hk => h.apart .newline (by simp) (kindOf_cons hk)
  have hcolon : t.kind ≠ .symbol .colon := fun hk =>
    h.apart (.symbol .colon) (by simp) (kindOf_cons hk)
  have hkind : (Cursor.ofTokens (t :: us)).kind? = some t.kind := rfl
  rw [Cursor.atBlockForm, hkind]
  grind

namespace WritesBody

theorem nil : WritesBody [] [] := by
  intro stop ts rest h hend
  obtain rfl := printed_nil.1 h
  exact Form.blockNil.spells (.skip_none hend.apart (.ahead hend.atEnd .nil))

theorem blank (h : WritesBody body ls) : WritesBody body (.newline :: ls) := by
  intro stop ts rest hp hend
  obtain ⟨t, us, rfl, ht, -, hp⟩ := printed_cons.1 hp
  exact (h stop us rest hp hend).newline_block ht

theorem line (hs : Writes s ls) (h : WritesBody body ms) :
    WritesBody (s :: body) (ls ++ .newline :: ms) := by
  intro stop ts rest hp hend
  obtain ⟨mid, hfirst, hp⟩ := printed_append.1 hp
  obtain ⟨t, us, rfl, ht, -⟩ := printed_cons.1 hp
  have hnl : kindOf (t :: us) = some .newline := kindOf_cons ht
  obtain ⟨hopens, hspells⟩ := hs ts (t :: us) hfirst hnl
  have hbody := h.blank stop (t :: us) rest hp hend
  exact Form.blockCons.spells (.skip_none hopens.apart (.ahead ⟨hopens.ne_nil, hopens.inside stop⟩
    (.phrase hspells (.ahead (atStatementEnd_of_newline hnl) (.phrase hbody .nil)))))

end WritesBody

namespace Writes

theorem block (here : Extent) (hc : (Node.expression condition).Fine) (h : WritesBody body ls) :
    Writes (.branch here condition body [] none) (.keyword .ifKw ::
      (condition.render ++ .newline :: (ls ++ [.keyword .endKw, .keyword .ifKw]))) := by
  intro ts rest hp hrest
  refine hp.statement_of_keyword (by decide) Form.blockBranch trivial fun us hp => ?_
  obtain ⟨nl, vs, hvalue, hnl, hp⟩ := hp.value_cons hc.rendered (by decide)
  obtain ⟨ws, hbody, hclose⟩ := printed_append.1 hp
  obtain ⟨hlast, hends, hnoElseIf⟩ := @Printed.elseBranch ws rest none hclose nofun
  have hkind : (Cursor.ofTokens (nl :: vs)).kind? = some .newline := kindOf_cons hnl
  have hthen : Spells Plain (.accepted (.keyword .thenKw)) (nl :: vs) (nl :: vs) :=
    Form.omitted.spells (.ahead (by simp [kindOf_cons hnl, Lexeme.kind]) .nil)
  have hclauses : Spells Plain (.elseIfs []) ws ws := Form.elseIfsNil.spells (.ahead hnoElseIf .nil)
  have hform : (Cursor.ofTokens (nl :: vs)).atBlockForm = true := by
    simp [Cursor.atBlockForm, hkind]
  exact .phrase hvalue (.phrase hthen (.ahead hform (.phrase
    ((h .branch vs ws hbody hends).newline_block hnl) (.phrase hclauses hlast))))

theorem inline (here : Extent) (hc : (Node.expression condition).Fine) (hs : Writes s ls) :
    Writes (.branch here condition [s] [] none)
      (.keyword .ifKw :: (condition.render ++ .keyword .thenKw :: ls)) := by
  intro ts rest hp hrest
  refine hp.statement_of_keyword (by decide) Form.inlineBranch trivial fun us hp => ?_
  obtain ⟨t, vs, hvalue, ht, hp⟩ := hp.value_cons hc.rendered (by decide)
  obtain ⟨hopens, hspells⟩ := hs vs rest hp hrest
  have hmore : Spells Plain (.inlineMore []) rest rest :=
    Form.inlineNil.spells (.ahead (by simp [hrest]) .nil)
  have helse : Spells Plain (.inlineElse none) rest rest :=
    Form.noElse.spells (.ahead (by simp [hrest]) .nil)
  have hbody : Spells Plain (.inline [s]) vs rest :=
    Form.inline.spells (.phrase hspells (.phrase hmore .nil))
  exact .phrase hvalue (.token ht trivial (.ahead hopens.atBlockForm (.phrase hbody
    (.phrase helse .nil))))

theorem procedure (here : Extent) {name : String} {keyword : ProcedureKind}
    {params : List (Parameter Extent)} {returns : Option String} (hname : Name name)
    (hfine : (Procedure.mk keyword params returns body).Fine)
    (hd : ∀ p ∈ params, ∀ e ∈ p.default, (Node.expression e).Fine) (h : WritesBody body ls) :
    Writes (.procedure here name (.mk keyword params returns body))
      (.keyword keyword.word :: .word name :: .symbol .leftParen ::
        (commas (renderParameters params) ++ .symbol .rightParen ::
          (renderName? (.keyword .asKw) returns ++ .newline ::
            (ls ++ [.keyword .endKw, .keyword keyword.word])))) := by
  intro ts rest hp hrest
  have hword : .keyword keyword.word ∉ enders ++ [.keyword .endKw, .directive] := by
    cases keyword <;> decide
  refine hp.statement_of_keyword hword Form.namedProcedure trivial fun us hp => ?_
  obtain ⟨t₁, _, rfl, ht₁, htext, hp⟩ := hp.name hname
  obtain ⟨t₂, us, rfl, ht₂, -, hp⟩ := printed_cons.1 hp
  obtain ⟨_, hparams, hp⟩ := printed_append.1 hp
  obtain ⟨t₃, vs, rfl, ht₃, -, hp⟩ := printed_cons.1 hp
  obtain ⟨_, hreturns, hp⟩ := printed_append.1 hp
  obtain ⟨nl, ws, rfl, hnl, -, hp⟩ := printed_cons.1 hp
  obtain ⟨xs, hbody, hclose⟩ := printed_append.1 hp
  obtain ⟨hclose, hends, -⟩ := hclose.close (Block.opener?_procedure keyword)
  obtain ⟨hreturns, -⟩ := hreturns.name? hfine.2 (kindOf_cons hnl) (by decide)
  have hlist := hparams.parameters hfine.1 (fun p hmem e he => (hd p hmem e he).rendered)
    (kindOf_cons ht₃)
  have hlines := (h (.block (.procedure keyword)) ws xs hbody hends).newline_block hnl
  exact .token ht₁ htext (.phrase (Form.procedure.spells (.token ht₂ trivial (.phrase hlist
    (.token ht₃ trivial (.phrase hreturns (.phrase hlines (.phrase hclose .nil))))))) .nil)

end Writes

theorem Stop.ends_never : Stop.never.Ends [] :=
  ⟨.inl rfl, by simp [Unseparated, kindOf]⟩

theorem Printed.program {ts : List Token} (hp : Printed ls ts [])
    (h : Spells Plain (.block .never body) ts []) :
    ∃ program, parseTokens ts = .ok program ∧ shapes program = shapes body :=
  parseTokens_of_spells h fun t ht => (hp.kind_ne_unknown t ht).resolve_left List.not_mem_nil

/-- A text whose tokens are those of some statements is read as these. -/
theorem parse_of_wording {source : Text} (h : WritesBody body ls)
    (hwording : wording source = ls.map Lexeme.face) :
    ∃ program, parse source = .ok program ∧ shapes program = shapes body := by
  have hp : Printed ls (lex source) [] := printed_of_map_eq ((map_lex source).trans hwording)
  exact hp.program (h .never (lex source) [] hp Stop.ends_never)

theorem Statement.eq_procedure_of_shape {α : Type} {s : Statement α} {name : String}
    {decl : Procedure Unit} (h : s.shape = .procedure () name decl) :
    ∃ here decl', s = .procedure here name decl' ∧ decl'.map (fun _ => ()) = decl := by
  cases s with
  | procedure here name' decl' =>
    rw [shape, Statement.map, Statement.procedure.injEq] at h
    obtain ⟨-, rfl, hdecl⟩ := h
    exact ⟨here, decl', rfl, hdecl⟩
  | _ => cases h

theorem Statement.eq_call_of_shape {α : Type} {s : Statement α} {value : Expr Unit}
    (h : s.shape = .call () value) : ∃ here e, s = .call here e ∧ e.shape = value := by
  cases s with
  | call here e => exact ⟨here, e, rfl, (Statement.call.inj h).2⟩
  | _ => cases h

theorem eq_singleton_of_shapes {α β : Type} {program : List (Statement α)} {s : Statement β}
    (h : shapes program = shapes [s]) : ∃ s', program = [s'] ∧ s'.shape = s.shape := by
  match program with
  | [] => cases h
  | [s'] => exact ⟨s', rfl, (List.cons.inj h).1⟩
  | _ :: _ :: _ => cases (List.cons.inj h).2

end BrightCoverage
