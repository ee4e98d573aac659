import BrightCoverage.Proofs.Acceptance
import BrightCoverage.Proofs.Grouping
import BrightCoverage.Proofs.WovenTrees

/-! The tokens of the statements that own lines. An owner is a statement of the tree, so its tokens
are a part of the text; those of an `if` are its keyword, the tokens of its condition directly behind
it, and others. -/

namespace BrightCoverage

/-! ### Owners are statements of the tree -/

section Owners

variable {line : Nat} {v : Visit} {o : Owner} {s s' : Statement Extent}
  {body program : List (Statement Extent)}

theorem mem_entries_enter {owners : Ownership} (h : (line, o) ∈ (owners.enter v).entries) :
    v = .claim line o ∨ (line, o) ∈ owners.entries := by
  cases v with
  | passOver => exact .inr h
  | claim line' o' =>
    rw [Ownership.enter, Table.claim] at h
    split at h
    · exact .inr h
    · refine (mem_insertEntry h).imp_left fun heq => ?_
      cases heq
      rfl

theorem mem_entries_foldl {visits : List Visit} {owners : Ownership}
    (h : (line, o) ∈ (visits.foldl Ownership.enter owners).entries) :
    .claim line o ∈ visits ∨ (line, o) ∈ owners.entries := by
  induction visits generalizing owners with
  | nil => exact .inr h
  | cons v visits ih =>
    rcases ih h with hmem | hmem
    · exact .inl (List.mem_cons_of_mem _ hmem)
    · rcases mem_entries_enter hmem with rfl | hmem
      · exact .inl List.mem_cons_self
      · exact .inr hmem

theorem claim_of_classify (h : (classify program).get? line = some o) :
    .claim line o ∈ visitAll program := by
  obtain ⟨before, after, hentries, -⟩ := List.lookup_eq_some_iff.1 h
  have hmem : (line, o) ∈ (classify program).entries := by simp [hentries]
  exact (mem_entries_foldl hmem).resolve_right List.not_mem_nil

theorem mem_visitAll : v ∈ visitAll body ↔ ∃ s ∈ body, v ∈ s.visits := by
  induction body with
  | nil => simp [visitAll]
  | cons s body ih => simp [visitAll, ih]

theorem mem_visitOptional {body : Option (List (Statement Extent))} :
    v ∈ visitOptional body ↔ ∃ b ∈ body, v ∈ visitAll b := by
  cases body <;> simp [visitOptional]

theorem claim_mem_visitElseIfs {clauses : List (ElseIf Extent)} :
    .claim line (.statement s) ∈ visitElseIfs clauses ↔
      ∃ c ∈ clauses, .claim line (.statement s) ∈ visitAll c.body := by
  induction clauses with
  | nil => simp [visitElseIfs]
  | cons clause clauses ih =>
    cases clause
    simp [visitElseIfs, ElseIf.visits, ElseIf.body, ih]

theorem mem_visitCompileElseIfs {clauses : List (CompileElseIf Extent)} :
    v ∈ visitCompileElseIfs clauses ↔ ∃ c ∈ clauses, v ∈ visitAll c.body := by
  induction clauses with
  | nil => simp [visitCompileElseIfs]
  | cons clause clauses ih =>
    cases clause
    simp [visitCompileElseIfs, CompileElseIf.visits, CompileElseIf.body, ih]

theorem Statement.visits_cases (h : v ∈ s.visits) :
    (v = .byStatement s ∧ s.claims = true) ∨ v = .past s ∨ v ∈ s.inner := by
  cases s <;> simp_all [visits, inner, claims, isCode] <;> tauto

theorem Statement.inner_cases (h : .claim line (.statement s') ∈ s.inner) :
    ∃ body, .statements body ∈ (Node.statement s).pieces ∧
      .claim line (.statement s') ∈ visitAll body := by
  cases s with
  | procedure here name decl =>
    cases decl
    exact ⟨_, by simp [Node.pieces, Procedure.pieces, Procedure.body], h⟩
  | branch here condition thenBody elseIfs elseBody =>
    simp only [inner, List.mem_append, claim_mem_visitElseIfs, mem_visitOptional] at h
    rcases h with (h | ⟨clause, hclause, h⟩) | ⟨body, hbody, h⟩
    · exact ⟨_, by simp [Node.pieces], h⟩
    · refine ⟨_, ?_, h⟩
      simp only [Node.pieces, List.mem_cons, List.mem_append, List.mem_flatMap]
      exact .inr (.inr (.inl ⟨clause, hclause, by simp [ElseIf.pieces]⟩))
    · refine ⟨body, ?_, h⟩
      rw [Option.mem_def.1 hbody]
      simp [Node.pieces]
  | compileIf here condition thenBody elseIfs elseBody =>
    simp only [inner, List.mem_append, mem_visitCompileElseIfs, mem_visitOptional] at h
    rcases h with (h | ⟨clause, hclause, h⟩) | ⟨body, hbody, h⟩
    · exact ⟨_, by simp [Node.pieces], h⟩
    · refine ⟨_, ?_, h⟩
      simp only [Node.pieces, List.mem_cons, List.mem_append, List.mem_map]
      exact .inr (.inl ⟨clause, hclause, rfl⟩)
    · refine ⟨body, ?_, h⟩
      rw [Option.mem_def.1 hbody]
      simp [Node.pieces]
  | forLoop | forEach | whileLoop => exact ⟨_, by simp [Node.pieces], h⟩
  | _ => cases h

theorem Statement.below_of_claim (h : .claim line (.statement s') ∈ s.visits) :
    Node.Below (.statement s) (.statement s') ∧ line = s'.here.startLine ∧ s'.claims = true := by
  suffices hnode : ∀ n, ∀ s, n = Node.statement s → .claim line (.statement s') ∈ s.visits →
      n.Below (.statement s') ∧ line = s'.here.startLine ∧ s'.claims = true from hnode _ s rfl h
  intro n
  induction n using Node.induct with
  | h n ih =>
    rintro s rfl h
    rcases visits_cases h with ⟨heq, hclaims⟩ | heq | hinner
    · cases heq
      exact ⟨.refl, rfl, hclaims⟩
    · cases heq
    · obtain ⟨body, hbody, h⟩ := inner_cases hinner
      obtain ⟨s₁, hs₁, h⟩ := mem_visitAll.1 h
      have hchild : .statement s₁ ∈ (Node.statement s).children :=
        List.mem_flatMap.2 ⟨_, hbody, List.mem_map_of_mem hs₁⟩
      obtain ⟨hbelow, hrest⟩ := ih _ hchild s₁ rfl h
      exact ⟨.head hchild hbelow, hrest⟩

end Owners

/-! ### The last token of an expression -/

section Closes

variable {N : Phrase Extent → List Token → List Token → Prop} {ph : Phrase Extent}
  {ps : List (Part Extent)} {ts rest mid : List Token}

def lineEnders : List TokenKind :=
  [.directive, .newline]

/-- The last token in front of the rest does not end its line, unless it is a word. -/
def Closes (ts rest : List Token) : Prop :=
  ∃ last, (last.kind ∈ lineEnders → last.isWord = true) ∧ last :: rest <:+ ts

def Phrase.isClosing : Phrase Extent → Bool
  | .expression _ | .procedure _ | .close (.procedure _) => true
  | _ => false

def Part.isClosing : Part Extent → Bool
  | .token kind _ => kind ∉ lineEnders
  | .word _ => true
  | .phrase ph => ph.isClosing
  | _ => false

theorem Form.isClosing (form : Form ph ps) (hph : ph.isClosing = true) :
    ∃ p, ps.getLast? = some p ∧ p.isClosing = true := by
  cases form <;> first | exact ⟨_, rfl, rfl⟩ | cases hph

theorem Closes.of_suffix (h : Closes mid rest) (hs : mid <:+ ts) : Closes ts rest := by
  obtain ⟨last, hlast, hsuffix⟩ := h
  exact ⟨last, hlast, hsuffix.trans hs⟩

theorem Fits.closes {P : Phrase Extent → List Token → List Token → Prop} {p : Part Extent}
    (h : Fits P ps ts rest) (hlast : ps.getLast? = some p) (hp : p.isClosing = true)
    (hP : ∀ ph us vs, P ph us vs → vs <:+ us ∧ (ph.isClosing = true → Closes us vs)) :
    Closes ts rest := by
  -- The last part of the form decides; all others only lengthen the tokens.
  have hmore : ∀ {q : Part Extent} {ps : List (Part Extent)}, (q :: ps).getLast? = some p →
      (ps = [] ∧ q = p) ∨ ps.getLast? = some p := by
    rintro q (_ | ⟨q', ps⟩) h
    · exact .inl ⟨rfl, Option.some.inj h⟩
    · exact .inr (by rwa [List.getLast?_cons_cons] at h)
  induction h with
  | nil => cases hlast
  | @token k _ ps t ts rest hk _ h ih =>
    rcases hmore hlast with ⟨rfl, rfl⟩ | hlast
    · obtain rfl := fits_nil.1 h
      exact ⟨t, fun hd => absurd (hk ▸ hd) (of_decide_eq_true hp), List.suffix_rfl⟩
    · exact (ih hlast).of_suffix (List.suffix_cons ..)
  | @word _ ps t ts rest hw _ h ih =>
    rcases hmore hlast with ⟨rfl, rfl⟩ | hlast
    · obtain rfl := fits_nil.1 h
      exact ⟨t, fun _ => hw, List.suffix_rfl⟩
    · exact (ih hlast).of_suffix (List.suffix_cons ..)
  | line _ _ _ ih =>
    rcases hmore hlast with ⟨rfl, rfl⟩ | hlast
    · cases hp
    · exact (ih hlast).of_suffix (List.suffix_cons ..)
  | skip _ ih =>
    rcases hmore hlast with ⟨rfl, rfl⟩ | hlast
    · cases hp
    · exact (ih hlast).of_suffix (List.dropWhile_suffix _)
  | ahead _ _ ih =>
    rcases hmore hlast with ⟨rfl, rfl⟩ | hlast
    · cases hp
    · exact ih hlast
  | phrase hph h ih =>
    rcases hmore hlast with ⟨rfl, rfl⟩ | hlast
    · obtain rfl := fits_nil.1 h
      exact (hP _ _ _ hph).2 hp
    · exact (ih hlast).of_suffix (hP _ _ _ hph).1

theorem Spells.closes (h : Spells N ph ts rest) (hph : ph.isClosing = true) : Closes ts rest :=
  Spells.induct (Q := fun ph ts rest => ph.isClosing = true → Closes ts rest)
    (fun _ _ _ _ form _ fits hph => by
      obtain ⟨p, hlast, hp⟩ := form.isClosing hph
      exact fits.closes hlast hp fun _ _ _ h => ⟨h.1.suffix, h.2⟩) h hph

end Closes

/-! ### Tokens of the owners -/

section Tokens

variable {source ts rest : List Token} {ph : Phrase Extent} {ps : List (Part Extent)}

/-- What is noted about a phrase, and that its tokens end those of the source or come before them. -/
def NotedIn (source : List Token) (ph : Phrase Extent) (ts rest : List Token) : Prop :=
  Noted ph ts rest ∧ ts <:+ source

theorem Fits.within {P Q : Phrase Extent → List Token → List Token → Prop} (h : Fits P ps ts rest)
    (hs : ts <:+ source) (hP : ∀ ph us vs, P ph us vs → vs <:+ us)
    (hPQ : ∀ ph us vs, us <:+ source → P ph us vs → Q ph us vs) : Fits Q ps ts rest := by
  induction h with
  | nil => exact .nil
  | token hk hp _ ih => exact .token hk hp (ih ((List.suffix_cons ..).trans hs))
  | word hw hn _ ih => exact .word hw hn (ih ((List.suffix_cons ..).trans hs))
  | line hk hp _ ih => exact .line hk hp (ih ((List.suffix_cons ..).trans hs))
  | skip _ ih => exact .skip (ih ((List.dropWhile_suffix _).trans hs))
  | ahead hp _ ih => exact .ahead hp (ih hs)
  | phrase hp _ ih => exact .phrase (hPQ _ _ _ hs hp) (ih ((hP _ _ _ hp).trans hs))

/-- All phrases that are spelled inside a source are spelled by tokens of it. -/
theorem Spells.within (h : Spells Noted ph ts rest) (hs : ts <:+ source) :
    Spells (NotedIn source) ph ts rest :=
  Spells.induct (Q := fun ph ts rest => ts <:+ source → Spells (NotedIn source) ph ts rest)
    (fun _ _ _ _ form hn fits hs => .mk form
      (fits.within hs (fun _ _ _ h => h.1.suffix) fun _ _ _ hs h => h.2 hs) ⟨hn, hs⟩) h hs

variable {text : Text} {program : List (Statement Extent)} {line : Nat} {s : Statement Extent}

theorem claim_read (h : parse text = .ok program)
    (hc : .claim line (.statement s) ∈ visitAll program) :
    (Node.statement s).Read (NotedIn (lex text)) := by
  obtain ⟨s₀, hs₀, hc⟩ := mem_visitAll.1 hc
  have hprogram := (parseTokens_spelled h).within List.suffix_rfl
  have hread : (Node.statement s₀).Read (NotedIn (lex text)) :=
    hprogram.read_inside _ (List.mem_map_of_mem hs₀)
  exact hread.below (Statement.below_of_claim hc).1

theorem claim_laid (h : parse text = .ok program)
    (hc : .claim line (.statement s) ∈ visitAll program) :
    ∃ ts j, ts <:+ lex text ∧ Laid ts (.statement s) 0 j := by
  obtain ⟨ts, rest, hs⟩ := claim_read h hc
  rcases hs with hs | hs <;>
  · obtain ⟨⟨j, -, laid⟩, hsuffix⟩ := hs.note
    exact ⟨ts, j, hsuffix, laid⟩

theorem Laid.kindOf_ne_newline {j : Nat} (h : Laid ts (.statement s) 0 j) (hs : s.claims = true) :
    kindOf ts ≠ some .newline := by
  intro hkind
  cases hcode : s.isCode with
  | true =>
    obtain ⟨k, hk, hts⟩ := h.leads hcode
    rw [hkind, Option.some.injEq] at hts
    subst hts
    revert hk
    decide
  | false =>
    have hzero : kindAt ts 0 = some .newline := by
      rwa [kindOf, List.head?_eq_getElem?] at hkind
    have hspelled := h.spelled
    cases s
    case branch =>
      simp only [Node.Spelled, hzero] at hspelled
      simp at hspelled
    all_goals cases hcode.symm.trans hs

theorem head?_of_take {j : Nat} {t : Token} (h : (ts.take j).head? = some t) : ts.head? = some t := by
  rw [List.head?_take] at h
  split at h
  · cases h
  · exact h

theorem claim_token (h : parse text = .ok program)
    (hc : .claim line (.statement s) ∈ visitAll program) :
    ∃ t ∈ lex text, t.kind ≠ .newline ∧ t.span.start = s.here.span.start ∧
      t.extent.startLine = line := by
  obtain ⟨s₀, hs₀, hc₀⟩ := mem_visitAll.1 hc
  obtain ⟨-, rfl, hclaims⟩ := Statement.below_of_claim hc₀
  obtain ⟨ts, j, hsuffix, laid⟩ := claim_laid h hc
  obtain ⟨first, last, hfirst, -, hhere⟩ := laid.ends
  have hhead := head?_of_take hfirst
  have hne := laid.kindOf_ne_newline hclaims
  rw [kindOf, hhead] at hne
  have hhere : s.here = first.extent.through last.extent := hhere
  refine ⟨first, hsuffix.subset (List.mem_of_head? hhead), fun hk => hne (congrArg some hk), ?_, ?_⟩
  · rw [hhere]
    rfl
  · rw [hhere]
    rfl

/-- The tokens of an `if`: a keyword, those of its condition directly behind it, and others. -/
structure Guard (ts : List Token) (here condition : Extent) (before : List Token) (keyword : Token)
    (tokens after : List Token) (first last : Token) : Prop where
  split : ts = before ++ keyword :: (tokens ++ after)
  kind : keyword.kind ∈ [TokenKind.keyword .ifKw, .keyword .elseIfKw]
  starts : here.span.start = keyword.span.start
  head : tokens.head? = some first
  opens : first.kind ≠ .newline
  getLast : tokens.getLast? = some last
  covers : condition = first.extent.through last.extent
  ended : last.kind ∈ lineEnders → last.isWord = true

theorem claim_guard {here : Extent} {condition : Expr Extent} {thenBody : List (Statement Extent)}
    {elseIfs : List (ElseIf Extent)} {elseBody : Option (List (Statement Extent))}
    (h : parse text = .ok program) (hc : .claim line
      (.statement (.branch here condition thenBody elseIfs elseBody)) ∈ visitAll program) :
    ∃ before keyword tokens after first last,
      Guard (lex text) here condition.here before keyword tokens after first last := by
  obtain ⟨ts, rest, hs⟩ := claim_read h hc
  -- An `if` in blocks, one on a line and one behind an `else` start in the same way.
  obtain ⟨k, ps, hk, fits, hnote⟩ : ∃ k ps, k ∈ [TokenKind.keyword .ifKw, .keyword .elseIfKw] ∧
      Fits (Spells (NotedIn (lex text))) (.kind k :: .value condition :: ps) ts rest ∧
      NotedIn (lex text) (.statement (.branch here condition thenBody elseIfs elseBody)) ts rest := by
    rcases hs with hs | hs
    · obtain ⟨_, form, fits⟩ := hs.form
      cases form
      all_goals exact ⟨_, _, List.mem_cons_self, fits, hs.note⟩
    · obtain ⟨_, form, fits⟩ := hs.form
      cases form
      exact ⟨_, _, by simp, fits, hs.note⟩
  obtain ⟨⟨j, -, laid⟩, before, hsource⟩ := hnote
  obtain ⟨keyword, ts, rfl, rfl, -, fits⟩ := fits_token.1 fits
  obtain ⟨mid, hvalue, -⟩ := fits_phrase.1 fits
  obtain ⟨_, form, fits⟩ := hvalue.form
  cases form
  obtain ⟨_, hcondition, -⟩ := fits_phrase.1 fits
  obtain ⟨⟨j, rfl, laid'⟩, -⟩ := hcondition.note
  obtain ⟨first, last, hfirst, hlast, hends⟩ := laid'.ends
  obtain ⟨_, hhead, hhere⟩ := laid.head
  obtain rfl := Option.some.inj hhead
  obtain ⟨last', hended, pre, hpre⟩ := hcondition.closes rfl
  have hopens : first.kind ≠ .newline := by
    intro hk
    refine hcondition.expression_head.2 .newline (by decide) ?_
    rw [kindOf, ← hk, head?_of_take hfirst]
    rfl
  have htake : pre ++ [last'] = ts.take j := by
    have hsplit : (pre ++ [last']) ++ ts.drop j = ts.take j ++ ts.drop j := by
      rw [List.take_append_drop, List.append_assoc]
      exact hpre
    exact List.append_cancel_right hsplit
  have hlast' := hlast
  rw [← htake, List.getLast?_concat, Option.some.injEq] at hlast'
  exact ⟨before, keyword, ts.take j, ts.drop j, first, last,
    by rw [List.take_append_drop, hsource], hk, hhere, hfirst, hopens, hlast, hends,
    hlast' ▸ hended⟩

end Tokens

end BrightCoverage
