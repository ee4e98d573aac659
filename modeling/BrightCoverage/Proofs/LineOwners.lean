import BrightCoverage.Proofs.Copies
import BrightCoverage.Proofs.WovenTrees

/-! Who owns a line. Statements are visited in the order in which they start, and the header of an
`else if` clause is visited where its clause ends. So a line belongs to the statement that starts first
on it, unless the keyword of an `else if` stands on it and no statement starts on it before the end of
that clause. -/

namespace BrightCoverage

/-! ### What can own a line -/

/-- The statements that are reached from a list of statements through procedures, branches and loops,
but not through expressions. -/
inductive Reaches : List (Statement Extent) → Statement Extent → Prop
  | mem {body : List (Statement Extent)} {s : Statement Extent} : s ∈ body → Reaches body s
  | inside {body inner : List (Statement Extent)} {s s' : Statement Extent} : s ∈ body →
    inner ∈ (Node.statement s).bodies → Reaches inner s' → Reaches body s'

def Statement.clauses : Statement Extent → List (ElseIf Extent)
  | .branch _ _ _ elseIfs _ => elseIfs
  | _ => []

/-- A statement that starts on the line and is of a kind that can own it. -/
structure Candidate (program : List (Statement Extent)) (line : Nat) (s : Statement Extent) :
    Prop where
  reached : Reaches program s
  claims : s.claims = true
  starts : s.here.startLine = line

/-- An `else if` clause whose keyword stands on the line. -/
structure Header (program : List (Statement Extent)) (line : Nat) (clause : ElseIf Extent) :
    Prop where
  reached : ∃ s, Reaches program s ∧ clause ∈ s.clauses
  starts : clause.keyword.startLine = line

/-- The statement that starts first of those that can own the line. -/
def IsEarliest (program : List (Statement Extent)) (line : Nat) (s : Statement Extent) : Prop :=
  Candidate program line s ∧
    ∀ s', Candidate program line s' → s.here.span.start ≤ s'.here.span.start

/-- The clause whose keyword comes first of those on the line. -/
def IsFirstHeader (program : List (Statement Extent)) (line : Nat) (clause : ElseIf Extent) : Prop :=
  Header program line clause ∧
    ∀ clause', Header program line clause' → clause.keyword.span.start ≤ clause'.keyword.span.start

/-- Where the statements of a clause end; if it has none, where its condition ends. -/
def ElseIf.stop (clause : ElseIf Extent) : Nat :=
  (clause.body.map (·.here.span.stop)).getLastD clause.condition.here.span.stop

def Statement.owners (s : Statement Extent) : List Owner :=
  (if s.claims then [.statement s] else []) ++ s.clauses.map .elseIf

section Reaches

variable {o : Owner} {s : Statement Extent} {body : List (Statement Extent)}

/-! The lists of statements directly inside the statements that have some. -/

theorem Node.bodies_procedure {here : Extent} {name : String} {decl : Procedure Extent} :
    (Node.statement (.procedure here name decl)).bodies = [decl.body] := by
  have hdefaults : (decl.params.flatMap fun param =>
      param.default.toList.map Piece.expression).filterMap Piece.body? = [] := by
    rw [List.filterMap_eq_nil_iff]
    intro piece hpiece
    simp only [List.mem_flatMap, List.mem_map] at hpiece
    obtain ⟨_, -, _, -, rfl⟩ := hpiece
    rfl
  rw [bodies, pieces, Procedure.pieces, List.filterMap_append, hdefaults]
  rfl

theorem Node.bodies_branch {here : Extent} {condition : Expr Extent} {thenBody : List (Statement Extent)}
    {elseIfs : List (ElseIf Extent)} {elseBody : Option (List (Statement Extent))} :
    (Node.statement (.branch here condition thenBody elseIfs elseBody)).bodies
      = thenBody :: (elseIfs.map ElseIf.body ++ elseBody.toList) := by
  have hclauses : (elseIfs.flatMap ElseIf.pieces).filterMap Piece.body? = elseIfs.map ElseIf.body := by
    induction elseIfs with
    | nil => rfl
    | cons clause elseIfs ih =>
      rw [List.flatMap_cons, List.filterMap_append, ih]
      rfl
  show thenBody :: (elseIfs.flatMap ElseIf.pieces ++ elseBody.toList.map Piece.statements).filterMap _ = _
  rw [List.filterMap_append, hclauses]
  cases elseBody <;> rfl

theorem Node.bodies_compileIf {here : Extent} {condition : String} {thenBody : List (Statement Extent)}
    {elseIfs : List (CompileElseIf Extent)} {elseBody : Option (List (Statement Extent))} :
    (Node.statement (.compileIf here condition thenBody elseIfs elseBody)).bodies
      = thenBody :: (elseIfs.map CompileElseIf.body ++ elseBody.toList) := by
  show thenBody :: (elseIfs.map _ ++ elseBody.toList.map Piece.statements).filterMap _ = _
  rw [List.filterMap_append, List.filterMap_map]
  cases elseBody <;> simp [Function.comp_def, Piece.body?]

theorem mem_claimants_visitAll : o ∈ claimants (visitAll body) ↔ ∃ s ∈ body, o ∈ claimants s.visits := by
  induction body with
  | nil => simp [visitAll, claimants]
  | cons s body ih => simp [visitAll, ih]

theorem mem_claimants_visitOptional {body : Option (List (Statement Extent))} :
    o ∈ claimants (visitOptional body) ↔ ∃ b ∈ body, o ∈ claimants (visitAll b) := by
  cases body <;> simp [visitOptional, claimants]

theorem claimants_clause (clause : ElseIf Extent) :
    claimants clause.visits = claimants (visitAll clause.body) ++ [.elseIf clause] := by
  cases clause
  rw [ElseIf.visits, claimants_append]
  rfl

theorem mem_claimants_visitElseIfs {clauses : List (ElseIf Extent)} :
    o ∈ claimants (visitElseIfs clauses) ↔ (∃ clause ∈ clauses, .elseIf clause = o) ∨
      ∃ clause ∈ clauses, o ∈ claimants (visitAll clause.body) := by
  induction clauses with
  | nil => simp [visitElseIfs, claimants]
  | cons clause clauses ih =>
    simp only [visitElseIfs, claimants_append, claimants_clause, List.mem_append, List.mem_cons,
      List.not_mem_nil, or_false, ih, exists_eq_or_imp, eq_comm (a := o)]
    simp only [or_assoc, or_left_comm, or_comm]

theorem mem_claimants_visitCompileElseIfs {clauses : List (CompileElseIf Extent)} :
    o ∈ claimants (visitCompileElseIfs clauses) ↔
      ∃ clause ∈ clauses, o ∈ claimants (visitAll clause.body) := by
  induction clauses with
  | nil => simp [visitCompileElseIfs, claimants]
  | cons clause clauses ih =>
    cases clause
    simp [visitCompileElseIfs, CompileElseIf.visits, CompileElseIf.body, ih]

theorem Statement.mem_claimants_visits : o ∈ claimants s.visits ↔
    o ∈ s.owners ∨ ∃ inner ∈ (Node.statement s).bodies, o ∈ claimants (visitAll inner) := by
  cases s with
  | procedure here name decl =>
    cases decl
    simp [visits, Procedure.visits, owners, claims, isCode, clauses, Node.bodies_procedure,
      Procedure.body]
  | branch here condition thenBody elseIfs elseBody =>
    simp only [visits, claimants_byStatement, claimants_append, List.mem_cons, List.mem_append,
      mem_claimants_visitElseIfs, mem_claimants_visitOptional, owners, claims, clauses, if_true,
      List.mem_map, List.not_mem_nil, or_false, Node.bodies_branch, or_and_right, exists_or,
      exists_eq_left, exists_exists_and_eq_and, Option.mem_toList, Option.mem_def]
    simp only [or_assoc, or_left_comm]
  | compileIf here condition thenBody elseIfs elseBody =>
    simp [visits, owners, claims, isCode, clauses, Node.bodies_compileIf,
      mem_claimants_visitCompileElseIfs, mem_claimants_visitOptional, or_and_right, exists_or]
  | forLoop | forEach | whileLoop =>
    simp [visits, owners, claims, isCode, clauses, Node.bodies, Node.pieces, Piece.body?]
  | _ =>
    simp [visits, owners, claims, isCode, clauses, Node.bodies, Node.pieces, Piece.body?, claimants,
      Visit.owner?, Visit.byStatement, Visit.past]

theorem Node.mem_children_of_bodies {n : Node} {inner : List (Statement Extent)}
    (hinner : inner ∈ n.bodies) (hs : s ∈ inner) : .statement s ∈ n.children := by
  obtain ⟨piece, hpiece, hbody⟩ := List.mem_filterMap.1 hinner
  refine List.mem_flatMap.2 ⟨piece, hpiece, ?_⟩
  cases piece with
  | expression | opening | clause => cases hbody
  | statements =>
    cases hbody
    exact List.mem_map_of_mem hs

theorem mem_claimants : o ∈ claimants (visitAll body) ↔ ∃ s, Reaches body s ∧ o ∈ s.owners := by
  constructor
  · intro h
    obtain ⟨s, hs, ho⟩ := mem_claimants_visitAll.1 h
    suffices H : ∀ n s body, n = Node.statement s → s ∈ body → o ∈ claimants s.visits →
        ∃ s', Reaches body s' ∧ o ∈ s'.owners from H _ s body rfl hs ho
    intro n
    induction n using Node.induct with
    | h n ih =>
      rintro s body rfl hs ho
      rcases Statement.mem_claimants_visits.1 ho with ho | ⟨inner, hinner, ho⟩
      · exact ⟨s, .mem hs, ho⟩
      · obtain ⟨child, hchild, ho⟩ := mem_claimants_visitAll.1 ho
        obtain ⟨s', hreach, ho⟩ :=
          ih _ (Node.mem_children_of_bodies hinner hchild) child inner rfl hchild ho
        exact ⟨s', .inside hs hinner hreach, ho⟩
  · rintro ⟨s, hreach, ho⟩
    induction hreach with
    | mem hs => exact mem_claimants_visitAll.2 ⟨_, hs, Statement.mem_claimants_visits.2 (.inl ho)⟩
    | inside hs hinner _ ih =>
      exact mem_claimants_visitAll.2
        ⟨_, hs, Statement.mem_claimants_visits.2 (.inr ⟨_, hinner, ih ho⟩)⟩

theorem statement_mem_claimants :
    .statement s ∈ claimants (visitAll body) ↔ Reaches body s ∧ s.claims = true := by
  have howner (s' : Statement Extent) : .statement s ∈ s'.owners ↔ s = s' ∧ s'.claims = true := by
    cases hclaims : s'.claims <;> simp [Statement.owners, hclaims]
  rw [mem_claimants]
  simp only [howner]
  constructor
  · rintro ⟨_, hreach, rfl, hclaims⟩
    exact ⟨hreach, hclaims⟩
  · rintro ⟨hreach, hclaims⟩
    exact ⟨s, hreach, rfl, hclaims⟩

theorem elseIf_mem_claimants {clause : ElseIf Extent} :
    .elseIf clause ∈ claimants (visitAll body) ↔ ∃ s, Reaches body s ∧ clause ∈ s.clauses := by
  have howner (s' : Statement Extent) : .elseIf clause ∈ s'.owners ↔ clause ∈ s'.clauses := by
    cases hclaims : s'.claims <;> simp [Statement.owners, hclaims]
  rw [mem_claimants]
  simp only [howner]

end Reaches

/-! ### The order of the visits -/

/-- Extents one after another between two offsets. -/
def Chain (lo hi : Nat) : List Extent → Prop
  | [] => lo ≤ hi
  | e :: es => lo ≤ e.span.start ∧ e.span.start < e.span.stop ∧ Chain e.span.stop hi es

namespace Chain

variable {lo mid hi : Nat} {es fs : List Extent}

theorem le (h : Chain lo hi es) : lo ≤ hi := by
  induction es generalizing lo with
  | nil => exact h
  | cons e es ih =>
    obtain ⟨hlo, hlt, hes⟩ := h
    exact (hlo.trans hlt.le).trans (ih hes)

theorem of_append (h : Chain lo hi (es ++ fs)) : ∃ mid, Chain lo mid es ∧ Chain mid hi fs := by
  induction es generalizing lo with
  | nil => exact ⟨lo, Nat.le_refl lo, h⟩
  | cons e es ih =>
    obtain ⟨hlo, hlt, hrest⟩ := h
    obtain ⟨mid, hes, hfs⟩ := ih hrest
    exact ⟨mid, ⟨hlo, hlt, hes⟩, hfs⟩

theorem tighten (h : Chain lo hi es) :
    Chain lo ((es.map (·.span.stop)).getLastD lo) es ∧ (es.map (·.span.stop)).getLastD lo ≤ hi := by
  induction es generalizing lo with
  | nil => exact ⟨Nat.le_refl lo, h⟩
  | cons e es ih =>
    obtain ⟨hlo, hlt, hes⟩ := h
    rw [List.map_cons, List.getLastD_cons]
    exact ⟨⟨hlo, hlt, (ih hes).1⟩, (ih hes).2⟩

theorem of_pairwise (hne : ∀ e ∈ es, lo ≤ e.span.start ∧ e.span.start < e.span.stop ∧ e.span.stop ≤ hi)
    (hle : lo ≤ hi) (h : es.Pairwise fun a b => a.span.stop ≤ b.span.start) : Chain lo hi es := by
  induction es generalizing lo with
  | nil => exact hle
  | cons e es ih =>
    obtain ⟨⟨hlo, hlt, hhi⟩, hes⟩ := List.forall_mem_cons.1 hne
    obtain ⟨hhead, htail⟩ := List.pairwise_cons.1 h
    exact ⟨hlo, hlt, ih (fun e' he' => ⟨hhead e' he', (hes e' he').2⟩) hhi htail⟩

end Chain

theorem Node.WellPlaced.chain {source : Text} {n : Node} (h : n.WellPlaced source) :
    Chain n.here.span.start n.here.span.stop n.parts :=
  .of_pairwise (fun e he =>
      ⟨(h.inside e he).1, h.nonempty e (List.mem_cons_of_mem _ he), (h.inside e he).2⟩)
    (h.nonempty _ (List.mem_cons_self ..)).le h.ordered

namespace Owner

def stop : Owner → Nat
  | .statement s => s.here.span.stop
  | .elseIf clause => clause.stop

/-- The first of two owners is visited before the second. A statement is visited where it starts, and
a clause where it ends: after the clauses inside it, which belong to statements that start after its
keyword. -/
def Before : Owner → Owner → Prop
  | .statement s, .statement s' => s.here.span.start < s'.here.span.start
  | .statement s, .elseIf clause => s.here.span.start < clause.stop
  | .elseIf clause, .statement s => clause.stop ≤ s.here.span.start
  | .elseIf clause, .elseIf clause' => clause.keyword.span.start < clause'.keyword.span.start ∨
    ∃ s, Reaches clause'.body s ∧ clause ∈ s.clauses ∧
      clause'.keyword.span.start ≤ s.here.span.start ∧
      s.here.span.start ≤ clause.keyword.span.start

theorem Before.of_stop_le {o o' : Owner} (ho : o.here.span.start < o.stop)
    (ho' : o'.here.span.start < o'.stop) (h : o.stop ≤ o'.here.span.start) : o.Before o' := by
  cases o with
  | statement s =>
    have hlt := ho.trans_le h
    cases o' with
    | statement s' => exact hlt
    | elseIf clause => exact hlt.trans ho'
  | elseIf clause =>
    cases o' with
    | statement s => exact h
    | elseIf clause' => exact .inl (ho.trans_le h)

end Owner

/-- Owners in the order of their visits, all of them between two offsets. -/
structure Visited (lo hi : Nat) (os : List Owner) : Prop where
  ordered : os.Pairwise Owner.Before
  inside : ∀ o ∈ os, lo ≤ o.here.span.start ∧ o.here.span.start < o.stop ∧ o.stop ≤ hi

namespace Visited

variable {lo mid hi : Nat} {os os' : List Owner}

theorem nil : Visited lo hi [] := ⟨.nil, by simp⟩

theorem widen {lo' hi' : Nat} (h : Visited lo hi os) (hlo : lo' ≤ lo) (hhi : hi ≤ hi') :
    Visited lo' hi' os :=
  ⟨h.ordered, fun o ho =>
    ⟨hlo.trans (h.inside o ho).1, (h.inside o ho).2.1, (h.inside o ho).2.2.trans hhi⟩⟩

theorem append (h : Visited lo mid os) (h' : Visited mid hi os') (hlo : lo ≤ mid) (hhi : mid ≤ hi) :
    Visited lo hi (os ++ os') := by
  refine ⟨List.pairwise_append.2 ⟨h.ordered, h'.ordered, fun o ho o' ho' => ?_⟩,
    List.forall_mem_append.2
      ⟨(h.widen (Nat.le_refl lo) hhi).inside, (h'.widen hlo (Nat.le_refl hi)).inside⟩⟩
  obtain ⟨-, hne, hmid⟩ := h.inside o ho
  obtain ⟨hmid', hne', -⟩ := h'.inside o' ho'
  exact .of_stop_le hne hne' (hmid.trans hmid')

theorem cons_statement {s : Statement Extent} (h : Visited lo hi os) (hlo : s.here.span.start < lo)
    (hle : lo ≤ hi) (hhi : hi ≤ s.here.span.stop) :
    Visited s.here.span.start s.here.span.stop (.statement s :: os) := by
  refine ⟨List.pairwise_cons.2 ⟨fun o ho => ?_, h.ordered⟩, List.forall_mem_cons.2
    ⟨⟨Nat.le_refl _, hlo.trans_le (hle.trans hhi), Nat.le_refl _⟩, (h.widen hlo.le hhi).inside⟩⟩
  obtain ⟨hstart, hne, -⟩ := h.inside o ho
  cases o with
  | statement s' => exact hlo.trans_le hstart
  | elseIf clause => exact (hlo.trans_le hstart).trans hne

end Visited

section Visits

variable {source : Text} {lo hi : Nat} {body : List (Statement Extent)}

theorem visited_visitAll (hchain : Chain lo hi (body.map Statement.here))
    (h : ∀ s ∈ body, Visited s.here.span.start s.here.span.stop (claimants s.visits)) :
    Visited lo hi (claimants (visitAll body)) := by
  induction body generalizing lo with
  | nil => exact .nil
  | cons s body ih =>
    obtain ⟨hlo, hlt, hrest⟩ := hchain
    obtain ⟨hs, hbody⟩ := List.forall_mem_cons.1 h
    rw [visitAll, claimants_append]
    exact (hs.widen hlo (Nat.le_refl _)).append (ih hrest hbody) (hlo.trans hlt.le) hrest.le

theorem Statement.claims_of_mem_clauses {s : Statement Extent} {clause : ElseIf Extent}
    (h : clause ∈ s.clauses) : s.claims = true := by
  cases s with
  | branch => rfl
  | _ => cases h

theorem ElseIf.extents_pieces (clause : ElseIf Extent) : clause.pieces.flatMap Piece.extents
    = clause.keyword :: clause.condition.here :: clause.body.map Statement.here := by
  simp [pieces, Piece.extents]

theorem Node.parts_branch {here : Extent} {condition : Expr Extent} {thenBody : List (Statement Extent)}
    {elseIfs : List (ElseIf Extent)} {elseBody : Option (List (Statement Extent))} :
    (Node.statement (.branch here condition thenBody elseIfs elseBody)).parts = condition.here ::
      (thenBody.map Statement.here ++ (elseIfs.flatMap (·.pieces.flatMap Piece.extents)
        ++ elseBody.toList.flatMap (·.map Statement.here))) := by
  simp [parts, pieces, Piece.extents, List.flatMap_assoc, List.flatMap_map]

theorem Statement.keyword_mem_parts {s : Statement Extent} {clause : ElseIf Extent}
    (h : clause ∈ s.clauses) : clause.keyword ∈ (Node.statement s).parts := by
  cases s with
  | branch here condition thenBody elseIfs elseBody =>
    have hkeyword : clause.keyword ∈ clause.pieces.flatMap Piece.extents := by
      rw [clause.extents_pieces]
      exact List.mem_cons_self ..
    rw [Node.parts_branch]
    exact List.mem_cons_of_mem _ (List.mem_append_right _
      (List.mem_append_left _ (List.mem_flatMap.2 ⟨clause, h, hkeyword⟩)))
  | _ => cases h

theorem visited_clause {clause : ElseIf Extent}
    (hplaced : ∀ s, Reaches clause.body s → (Node.statement s).WellPlaced source)
    (hchain : Chain lo hi (clause.pieces.flatMap Piece.extents))
    (h : ∀ s ∈ clause.body, Visited s.here.span.start s.here.span.stop (claimants s.visits)) :
    Visited lo hi (claimants clause.visits) := by
  rw [clause.extents_pieces] at hchain
  obtain ⟨hlo, hkeyword, hbetween, hcondition, hbody⟩ := hchain
  obtain ⟨htight, hhi⟩ := hbody.tighten
  rw [List.map_map] at htight hhi
  have hstop : clause.condition.here.span.stop ≤ clause.stop := htight.le
  have hstatements := visited_visitAll htight h
  rw [claimants_clause]
  refine ⟨List.pairwise_append.2
      ⟨hstatements.ordered, List.pairwise_singleton .., fun o ho o' ho' => ?_⟩,
    List.forall_mem_append.2 ⟨(hstatements.widen (by omega) hhi).inside,
      List.forall_mem_singleton.2 ⟨hlo, ?_, hhi⟩⟩⟩
  · obtain rfl := List.mem_singleton.1 ho'
    cases o with
    | statement s =>
      obtain ⟨-, hne, hend⟩ := hstatements.inside _ ho
      exact hne.trans_le hend
    | elseIf inner =>
      -- the `if` of an inner clause is itself among the statements
      obtain ⟨s, hreach, hinner⟩ := elseIf_mem_claimants.1 ho
      obtain ⟨hstart, -⟩ := hstatements.inside _
        (statement_mem_claimants.2 ⟨hreach, Statement.claims_of_mem_clauses hinner⟩)
      have hinside := ((hplaced s hreach).inside _ (Statement.keyword_mem_parts hinner)).1
      have hkeyword' : clause.keyword.span.start ≤ clause.condition.here.span.stop := by omega
      exact .inr ⟨s, hreach, hinner, hkeyword'.trans hstart, hinside⟩
  · show clause.keyword.span.start < clause.stop
    omega

theorem visited_visitElseIfs {clauses : List (ElseIf Extent)}
    (hplaced : ∀ clause ∈ clauses, ∀ s, Reaches clause.body s → (Node.statement s).WellPlaced source)
    (hchain : Chain lo hi (clauses.flatMap (·.pieces.flatMap Piece.extents)))
    (h : ∀ clause ∈ clauses, ∀ s ∈ clause.body,
      Visited s.here.span.start s.here.span.stop (claimants s.visits)) :
    Visited lo hi (claimants (visitElseIfs clauses)) := by
  induction clauses generalizing lo with
  | nil => exact .nil
  | cons clause clauses ih =>
    obtain ⟨mid, hclause, hclauses⟩ := Chain.of_append hchain
    obtain ⟨hplaced, hplaceds⟩ := List.forall_mem_cons.1 hplaced
    obtain ⟨hhere, hrest⟩ := List.forall_mem_cons.1 h
    rw [visitElseIfs, claimants_append]
    exact (visited_clause hplaced hclause hhere).append (ih hplaceds hclauses hrest) hclause.le
      hclauses.le

theorem visited_visitCompileElseIfs {clauses : List (CompileElseIf Extent)}
    (hchain : Chain lo hi (clauses.flatMap (·.body.map Statement.here)))
    (h : ∀ clause ∈ clauses, ∀ s ∈ clause.body,
      Visited s.here.span.start s.here.span.stop (claimants s.visits)) :
    Visited lo hi (claimants (visitCompileElseIfs clauses)) := by
  induction clauses generalizing lo with
  | nil => exact .nil
  | cons clause clauses ih =>
    obtain ⟨mid, hclause, hclauses⟩ := Chain.of_append hchain
    obtain ⟨hhere, hrest⟩ := List.forall_mem_cons.1 h
    cases clause
    rw [visitCompileElseIfs, claimants_append, CompileElseIf.visits]
    exact (visited_visitAll hclause hhere).append (ih hclauses hrest) hclause.le hclauses.le

theorem visited_visitOptional {body : Option (List (Statement Extent))}
    (hchain : Chain lo hi (body.toList.flatMap (·.map Statement.here)))
    (h : ∀ b ∈ body, ∀ s ∈ b, Visited s.here.span.start s.here.span.stop (claimants s.visits)) :
    Visited lo hi (claimants (visitOptional body)) := by
  cases body with
  | none => exact .nil
  | some body =>
    rw [Option.toList_some, List.flatMap_singleton] at hchain
    exact visited_visitAll hchain (h body rfl)

theorem Node.parts_procedure {here : Extent} {name : String} {decl : Procedure Extent} :
    (Node.statement (.procedure here name decl)).parts
      = decl.params.flatMap (·.default.toList.map Expr.here) ++ decl.body.map Statement.here := by
  simp [parts, pieces, Procedure.pieces, Piece.extents, List.flatMap_assoc, List.flatMap_map,
    ← List.map_eq_flatMap]

theorem Node.parts_compileIf {here : Extent} {condition : String} {thenBody : List (Statement Extent)}
    {elseIfs : List (CompileElseIf Extent)} {elseBody : Option (List (Statement Extent))} :
    (Node.statement (.compileIf here condition thenBody elseIfs elseBody)).parts
      = thenBody.map Statement.here ++ (elseIfs.flatMap (·.body.map Statement.here)
        ++ elseBody.toList.flatMap (·.map Statement.here)) := by
  simp [parts, pieces, Piece.extents, List.flatMap_map]

theorem Node.parts_forLoop {here : Extent} {counter : String} {first last : Expr Extent}
    {step : Option (Expr Extent)} : (Node.statement (.forLoop here counter first last step body)).parts
      = (first.here :: last.here :: step.toList.map Expr.here) ++ body.map Statement.here := by
  simp [parts, pieces, Piece.extents, List.flatMap_map, ← List.map_eq_flatMap]

theorem visited_loop {s : Statement Extent} {e : Extent} {es : List Extent}
    (hchain : Chain s.here.span.start s.here.span.stop (e :: es ++ body.map Statement.here))
    (h : ∀ s' ∈ body, Visited s'.here.span.start s'.here.span.stop (claimants s'.visits)) :
    Visited s.here.span.start s.here.span.stop (.statement s :: claimants (visitAll body)) := by
  obtain ⟨hlo, hlt, hrest⟩ := hchain
  obtain ⟨mid, hes, hbody⟩ := Chain.of_append hrest
  exact (visited_visitAll hbody h).cons_statement ((hlo.trans_lt hlt).trans_le hes.le) hbody.le
    (Nat.le_refl _)

theorem Statement.visited_of_bodies {s : Statement Extent}
    (hplaced : (Node.statement s).WellPlaced source)
    (hinside : ∀ inner ∈ (Node.statement s).bodies, ∀ s', Reaches inner s' →
      (Node.statement s').WellPlaced source)
    (h : ∀ inner ∈ (Node.statement s).bodies, ∀ s' ∈ inner,
      Visited s'.here.span.start s'.here.span.stop (claimants s'.visits)) :
    Visited s.here.span.start s.here.span.stop (claimants s.visits) := by
  have hchain := hplaced.chain
  -- A statement claims its line before its bodies do, and the bodies stand behind each other, so what
  -- each of them claims lies in a part of the statement of its own.
  cases s with
  | procedure here name decl =>
    rw [Node.parts_procedure] at hchain
    obtain ⟨mid, hdefaults, hbody⟩ := Chain.of_append hchain
    cases decl
    have hvisited := visited_visitAll hbody (h _ (by simp [Node.bodies_procedure]))
    exact hvisited.widen hdefaults.le (Nat.le_refl _)
  | branch here condition thenBody elseIfs elseBody =>
    rw [Node.parts_branch] at hchain
    obtain ⟨hlo, hlt, hrest⟩ := hchain
    obtain ⟨mid, hthen, hrest⟩ := Chain.of_append hrest
    obtain ⟨mid', hclauses, helse⟩ := Chain.of_append hrest
    rw [visits, claimants_byStatement, claimants_append, claimants_append]
    simp only [Node.bodies_branch, List.mem_cons, List.mem_append, List.mem_map,
      Option.mem_toList] at h hinside
    have hthenBody := visited_visitAll hthen (h _ (.inl rfl))
    have helseIfs := visited_visitElseIfs (fun clause hclause =>
      hinside _ (.inr (.inl ⟨clause, hclause, rfl⟩))) hclauses (fun clause hclause =>
      h _ (.inr (.inl ⟨clause, hclause, rfl⟩)))
    have helseBody := visited_visitOptional helse (fun b hb => h _ (.inr (.inr hb)))
    have hle := hthen.le.trans hclauses.le
    have hall := (hthenBody.append helseIfs hthen.le hclauses.le).append helseBody hle helse.le
    exact hall.cons_statement (hlo.trans_lt hlt) (hle.trans helse.le) (Nat.le_refl _)
  | compileIf here condition thenBody elseIfs elseBody =>
    rw [Node.parts_compileIf] at hchain
    obtain ⟨mid, hthen, hrest⟩ := Chain.of_append hchain
    obtain ⟨mid', hclauses, helse⟩ := Chain.of_append hrest
    rw [visits, claimants_append, claimants_append]
    simp only [Node.bodies_compileIf, List.mem_cons, List.mem_append, List.mem_map,
      Option.mem_toList] at h
    have hthenBody := visited_visitAll hthen (h _ (.inl rfl))
    have helseIfs := visited_visitCompileElseIfs hclauses (fun clause hclause =>
      h _ (.inr (.inl ⟨clause, hclause, rfl⟩)))
    have helseBody := visited_visitOptional helse (fun b hb => h _ (.inr (.inr hb)))
    exact (hthenBody.append helseIfs hthen.le hclauses.le).append helseBody (hthen.le.trans hclauses.le)
      helse.le
  | forLoop here counter first last step body =>
    rw [Node.parts_forLoop] at hchain
    exact visited_loop hchain (h body (by simp [Node.bodies, Node.pieces, Piece.body?]))
  | forEach _ _ _ body | whileLoop _ _ body =>
    have hbodies : body ∈ [body] := List.mem_singleton.2 rfl
    simp only [Node.parts, Node.pieces, List.flatMap_cons, List.flatMap_nil, List.append_nil] at hchain
    exact visited_loop hchain (h body hbodies)
  | call | assign | assignMember | assignIndex | print | giveBack =>
    exact Visited.nil.cons_statement (hplaced.nonempty _ (List.mem_cons_self ..)) (Nat.le_refl _)
      (Nat.le_refl _)
  | increment | dim | goto | label | exit | endProgram | stop | library | directive => exact .nil

theorem visited_of_wellPlaced (hplaced : ∀ s, Reaches body s → (Node.statement s).WellPlaced source) :
    ∀ s ∈ body, Visited s.here.span.start s.here.span.stop (claimants s.visits) := by
  intro s hs
  suffices H : ∀ n s body, n = Node.statement s → s ∈ body →
      (∀ s, Reaches body s → (Node.statement s).WellPlaced source) →
      Visited s.here.span.start s.here.span.stop (claimants s.visits) from H _ s body rfl hs hplaced
  intro n
  induction n using Node.induct with
  | h n ih =>
    rintro s body rfl hs hplaced
    have hinside : ∀ inner ∈ (Node.statement s).bodies, ∀ s', Reaches inner s' →
        (Node.statement s').WellPlaced source :=
      fun inner hinner s' hs' => hplaced s' (.inside hs hinner hs')
    exact Statement.visited_of_bodies (hplaced s (.mem hs)) hinside fun inner hinner s' hs' =>
      ih _ (Node.mem_children_of_bodies hinner hs') s' inner rfl hs' (hinside inner hinner)

end Visits

/-! ### Accepted files -/

section Accepted

variable {source : Text} {program : List (Statement Extent)} {s : Statement Extent}

theorem Reaches.laid {ts : List Token} {body : List (Statement Extent)} (h : Reaches body s)
    (hbody : ∀ s ∈ body, ∃ i j, Laid ts (.statement s) i j) : ∃ i j, Laid ts (.statement s) i j := by
  induction h with
  | mem hs => exact hbody _ hs
  | inside hs hinner _ ih =>
    obtain ⟨i, j, laid⟩ := hbody _ hs
    refine ih fun s' hs' => ?_
    obtain ⟨a, b, -, -, laid'⟩ := laid.row.laid_of_mem (Node.mem_children_of_bodies hinner hs')
    exact ⟨a, b, laid'⟩

theorem Reaches.within {body inner : List (Statement Extent)} {outer : Statement Extent}
    (h : Reaches body outer) (hinner : inner ∈ (Node.statement outer).bodies) (hs : Reaches inner s) :
    Reaches body s := by
  induction h with
  | mem houter => exact .inside houter hinner hs
  | inside hmem hbody _ ih => exact .inside hmem hbody (ih hinner)

theorem Statement.body_mem_bodies {clause : ElseIf Extent} (h : clause ∈ s.clauses) :
    clause.body ∈ (Node.statement s).bodies := by
  cases s with
  | branch here condition thenBody elseIfs elseBody =>
    rw [Node.bodies_branch]
    exact List.mem_cons_of_mem _ (List.mem_append_left _ (List.mem_map_of_mem h))
  | _ => cases h

theorem Reaches.wellPlaced (hreach : Reaches program s) (h : parse source = .ok program) :
    (Node.statement s).WellPlaced source := by
  obtain ⟨i, j, laid⟩ := hreach.laid fun s hs => by
    obtain ⟨a, b, -, -, laid⟩ := (parseTokens_lines h).laid_of_mem hs
    exact ⟨a, b, laid⟩
  exact laid.wellPlaced (lex_ordered source)

theorem Ordered.exists_chain {ts : List Token} (h : Ordered source ts) {es : List Extent} {lo i j : Nat}
    (hes : Spread ts es i j) (hlo : ∀ e ∈ es, lo ≤ e.span.start) : ∃ hi, Chain lo hi es := by
  have hordered := h.spread_pairwise hes
  induction hes generalizing lo with
  | nil => exact ⟨lo, Nat.le_refl lo⟩
  | cons hia hab hb _ ih =>
    obtain ⟨hhead, htail⟩ := List.pairwise_cons.1 hordered
    obtain ⟨hi, hrest⟩ := ih hhead htail
    exact ⟨hi, hlo _ (List.mem_cons_self ..), h.extentBetween_lt hab hb, hrest⟩

theorem exists_visited (h : parse source = .ok program) :
    ∃ hi, Visited 0 hi (claimants (visitAll program)) := by
  obtain ⟨hi, hchain⟩ :=
    (lex_ordered source).exists_chain (parseTokens_lines h).spread fun _ _ => Nat.zero_le _
  exact ⟨hi, visited_visitAll hchain (visited_of_wellPlaced fun s hs => hs.wellPlaced h)⟩

theorem LineIndex.line_mono (index : LineIndex) {a b : Nat} (h : a ≤ b) :
    (index.position a).line ≤ (index.position b).line := by
  have htake : index.starts.takeWhile (· ≤ a)
      = (index.starts.takeWhile (· ≤ b)).takeWhile (· ≤ a) := by
    rw [List.takeWhile_takeWhile]
    congr 1
    funext x
    simp only [decide_eq_true_eq, decide_eq_decide]
    omega
  show (index.starts.takeWhile (· ≤ a)).length ≤ (index.starts.takeWhile (· ≤ b)).length
  rw [htake]
  exact (List.takeWhile_sublist _).length_le

theorem startLine_of_between {a b c : Extent} {line : Nat}
    (hplaced : ∀ e ∈ [a, b, c], e.location.start = (LineIndex.ofText source).position e.span.start)
    (hab : a.span.start ≤ b.span.start) (hbc : b.span.start ≤ c.span.start)
    (ha : a.startLine = line) (hc : c.startLine = line) : b.startLine = line := by
  have hab := (LineIndex.ofText source).line_mono hab
  have hbc := (LineIndex.ofText source).line_mono hbc
  rw [← hplaced a (by simp), ← hplaced b (by simp)] at hab
  rw [← hplaced b (by simp), ← hplaced c (by simp)] at hbc
  simp only [Extent.startLine, Position.lineIndex] at ha hc ⊢
  omega

theorem Header.located {line : Nat} {clause : ElseIf Extent} (h : parse source = .ok program)
    (hclause : Header program line clause) :
    clause.keyword.location.start = (LineIndex.ofText source).position clause.keyword.span.start := by
  obtain ⟨s, hreach, hmem⟩ := hclause.reached
  rw [(hreach.wellPlaced h).located _ (List.mem_cons_of_mem _ (Statement.keyword_mem_parts hmem))]

/-! ### The owner of a line -/

variable {line : Nat} {clause : ElseIf Extent} {o : Owner}

theorem candidate_iff : Candidate program line s ↔
    .statement s ∈ claimants (visitAll program) ∧ s.here.startLine = line := by
  rw [statement_mem_claimants]
  exact ⟨fun h => ⟨⟨h.reached, h.claims⟩, h.starts⟩, fun h => ⟨h.1.1, h.1.2, h.2⟩⟩

theorem header_iff : Header program line clause ↔
    .elseIf clause ∈ claimants (visitAll program) ∧ clause.keyword.startLine = line := by
  rw [elseIf_mem_claimants]
  exact ⟨fun h => ⟨h.reached, h.starts⟩, fun h => ⟨h.1, h.2⟩⟩

/-- The owner of a line is visited before all others that claim the line. -/
theorem before_of_owner (h : parse source = .ok program) (ho : (classify program).get? line = some o) :
    (o ∈ claimants (visitAll program) ∧ o.here.startLine = line) ∧
      ∀ o' ∈ claimants (visitAll program), o'.here.startLine = line → o' = o ∨ o.Before o' := by
  obtain ⟨hi, hvisited⟩ := exists_visited h
  have hordered := hvisited.ordered
  rw [get?_classify, List.find?_eq_some_iff_append] at ho
  obtain ⟨hline, passed, rest, heq, hpassed⟩ := ho
  rw [heq] at hordered ⊢
  refine ⟨⟨by simp, of_decide_eq_true hline⟩, fun o' ho' hline' => ?_⟩
  rcases List.mem_append.1 ho' with ho' | ho'
  · have := hpassed o' ho'
    simp [hline'] at this
  · have hlater := (List.pairwise_cons.1 (List.pairwise_append.1 hordered).2.1).1
    exact (List.mem_cons.1 ho').imp_right (hlater o')

theorem no_owner_iff : (classify program).get? line = none ↔
    (¬∃ s, Candidate program line s) ∧ ¬∃ clause, Header program line clause := by
  rw [get?_classify, List.find?_eq_none]
  constructor
  · intro hnone
    constructor
    · rintro ⟨s, hs⟩
      obtain ⟨hmem, hline⟩ := candidate_iff.1 hs
      exact hnone _ hmem (decide_eq_true hline)
    · rintro ⟨clause, hclause⟩
      obtain ⟨hmem, hline⟩ := header_iff.1 hclause
      exact hnone _ hmem (decide_eq_true hline)
  · rintro ⟨hstatements, hclauses⟩ o ho hline
    cases o with
    | statement s => exact hstatements ⟨s, candidate_iff.2 ⟨ho, of_decide_eq_true hline⟩⟩
    | elseIf clause => exact hclauses ⟨clause, header_iff.2 ⟨ho, of_decide_eq_true hline⟩⟩

theorem least_of_first {α : Type} {P : α → Prop} {f : α → Nat} {a : α} (ha : P a)
    (h : ∀ b, P b → b = a ∨ f a < f b) :
    (∀ b, P b → f a ≤ f b) ∧ ∀ b, P b → (∀ c, P c → f b ≤ f c) → b = a := by
  refine ⟨fun b hb => ?_, fun b hb hleast => ?_⟩
  · rcases h b hb with rfl | hlt
    · exact Nat.le_refl _
    · exact hlt.le
  · exact (h b hb).resolve_right (hleast a ha).not_gt

/-- If a statement owns the line, it is the one that starts first on it, before any clause with its
keyword on the line ends. -/
theorem earliest_of_owner (h : parse source = .ok program)
    (ho : (classify program).get? line = some (.statement s)) : IsEarliest program line s ∧
      (∀ s', IsEarliest program line s' → s' = s) ∧
      ∀ clause, Header program line clause → s.here.span.start < clause.stop := by
  obtain ⟨hs, hfirst⟩ := before_of_owner h ho
  have hstatements : ∀ s', Candidate program line s' →
      s' = s ∨ s.here.span.start < s'.here.span.start := by
    intro s' hs'
    obtain ⟨hmem, hline⟩ := candidate_iff.1 hs'
    rcases hfirst _ hmem hline with heq | hlt
    · injection heq with heq
      exact .inl heq
    · exact .inr hlt
  obtain ⟨hleast, hunique⟩ :=
    least_of_first (f := fun s : Statement Extent => s.here.span.start) (candidate_iff.2 hs) hstatements
  refine ⟨⟨candidate_iff.2 hs, hleast⟩, fun s' hs' => hunique s' hs'.1 hs'.2, fun clause hclause => ?_⟩
  obtain ⟨hmem, hline⟩ := header_iff.1 hclause
  exact (hfirst _ hmem hline).resolve_left nofun

theorem firstHeader_of_owner (h : parse source = .ok program)
    (ho : (classify program).get? line = some (.elseIf clause)) : IsFirstHeader program line clause ∧
      (∀ clause', IsFirstHeader program line clause' → clause' = clause) ∧
      ∀ s, Candidate program line s → clause.stop ≤ s.here.span.start := by
  obtain ⟨hclause, hfirst⟩ := before_of_owner h ho
  have hstatements : ∀ s, Candidate program line s → clause.stop ≤ s.here.span.start := by
    intro s hs
    obtain ⟨hmem, hline⟩ := candidate_iff.1 hs
    exact (hfirst _ hmem hline).resolve_left nofun
  have hclauses : ∀ clause', Header program line clause' →
      clause' = clause ∨ clause.keyword.span.start < clause'.keyword.span.start := by
    intro clause' hclause'
    obtain ⟨hmem, hline⟩ := header_iff.1 hclause'
    rcases hfirst _ hmem hline with heq | hlt | ⟨s, hreach, hinner, hafter, hbefore⟩
    · injection heq with heq
      exact .inl heq
    · exact .inr hlt
    · -- the `if` of the owner would start on the line, before the owner ends
      obtain ⟨outer, houter, hmem'⟩ := hclause'.reached
      have hreach := houter.within (Statement.body_mem_bodies hmem') hreach
      have hlocated : s.here.location.start = _ :=
        congrArg Location.start ((hreach.wellPlaced h).located _ (List.mem_cons_self ..))
      have hstarts : s.here.startLine = line := startLine_of_between
        (List.forall_mem_cons.2 ⟨hclause'.located h, List.forall_mem_cons.2 ⟨hlocated,
          List.forall_mem_singleton.2 ((header_iff.2 hclause).located h)⟩⟩)
        hafter hbefore hline hclause.2
      have hstop := hstatements s ⟨hreach, Statement.claims_of_mem_clauses hinner, hstarts⟩
      obtain ⟨hi, hvisited⟩ := exists_visited h
      have hne : clause.keyword.span.start < clause.stop := (hvisited.inside _ hclause.1).2.1
      omega
  obtain ⟨hleast, hunique⟩ :=
    least_of_first (f := fun clause : ElseIf Extent => clause.keyword.span.start) (header_iff.2 hclause)
      hclauses
  exact ⟨⟨header_iff.2 hclause, hleast⟩, fun clause' hclause' => hunique clause' hclause'.1 hclause'.2,
    hstatements⟩

/-- A line has an owner if a statement that can own it starts on it or the keyword of a clause stands on
it. The owner is the clause with the first keyword if the first statement on the line, if any, starts
after the end of that clause, and otherwise the statement that starts first. -/
theorem owner_iff (h : parse source = .ok program) (line : Nat) :
    ((classify program).get? line = none ↔
      (¬∃ s, Candidate program line s) ∧ ¬∃ clause, Header program line clause) ∧
    (∀ clause, (classify program).get? line = some (.elseIf clause) ↔
      IsFirstHeader program line clause ∧
        ∀ s, IsEarliest program line s → clause.stop ≤ s.here.span.start) ∧
    ∀ s, (classify program).get? line = some (.statement s) ↔
      IsEarliest program line s ∧
        ∀ clause, IsFirstHeader program line clause → s.here.span.start < clause.stop := by
  refine ⟨no_owner_iff, fun clause => ⟨fun ho => ?_, fun ⟨hclause, hafter⟩ => ?_⟩,
    fun s => ⟨fun ho => ?_, fun ⟨hs, hbefore⟩ => ?_⟩⟩
  · obtain ⟨hclause, -, hafter⟩ := firstHeader_of_owner h ho
    exact ⟨hclause, fun s hs => hafter s hs.1⟩
  · cases ho : (classify program).get? line with
    | none => exact absurd ⟨clause, hclause.1⟩ (no_owner_iff.1 ho).2
    | some owner =>
      cases owner with
      | statement s =>
        obtain ⟨hs, -, hbefore⟩ := earliest_of_owner h ho
        exact absurd (hbefore clause hclause.1) (hafter s hs).not_gt
      | elseIf clause' => rw [(firstHeader_of_owner h ho).2.1 clause hclause]
  · obtain ⟨hs, -, hbefore⟩ := earliest_of_owner h ho
    exact ⟨hs, fun clause hclause => hbefore clause hclause.1⟩
  · cases ho : (classify program).get? line with
    | none => exact absurd ⟨s, hs.1⟩ (no_owner_iff.1 ho).1
    | some owner =>
      cases owner with
      | statement s' => rw [(earliest_of_owner h ho).2.1 s hs]
      | elseIf clause =>
        obtain ⟨hclause, -, hafter⟩ := firstHeader_of_owner h ho
        exact absurd (hafter s hs.1) (hbefore clause hclause).not_ge

/-- A clause without statements owns its line, though a statement follows behind the end of the `if`. -/
theorem owner_iff_print_behind_clause : ∃ program clause s,
    parse "if a\nelse if b : end if : print 1".toList = .ok program ∧ Candidate program 1 s ∧
      (classify program).get? 1 = some (.elseIf clause) ∧ IsFirstHeader program 1 clause ∧
      ∀ s, IsEarliest program 1 s → clause.stop ≤ s.here.span.start := by
  have hparse : parse "if a\nelse if b : end if : print 1".toList = .ok [
      .branch ⟨⟨0, 23⟩, ⟨⟨1, 0⟩, ⟨2, 18⟩⟩⟩ (.identifier ⟨⟨3, 4⟩, ⟨⟨1, 3⟩, ⟨1, 4⟩⟩⟩ "a") []
        [.mk ⟨⟨5, 12⟩, ⟨⟨2, 0⟩, ⟨2, 7⟩⟩⟩ (.identifier ⟨⟨13, 14⟩, ⟨⟨2, 8⟩, ⟨2, 9⟩⟩⟩ "b") []] none,
      .print ⟨⟨26, 33⟩, ⟨⟨2, 21⟩, ⟨2, 28⟩⟩⟩
        [.mk (.integer ⟨⟨32, 33⟩, ⟨⟨2, 27⟩, ⟨2, 28⟩⟩⟩ 1) none]] := rfl
  exact ⟨_, _, _, hparse, ⟨.mem (List.mem_cons_of_mem _ (List.mem_singleton.2 rfl)), rfl, rfl⟩, rfl,
    ((owner_iff hparse 1).2.1 _).1 rfl⟩

end Accepted

end BrightCoverage
