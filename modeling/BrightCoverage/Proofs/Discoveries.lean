import Mathlib.Data.List.Perm.Subperm
import BrightCoverage.Files.Discovery

/-! What a list of file patterns finds, whatever reads the patterns. A project goes through its
inclusions one after another and keeps a file unless an exclusion matches its path or it has been
kept before. The outcome is that of the first pattern in error, or the matches of all inclusions
without those of the exclusions, each file once. From this it follows what becomes of the outcome
when patterns are moved or added. -/

namespace BrightCoverage

/-! ### Reading one item after another -/

def FirstFault {ε α β : Type} (read : α → Except ε β) (xs : List α) (e : ε) : Prop :=
  ∃ before x after, xs = before ++ x :: after ∧ (∀ y ∈ before, ∃ b, read y = .ok b) ∧
    read x = .error e

section Reading

variable {ε α β γ : Type} {read : α → Except ε β} {xs : List α} {e : ε}

theorem exists_firstFault (h : ∃ x ∈ xs, ∃ e, read x = .error e) : ∃ e, FirstFault read xs e := by
  induction xs with
  | nil => simp at h
  | cons x xs ih =>
    cases hx : read x with
    | error e => exact ⟨e, [], x, xs, rfl, List.forall_mem_nil _, hx⟩
    | ok b =>
      obtain ⟨y, hy, e, he⟩ := h
      rcases List.mem_cons.1 hy with rfl | hy
      · rw [hx] at he
        cases he
      · obtain ⟨e, before, z, after, rfl, hbefore, hz⟩ := ih ⟨y, hy, e, he⟩
        exact ⟨e, x :: before, z, after, rfl, List.forall_mem_cons.2 ⟨⟨b, hx⟩, hbefore⟩, hz⟩

theorem FirstFault.mapM_eq (h : FirstFault read xs e) : xs.mapM read = .error e := by
  obtain ⟨before, x, after, rfl, hbefore, hx⟩ := h
  induction before with
  | nil =>
    rw [List.nil_append, List.mapM_cons, hx]
    rfl
  | cons y before ih =>
    obtain ⟨⟨b, hy⟩, hbefore⟩ := List.forall_mem_cons.1 hbefore
    rw [List.cons_append, List.mapM_cons, hy, ih hbefore]
    rfl

theorem mapM_eq_ok {f : α → β} (h : ∀ x ∈ xs, read x = .ok (f x)) :
    xs.mapM read = .ok (xs.map f) := by
  induction xs with
  | nil => rfl
  | cons x xs ih =>
    obtain ⟨hx, hxs⟩ := List.forall_mem_cons.1 h
    rw [List.mapM_cons, hx, ih hxs]
    rfl

theorem mapM_map {f : β → γ} :
    xs.mapM (fun x => (read x).map f) = (xs.mapM read).map (List.map f) := by
  induction xs with
  | nil => rfl
  | cons x xs ih =>
    rw [List.mapM_cons, List.mapM_cons, ih]
    cases read x with
    | error e => rfl
    | ok b => cases xs.mapM read <;> rfl

theorem foldlM_foldl {read : α → Except ε (List β)} {step : γ → β → γ} {c : γ} :
    xs.foldlM (fun c x => do return (← read x).foldl step c) c
      = (xs.mapM read).map fun found => found.flatten.foldl step c := by
  induction xs generalizing c with
  | nil => rfl
  | cons x xs ih =>
    rw [List.foldlM_cons, List.mapM_cons]
    cases read x with
    | error e => rfl
    | ok found =>
      refine (ih (c := found.foldl step c)).trans ?_
      cases xs.mapM read with
      | error e => rfl
      | ok rest => simp [bind, Except.bind, pure, Except.pure, Except.map]

end Reading

namespace Discovery

/-! ### Keeping each file once -/

theorem sameSteps_iff {a b : List String} :
    sameSteps a b = true ↔ a.filter (· ≠ ".") = b.filter (· ≠ ".") := by
  simp [sameSteps]

def keep (kept : List (List String)) (steps : List String) : List (List String) :=
  if kept.any (sameSteps steps) then kept else kept ++ [steps]

theorem keep_of_mem {kept : List (List String)} {steps other : List String} (hother : other ∈ kept)
    (hsame : sameSteps steps other = true) : keep kept steps = kept :=
  if_pos (List.any_eq_true.2 ⟨other, hother, hsame⟩)

theorem keep_of_new {kept : List (List String)} {steps : List String}
    (h : ∀ other ∈ kept, ¬ sameSteps steps other = true) : keep kept steps = kept ++ [steps] :=
  if_neg fun hany => by
    obtain ⟨other, hother, hsame⟩ := List.any_eq_true.1 hany
    exact h other hother hsame

theorem keep_cases (kept : List (List String)) (steps : List String) :
    (∃ other ∈ kept, sameSteps steps other = true ∧ keep kept steps = kept) ∨
      (∀ other ∈ kept, ¬ sameSteps steps other = true) ∧ keep kept steps = kept ++ [steps] := by
  by_cases h : ∃ other ∈ kept, sameSteps steps other = true
  · obtain ⟨other, hother, hsame⟩ := h
    exact .inl ⟨other, hother, hsame, keep_of_mem hother hsame⟩
  · have hnew : ∀ other ∈ kept, ¬ sameSteps steps other = true :=
      fun other hother hsame => h ⟨other, hother, hsame⟩
    exact .inr ⟨hnew, keep_of_new hnew⟩

theorem foldl_keep_eq_eraseDupsBy (found : List (List String)) :
    found.foldl keep [] = found.eraseDupsBy sameSteps := by
  have h : ∀ kept, found.foldl keep kept = List.eraseDupsBy.loop sameSteps found kept.reverse := by
    induction found with
    | nil => intro kept; simp [List.eraseDupsBy.loop]
    | cons steps found ih =>
      intro kept
      rw [List.foldl_cons, ih, List.eraseDupsBy.loop, keep, List.any_reverse]
      cases kept.any (sameSteps steps) <;> simp
  exact h []

theorem foldl_keep_eq_firsts (found kept : List (List String)) :
    found.foldl keep kept = kept ++ (firsts found).filter fun s => !kept.any (sameSteps s) := by
  induction found generalizing kept with
  | nil => simp [firsts]
  | cons steps found ih =>
    rw [List.foldl_cons, ih, firsts, List.filter_cons, List.filter_filter, keep]
    cases hkept : kept.any (sameSteps steps) with
    | true =>
      simp only [if_true, Bool.not_true, Bool.false_eq_true, if_false]
      congr 1
      refine List.filter_congr fun s _ => ?_
      obtain ⟨other, hother, hsame⟩ := List.any_eq_true.1 hkept
      cases hs : sameSteps steps s with
      | false => simp
      | true =>
        have hany : kept.any (sameSteps s) = true := by
          rw [sameSteps_iff] at hs hsame
          exact List.any_eq_true.2 ⟨other, hother, sameSteps_iff.2 (hs.symm.trans hsame)⟩
        simp [hany]
    | false =>
      have hcomm : ∀ s, sameSteps s steps = sameSteps steps s := by
        intro s
        rw [Bool.eq_iff_iff, sameSteps_iff, sameSteps_iff, eq_comm]
      simp [List.append_assoc, hcomm]

theorem prefix_keep (kept : List (List String)) (steps : List String) : kept <+: keep kept steps := by
  rcases keep_cases kept steps with ⟨-, -, -, h⟩ | ⟨-, h⟩
  · exact ⟨[], by rw [h, List.append_nil]⟩
  · exact ⟨[steps], h.symm⟩

theorem prefix_foldl_keep (found kept : List (List String)) : kept <+: found.foldl keep kept := by
  induction found generalizing kept with
  | nil => exact List.prefix_refl kept
  | cons steps found ih => exact (prefix_keep kept steps).trans (ih (keep kept steps))

/-- What is kept from the files that are not taken away, beside what is kept from all files: the files
that stay do so in their order, and any other is written otherwise than one that is taken away. -/
structure Uncovers (taken : List String → Bool) (kept kept' : List (List String)) : Prop where
  stays : (kept.filter fun steps => !taken steps).Sublist kept'
  free : ∀ steps ∈ kept', taken steps = false
  origin : ∀ steps ∈ kept', steps ∈ kept ∨ ∃ other ∈ kept, taken other = true ∧
    sameSteps other steps = true

namespace Uncovers

variable {taken : List String → Bool} {kept kept' : List (List String)} {steps : List String}

theorem more (h : Uncovers taken kept kept') (htaken : taken steps = true) :
    Uncovers taken (keep kept steps) kept' := by
  rcases keep_cases kept steps with ⟨-, -, -, hkeep⟩ | ⟨-, hkeep⟩ <;> rw [hkeep]
  · exact h
  · refine ⟨by simpa [htaken] using h.stays, h.free, fun s hs => ?_⟩
    rcases h.origin s hs with hs | ⟨other, hother, hgone⟩
    · exact .inl (List.mem_append_left _ hs)
    · exact .inr ⟨other, List.mem_append_left _ hother, hgone⟩

theorem both (h : Uncovers taken kept kept') (htaken : taken steps = false) :
    Uncovers taken (keep kept steps) (keep kept' steps) := by
  have hfree : ∀ s ∈ kept' ++ [steps], taken s = false :=
    List.forall_mem_append.2 ⟨h.free, by simpa using htaken⟩
  rcases keep_cases kept steps with ⟨other, hother, hsame, hkeep⟩ | ⟨hnew, hkeep⟩ <;> rw [hkeep]
  · rcases keep_cases kept' steps with ⟨-, -, -, hkeep'⟩ | ⟨hnew', hkeep'⟩ <;> rw [hkeep']
    · exact h
    · -- The file that was kept for this one has been taken away.
      have hgone : taken other = true := by
        by_contra hstays
        refine hnew' other (h.stays.subset (List.mem_filter.2 ⟨hother, ?_⟩)) hsame
        simpa using hstays
      refine ⟨h.stays.trans (List.sublist_append_left _ _), hfree,
        List.forall_mem_append.2 ⟨h.origin, List.forall_mem_singleton.2 (.inr ?_)⟩⟩
      exact ⟨other, hother, hgone, sameSteps_iff.2 (sameSteps_iff.1 hsame).symm⟩
  · have hnew' : ∀ other ∈ kept', ¬ sameSteps steps other = true := by
      intro s hs hsame
      rcases h.origin s hs with hs | ⟨other, hother, -, hother'⟩
      · exact hnew s hs hsame
      · refine hnew other hother (sameSteps_iff.2 ?_)
        exact (sameSteps_iff.1 hsame).trans (sameSteps_iff.1 hother').symm
    rw [keep_of_new hnew']
    refine ⟨?_, hfree, List.forall_mem_append.2 ⟨fun s hs => ?_, fun s hs => ?_⟩⟩
    · rw [List.filter_append]
      exact h.stays.append List.filter_sublist
    · rcases h.origin s hs with hs | ⟨other, hother, hgone⟩
      · exact .inl (List.mem_append_left _ hs)
      · exact .inr ⟨other, List.mem_append_left _ hother, hgone⟩
    · exact .inl (List.mem_append_right _ hs)

theorem foldl_keep (h : Uncovers taken kept kept') (found : List (List String)) :
    Uncovers taken (found.foldl keep kept)
      ((found.filter fun steps => !taken steps).foldl keep kept') := by
  induction found generalizing kept kept' with
  | nil => exact h
  | cons steps found ih =>
    rw [List.foldl_cons, List.filter_cons]
    cases htaken : taken steps with
    | true => exact ih (h.more htaken)
    | false => exact ih (h.both htaken)

end Uncovers

/-- Where files with the same steps are taken away together, the others are kept as they were. -/
theorem foldl_keep_filter {taken : List String → Bool} {found kept : List (List String)}
    (halike : ∀ a ∈ kept ++ found, ∀ b ∈ kept ++ found, sameSteps a b = true → taken a = taken b) :
    (found.filter fun steps => !taken steps).foldl keep (kept.filter fun steps => !taken steps)
      = (found.foldl keep kept).filter fun steps => !taken steps := by
  induction found generalizing kept with
  | nil => rfl
  | cons steps found ih =>
    have hsubset : keep kept steps ++ found ⊆ kept ++ steps :: found := by
      unfold keep
      split <;> intro s <;> simp +contextual [or_imp]
    have halike' : ∀ a ∈ keep kept steps ++ found, ∀ b ∈ keep kept steps ++ found,
        sameSteps a b = true → taken a = taken b :=
      fun a ha b hb => halike a (hsubset ha) b (hsubset hb)
    rw [List.foldl_cons, ← ih halike', List.filter_cons]
    cases htaken : taken steps with
    | true =>
      have hkept : (keep kept steps).filter (fun s => !taken s) = kept.filter fun s => !taken s := by
        rcases keep_cases kept steps with ⟨-, -, -, hkeep⟩ | ⟨-, hkeep⟩ <;> simp [hkeep, htaken]
      rw [hkept]
      rfl
    | false =>
      have hkept : keep (kept.filter fun s => !taken s) steps
          = (keep kept steps).filter fun s => !taken s := by
        rcases keep_cases kept steps with ⟨other, hother, hsame, hkeep⟩ | ⟨hnew, hkeep⟩
        · have heq := halike steps (by simp) other (List.mem_append_left _ hother) hsame
          rw [hkeep, keep_of_mem (List.mem_filter.2 ⟨hother, by simp [← heq, htaken]⟩) hsame]
        · rw [hkeep, keep_of_new fun other hother => hnew other (List.mem_filter.1 hother).1]
          simp [htaken]
      rw [← hkept]
      rfl

/-! ### Discovery as a loop -/

/-- What reads file patterns: an exclusion becomes a test of paths, and an inclusion leads to places.
A project without a root has a fault of its own. -/
structure Globbing (ε : Type) where
  exclusion : String → Except ε (String → Bool)
  inclusion : String → Except ε (List Spot)
  noRoot : ε

def exclusions (patterns : List String) : List String :=
  patterns.filterMap exclusion?

def inclusions (patterns : List String) : List String :=
  patterns.filter fun pattern => (exclusion? pattern).isNone

namespace Globbing

variable {ε : Type}

/-- How file patterns are read in a tree, seen from the root of a project. -/
def ofTree (tree : FileTree) (root : String) : Globbing DiscoveryError where
  exclusion pattern := (readExclusion pattern).map fun glob path => glob.accepts path.toList
  inclusion pattern := (readInclusion pattern).map fun walkPattern =>
    match startSpot tree root pattern with
    | some spot => tree.search spot walkPattern
    | none => []
  noRoot := .emptyRoot

/-- Goes on with a place: a source file below the root is kept unless an exclusion matches it or it
has been kept before. -/
def visit (tree : FileTree) (root : String) (tests : List (String → Bool))
    (kept : List (List String)) (spot : Spot) : List (List String) :=
  match sourceSteps? tree root spot with
  | none => kept
  | some steps => if tests.any (· (Path.ofSegments steps)) then kept else keep kept steps

def discover (g : Globbing ε) (tree : FileTree) (root : String) (patterns : List String) :
    Except ε (List (List String)) := do
  let tests ← (exclusions patterns).mapM g.exclusion
  if root = "" then throw g.noRoot
  (inclusions patterns).foldlM (fun kept pattern => do
    return (← g.inclusion pattern).foldl (visit tree root tests) kept) []

structure Valid (g : Globbing ε) (patterns : List String) : Prop where
  exclusions : ∀ x ∈ exclusions patterns, ∃ test, g.exclusion x = .ok test
  inclusions : ∀ p ∈ inclusions patterns, ∃ spots, g.inclusion p = .ok spots

def excludes (g : Globbing ε) (x path : String) : Bool :=
  match g.exclusion x with
  | .ok test => test path
  | .error _ => false

def takes (g : Globbing ε) (x : String) (steps : List String) : Bool :=
  g.excludes x (Path.ofSegments steps)

/-- The places to which an inclusion leads. -/
def spots (g : Globbing ε) (pattern : String) : List Spot :=
  match g.inclusion pattern with
  | .ok spots => spots
  | .error _ => []

/-- The matches of the inclusions, one inclusion after another, that are source files below the root
and that no exclusion matches. -/
def matched (g : Globbing ε) (tree : FileTree) (root : String) (patterns : List String) :
    List (List String) :=
  ((inclusions patterns).flatMap fun p => (g.spots p).filterMap (sourceSteps? tree root)).filter
    fun steps => !(exclusions patterns).any fun x => g.takes x steps

variable {g : Globbing ε} {tree : FileTree} {root : String} {patterns : List String}

theorem foldl_visit (tests : List (String → Bool)) (found : List Spot)
    (kept : List (List String)) : found.foldl (visit tree root tests) kept
      = ((found.filterMap (sourceSteps? tree root)).filter fun steps =>
          !tests.any (· (Path.ofSegments steps))).foldl keep kept := by
  induction found generalizing kept with
  | nil => rfl
  | cons spot found ih =>
    rw [List.foldl_cons, ih, visit, List.filterMap_cons]
    cases sourceSteps? tree root spot with
    | none => rfl
    | some steps =>
      simp only [List.filter_cons]
      cases tests.any (· (Path.ofSegments steps)) <;> rfl

theorem discover_of_error {e : ε} (h : (exclusions patterns).mapM g.exclusion = .error e) :
    g.discover tree root patterns = .error e := by
  rw [discover, h]
  rfl

theorem discover_of_noRoot {tests : List (String → Bool)}
    (h : (exclusions patterns).mapM g.exclusion = .ok tests) :
    g.discover tree "" patterns = .error g.noRoot := by
  rw [discover, h]
  rfl

theorem discover_of_ok {tests : List (String → Bool)}
    (h : (exclusions patterns).mapM g.exclusion = .ok tests) (hroot : root ≠ "") :
    g.discover tree root patterns = ((inclusions patterns).mapM g.inclusion).map fun found =>
      ((found.flatten.filterMap (sourceSteps? tree root)).filter fun steps =>
        !tests.any (· (Path.ofSegments steps))).foldl keep [] := by
  rw [discover, h]
  simp only [← foldl_visit]
  rw [← foldlM_foldl]
  show (if root = "" then _ else _) = _
  rw [if_neg hroot]

theorem discover_ofTree (tree : FileTree) (root : String) (patterns : List String) :
    BrightCoverage.discover tree root patterns
      = ((ofTree tree root).discover tree root patterns).map (List.map Path.ofSegments) := by
  have hincluded : included tree root = fun p => ((ofTree tree root).inclusion p).map
      (List.filterMap (sourceSteps? tree root)) := by
    funext p
    simp only [included, ofTree]
    cases readInclusion p with
    | error e => rfl
    | ok walkPattern => cases startSpot tree root p <;> rfl
  have htests : (exclusions patterns).mapM (ofTree tree root).exclusion
      = ((exclusions patterns).mapM readExclusion).map
        (List.map fun glob (path : String) => glob.accepts path.toList) := mapM_map
  unfold BrightCoverage.discover
  rw [← exclusions, ← inclusions]
  cases hx : (exclusions patterns).mapM readExclusion with
  | error e =>
    rw [hx] at htests
    rw [discover_of_error htests]
    rfl
  | ok globs =>
    rw [hx] at htests
    by_cases hroot : root = ""
    · subst hroot
      rw [discover_of_noRoot htests]
      rfl
    · rw [discover_of_ok htests hroot]
      show (if root = "" then _ else (inclusions patterns).mapM (included tree root) >>= _) = _
      rw [if_neg hroot, hincluded, mapM_map]
      cases (inclusions patterns).mapM (ofTree tree root).inclusion with
      | error e => rfl
      | ok found =>
        have hkept : ∀ steps, isExcluded globs steps = (globs.map fun glob (path : String) =>
            glob.accepts path.toList).any (· (Path.ofSegments steps)) := by
          intro steps
          rw [isExcluded, List.any_map]
          rfl
        simp only [Except.map, foldl_keep_eq_firsts, List.filterMap_flatten, ← hkept]
        simp [bind, Except.bind, pure, Except.pure]

theorem exclusion_eq {x : String} (h : ∃ test, g.exclusion x = .ok test) :
    g.exclusion x = .ok (g.excludes x) := by
  obtain ⟨test, h⟩ := h
  rw [h]
  exact congrArg _ (funext fun path => by rw [excludes, h])

theorem inclusion_eq {p : String} (h : ∃ spots, g.inclusion p = .ok spots) :
    g.inclusion p = .ok (g.spots p) := by
  obtain ⟨found, h⟩ := h
  rw [spots, h]

theorem discover_of_valid (h : g.Valid patterns) : g.discover tree root patterns
    = if root = "" then .error g.noRoot else .ok ((g.matched tree root patterns).foldl keep []) := by
  have htests := mapM_eq_ok fun x hx => exclusion_eq (h.exclusions x hx)
  split
  · next hroot => rw [hroot, discover_of_noRoot htests]
  · next hroot =>
    rw [discover_of_ok htests hroot, mapM_eq_ok fun p hp => inclusion_eq (h.inclusions p hp),
      matched, List.flatMap_def]
    simp only [Except.map, List.filterMap_flatten, List.map_map, List.any_map]
    rfl

/-- What the outcome of some patterns is, and what becomes of it when patterns are moved or added. -/
structure FirstMatches (g : Globbing ε) (tree : FileTree) (root : String) (patterns : List String) :
    Prop where
  /-- The first exclusion in error counts before everything else. -/
  bad_exclusion : (∃ x ∈ exclusions patterns, ∃ e, g.exclusion x = .error e) →
    ∃ e, FirstFault g.exclusion (exclusions patterns) e ∧ g.discover tree root patterns = .error e
  /-- Then, below a root, the first inclusion in error counts. -/
  bad_inclusion : (∀ x ∈ exclusions patterns, ∃ test, g.exclusion x = .ok test) → root ≠ "" →
    (∃ p ∈ inclusions patterns, ∃ e, g.inclusion p = .error e) →
    ∃ e, FirstFault g.inclusion (inclusions patterns) e ∧ g.discover tree root patterns = .error e
  /-- Otherwise the matches are kept, each file where it is matched first. -/
  files : g.Valid patterns → root ≠ "" →
    g.discover tree root patterns = .ok ((g.matched tree root patterns).eraseDupsBy sameSteps)
  /-- Exclusions may stand anywhere. -/
  moved : g.Valid patterns → ∀ others, (exclusions others).Perm (exclusions patterns) →
    inclusions others = inclusions patterns →
    g.discover tree root others = g.discover tree root patterns
  /-- A further exclusion takes away what it matches and keeps the order of the rest. -/
  excluded : g.Valid patterns → root ≠ "" → ∀ others x,
    (exclusions others).Perm (x :: exclusions patterns) → inclusions others = inclusions patterns →
    (∃ test, g.exclusion x = .ok test) →
    ∃ kept kept', g.discover tree root patterns = .ok kept ∧
      g.discover tree root others = .ok kept' ∧ Uncovers (g.takes x) kept kept' ∧
      ((∀ a ∈ g.matched tree root patterns, ∀ b ∈ g.matched tree root patterns,
        sameSteps a b = true → g.takes x a = g.takes x b) →
        kept' = kept.filter fun steps => !g.takes x steps)
  /-- A further inclusion adds files behind the others. -/
  included : g.Valid patterns → root ≠ "" → ∀ p, exclusion? p = none →
    (∃ spots, g.inclusion p = .ok spots) → ∃ kept more, g.discover tree root patterns = .ok kept ∧
      g.discover tree root (patterns ++ [p]) = .ok (kept ++ more)

theorem Valid.congr {others : List String} (h : g.Valid patterns)
    (hexclusions : ∀ x ∈ Discovery.exclusions others, x ∈ Discovery.exclusions patterns ∨
      ∃ test, g.exclusion x = .ok test)
    (hinclusions : Discovery.inclusions others = Discovery.inclusions patterns) : g.Valid others := by
  refine ⟨fun x hx => ?_, hinclusions ▸ h.inclusions⟩
  rcases hexclusions x hx with hx | hx
  · exact h.exclusions x hx
  · exact hx

theorem firstMatches (g : Globbing ε) (tree : FileTree) (root : String) (patterns : List String) :
    g.FirstMatches tree root patterns where
  bad_exclusion hbad := by
    obtain ⟨e, he⟩ := exists_firstFault hbad
    exact ⟨e, he, discover_of_error he.mapM_eq⟩
  bad_inclusion hgood hroot hbad := by
    obtain ⟨e, he⟩ := exists_firstFault hbad
    refine ⟨e, he, ?_⟩
    rw [discover_of_ok (mapM_eq_ok fun x hx => exclusion_eq (hgood x hx)) hroot, he.mapM_eq]
    rfl
  files hvalid hroot := by
    rw [discover_of_valid hvalid, if_neg hroot, foldl_keep_eq_eraseDupsBy]
  moved hvalid others hexclusions hinclusions := by
    have hvalid' := hvalid.congr (fun x hx => .inl (hexclusions.mem_iff.1 hx)) hinclusions
    have hmatched : g.matched tree root others = g.matched tree root patterns := by
      simp only [matched, hinclusions, hexclusions.any_eq]
    rw [discover_of_valid hvalid, discover_of_valid hvalid', hmatched]
  excluded hvalid hroot others x hexclusions hinclusions hx := by
    have hvalid' : g.Valid others := by
      refine hvalid.congr (fun y hy => ?_) hinclusions
      rcases List.mem_cons.1 (hexclusions.mem_iff.1 hy) with rfl | hy
      · exact .inr hx
      · exact .inl hy
    have hmatched : g.matched tree root others
        = (g.matched tree root patterns).filter fun steps => !g.takes x steps := by
      simp only [matched, hinclusions, hexclusions.any_eq, List.any_cons, List.filter_filter,
        Bool.not_or]
    refine ⟨_, _, (discover_of_valid hvalid).trans (if_neg hroot),
      (discover_of_valid hvalid').trans (if_neg hroot), ?_, fun halike => ?_⟩
    · rw [hmatched]
      exact Uncovers.foldl_keep ⟨List.Sublist.refl _, List.forall_mem_nil _, List.forall_mem_nil _⟩ _
    · rw [hmatched]
      exact @foldl_keep_filter (g.takes x) (g.matched tree root patterns) [] halike
  included hvalid hroot p hp hread := by
    have hexclusions : exclusions (patterns ++ [p]) = exclusions patterns := by
      simp [exclusions, hp]
    have hinclusions : inclusions (patterns ++ [p]) = inclusions patterns ++ [p] := by
      simp [inclusions, hp]
    have hvalid' : g.Valid (patterns ++ [p]) := by
      refine ⟨hexclusions ▸ hvalid.exclusions, ?_⟩
      rw [hinclusions]
      exact List.forall_mem_append.2 ⟨hvalid.inclusions, List.forall_mem_singleton.2 hread⟩
    have hmatched : g.matched tree root patterns <+: g.matched tree root (patterns ++ [p]) := by
      rw [matched, matched, hexclusions, hinclusions, List.flatMap_append, List.filter_append]
      exact List.prefix_append _ _
    obtain ⟨rest, hrest⟩ := hmatched
    obtain ⟨more, hmore⟩ := prefix_foldl_keep rest ((g.matched tree root patterns).foldl keep [])
    refine ⟨_, more, (discover_of_valid hvalid).trans (if_neg hroot), ?_⟩
    rw [discover_of_valid hvalid', if_neg hroot, ← hrest, List.foldl_append, hmore]

end Globbing

end Discovery

open Discovery in
/-- What a list of file patterns finds, and what becomes of it when patterns are moved or added,
whatever reads the patterns. -/
theorem discover_firstMatches (tree : FileTree) (root : String) (patterns : List String) :
    discover tree root patterns
      = ((Globbing.ofTree tree root).discover tree root patterns).map (List.map Path.ofSegments) ∧
    ∀ (ε : Type) (g : Globbing ε), g.FirstMatches tree root patterns :=
  ⟨Globbing.discover_ofTree tree root patterns, fun _ g => g.firstMatches tree root patterns⟩

open Discovery in
/-- A file found on two ways is still found when an exclusion matches the first of them only. Without
a root an inclusion in error is not noticed. -/
theorem discover_uncovers :
    let tree : FileTree := ⟨[], [(["s"], .dir), (["s", "a.brs"], .file (.text []))]⟩
    (∃ glob, readExclusion "s/a.brs" = .ok glob ∧ glob.accepts "s/a.brs".toList = true) ∧
    discover tree "." ["s/a.brs", "s/./a.brs"] = .ok ["s/a.brs"] ∧
    discover tree "." ["s/a.brs", "s/./a.brs", "!s/a.brs"] = .ok ["s/./a.brs"] ∧
    readInclusion "***" = .error (.badPattern "***" .tooManyStars none) ∧
    discover tree "" ["***"] = .error .emptyRoot := by
  refine ⟨⟨_, rfl, by decide⟩, ?_, ?_, ?_, ?_⟩
  · decide +kernel
  · decide +kernel
  · decide
  · decide

end BrightCoverage
