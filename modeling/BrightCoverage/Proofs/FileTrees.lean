import BrightCoverage.Files.Tree
import BrightCoverage.Proofs.Cutting

/-! Trees of files under writing. A file that can be read is written in place: nothing but its
content changes, so every path leads where it led before. Where directories are made on the way, a
tree only grows. -/

namespace BrightCoverage

section Errors

variable {ε ε' α : Type} {f : ε → ε'} {a : α} {x : Except ε α}

theorem mapError_ok : (Except.ok a : Except ε α).mapError f = .ok a := rfl

theorem mapError_eq_ok : x.mapError f = .ok a ↔ x = .ok a := by
  cases x <;> simp [Except.mapError]

end Errors

namespace Path

variable {path : String}

theorem pieces_ne_nil (path : String) : pieces path ≠ [] := by
  simp [pieces, cutAt_ne_nil]

theorem slash_notMem {piece : String} (h : piece ∈ pieces path) : '/' ∉ piece.toList := by
  obtain ⟨chars, hmem, rfl⟩ := List.mem_map.1 h
  simpa using notMem_of_mem_cutAt hmem

theorem pieces_append (a b : String) : pieces (a ++ "/" ++ b) = pieces a ++ pieces b := by
  simp [pieces, cutAt_append]

theorem pieces_of_notMem (h : '/' ∉ path.toList) : pieces path = [path] := by
  simp [pieces, cutAt_of_notMem h]

theorem pieces_intercalate {ps : List String} (hne : ps ≠ []) (h : ∀ p ∈ ps, '/' ∉ p.toList) :
    pieces ("/".intercalate ps) = ps := by
  induction ps with
  | nil => exact absurd rfl hne
  | cons p ps ih =>
    cases ps with
    | nil => simpa using pieces_of_notMem (h p List.mem_cons_self)
    | cons q qs =>
      rw [String.intercalate_cons_cons, pieces_append, pieces_of_notMem (h p List.mem_cons_self),
        ih (List.cons_ne_nil q qs) fun r hr => h r (List.mem_cons_of_mem _ hr)]
      rfl

theorem isAbsolute_iff {first : String} {others : List String}
    (h : pieces path = first :: others) : isAbsolute path = true ↔ first = "" ∧ others ≠ [] := by
  unfold pieces at h
  unfold isAbsolute
  cases hp : path.toList with
  | nil =>
    rw [hp] at h
    obtain ⟨rfl, rfl⟩ := List.cons.inj h
    simp
  | cons c rest =>
    rw [hp, cutAt] at h
    split at h
    · next hc =>
      obtain ⟨rfl, rfl⟩ := List.cons.inj h
      simp [hc, cutAt_ne_nil]
    · next hc =>
      split at h
      · next hrest => exact absurd hrest (cutAt_ne_nil '/' rest)
      · obtain ⟨rfl, rfl⟩ := List.cons.inj h
        simp [hc, String.ext_iff]

theorem eq_dropIdleEnd_append (ps : List String) : ∃ idles, ps = dropIdleEnd ps ++ idles := by
  refine ⟨(ps.reverse.takeWhile isIdle).reverse, ?_⟩
  rw [dropIdleEnd, ← List.reverse_append, List.takeWhile_append_dropWhile, List.reverse_reverse]

theorem parent?_pieces {parent : String} (h : parent? path = some parent) :
    parent = "" ∨ ∃ first above more, more ≠ [] ∧ pieces path = first :: (above ++ more) ∧
      parent = if first = "" ∧ above = [] then "/" else "/".intercalate (first :: above) := by
  unfold parent? at h
  cases hp : pieces path with
  | nil => exact absurd hp (pieces_ne_nil path)
  | cons first others =>
    rw [hp] at h
    simp only at h
    split at h
    · split at h
      · cases h
      · exact .inl (Option.some.inj h).symm
    · next hne =>
      obtain ⟨idles, hsplit⟩ := eq_dropIdleEnd_append others
      obtain ⟨idles', hsplit'⟩ := eq_dropIdleEnd_append (dropIdleEnd others).dropLast
      refine .inr ⟨first, dropIdleEnd (dropIdleEnd others).dropLast,
        idles' ++ [(dropIdleEnd others).getLast hne] ++ idles, by simp, ?_, ?_⟩
      · rw [List.cons.injEq]
        refine ⟨rfl, ?_⟩
        conv_lhs => rw [hsplit, ← List.dropLast_concat_getLast hne, hsplit']
        simp
      · split at h
        · next hnil =>
          rw [hnil, ← Option.some.inj h]
          by_cases hfirst : first = "" <;> simp [hfirst]
        · next hne' => rw [if_neg fun hand => hne' hand.2, ← Option.some.inj h]

theorem pieces_join (base path : String) :
    ∃ front, pieces (join base path) = front ++ pieces path := by
  unfold join
  split
  · exact ⟨[], rfl⟩
  · split
    · next hslash =>
      obtain ⟨front, hfront⟩ := List.getLast?_eq_some_iff.1 hslash
      refine ⟨pieces (String.ofList front), ?_⟩
      have hbase : base = String.ofList front ++ "/" := by
        apply String.ext
        simp [hfront]
      rw [hbase, pieces_append]
    · exact ⟨pieces base, pieces_append base path⟩

theorem fileName?_join {base path name : String} (h : fileName? path = some name) :
    fileName? (join base path) = some name := by
  obtain ⟨front, hfront⟩ := pieces_join base path
  unfold fileName? segments at h ⊢
  rw [hfront, List.filter_append, List.getLast?_append]
  cases hlast : ((pieces path).filter fun piece => !isIdle piece).getLast? with
  | none =>
    rw [hlast] at h
    cases h
  | some last =>
    rw [hlast] at h
    exact h

theorem pieces_of_fileName? {name : String} (h : fileName? path = some name) :
    isIdle name = false ∧ name ≠ ".." ∧
      ∃ front idles, pieces path = front ++ name :: idles ∧ ∀ p ∈ idles, isIdle p = true := by
  unfold fileName? segments at h
  obtain ⟨hlast, hup⟩ := Option.filter_eq_some_iff.1 h
  obtain ⟨front, hfront⟩ := List.getLast?_eq_some_iff.1 hlast
  obtain ⟨left, right, hpieces, -, hright⟩ := List.filter_eq_append_iff.1 hfront
  obtain ⟨idles', idles, rfl, -, hname, hidles⟩ := List.filter_eq_cons_iff.1 hright
  refine ⟨by simpa using hname, by simpa using hup, left ++ idles', idles, by simp [hpieces], ?_⟩
  intro p hp
  have := List.filter_eq_nil_iff.1 hidles p hp
  simpa using this

end Path

namespace FileTree

def stepOf (piece : String) : String :=
  if piece = "" then "." else piece

/-- The pieces of a path without what stands before a first slash. -/
def trail (pieces : List String) : List String :=
  if pieces.head? = some "" then pieces.tail else pieces

theorem steps_eq (path : String) : steps path = (trail (Path.pieces path)).map stepOf := by
  unfold steps trail
  split
  · next heq =>
    rw [heq]
    rfl
  · next hne =>
    split
    · next h =>
      cases hp : Path.pieces path with
      | nil => rfl
      | cons first others =>
        rw [hp] at h
        exact absurd (Option.some.inj h ▸ hp) (hne others)
    · rfl

theorem steps_parent (tree : FileTree) {path parent : String}
    (h : Path.parent? path = some parent) :
    parent = "" ∨ parent = "/" ∨
      (tree.start parent = tree.start path ∧ ∃ more, more ≠ [] ∧
        steps path = steps parent ++ more) := by
  obtain rfl | ⟨first, above, more, hmore, hpath, hparent⟩ := Path.parent?_pieces h
  · exact .inl rfl
  · split at hparent
    · exact .inr (.inl hparent)
    · next hroot =>
      have hpieces : Path.pieces parent = first :: above := by
        rw [hparent]
        refine Path.pieces_intercalate (List.cons_ne_nil _ _) fun p hmem => ?_
        have hmem' : p ∈ Path.pieces path := by
          rw [hpath]
          exact List.mem_append_left more hmem
        exact Path.slash_notMem hmem'
      have habsolute : Path.isAbsolute parent = Path.isAbsolute path := by
        rw [Bool.eq_iff_iff, Path.isAbsolute_iff hpieces, Path.isAbsolute_iff hpath]
        simp only [not_and] at hroot
        simp only [ne_eq, List.append_eq_nil_iff, hmore, and_false, not_false_eq_true, and_true,
          and_iff_left_iff_imp]
        exact hroot
      refine .inr (.inr ⟨by rw [start, start, habsolute], more.map stepOf, by simpa using hmore, ?_⟩)
      rw [steps_eq, steps_eq, hpieces, hpath, ← List.map_append]
      congr 1
      unfold trail
      by_cases hfirst : first = "" <;> simp [hfirst]

variable {tree tree' : FileTree} {place other : Place} {path : String} {text : Text}
  {content : Content} {entity : Entity} {fault : FileFault} {steps more : List String}

theorem lookup_cons_eq (entry : Place × Entity) (entries : List (Place × Entity)) :
    (entry :: entries).lookup other
      = if other = entry.1 then some entry.2 else entries.lookup other := by
  rw [List.lookup_cons]
  by_cases h : other = entry.1
  · simp [h]
  · rw [if_neg h, beq_eq_false_iff_ne.2 h]

theorem lookup_setEntry (entries : List (Place × Entity)) :
    (setEntry place entity entries).lookup other
      = if other = place then some entity else entries.lookup other := by
  induction entries with
  | nil => rw [setEntry, lookup_cons_eq]
  | cons entry entries ih =>
    rw [setEntry]
    split
    · next he => rw [lookup_cons_eq, lookup_cons_eq, he]; split <;> rfl
    · next he =>
      rw [lookup_cons_eq, lookup_cons_eq, ih]
      split
      · next hother => rw [if_neg (hother ▸ he)]
      · rfl

theorem get?_set (h : place ≠ []) : (tree.set place entity).get? other
    = if other = place then some entity else tree.get? other := by
  unfold get? set
  by_cases hother : other = []
  · rw [if_pos hother, if_pos hother, if_neg (by rw [hother]; exact Ne.symm h)]
  · rw [if_neg hother, if_neg hother, lookup_setEntry]

theorem ne_nil_of_file (h : tree.get? place = some (.file content)) : place ≠ [] := by
  rintro rfl
  cases h

theorem isDir_of_file (h : tree.get? place = some (.file content)) : tree.isDir place = false := by
  simp [isDir, h]

theorem follow_cons {step : String} {rest : List String} :
    tree.follow place (step :: rest) = .ok other ↔ tree.isDir place = true ∧
      ((step = "." ∧ tree.follow place rest = .ok other) ∨
        (step = ".." ∧ tree.follow place.dropLast rest = .ok other) ∨
        (step ≠ "." ∧ step ≠ ".." ∧ (tree.get? (place ++ [step])).isSome = true ∧
          tree.follow (place ++ [step]) rest = .ok other)) := by
  rw [follow]
  by_cases hdir : tree.isDir place = true
  · rw [if_pos hdir]
    by_cases hdot : step = "."
    · simp [hdot, hdir]
    · by_cases hup : step = ".."
      · simp [hup, hdir]
      · by_cases hsome : (tree.get? (place ++ [step])).isSome = true
        · simp [hdot, hup, hsome, hdir]
        · simp [hdot, hup, hsome, hdir]
  · simp [hdir]

theorem follow_append : tree.follow place (steps ++ more) = .ok other ↔
    ∃ mid, tree.follow place steps = .ok mid ∧ tree.follow mid more = .ok other := by
  induction steps generalizing place with
  | nil => simp [follow]
  | cons step rest ih =>
    simp only [List.cons_append, follow_cons, ih]
    constructor
    · rintro ⟨hdir, ⟨hs, mid, h, h'⟩ | ⟨hs, mid, h, h'⟩ | ⟨hs, hs', hsome, mid, h, h'⟩⟩
      · exact ⟨mid, ⟨hdir, .inl ⟨hs, h⟩⟩, h'⟩
      · exact ⟨mid, ⟨hdir, .inr (.inl ⟨hs, h⟩)⟩, h'⟩
      · exact ⟨mid, ⟨hdir, .inr (.inr ⟨hs, hs', hsome, h⟩)⟩, h'⟩
    · rintro ⟨mid, ⟨hdir, ⟨hs, h⟩ | ⟨hs, h⟩ | ⟨hs, hs', hsome, h⟩⟩, h'⟩
      · exact ⟨hdir, .inl ⟨hs, mid, h, h'⟩⟩
      · exact ⟨hdir, .inr (.inl ⟨hs, mid, h, h'⟩)⟩
      · exact ⟨hdir, .inr (.inr ⟨hs, hs', hsome, mid, h, h'⟩)⟩

theorem follow_step {step : String} {rest : List String} :
    tree.follow place (step :: rest) = .ok other ↔
      ∃ next, tree.follow place [step] = .ok next ∧ tree.follow next rest = .ok other := by
  rw [← follow_append]
  rfl

theorem isDir_of_follow (h : tree.follow place more = .ok other) (hne : more ≠ []) :
    tree.isDir place = true := by
  cases more with
  | nil => exact absurd rfl hne
  | cons step rest => exact (follow_cons.1 h).1

theorem makeDirs_of_follow (h : tree.follow place (steps ++ more) = .ok other) (hne : more ≠ []) :
    tree.makeDirs place steps = .ok tree := by
  induction steps generalizing place with
  | nil => rfl
  | cons step rest ih =>
    obtain ⟨-, ⟨rfl, hrest⟩ | ⟨rfl, hrest⟩ | ⟨hdot, hup, -, hrest⟩⟩ := follow_cons.1 h
    · rw [makeDirs, if_pos rfl, ih hrest]
    · rw [makeDirs, if_neg (by decide), if_pos rfl, ih hrest]
    · have hdir := isDir_of_follow hrest (by simp [hne])
      rw [isDir, decide_eq_true_eq] at hdir
      rw [makeDirs, if_neg hdot, if_neg hup]
      simp only [hdir]
      exact ih hrest

theorem target_of_follow (h : tree.follow place steps = .ok other) :
    tree.target place steps = .ok other := by
  induction steps generalizing place with
  | nil => exact h
  | cons step rest ih =>
    cases rest with
    | nil =>
      obtain ⟨hdir, ⟨rfl, hend⟩ | ⟨rfl, hend⟩ | ⟨hdot, hup, -, hend⟩⟩ := follow_cons.1 h
      · rw [target, if_pos hdir, if_pos rfl]
        exact hend
      · rw [target, if_pos hdir, if_neg (by decide), if_pos rfl]
        exact hend
      · rw [target, if_pos hdir, if_neg hdot, if_neg hup]
        exact hend
    | cons next rest =>
      obtain ⟨mid, hmid, h⟩ := follow_step.1 h
      rw [target, hmid]
      · exact ih h
      · simp

theorem save_of_locate (hplace : tree.locate path = .ok place)
    (hfile : tree.get? place = some (.file content)) (text : Text) :
    tree.save path text = .ok (tree.set place (.file (.text text))) := by
  unfold locate at hplace
  split at hplace
  · cases hplace
  · next hpath =>
    have hwrite : tree.writeText path text = .ok (tree.set place (.file (.text text))) := by
      simp [writeText, hpath, target_of_follow hplace, isDir_of_file hfile, bind, Except.bind, pure,
        Except.pure]
    have hdirs : ∀ parent, Path.parent? path = some parent →
        tree.createDirs parent = .ok tree := by
      intro parent hparent
      unfold createDirs
      split
      · rfl
      · next hne =>
        obtain rfl | rfl | ⟨hstart, more, hmore, hsteps⟩ := tree.steps_parent hparent
        · exact absurd rfl hne
        · rfl
        · rw [hstart]
          exact makeDirs_of_follow (hsteps ▸ hplace) hmore
    unfold save
    cases hparent : Path.parent? path with
    | none => simp only [bind, Except.bind, hwrite, Except.mapError]
    | some parent =>
      simp only [bind, Except.bind, hdirs parent hparent, hwrite, Except.mapError]

theorem readText_eq_ok : tree.readText path = .ok text ↔
    ∃ place, tree.locate path = .ok place ∧ tree.get? place = some (.file (.text text)) := by
  unfold readText
  cases tree.locate path with
  | error fault => simp [bind, Except.bind]
  | ok place =>
    simp only [bind, Except.bind, Except.ok.injEq, exists_eq_left']
    split <;> simp [*, pure, Except.pure, throw, throwThe, MonadExceptOf.throw]

/-! ### Writing and finding -/

/-- Directories stay directories, and nothing is taken away. -/
structure Grows (tree tree' : FileTree) : Prop where
  current : tree'.current = tree.current
  dir : ∀ place, tree.isDir place = true → tree'.isDir place = true
  there : ∀ place, (tree.get? place).isSome = true → (tree'.get? place).isSome = true

theorem Grows.trans {tree'' : FileTree} (h : Grows tree tree') (h' : Grows tree' tree'') :
    Grows tree tree'' :=
  ⟨h'.current.trans h.current, fun p hp => h'.dir p (h.dir p hp),
    fun p hp => h'.there p (h.there p hp)⟩

theorem Grows.follow (h : Grows tree tree') (hf : tree.follow place steps = .ok other) :
    tree'.follow place steps = .ok other := by
  induction steps generalizing place with
  | nil => exact hf
  | cons step rest ih =>
    rw [follow_cons] at hf ⊢
    obtain ⟨hdir, ⟨hs, hf⟩ | ⟨hs, hf⟩ | ⟨hs, hs', hsome, hf⟩⟩ := hf
    · exact ⟨h.dir _ hdir, .inl ⟨hs, ih hf⟩⟩
    · exact ⟨h.dir _ hdir, .inr (.inl ⟨hs, ih hf⟩)⟩
    · exact ⟨h.dir _ hdir, .inr (.inr ⟨hs, hs', h.there _ hsome, ih hf⟩)⟩

theorem locate_eq_ok : tree.locate path = .ok place ↔
    path ≠ "" ∧ tree.follow (tree.start path) (FileTree.steps path) = .ok place := by
  unfold locate
  split <;> simp [*]

theorem Grows.locate (h : Grows tree tree') (hl : tree.locate path = .ok place) :
    tree'.locate path = .ok place := by
  rw [locate_eq_ok] at hl ⊢
  refine ⟨hl.1, ?_⟩
  rw [start, h.current]
  exact h.follow hl.2

/-- Only what the files hold differs. -/
structure SameShape (tree tree' : FileTree) : Prop where
  current : tree'.current = tree.current
  dir : ∀ place, tree'.isDir place = tree.isDir place
  there : ∀ place, (tree'.get? place).isSome = (tree.get? place).isSome

theorem SameShape.refl (tree : FileTree) : SameShape tree tree :=
  ⟨rfl, fun _ => rfl, fun _ => rfl⟩

theorem SameShape.trans {tree'' : FileTree} (h : SameShape tree tree')
    (h' : SameShape tree' tree'') : SameShape tree tree'' :=
  ⟨h'.current.trans h.current, fun p => (h'.dir p).trans (h.dir p),
    fun p => (h'.there p).trans (h.there p)⟩

theorem SameShape.locate (h : SameShape tree tree') (path : String) :
    tree'.locate path = tree.locate path := by
  have hfollow : ∀ place steps, tree'.follow place steps = tree.follow place steps := by
    intro place steps
    induction steps generalizing place with
    | nil => rfl
    | cons step rest ih => simp only [follow, h.dir, h.there, ih]
  simp only [FileTree.locate, start, h.current, hfollow]

theorem sameShape_set (h : tree.get? place = some (.file content)) (content' : Content) :
    SameShape tree (tree.set place (.file content')) := by
  refine ⟨rfl, fun other => ?_, fun other => ?_⟩
  · unfold isDir
    rw [get?_set (ne_nil_of_file h)]
    split
    · next heq => simp [heq, h]
    · rfl
  · rw [get?_set (ne_nil_of_file h)]
    split
    · next heq => simp [heq, h]
    · rfl

theorem SameShape.file (h : SameShape tree tree') (hfile : tree.get? place = some (.file content)) :
    ∃ content', tree'.get? place = some (.file content') := by
  have hthere := h.there place
  have hdir := h.dir place
  unfold isDir at hdir
  cases hget : tree'.get? place with
  | none => simp [hget, hfile] at hthere
  | some entity =>
    cases entity with
    | dir => simp [hget, hfile] at hdir
    | file content' => exact ⟨content', rfl⟩

theorem SameShape.save (h : SameShape tree tree') {path : String}
    (hplace : tree.locate path = .ok place) (hfile : tree.get? place = some (.file content))
    (text : Text) : tree'.save path text = .ok (tree'.set place (.file (.text text))) ∧
      SameShape tree (tree'.set place (.file (.text text))) := by
  obtain ⟨content', hfile'⟩ := h.file hfile
  exact ⟨save_of_locate ((h.locate path).trans hplace) hfile' text,
    h.trans (sameShape_set hfile' _)⟩

/-- Whatever is there is the same, and paths start from the same place. -/
structure Keeps (tree tree' : FileTree) : Prop where
  current : tree'.current = tree.current
  there : ∀ place, (tree.get? place).isSome = true → tree'.get? place = tree.get? place

theorem Keeps.refl (tree : FileTree) : Keeps tree tree :=
  ⟨rfl, fun _ _ => rfl⟩

theorem Keeps.grows (h : Keeps tree tree') : Grows tree tree' := by
  refine ⟨h.current, fun place hdir => ?_, fun place hsome => by rwa [h.there place hsome]⟩
  have hsome : (tree.get? place).isSome = true := by
    rw [isDir, decide_eq_true_eq] at hdir
    simp [hdir]
  rwa [isDir, h.there place hsome]

theorem makeDirs_keeps (h : tree.makeDirs place steps = .ok tree') : Keeps tree tree' := by
  induction steps generalizing tree place with
  | nil =>
    cases h
    exact .refl _
  | cons step rest ih =>
    rw [makeDirs] at h
    by_cases hdot : step = "."
    · rw [if_pos hdot] at h
      exact ih h
    · rw [if_neg hdot] at h
      by_cases hup : step = ".."
      · rw [if_pos hup] at h
        exact ih h
      · rw [if_neg hup] at h
        cases hnext : tree.get? (place ++ [step]) with
        | none =>
          simp only [hnext] at h
          obtain ⟨hcurrent, hkeeps⟩ := ih h
          refine ⟨hcurrent, fun other hother => ?_⟩
          have hset : (tree.set (place ++ [step]) .dir).get? other = tree.get? other := by
            rw [get?_set (by simp), if_neg]
            rintro rfl
            rw [hnext] at hother
            cases hother
          rw [hkeeps other (by rwa [hset]), hset]
        | some entity =>
          simp only [hnext] at h
          cases entity with
          | dir => exact ih h
          | file content => cases h

theorem createDirs_keeps (h : tree.createDirs path = .ok tree') : Keeps tree tree' := by
  unfold createDirs at h
  split at h
  · cases h
    exact .refl tree
  · exact makeDirs_keeps h

theorem writeText_eq_ok : tree.writeText path text = .ok tree' ↔ ∃ place, path ≠ "" ∧
    tree.target (tree.start path) (FileTree.steps path) = .ok place ∧ tree.isDir place = false ∧
    tree' = tree.set place (.file (.text text)) := by
  unfold writeText
  by_cases hpath : path = ""
  · simp [hpath, bind, Except.bind, throw, throwThe, MonadExceptOf.throw]
  · cases tree.target (tree.start path) (FileTree.steps path) with
    | error fault => simp [hpath, bind, Except.bind]
    | ok place =>
      by_cases hdir : tree.isDir place = true
      · simp [hpath, hdir, bind, Except.bind, throw, throwThe, MonadExceptOf.throw]
      · simp [hpath, hdir, bind, Except.bind, pure, Except.pure, eq_comm (a := tree')]

theorem save_stages (h : tree.save path text = .ok tree') :
    ∃ mid, Keeps tree mid ∧ mid.writeText path text = .ok tree' := by
  unfold save at h
  cases hparent : Path.parent? path with
  | none =>
    simp only [hparent, bind, Except.bind] at h
    exact ⟨tree, .refl tree, mapError_eq_ok.1 h⟩
  | some parent =>
    simp only [hparent, bind, Except.bind] at h
    cases hd : tree.createDirs parent with
    | error fault => simp [hd, Except.mapError] at h
    | ok mid =>
      simp only [hd, mapError_ok] at h
      exact ⟨mid, createDirs_keeps hd, mapError_eq_ok.1 h⟩

theorem target_named {name : String} (hdot : name ≠ ".") (hup : name ≠ "..") :
    tree.target place (steps ++ [name]) = .ok other ↔
      ∃ mid, tree.follow place steps = .ok mid ∧ tree.isDir mid = true ∧ other = mid ++ [name] := by
  induction steps generalizing place with
  | nil =>
    rw [List.nil_append, target]
    by_cases hdir : tree.isDir place = true
    · rw [if_pos hdir, if_neg hdot, if_neg hup]
      simp [follow, hdir, eq_comm (a := other)]
    · simp [hdir, follow]
  | cons step rest ih =>
    rw [List.cons_append, target]
    · constructor
      · intro h
        cases hnext : tree.follow place [step] with
        | error fault =>
          rw [hnext] at h
          cases h
        | ok next =>
          rw [hnext] at h
          obtain ⟨mid, hmid, hdir, rfl⟩ := ih.1 h
          exact ⟨mid, follow_step.2 ⟨next, hnext, hmid⟩, hdir, rfl⟩
      · rintro ⟨mid, hmid, hdir, rfl⟩
        obtain ⟨next, hnext, hmid⟩ := follow_step.1 hmid
        rw [hnext]
        exact ih.2 ⟨mid, hmid, hdir, rfl⟩
    · simp

/-- What a successful write does: the text stands at one place, all else that was there stays, and
a path that ends with a name leads to that place. -/
theorem save_eq_ok (h : tree.save path text = .ok tree') :
    ∃ place, Grows tree tree' ∧ tree'.get? place = some (.file (.text text)) ∧
      (∀ other, other ≠ place → (tree.get? other).isSome = true →
        tree'.get? other = tree.get? other) ∧
      ∀ name, (FileTree.steps path).getLast? = some name → name ≠ "." → name ≠ ".." →
        tree'.locate path = .ok place ∧ place.getLast? = some name := by
  obtain ⟨mid, hkeeps, hwrite⟩ := save_stages h
  obtain ⟨place, hpath, htarget, hdir, rfl⟩ := writeText_eq_ok.1 hwrite
  have hne : place ≠ [] := by
    rintro rfl
    cases hdir
  have hmid : Grows mid (mid.set place (.file (.text text))) := by
    refine ⟨rfl, fun other hother => ?_, fun other hother => ?_⟩
    · unfold isDir
      rw [get?_set hne, if_neg]
      · exact hother
      · rintro rfl
        rw [hdir] at hother
        cases hother
    · rw [get?_set hne]
      split
      · rfl
      · exact hother
  refine ⟨place, hkeeps.grows.trans hmid, by rw [get?_set hne, if_pos rfl], fun other hother hsome => ?_,
    fun name hname hdot hup => ?_⟩
  · rw [get?_set hne, if_neg hother, hkeeps.there other hsome]
  · obtain ⟨init, hinit⟩ := List.getLast?_eq_some_iff.1 hname
    rw [hinit] at htarget
    obtain ⟨dir, hdir', hisDir, rfl⟩ := (target_named hdot hup).1 htarget
    refine ⟨locate_eq_ok.2 ⟨hpath, ?_⟩, by simp⟩
    rw [hinit]
    refine follow_append.2 ⟨dir, hmid.follow hdir', follow_cons.2 ⟨hmid.dir _ hisDir, ?_⟩⟩
    exact .inr (.inr ⟨hdot, hup, by rw [get?_set hne, if_pos rfl]; rfl, rfl⟩)

theorem steps_of_fileName? {name : String} (h : Path.fileName? path = some name) :
    name ≠ "." ∧ name ≠ ".." ∧
      ∃ front dots, FileTree.steps path = front ++ name :: dots ∧ ∀ s ∈ dots, s = "." := by
  obtain ⟨hidle, hup, front, idles, hpieces, hidles⟩ := Path.pieces_of_fileName? h
  simp only [Path.isIdle, Bool.or_eq_false_iff, decide_eq_false_iff_not] at hidle
  have htrail : ∃ front', trail (Path.pieces path) = front' ++ name :: idles := by
    unfold trail
    rw [hpieces]
    cases front with
    | nil => exact ⟨[], by simp [hidle.1]⟩
    | cons first front =>
      by_cases hfirst : first = ""
      · exact ⟨front, by simp [hfirst]⟩
      · exact ⟨first :: front, by simp [hfirst]⟩
  obtain ⟨front', htrail⟩ := htrail
  refine ⟨hidle.2, hup, front'.map stepOf, idles.map stepOf, ?_, fun s hs => ?_⟩
  · rw [steps_eq, htrail, List.map_append, List.map_cons, stepOf, if_neg hidle.1]
  · obtain ⟨p, hp, rfl⟩ := List.mem_map.1 hs
    have := hidles p hp
    simp only [Path.isIdle, Bool.or_eq_true, decide_eq_true_eq] at this
    rcases this with rfl | rfl
    · rfl
    · rfl

theorem follow_dots (hdots : ∀ s ∈ steps, s = ".") (h : tree.follow place steps = .ok other) :
    other = place := by
  induction steps with
  | nil => exact (Except.ok.inj h).symm
  | cons step rest ih =>
    obtain rfl := hdots step List.mem_cons_self
    obtain ⟨-, ⟨-, h⟩ | ⟨hup, -⟩ | ⟨hdot, -⟩⟩ := follow_cons.1 h
    · exact ih (fun s hs => hdots s (List.mem_cons_of_mem _ hs)) h
    · exact absurd hup (by decide)
    · exact absurd rfl hdot

theorem getLast?_of_locate {name : String} (h : tree.locate path = .ok place)
    (hname : Path.fileName? path = some name) : place.getLast? = some name := by
  obtain ⟨hdot, hup, front, dots, hsteps, hdots⟩ := steps_of_fileName? hname
  have hfollow := (locate_eq_ok.1 h).2
  rw [hsteps] at hfollow
  obtain ⟨mid, -, hmid⟩ := follow_append.1 hfollow
  obtain ⟨-, ⟨hs, -⟩ | ⟨hs, -⟩ | ⟨-, -, -, hend⟩⟩ := follow_cons.1 hmid
  · exact absurd hs hdot
  · exact absurd hs hup
  · rw [follow_dots hdots hend]
    simp

end FileTree

end BrightCoverage
