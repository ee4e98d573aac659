import Mathlib.Algebra.Group.Nat.Defs
import Mathlib.Logic.Function.Basic
import Mathlib.Tactic.Common
import BrightCoverage.Project.Session

/-! The history of a session. A call that fails has changed nothing, because all steps that can fail
come before the first one that changes something. The calls come in any order, also on files that
carry reporting calls already. What holds after every history is kept in `Accounts`: the numbers given
out are those of the calls that succeeded, and each of these has left its records and its text. The
numbers run out: the last file that can have one of its own is number `2 ^ 32 - 1`. -/

namespace BrightCoverage

section Tables

variable {α : Type}

theorem insertEntry_of_lt {key : Nat} (value : α) {entries : List (Nat × α)}
    (h : ∀ e ∈ entries, e.1 < key) : insertEntry key value entries = entries ++ [(key, value)] := by
  induction entries with
  | nil => rfl
  | cons entry entries ih =>
    have hentry := h entry List.mem_cons_self
    have hrest := ih fun e he => h e (List.mem_cons_of_mem _ he)
    rw [insertEntry, if_neg (by omega), if_neg (by omega), hrest]
    rfl

theorem lookup_append_of_ne {key other : Nat} (value : α) (entries : List (Nat × α))
    (h : key ≠ other) : (entries ++ [(other, value)]).lookup key = entries.lookup key := by
  induction entries with
  | nil =>
    have hne : (key == other) = false := by simpa using h
    rw [List.nil_append, List.lookup_cons, hne]
  | cons entry entries ih =>
    rw [List.cons_append, List.lookup_cons, List.lookup_cons, ih]

theorem lookup_insertEntry (key : Nat) (value : α) (entries : List (Nat × α)) :
    (insertEntry key value entries).lookup key = some value := by
  induction entries with
  | nil => simp [insertEntry]
  | cons entry entries ih =>
    rw [insertEntry]
    split
    · simp
    · split
      · simp
      · next hne =>
        have hbeq : (key == entry.1) = false := by simpa using hne
        rw [List.lookup_cons, hbeq, ih]

end Tables

namespace FileId

variable {overflow : Overflow} {id next : FileId}

theorem next?_eq_some :
    id.next? overflow = some next ↔ next = id + 1 ∧ ¬(overflow = .stops ∧ id + 1 = 0) := by
  unfold next?
  split
  · next h => exact ⟨nofun, fun hnext => absurd h hnext.2⟩
  · next h => exact ⟨fun hnext => ⟨(Option.some.inj hnext).symm, h⟩, fun hnext => hnext.1 ▸ rfl⟩

theorem lt_of_next? (h : id.next? .stops = some next) : id.toNat + 1 < 2 ^ 32 := by
  have hne := (next?_eq_some.1 h).2
  by_contra hge
  refine hne ⟨rfl, UInt32.toNat_inj.1 ?_⟩
  have := id.toNat_lt
  rw [UInt32.toNat_add]
  simp only [UInt32.toNat_one, UInt32.toNat_zero]
  omega

end FileId

/-! ### One call -/

namespace Work

variable {b b' : Bench} {e : RunError} {α β : Type}

theorem bind_of_ok {x : Work α} {f : α → Work β} {a : α} (h : x b = .ok a b') :
    (x >>= f) b = f a b' := by
  simp only [bind, EStateM.bind, h]

theorem bind_of_error {x : Work α} {f : α → Work β} (h : x b = .error e b') :
    (x >>= f) b = .error e b' := by
  simp only [bind, EStateM.bind, h]

end Work

/-- Why a file cannot be instrumented under a number. -/
inductive Fails (settings : Settings) (id : FileId) (file : SourceFile) : RunError → Prop
  | malformed {errors : List ParseError} : parse file.text = .error errors →
    Fails settings id file (.syntaxErrors file.devicePath (Diagnostic.ofErrors file.text errors))
  | noFooter {program : List (Statement Extent)} {missing : MissingTemplate} :
    parse file.text = .ok program →
    settings.templates.renderFooter (settings.reporter id) = .error missing →
    Fails settings id file (.ofMissing missing)
  | noNumber {program : List (Statement Extent)} {footer : Text} :
    parse file.text = .ok program →
    settings.templates.renderFooter (settings.reporter id) = .ok footer →
    id.next? settings.overflow = none → Fails settings id file .noNumberLeft

/-- What it takes to instrument a file under a number. -/
structure Works (settings : Settings) (id : FileId) (file : SourceFile)
    (program : List (Statement Extent)) (footer : Text) : Prop where
  parsed : parse file.text = .ok program
  footed : settings.templates.renderFooter (settings.reporter id) = .ok footer
  numbered : id.next? settings.overflow = some (id + 1)

theorem works_or_fails (settings : Settings) (id : FileId) (file : SourceFile) :
    (∃ program footer, Works settings id file program footer) ∨ ∃ e, Fails settings id file e := by
  cases hp : parse file.text with
  | error errors => exact .inr ⟨_, .malformed hp⟩
  | ok program =>
    cases hf : settings.templates.renderFooter (settings.reporter id) with
    | error missing => exact .inr ⟨_, .noFooter hp hf⟩
    | ok footer =>
      cases hn : id.next? settings.overflow with
      | none => exact .inr ⟨_, .noNumber hp hf hn⟩
      | some next =>
        obtain ⟨rfl, -⟩ := FileId.next?_eq_some.1 hn
        exact .inl ⟨program, footer, hp, hf, hn⟩

/-- The session after a file has been recorded under the next number. -/
def Session.record (s : Session) (coverage : Coverage) (path : String) : Session :=
  { s with nextId := s.nextId + 1, registry := s.registry.record s.nextId.toNat coverage path }

def Settings.instrumented (settings : Settings) (id : FileId) (program : List (Statement Extent))
    (text : Text) : Instrumented :=
  instrument (settings.reporter id) (classify program) text

namespace Work

variable {b : Bench} {e : RunError} {program : List (Statement Extent)} {footer : Text}

theorem parse_apply : parse b = match BrightCoverage.parse b.file.text with
    | .ok program => .ok program b
    | .error errors =>
      .error (.syntaxErrors b.file.devicePath (Diagnostic.ofErrors b.file.text errors)) b := by
  show RunError.lift id b.file.parse b = _
  unfold SourceFile.parse
  cases BrightCoverage.parse b.file.text <;> rfl

theorem footer_apply (r : Reporter) :
    Work.footer r b = match b.session.templates.renderFooter r with
      | .ok footer => .ok footer b
      | .error missing => .error (.ofMissing missing) b := by
  show RunError.lift .ofMissing (b.session.templates.renderFooter r) b = _
  cases b.session.templates.renderFooter r <;> rfl

theorem advance_apply (id : FileId) : advance id b = match id.next? b.session.overflow with
    | some next => .ok () { b with session := { b.session with nextId := next } }
    | none => .error .noNumberLeft b := by
  show (match id.next? b.session.overflow with
    | some next => set { b with session := { b.session with nextId := next } }
    | none => throw .noNumberLeft : Work Unit) b = _
  cases id.next? b.session.overflow <;> rfl

theorem instrumentFile_of_works (h : Works b.session.toSettings b.session.nextId b.file program footer) :
    instrumentFile b = .ok b.session.nextId
      (let result := b.session.instrumented b.session.nextId program b.file.text
      ⟨b.session.record result.coverage b.file.devicePath,
        { b.file with text := result.text ++ footer }⟩) := by
  have hparse : parse b = .ok program b := by rw [parse_apply, h.parsed]
  have hfooter : Work.footer (b.session.reporter b.session.nextId) b = .ok footer b := by
    rw [footer_apply, h.footed]
  have hadvance : advance b.session.nextId b
      = .ok () { b with session := { b.session with nextId := b.session.nextId + 1 } } := by
    rw [advance_apply, h.numbered]
  unfold instrumentFile
  rw [bind_of_ok hparse]
  show (Work.footer _ >>= _) b = _
  rw [bind_of_ok hfooter, bind_of_ok hadvance]
  rfl

/-- A step fails only as long as nothing has been changed. -/
theorem instrumentFile_of_fails (h : Fails b.session.toSettings b.session.nextId b.file e) :
    instrumentFile b = .error e b := by
  unfold instrumentFile
  cases h with
  | malformed hp =>
    refine bind_of_error ?_
    rw [parse_apply, hp]
  | @noFooter program missing hp hf =>
    have hparse : parse b = .ok program b := by rw [parse_apply, hp]
    rw [bind_of_ok hparse]
    show (Work.footer _ >>= _) b = _
    refine bind_of_error ?_
    rw [footer_apply, hf]
  | @noNumber program footer hp hf hn =>
    have hparse : parse b = .ok program b := by rw [parse_apply, hp]
    have hfooter : Work.footer (b.session.reporter b.session.nextId) b = .ok footer b := by
      rw [footer_apply, hf]
    rw [bind_of_ok hparse]
    show (Work.footer _ >>= _) b = _
    rw [bind_of_ok hfooter]
    refine bind_of_error ?_
    rw [advance_apply, hn]

end Work

/-! ### Numbers and records -/

/-- So many files have been recorded, under the numbers from one on. The next number is one more, as far
as 32 bits hold it. -/
structure Session.Counted (s : Session) (n : Nat) : Prop where
  nextId : s.nextId.toNat = (n + 1) % 2 ^ 32
  expected : s.registry.expected.entries.map Prod.fst = List.range' 1 n
  paths : s.registry.paths.entries.map Prod.fst = List.range' 1 n

namespace Session

variable {s : Session} {n : Nat}

theorem counted_start (settings : Settings) : (start settings).Counted 0 :=
  ⟨rfl, rfl, rfl⟩

theorem key_lt {α : Type} {entries : List (Nat × α)} (h : entries.map Prod.fst = List.range' 1 n) :
    ∀ e ∈ entries, e.1 < n + 1 := by
  intro e he
  have hmem : e.1 ∈ List.range' 1 n := h ▸ List.mem_map_of_mem he
  rw [List.mem_range'_1] at hmem
  omega

theorem Counted.nextId_eq (h : s.Counted n) (hn : n + 1 < 2 ^ 32) : s.nextId.toNat = n + 1 :=
  h.nextId.trans (Nat.mod_eq_of_lt hn)

theorem Counted.expected_record (h : s.Counted n) (hn : n + 1 < 2 ^ 32) (coverage : Coverage)
    (path : String) : (s.record coverage path).registry.expected.entries
      = s.registry.expected.entries ++ [(n + 1, coverage)] := by
  show insertEntry s.nextId.toNat coverage s.registry.expected.entries = _
  rw [h.nextId_eq hn]
  exact insertEntry_of_lt coverage (key_lt h.expected)

theorem Counted.paths_record (h : s.Counted n) (hn : n + 1 < 2 ^ 32) (coverage : Coverage)
    (path : String) : (s.record coverage path).registry.paths.entries
      = s.registry.paths.entries ++ [(n + 1, path)] := by
  show insertEntry s.nextId.toNat path s.registry.paths.entries = _
  rw [h.nextId_eq hn]
  exact insertEntry_of_lt path (key_lt h.paths)

theorem Counted.record (h : s.Counted n) (hn : n + 1 < 2 ^ 32) (coverage : Coverage)
    (path : String) : (s.record coverage path).Counted (n + 1) := by
  refine ⟨?_, ?_, ?_⟩
  · show (s.nextId + 1).toNat = _
    rw [UInt32.toNat_add, h.nextId_eq hn]
    rfl
  · rw [h.expected_record hn, List.map_append, h.expected, List.range'_1_concat, Nat.add_comm]
    rfl
  · rw [h.paths_record hn, List.map_append, h.paths, List.range'_1_concat, Nat.add_comm]
    rfl

end Session

/-! ### Histories -/

/-- A call that succeeded: its number, the file on entry and the file that the call made of it. -/
structure Success where
  id : FileId
  before : SourceFile
  after : SourceFile

/-- A session, the files it is called on, and the calls that succeeded so far, in order. -/
structure Desk where
  session : Session
  files : Nat → SourceFile
  done : List Success

namespace Desk

def start (settings : Settings) (files : Nat → SourceFile) : Desk :=
  ⟨.start settings, files, []⟩

/-- The desk after a call on one of its files. A call that fails leaves the session and the file as
they were when it failed. -/
def call (d : Desk) (n : Nat) : Desk :=
  match Work.instrumentFile ⟨d.session, d.files n⟩ with
  | .ok id bench =>
    ⟨bench.session, Function.update d.files n bench.file, d.done ++ [⟨id, d.files n, bench.file⟩]⟩
  | .error _ bench => ⟨bench.session, Function.update d.files n bench.file, d.done⟩

def run (d : Desk) (calls : List Nat) : Desk :=
  calls.foldl call d

/-- A call did what it should under a number: the two maps hold the coverage of the text on entry and
the path of the file, and the text now carries the calls and the footer of that number. -/
structure Filed (settings : Settings) (registry : Registry) (number : Nat) (call : Success) :
    Prop where
  id : call.id.toNat = number
  worked : ∃ program footer, Works settings call.id call.before program footer ∧
    registry.expected.get? number
      = some (settings.instrumented call.id program call.before.text).coverage ∧
    call.after = { call.before with
      text := (settings.instrumented call.id program call.before.text).text ++ footer }
  path : registry.paths.get? number = some call.before.devicePath

/-- The numbers from one on belong to the calls that succeeded, each to one of them. A build that checks
its arithmetic keeps one number back. -/
structure Accounts (settings : Settings) (d : Desk) : Prop where
  settings_eq : d.session.toSettings = settings
  counted : d.session.Counted d.done.length
  spare : settings.overflow = .stops → d.done.length + 1 < 2 ^ 32
  filed : ∀ i call, d.done[i]? = some call → Filed settings d.session.registry (i + 1) call

variable {settings : Settings} {d : Desk} {n : Nat} {e : RunError}

theorem call_of_fails (h : Fails d.session.toSettings d.session.nextId (d.files n) e) :
    d.call n = d := by
  have hcall := Work.instrumentFile_of_fails (b := ⟨d.session, d.files n⟩) h
  simp only [call, hcall, Function.update_eq_self]

theorem Filed.of_get? {registry registry' : Registry} {number : Nat} {call : Success}
    (h : Filed settings registry number call)
    (hexpected : registry'.expected.get? number = registry.expected.get? number)
    (hpaths : registry'.paths.get? number = registry.paths.get? number) :
    Filed settings registry' number call := by
  refine ⟨h.id, ?_, hpaths.trans h.path⟩
  rw [hexpected]
  exact h.worked

/-- What has been filed stays so when a further file is recorded. -/
theorem Filed.record {s : Session} {k number : Nat} {call : Success} (h : s.Counted k)
    (hk : k + 1 < 2 ^ 32) (hfiled : Filed settings s.registry number call) (hnumber : number ≤ k)
    (coverage : Coverage) (path : String) :
    Filed settings (s.record coverage path).registry number call := by
  refine hfiled.of_get? ?_ ?_
  · show List.lookup _ _ = _
    rw [h.expected_record hk, lookup_append_of_ne _ _ (by omega)]
    rfl
  · show List.lookup _ _ = _
    rw [h.paths_record hk, lookup_append_of_ne _ _ (by omega)]
    rfl

theorem call_of_works {program : List (Statement Extent)} {footer : Text}
    (h : Works d.session.toSettings d.session.nextId (d.files n) program footer) :
    ∃ bench, Work.instrumentFile ⟨d.session, d.files n⟩ = .ok d.session.nextId bench ∧
      d.call n = ⟨bench.session, Function.update d.files n bench.file,
        d.done ++ [⟨d.session.nextId, d.files n, bench.file⟩]⟩ ∧
      Filed d.session.toSettings bench.session.registry d.session.nextId.toNat
        ⟨d.session.nextId, d.files n, bench.file⟩ ∧
      bench.session = d.session.record
        (d.session.instrumented d.session.nextId program (d.files n).text).coverage
        (d.files n).devicePath := by
  have hcall := Work.instrumentFile_of_works (b := ⟨d.session, d.files n⟩) h
  refine ⟨_, hcall, ?_, ⟨rfl, ⟨program, footer, h, ?_, rfl⟩, ?_⟩, rfl⟩
  · simp only [call, hcall]
  · exact lookup_insertEntry _ _ _
  · exact lookup_insertEntry _ _ _

/-- One call keeps the accounts, whether it succeeds or not, as long as there are numbers left. -/
theorem Accounts.call (h : d.Accounts settings) (n : Nat) (hlt : (d.call n).done.length < 2 ^ 32) :
    (d.call n).Accounts settings := by
  rcases works_or_fails d.session.toSettings d.session.nextId (d.files n) with
    ⟨program, footer, hworks⟩ | ⟨e, hfails⟩
  · obtain ⟨bench, -, hcall, hfiled, hsession⟩ := call_of_works hworks
    have hn : d.done.length + 1 < 2 ^ 32 := by simpa [hcall] using hlt
    have hid := h.counted.nextId_eq hn
    rw [hid, h.settings_eq] at hfiled
    rw [hcall]
    refine ⟨?_, ?_, fun hstops => ?_, fun i call hi => ?_⟩
    · rw [hsession]
      exact h.settings_eq
    · rw [hsession, List.length_append]
      exact h.counted.record hn _ _
    · have hnumbered := hworks.numbered
      rw [h.settings_eq, hstops] at hnumbered
      have hspare := FileId.lt_of_next? hnumbered
      rw [hid] at hspare
      simpa using hspare
    · rcases Nat.lt_or_ge i d.done.length with hi' | hi'
      · rw [List.getElem?_append_left hi'] at hi
        rw [hsession]
        exact (h.filed i call hi).record h.counted hn (by omega) _ _
      · rw [List.getElem?_append_right hi', List.getElem?_singleton] at hi
        split at hi
        · cases hi
          obtain rfl : i = d.done.length := by omega
          exact hfiled
        · cases hi
  · rw [call_of_fails hfails]
    exact h

theorem length_done_call (d : Desk) (n : Nat) : d.done.length ≤ (d.call n).done.length := by
  unfold call
  split <;> simp

theorem length_done_run (d : Desk) (calls : List Nat) :
    d.done.length ≤ (d.run calls).done.length := by
  induction calls generalizing d with
  | nil => exact Nat.le_refl _
  | cons n calls ih => exact Nat.le_trans (length_done_call d n) (ih (d.call n))

theorem Accounts.run (h : d.Accounts settings) (calls : List Nat)
    (hlt : (d.run calls).done.length < 2 ^ 32) : (d.run calls).Accounts settings := by
  induction calls generalizing d with
  | nil => exact h
  | cons n calls ih =>
    exact ih (h.call n (Nat.lt_of_le_of_lt (length_done_run (d.call n) calls) hlt)) hlt

end Desk

end BrightCoverage
