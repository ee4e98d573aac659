/-! Finite maps from natural numbers. The entries are kept in ascending order of their keys, so two
tables with the same entries are equal and listing a table needs no sorting. -/

namespace BrightCoverage

variable {α : Type}

/-- Puts an entry into a list in ascending order, in place of one with the same key. -/
def insertEntry (key : Nat) (value : α) : List (Nat × α) → List (Nat × α)
  | [] => [(key, value)]
  | entry :: entries =>
    if key < entry.1 then (key, value) :: entry :: entries
    else if key = entry.1 then (key, value) :: entries
    else entry :: insertEntry key value entries

theorem mem_insertEntry {key : Nat} {value : α} {e : Nat × α} {entries : List (Nat × α)}
    (h : e ∈ insertEntry key value entries) : e = (key, value) ∨ e ∈ entries := by
  induction entries with
  | nil => simpa [insertEntry] using h
  | cons entry entries ih =>
    unfold insertEntry at h
    split at h
    · simpa using h
    · split at h
      · rcases List.mem_cons.1 h with h | h
        · exact Or.inl h
        · exact Or.inr (List.mem_cons_of_mem _ h)
      · rcases List.mem_cons.1 h with h | h
        · exact Or.inr (h ▸ List.mem_cons_self ..)
        · exact (ih h).imp_right (List.mem_cons_of_mem _)

theorem pairwise_insertEntry {key : Nat} {value : α} {entries : List (Nat × α)}
    (h : entries.Pairwise fun a b => a.1 < b.1) :
    (insertEntry key value entries).Pairwise fun a b => a.1 < b.1 := by
  induction entries with
  | nil => simp [insertEntry]
  | cons entry entries ih =>
    obtain ⟨head, tail⟩ := List.pairwise_cons.1 h
    unfold insertEntry
    split
    · rename_i lt
      refine List.pairwise_cons.2 ⟨fun e he => ?_, h⟩
      rcases List.mem_cons.1 he with he | he
      · exact he ▸ lt
      · exact Nat.lt_trans lt (head e he)
    · split
      · rename_i eq
        exact List.pairwise_cons.2 ⟨fun e he => by simpa [eq] using head e he, tail⟩
      · rename_i le ne
        refine List.pairwise_cons.2 ⟨fun e he => ?_, ih tail⟩
        rcases mem_insertEntry he with he | he
        · simp only [he]; omega
        · exact head e he

structure Table (α : Type) where
  entries : List (Nat × α)
  ascending : entries.Pairwise fun a b => a.1 < b.1

namespace Table

def empty : Table α :=
  ⟨[], List.Pairwise.nil⟩

def get? (t : Table α) (key : Nat) : Option α :=
  t.entries.lookup key

def insert (t : Table α) (key : Nat) (value : α) : Table α :=
  ⟨insertEntry key value t.entries, pairwise_insertEntry t.ascending⟩

def claim (t : Table α) (key : Nat) (value : α) : Table α :=
  if (t.get? key).isSome then t else t.insert key value

def size (t : Table α) : Nat :=
  t.entries.length

def isEmpty (t : Table α) : Bool :=
  t.entries.isEmpty

def values (t : Table α) : List α :=
  t.entries.map Prod.snd

end Table

end BrightCoverage
