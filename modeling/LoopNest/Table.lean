/-! Finite maps from names: a list of entries in which no name stands twice. -/
namespace LoopNest

/-- A finite map from names, its entries in the order in which they were first put in. -/
structure Table (α : Type) where
  entries : List (String × α)
  nodup : (entries.map Prod.fst).Nodup
deriving DecidableEq

namespace Table

variable {α : Type}

def empty : Table α := ⟨[], List.nodup_nil⟩

instance : Inhabited (Table α) := ⟨empty⟩

def keys (t : Table α) : List String := t.entries.map Prod.fst

def values (t : Table α) : List α := t.entries.map Prod.snd

def size (t : Table α) : Nat := t.entries.length

def get? (t : Table α) (name : String) : Option α := t.entries.lookup name

def contains (t : Table α) (name : String) : Bool := (t.get? name).isSome

/-- Puts an entry into a list of entries: over the one of that name, else at the end. -/
def insertEntry (name : String) (a : α) : List (String × α) → List (String × α)
  | [] => [(name, a)]
  | e :: es => if e.1 = name then (name, a) :: es else e :: insertEntry name a es

theorem mem_keys_insertEntry {name : String} {a : α} {es : List (String × α)} {k : String} :
    k ∈ (insertEntry name a es).map Prod.fst ↔ k = name ∨ k ∈ es.map Prod.fst := by
  induction es with
  | nil => simp [insertEntry]
  | cons e es ih =>
    simp only [insertEntry]
    split
    · next h => subst h; simp
    · rw [List.map_cons, List.mem_cons, List.map_cons, List.mem_cons, ih, or_left_comm]

theorem nodup_insertEntry {name : String} {a : α} {es : List (String × α)}
    (nodup : (es.map Prod.fst).Nodup) : ((insertEntry name a es).map Prod.fst).Nodup := by
  induction es with
  | nil => simp [insertEntry]
  | cons e es ih =>
    rw [List.map_cons, List.nodup_cons] at nodup
    simp only [insertEntry]
    split
    · next h => subst h; exact List.nodup_cons.mpr nodup
    · next h =>
      refine List.nodup_cons.mpr ⟨fun mem => ?_, ih nodup.2⟩
      exact (mem_keys_insertEntry.mp mem).elim h nodup.1

def insert (t : Table α) (name : String) (a : α) : Table α :=
  ⟨insertEntry name a t.entries, nodup_insertEntry t.nodup⟩

/-- The table of a list of entries; of two with one name the later one counts. -/
def ofList (es : List (String × α)) : Table α :=
  es.foldl (fun t e => t.insert e.1 e.2) empty

@[simp] theorem mem_keys_insert {t : Table α} {name : String} {a : α} {k : String} :
    k ∈ (t.insert name a).keys ↔ k = name ∨ k ∈ t.keys :=
  mem_keys_insertEntry

end Table

def firstRepeated? (names : List String) : Option String := go [] names
where
  go (seen : List String) : List String → Option String
    | [] => none
    | name :: names => if name ∈ seen then some name else go (name :: seen) names

end LoopNest
