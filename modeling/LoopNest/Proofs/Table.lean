import Mathlib.Data.List.Nodup
import LoopNest.Table

/-! Tables answer as their list of entries reads: a name has the entry that stands there, and a
list in which no name stands twice is taken over as it is. -/
namespace LoopNest

theorem find?_key_eq_some_iff {α : Type} {key : α → String} {l : List α}
    (unique : (l.map key).Nodup) {name : String} {a : α} :
    l.find? (fun a => key a == name) = some a ↔ a ∈ l ∧ key a = name := by
  constructor
  · intro found
    exact ⟨List.mem_of_find?_eq_some found, by simpa using List.find?_some found⟩
  · rintro ⟨mem, rfl⟩
    have known : (l.find? fun b => key b == key a).isSome :=
      List.find?_isSome.mpr ⟨a, mem, by simp⟩
    obtain ⟨b, found⟩ := Option.isSome_iff_exists.mp known
    have same : key b = key a := by simpa using List.find?_some found
    rw [found, List.inj_on_of_nodup_map unique (List.mem_of_find?_eq_some found) mem same]

namespace Table

variable {α : Type}

theorem lookup_eq_some_iff {es : List (String × α)} (nodup : (es.map Prod.fst).Nodup)
    {name : String} {a : α} : es.lookup name = some a ↔ (name, a) ∈ es := by
  induction es with
  | nil => simp
  | cons e es ih =>
    rw [List.map_cons, List.nodup_cons] at nodup
    rcases e with ⟨key, b⟩
    by_cases same : name = key
    · subst same
      have absent : (name, a) ∉ es := fun mem => nodup.1 (List.mem_map.mpr ⟨_, mem, rfl⟩)
      simp [absent, eq_comm]
    · have differs : (name == key) = false := by simpa using same
      rw [List.lookup_cons, differs]
      simp [ih nodup.2, same]

theorem get?_eq_some_iff {t : Table α} {name : String} {a : α} :
    t.get? name = some a ↔ (name, a) ∈ t.entries :=
  lookup_eq_some_iff t.nodup

theorem contains_iff {t : Table α} {name : String} : t.contains name = true ↔ name ∈ t.keys := by
  simp [contains, Option.isSome_iff_exists, get?_eq_some_iff, keys]

theorem contains_iff_get? {t : Table α} {name : String} :
    t.contains name = true ↔ ∃ a, t.get? name = some a := by
  rw [contains, Option.isSome_iff_exists]

theorem mem_keys_iff {t : Table α} {name : String} :
    name ∈ t.keys ↔ ∃ a, t.get? name = some a :=
  contains_iff.symm.trans contains_iff_get?

theorem count_keys {t : Table α} {name : String} {a : α} (found : t.get? name = some a) :
    t.keys.count name = 1 :=
  List.count_eq_one_of_mem t.nodup (mem_keys_iff.mpr ⟨a, found⟩)

theorem length_keys {t : Table α} : t.keys.length = t.size :=
  List.length_map _

theorem nodup_values_iff {t : Table α} :
    t.values.Nodup ↔ ∀ k k' a, t.get? k = some a → t.get? k' = some a → k = k' := by
  simp only [get?_eq_some_iff]
  constructor
  · intro nodup k k' a mem mem'
    exact congrArg Prod.fst (List.inj_on_of_nodup_map nodup mem mem' rfl)
  · intro distinct
    refine List.Nodup.map_on ?_ (.of_map _ t.nodup)
    rintro ⟨k, a⟩ mem ⟨k', a'⟩ mem' rfl
    rw [distinct k k' a mem mem']

theorem insertEntry_of_notMem {name : String} {a : α} {es : List (String × α)}
    (fresh : name ∉ es.map Prod.fst) : insertEntry name a es = es ++ [(name, a)] := by
  induction es with
  | nil => rfl
  | cons e es ih =>
    rw [List.map_cons, List.mem_cons, not_or] at fresh
    simp only [insertEntry, if_neg (Ne.symm fresh.1), ih fresh.2, List.cons_append]

theorem entries_foldl_insert {es : List (String × α)} {t : Table α}
    (nodup : ((t.entries ++ es).map Prod.fst).Nodup) :
    (es.foldl (fun t e => t.insert e.1 e.2) t).entries = t.entries ++ es := by
  induction es generalizing t with
  | nil => simp
  | cons e es ih =>
    have fresh : e.1 ∉ t.entries.map Prod.fst := by
      rw [List.map_append, List.map_cons, List.nodup_middle, List.nodup_cons] at nodup
      exact fun mem => nodup.1 (List.mem_append_left _ mem)
    have added : (t.insert e.1 e.2).entries = t.entries ++ [e] := insertEntry_of_notMem fresh
    rw [List.foldl_cons, ih (by simpa [added] using nodup), added]
    simp

/-- A list in which no name stands twice becomes the entries of its table. -/
theorem entries_ofList {es : List (String × α)} (nodup : (es.map Prod.fst).Nodup) :
    (ofList es).entries = es :=
  entries_foldl_insert nodup

theorem get?_ofList {es : List (String × α)} (nodup : (es.map Prod.fst).Nodup) {name : String}
    {a : α} : (ofList es).get? name = some a ↔ (name, a) ∈ es := by
  rw [get?_eq_some_iff, entries_ofList nodup]

theorem keys_ofList {es : List (String × α)} (nodup : (es.map Prod.fst).Nodup) :
    (ofList es).keys = es.map Prod.fst := by
  rw [keys, entries_ofList nodup]

theorem eq_of_entries_eq {t t' : Table α} (same : t.entries = t'.entries) : t = t' := by
  cases t
  cases t'
  cases same
  rfl

theorem ofList_concat (es : List (String × α)) (e : String × α) :
    ofList (es ++ [e]) = (ofList es).insert e.1 e.2 := by
  simp [ofList]

theorem insertEntry_of_mem {name : String} {a : α} {es : List (String × α)}
    (nodup : (es.map Prod.fst).Nodup) (known : name ∈ es.map Prod.fst) :
    insertEntry name a es = es.map fun e => if e.1 = name then (name, a) else e := by
  induction es with
  | nil => cases known
  | cons e es ih =>
    rw [List.map_cons, List.nodup_cons] at nodup
    by_cases same : e.1 = name
    · have others : (es.map fun e => if e.1 = name then (name, a) else e) = es := by
        refine (List.map_congr_left fun e' mem => if_neg ?_).trans (List.map_id es)
        rintro rfl
        exact nodup.1 (same ▸ List.mem_map_of_mem mem)
      simp only [insertEntry, if_pos same, List.map_cons, others]
    · have behind : name ∈ es.map Prod.fst := by simpa [Ne.symm same] using known
      simp only [insertEntry, if_neg same, List.map_cons, ih nodup.2 behind]

theorem insert_ofList_of_mem {name : String} {a : α} {es : List (String × α)}
    (nodup : (es.map Prod.fst).Nodup) (known : name ∈ es.map Prod.fst) :
    (ofList es).insert name a = ofList (es.map fun e => if e.1 = name then (name, a) else e) := by
  have keys : ((es.map fun e => if e.1 = name then (name, a) else e).map Prod.fst) =
      es.map Prod.fst := by
    rw [List.map_map]
    refine List.map_congr_left fun e _ => ?_
    by_cases same : e.1 = name <;> simp [same]
  refine eq_of_entries_eq ?_
  rw [entries_ofList (keys ▸ nodup)]
  show insertEntry name a (ofList es).entries = _
  rw [entries_ofList nodup, insertEntry_of_mem nodup known]

end Table
end LoopNest
