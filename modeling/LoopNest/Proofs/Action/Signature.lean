import LoopNest.Action.Rendering
import LoopNest.Proofs.Text.Digits

/-! What a signature tells. Its letters give the form, its marks the levels, its numbers the factors,
and what it quotes gives the targets as long as no name has a quote in it. The names of the loops are
not in it. -/
namespace LoopNest

namespace Text

/-- A text is cut at the first place of a character in one way. -/
theorem cut_inj {c : Char} {before before' behind behind' : List Char} (free : c ∉ before)
    (free' : c ∉ before') :
    before ++ c :: behind = before' ++ c :: behind' ↔ before = before' ∧ behind = behind' := by
  refine ⟨fun same => ?_, fun ⟨front, rest⟩ => by rw [front, rest]⟩
  induction before generalizing before' with
  | nil =>
    cases before' with
    | nil => exact ⟨rfl, (List.cons.inj same).2⟩
    | cons d before' => exact absurd ((List.cons.inj same).1 ▸ List.mem_cons_self) free'
  | cons d before ih =>
    cases before' with
    | nil => exact absurd ((List.cons.inj same).1 ▸ List.mem_cons_self) free
    | cons d' before' =>
      obtain ⟨head, tail⟩ := List.cons.inj same
      obtain ⟨front, rest⟩ := ih (fun mem => free (List.mem_cons_of_mem _ mem))
        (fun mem => free' (List.mem_cons_of_mem _ mem)) tail
      exact ⟨by rw [head, front], rest⟩

theorem intercalate_concat_inj {c : Char} {xs ys : List (List Char)} {z w : List Char}
    (count : xs.length = ys.length) (free : ∀ x ∈ xs, c ∉ x) (free' : ∀ y ∈ ys, c ∉ y) :
    [c].intercalate (xs ++ [z]) = [c].intercalate (ys ++ [w]) ↔ xs = ys ∧ z = w := by
  refine ⟨fun same => ?_, fun ⟨parts, last⟩ => by rw [parts, last]⟩
  induction xs generalizing ys with
  | nil =>
    cases ys with
    | nil => simpa using same
    | cons y ys => cases count
  | cons x xs ih =>
    cases ys with
    | nil => cases count
    | cons y ys =>
      rw [List.forall_mem_cons] at free free'
      rw [List.cons_append, List.cons_append, List.intercalate_cons_of_ne_nil (by simp),
        List.intercalate_cons_of_ne_nil (by simp), List.append_assoc, List.append_assoc,
        List.singleton_append, List.singleton_append, cut_inj free.1 free'.1] at same
      obtain ⟨parts, last⟩ := ih (Nat.succ.inj count) free.2 free'.2 same.2
      exact ⟨by rw [same.1, parts], last⟩

end Text

/-- No single quote stands in a name. -/
def Unquoted (name : String) : Prop := '\'' ∉ name.toList

instance (name : String) : Decidable (Unquoted name) := inferInstanceAs (Decidable (_ ∉ _))

def quotedRest (names : List String) : List Char :=
  names.flatMap fun name => ',' :: ' ' :: '\'' :: (name.toList ++ ['\''])

theorem toList_quotedList_cons (name : String) (names : List String) :
    (quotedList (name :: names)).toList =
      '[' :: '\'' :: (name.toList ++ '\'' :: (quotedRest names ++ [']'])) := by
  have joined : [',', ' '].intercalate ((name :: names).map fun c => '\'' :: (c.toList ++ ['\''])) =
      '\'' :: (name.toList ++ '\'' :: quotedRest names) := by
    induction names generalizing name with
    | nil => simp [quotedRest]
    | cons next names ih =>
      rw [List.map_cons, List.intercalate_cons_of_ne_nil (by simp), ih]
      simp [quotedRest]
  have texts : ((name :: names).map fun name => "'" ++ name ++ "'").map String.toList =
      (name :: names).map fun c => '\'' :: (c.toList ++ ['\'']) := by
    simp
  rw [quotedList, String.toList_append, String.toList_append, String.toList_intercalate, texts]
  exact congrArg (fun inner => '[' :: (inner ++ [']'])) joined |>.trans (by simp)

theorem quotedRest_inj {names names' : List String} (free : ∀ c ∈ names, Unquoted c)
    (free' : ∀ c ∈ names', Unquoted c) : quotedRest names = quotedRest names' ↔ names = names' := by
  refine ⟨fun same => ?_, fun same => by rw [same]⟩
  induction names generalizing names' with
  | nil =>
    cases names' with
    | nil => rfl
    | cons d names' => cases same
  | cons c names ih =>
    cases names' with
    | nil => cases same
    | cons d names' =>
      rw [List.forall_mem_cons] at free free'
      simp only [quotedRest, List.flatMap_cons, List.cons_append, List.append_assoc, List.nil_append,
        List.cons.injEq, true_and, Text.cut_inj free.1 free'.1, String.toList_inj] at same
      rw [same.1, ih free.2 free'.2 same.2]

theorem quotedList_inj {names names' : List String} (free : ∀ c ∈ names, Unquoted c)
    (free' : ∀ c ∈ names', Unquoted c) : quotedList names = quotedList names' ↔ names = names' := by
  refine ⟨fun same => ?_, fun same => by rw [same]⟩
  have same := congrArg String.toList same
  cases names with
  | nil =>
    cases names' with
    | nil => rfl
    | cons d names' =>
      rw [toList_quotedList_cons] at same
      simp [quotedList] at same
  | cons c names =>
    cases names' with
    | nil =>
      rw [toList_quotedList_cons] at same
      simp [quotedList] at same
    | cons d names' =>
      rw [List.forall_mem_cons] at free free'
      simp only [toList_quotedList_cons, List.cons.injEq, true_and, Text.cut_inj free.1 free'.1,
        String.toList_inj, List.append_cancel_right_eq, quotedRest_inj free.2 free'.2] at same
      rw [same.1, same.2]

/-- A quote in a name hides where the name ends. -/
example : quotedList ["a', 'b"] = quotedList ["a", "b"] := by decide

theorem map_levelMark_inj {ids ids' : List LoopId} :
    ids.map levelMark = ids'.map levelMark ↔ ids.map LoopId.level = ids'.map LoopId.level := by
  have marks (ids : List LoopId) :
      ids.map levelMark = (ids.map LoopId.level).map fun level => "L" ++ toString level := by
    rw [List.map_map]
    rfl
  rw [marks, marks]
  refine List.map_inj_right fun m n same => Text.decimal_injective ?_
  have lists := congrArg String.toList same
  rw [String.toList_append, String.toList_append] at lists
  exact String.toList_injective (List.append_cancel_left lists)

theorem Factor.text_inj {f g : Factor} : f.text = g.text ↔ f = g := by
  refine ⟨fun same => ?_, fun same => by rw [same]⟩
  obtain ⟨v, _, _⟩ := f
  obtain ⟨w, _, _⟩ := g
  have values : v = w := Text.decimal_injective same
  simp only [values]

theorem comma_notMem_decimal (n : Nat) : ',' ∉ (toString n).toList :=
  Text.not_mem_toString rfl (by decide) n

theorem comma_notMem_levelMark (id : LoopId) : ',' ∉ (levelMark id).toList := by
  rw [levelMark, String.toList_append, List.mem_append]
  exact fun mem => mem.elim (by decide) (comma_notMem_decimal _)

namespace Change

variable {c d : Change}

theorem letters_inj : c.letters = d.letters ↔ c.form = d.form := by
  cases c <;> cases d <;> simp [letters, form]

theorem paren_notMem_letters (c : Change) : '(' ∉ c.letters.toList := by
  cases c <;> simp [letters]

theorem lengths_eq_of_form_eq (same : c.form = d.form) :
    c.loops.length = d.loops.length ∧ c.factors.length = d.factors.length := by
  cases c <;> cases d <;> cases same <;> exact ⟨rfl, rfl⟩

def marks (c : Change) : List String := c.loops.map levelMark ++ c.factors.map Factor.text

theorem comma_notMem_marks (c : Change) : ∀ part ∈ c.marks.map String.toList, ',' ∉ part := by
  intro part mem
  obtain ⟨mark, isMark, rfl⟩ := List.mem_map.mp mem
  rcases List.mem_append.mp isMark with mem | mem
  · obtain ⟨id, -, rfl⟩ := List.mem_map.mp mem
    exact comma_notMem_levelMark id
  · obtain ⟨f, -, rfl⟩ := List.mem_map.mp mem
    exact comma_notMem_decimal f.val

theorem marks_inj (same : c.form = d.form) :
    c.marks = d.marks ↔
      c.loops.map LoopId.level = d.loops.map LoopId.level ∧ c.factors = d.factors := by
  obtain ⟨loops, -⟩ := lengths_eq_of_form_eq same
  have count : (c.loops.map levelMark).length = (d.loops.map levelMark).length := by
    rw [List.length_map, List.length_map, loops]
  have parts : c.marks = d.marks ↔ c.loops.map levelMark = d.loops.map levelMark ∧
      c.factors.map Factor.text = d.factors.map Factor.text :=
    ⟨fun equal => List.append_inj equal count, fun ⟨first, second⟩ => by
      rw [marks, marks, first, second]⟩
  rw [parts, map_levelMark_inj, List.map_inj_right fun _ _ => Factor.text_inj.mp]

theorem toList_signature (c : Change) (targets : List String) :
    (c.signature targets).toList = c.letters.toList ++ '(' ::
      ([','].intercalate (c.marks.map String.toList ++
        ["comps=".toList ++ (quotedList targets).toList]) ++ [')']) := by
  simp [signature, marks]

/-- Two signatures are one text exactly if the changes are of one form, at the same levels and with
the same numbers, and have the same targets. -/
theorem signature_inj {targets targets' : List String} (free : ∀ t ∈ targets, Unquoted t)
    (free' : ∀ t ∈ targets', Unquoted t) :
    c.signature targets = d.signature targets' ↔
      c.form = d.form ∧ c.loops.map LoopId.level = d.loops.map LoopId.level ∧
        c.factors = d.factors ∧ targets = targets' := by
  rw [← String.toList_inj, toList_signature, toList_signature,
    Text.cut_inj (paren_notMem_letters c) (paren_notMem_letters d), String.toList_inj,
    letters_inj, List.append_cancel_right_eq]
  refine and_congr_right fun same => ?_
  obtain ⟨loops, factors⟩ := lengths_eq_of_form_eq same
  have count : (c.marks.map String.toList).length = (d.marks.map String.toList).length := by
    simp [marks, loops, factors]
  rw [Text.intercalate_concat_inj count (comma_notMem_marks c) (comma_notMem_marks d),
    List.map_inj_right fun _ _ => String.toList_inj.mp, marks_inj same, and_assoc,
    List.append_cancel_left_eq, String.toList_inj, quotedList_inj free free']

end Change
end LoopNest
