import Mathlib.Data.List.DropRight
import LoopNest.Text.Blank
import LoopNest.Proofs.Text.Digits

/-! White space at the ends of texts: trimming takes all of it and nothing else. -/
namespace LoopNest
namespace Text

/-- No white space stands at either end. -/
def Tight (cs : List Char) : Prop :=
  cs.head?.any isBlank = false ∧ cs.getLast?.any isBlank = false

instance (cs : List Char) : Decidable (Tight cs) := inferInstanceAs (Decidable (_ ∧ _))

theorem isBlank_of_isDigit {c : Char} (digit : c.isDigit = true) : isBlank c = false := by
  obtain ⟨least, most⟩ := Char.isDigit_iff_toNat.mp digit
  simp only [isBlank]
  grind

theorem dropWhile_eq_self {p : Char → Bool} {cs : List Char} (first : cs.head?.any p = false) :
    cs.dropWhile p = cs := by
  cases cs with
  | nil => rfl
  | cons c cs => exact List.dropWhile_cons_of_neg (Bool.eq_false_iff.mp first)

theorem head?_dropWhile_any (p : Char → Bool) (cs : List Char) :
    (cs.dropWhile p).head?.any p = false := by
  have first := List.head?_dropWhile_not p cs
  cases head : (cs.dropWhile p).head? with
  | none => rfl
  | some c => rwa [head] at first

theorem Tight.trimmed_eq_self {cs : List Char} (tight : Tight cs) : trimmed cs = cs := by
  have last : cs.reverse.head?.any isBlank = false := by
    rw [List.head?_reverse]
    exact tight.2
  rw [trimmed, dropWhile_eq_self tight.1, dropWhile_eq_self last, List.reverse_reverse]

theorem tight_trimmed (cs : List Char) : Tight (trimmed cs) := by
  refine ⟨?_, ?_⟩
  · have kept : trimmed cs <+: cs.dropWhile isBlank := List.rdropWhile_prefix isBlank _
    have first := head?_dropWhile_any isBlank cs
    cases head : trimmed cs with
    | nil => rfl
    | cons c rest =>
      obtain ⟨behind, whole⟩ := head ▸ kept
      rwa [← whole] at first
  · rw [trimmed, List.getLast?_reverse]
    exact head?_dropWhile_any isBlank _

theorem tight_of_forall {cs : List Char} (shown : ∀ c ∈ cs, isBlank c = false) : Tight cs := by
  have none_blank {o : Option Char} (inside : ∀ c ∈ o, c ∈ cs) : o.any isBlank = false := by
    cases o with
    | none => rfl
    | some c => exact shown c (inside c rfl)
  exact ⟨none_blank fun _ => List.mem_of_mem_head?, none_blank fun _ => List.mem_of_mem_getLast?⟩

theorem tight_toString (v : Int) : Tight (toString v).toList :=
  tight_of_forall fun c mem => by
    rcases isDigit_or_minus mem with digit | rfl
    · exact isBlank_of_isDigit digit
    · rfl

theorem Tight.append {xs ys : List Char} (first : Tight xs) (last : Tight ys) :
    Tight (xs ++ ys) := by
  obtain ⟨firstHead, firstLast⟩ := first
  obtain ⟨lastHead, lastLast⟩ := last
  constructor
  · rw [List.head?_append]
    cases head : xs.head? with
    | none => simpa using lastHead
    | some c => simpa [head] using firstHead
  · rw [List.getLast?_append]
    cases tail : ys.getLast? with
    | none => simpa using firstLast
    | some c => simpa [tail] using lastLast

theorem trimmed_eq_nil_iff {cs : List Char} : trimmed cs = [] ↔ ∀ c ∈ cs, isBlank c = true := by
  rw [← List.dropWhile_eq_nil_iff]
  refine ⟨fun nothing => ?_, fun nothing => by rw [trimmed, nothing]; rfl⟩
  have all := List.rdropWhile_eq_nil_iff.mp nothing
  have first := head?_dropWhile_any isBlank cs
  cases left : cs.dropWhile isBlank with
  | nil => rfl
  | cons c rest =>
    rw [left] at first all
    exact absurd (all c List.mem_cons_self) (Bool.eq_false_iff.mp first)

theorem mem_of_mem_trimmed {c : Char} {cs : List Char} (mem : c ∈ trimmed cs) : c ∈ cs :=
  (List.dropWhile_sublist isBlank).mem ((List.rdropWhile_prefix isBlank _).mem mem)

theorem toList_trim (s : String) : (trim s).toList = trimmed s.toList := String.toList_ofList

theorem trim_of_tight {s : String} (tight : Tight s.toList) : trim s = s := by
  rw [trim, tight.trimmed_eq_self, String.ofList_toList]

end Text
end LoopNest
