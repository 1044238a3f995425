import LoopNest.Loop

/-! Arithmetic on signed words of 64 bits. As long as the exact result is in range the operation has
that result; else it wraps round. -/
namespace LoopNest

namespace Text

theorem fitsSigned_iff {v : Int} :
    fitsSigned v = true ↔ -9223372036854775808 ≤ v ∧ v < 9223372036854775808 := by
  rw [fitsSigned, Bool.and_eq_true, decide_eq_true_iff, decide_eq_true_iff, signedBound]

theorem fitsSigned_toInt (w : Int64) : fitsSigned w.toInt = true :=
  fitsSigned_iff.mpr ⟨w.le_toInt, w.toInt_lt⟩

theorem toInt_ofInt {v : Int} (fits : fitsSigned v = true) : (Int64.ofInt v).toInt = v :=
  Int64.toInt_ofInt_of_le (fitsSigned_iff.mp fits).1 (fitsSigned_iff.mp fits).2

end Text

open Text

variable {a b : Int64}

theorem toInt_add (fits : fitsSigned (a.toInt + b.toInt) = true) :
    (a + b).toInt = a.toInt + b.toInt := by
  rw [← toInt_ofInt fits, Int64.ofInt_add, Int64.ofInt_toInt, Int64.ofInt_toInt]

theorem toInt_sub (fits : fitsSigned (a.toInt - b.toInt) = true) :
    (a - b).toInt = a.toInt - b.toInt := by
  rw [← toInt_ofInt fits, Int64.ofInt_sub, Int64.ofInt_toInt, Int64.ofInt_toInt]

theorem toInt_max (a b : Int64) : (max a b).toInt = max a.toInt b.toInt := by
  have cases : max a b = if a ≤ b then b else a := rfl
  rw [cases, Int.max_def]
  simp only [Int64.le_iff_toInt_le]
  split <;> rfl

/-- Division by a positive number cannot leave the range. -/
theorem toInt_div (nonneg : 0 ≤ a.toInt) (positive : 0 < b.toInt) :
    (a / b).toInt = a.toInt / b.toInt := by
  have differs : b ≠ -1 := by
    rintro rfl
    exact absurd positive (by decide)
  rw [Int64.toInt_div_of_ne_right _ _ differs, Int.tdiv_eq_ediv_of_nonneg nonneg]

theorem Factor.toInt_word (f : Factor) : f.word.toInt = f.val :=
  Int64.toInt_ofNat_of_lt (Nat.lt_trans f.lt (by decide))

end LoopNest
