import LoopNest.Text.Digits

/-! Decimal digits of numbers: they are digits, no zero leads them, and the number is read back from
them. -/
namespace LoopNest
namespace Text

theorem toList_decimal (n : Nat) : (toString n).toList = Nat.toDigits 10 n := by
  rw [Nat.toString_eq_repr, Nat.toList_repr]

theorem toList_ofNat (n : Nat) : (toString (Int.ofNat n)).toList = Nat.toDigits 10 n :=
  toList_decimal n

theorem toList_negSucc (n : Nat) :
    (toString (Int.negSucc n)).toList = '-' :: Nat.toDigits 10 (n + 1) := by
  have signed : toString (Int.negSucc n) = "-" ++ toString (n + 1) := rfl
  rw [signed, String.toList_append, toList_decimal]
  rfl

theorem isDigit_decimal {n : Nat} {c : Char} (mem : c ∈ Nat.toDigits 10 n) : c.isDigit = true :=
  Nat.isDigit_of_mem_toDigits (by decide) (by decide) mem

theorem isDigit_or_minus {v : Int} {c : Char} (mem : c ∈ (toString v).toList) :
    c.isDigit = true ∨ c = '-' := by
  cases v with
  | ofNat n =>
    rw [toList_ofNat] at mem
    exact .inl (isDigit_decimal mem)
  | negSucc n =>
    rw [toList_negSucc] at mem
    exact (List.mem_cons.mp mem).elim .inr fun mem => .inl (isDigit_decimal mem)

theorem not_mem_toString {c : Char} (noDigit : c.isDigit = false) (noMinus : c ≠ '-') (v : Int) :
    c ∉ (toString v).toList := fun mem => by
  rcases isDigit_or_minus mem with digit | minus
  · rw [noDigit] at digit
    cases digit
  · exact noMinus minus

/-- Digits read as a number give the number they were written for. -/
@[simp] theorem digitsValue_toDigits (n : Nat) : digitsValue (Nat.toDigits 10 n) = n :=
  Nat.ofDigitChars_ten_toDigits

theorem decimal_injective {m n : Nat} (same : toString m = toString n) : m = n := by
  have digits : Nat.toDigits 10 m = Nat.toDigits 10 n := by
    rw [← toList_decimal, same, toList_decimal]
  rw [← digitsValue_toDigits m, digits, digitsValue_toDigits]

theorem head?_toDigits_ne {n : Nat} (pos : 0 < n) : (Nat.toDigits 10 n).head? ≠ some '0' := by
  induction n using Nat.strongRecOn with
  | ind n ih =>
    by_cases single : n < 10
    · intro zero
      rw [Nat.toDigits_of_lt_base single, List.head?_cons, Option.some.injEq] at zero
      have value := congrArg Char.toNat zero
      rw [Nat.toNat_digitChar_of_lt_ten single] at value
      have := show Char.toNat '0' = 48 from rfl
      omega
    · have shorter := ih (n / 10) (by omega) (by omega)
      rw [Nat.toDigits_of_base_le (by decide) (by omega), List.head?_append]
      cases first : (Nat.toDigits 10 (n / 10)).head? with
      | none => exact absurd (List.head?_eq_none_iff.mp first) Nat.toDigits_ne_nil
      | some c => rwa [first] at shorter

theorem digits?_toDigits (n : Nat) : digits? (Nat.toDigits 10 n) = some n := by
  have digits : ∀ c ∈ Nat.toDigits 10 n, c.isDigit = true := fun _ => isDigit_decimal
  simpa [digits?, Nat.toDigits_ne_nil] using digits

theorem toDigits_ne_cons {c : Char} (sign : c.isDigit = false) (n : Nat) (cs : List Char) :
    Nat.toDigits 10 n ≠ c :: cs := fun same => by
  have digit : c.isDigit = true := isDigit_decimal (n := n) (same ▸ List.mem_cons_self)
  rw [sign] at digit
  cases digit

theorem unsigned?_toString {n : Nat} (fits : n < unsignedBound) :
    unsigned? (toString n) = some n := by
  have inside : fitsUnsigned n = true := decide_eq_true fits
  rw [unsigned?, toList_decimal]
  split
  · next plus => exact absurd plus (toDigits_ne_cons rfl n _)
  · rw [digits?_toDigits, Option.filter_some, if_pos inside]

theorem signed?_toString {v : Int} (fits : fitsSigned v = true) :
    signed? (toString v) = some v := by
  cases v with
  | ofNat n =>
    rw [signed?, toList_ofNat]
    split
    · next plus => exact absurd plus (toDigits_ne_cons rfl n _)
    · next minus => exact absurd minus (toDigits_ne_cons rfl n _)
    · rw [digits?_toDigits, Option.map_some, Option.filter_some, if_pos fits]
  | negSucc n =>
    rw [signed?, toList_negSucc]
    simp only [digits?_toDigits]
    exact (Option.filter_some).trans (if_pos fits)

def IsDigits (cs : List Char) : Prop := cs ≠ [] ∧ ∀ c ∈ cs, c.isDigit = true

instance (cs : List Char) : Decidable (IsDigits cs) :=
  decidable_of_iff (cs ≠ [] ∧ cs.all Char.isDigit = true) (by simp [IsDigits])

/-- An integer literal, with the integer that it stands for. A sign may stand before the digits,
and zeros may lead them. -/
inductive Literal : List Char → Int → Prop where
  | unsigned {cs} (digits : IsDigits cs) : Literal cs (Nat.ofDigitChars 10 cs 0)
  | plus {cs} (digits : IsDigits cs) : Literal ('+' :: cs) (Nat.ofDigitChars 10 cs 0)
  | minus {cs} (digits : IsDigits cs) : Literal ('-' :: cs) (-Nat.ofDigitChars 10 cs 0)

theorem digits?_eq_some_iff {cs : List Char} {n : Nat} :
    digits? cs = some n ↔ IsDigits cs ∧ Nat.ofDigitChars 10 cs 0 = n := by
  have value : digitsValue cs = Nat.ofDigitChars 10 cs 0 := rfl
  simp only [digits?, IsDigits, List.all_eq_true, Option.ite_none_right_eq_some, Option.some.injEq,
    value]

theorem not_isDigits_cons {c : Char} (sign : c.isDigit = false) (cs : List Char) :
    ¬IsDigits (c :: cs) := fun digits => by
  have digit := digits.2 c List.mem_cons_self
  rw [sign] at digit
  cases digit

/-- What is read as a signed number are the literals of the integers in range. -/
theorem signed?_eq_some_iff {s : String} {v : Int} :
    signed? s = some v ↔ Literal s.toList v ∧ fitsSigned v = true := by
  rw [signed?, Option.filter_eq_some_iff]
  refine and_congr_left fun _ => ?_
  split
  · next cs plus =>
    rw [plus, Option.map_eq_some_iff]
    constructor
    · rintro ⟨n, read, rfl⟩
      obtain ⟨digits, rfl⟩ := digits?_eq_some_iff.mp read
      exact .plus digits
    · intro literal
      cases literal with
      | unsigned digits => exact absurd digits (not_isDigits_cons rfl cs)
      | plus digits => exact ⟨_, digits?_eq_some_iff.mpr ⟨digits, rfl⟩, rfl⟩
  · next cs minus =>
    rw [minus, Option.map_eq_some_iff]
    constructor
    · rintro ⟨v, read, rfl⟩
      obtain ⟨n, read, value⟩ := Option.bind_eq_some_iff.mp read
      obtain ⟨digits, rfl⟩ := digits?_eq_some_iff.mp read
      cases value
      exact .minus digits
    · intro literal
      cases literal with
      | unsigned digits => exact absurd digits (not_isDigits_cons rfl cs)
      | minus digits =>
        have read := digits?_eq_some_iff.mpr ⟨digits, rfl⟩
        exact ⟨_, Option.bind_eq_some_iff.mpr ⟨_, read, rfl⟩, rfl⟩
  · next noPlus noMinus =>
    rw [Option.map_eq_some_iff]
    constructor
    · rintro ⟨n, read, rfl⟩
      obtain ⟨digits, rfl⟩ := digits?_eq_some_iff.mp read
      exact .unsigned digits
    · intro literal
      generalize chars : s.toList = cs at literal noPlus noMinus
      cases literal with
      | unsigned digits => exact ⟨_, digits?_eq_some_iff.mpr ⟨digits, rfl⟩, rfl⟩
      | plus digits => exact absurd rfl (noPlus _)
      | minus digits => exact absurd rfl (noMinus _)

theorem lt_of_unsigned?_eq_some {s : String} {n : Nat} (read : unsigned? s = some n) :
    n < unsignedBound :=
  of_decide_eq_true (Option.filter_eq_some_iff.mp read).2

theorem fitsSigned_of_signed?_eq_some {s : String} {v : Int} (read : signed? s = some v) :
    fitsSigned v = true :=
  (Option.filter_eq_some_iff.mp read).2

end Text
end LoopNest
