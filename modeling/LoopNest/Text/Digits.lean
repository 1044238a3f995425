/-! Integer literals: an optional sign and at least one ASCII digit, refused outside the
64-bit ranges. Leading zeros are allowed. -/
namespace LoopNest
namespace Text

def unsignedBound : Nat := 18446744073709551616

/-- The signed 64-bit numbers lie from `-signedBound` to `signedBound - 1`. -/
def signedBound : Int := 9223372036854775808

def fitsSigned (v : Int) : Bool := decide (-signedBound ≤ v) && decide (v < signedBound)

def fitsUnsigned (n : Nat) : Bool := decide (n < unsignedBound)

def digitValue (c : Char) : Nat := c.toNat - 48

def digitsValue (cs : List Char) : Nat := cs.foldl (fun n c => 10 * n + digitValue c) 0

def digits? (cs : List Char) : Option Nat :=
  if cs ≠ [] ∧ cs.all Char.isDigit then some (digitsValue cs) else none

/-- Reads an unsigned number: a plus sign may stand in front, a minus sign may not. -/
def unsigned? (s : String) : Option Nat :=
  (match s.toList with
    | '+' :: cs => digits? cs
    | cs => digits? cs).filter fitsUnsigned

/-- Reads a signed number: either sign may stand in front. -/
def signed? (s : String) : Option Int :=
  (match s.toList with
    | '+' :: cs => (digits? cs).map Int.ofNat
    | '-' :: cs => (digits? cs).map fun n => -(n : Int)
    | cs => (digits? cs).map Int.ofNat).filter fitsSigned

example : unsigned? "+007" = some 7 ∧ unsigned? "-0" = none ∧ unsigned? "" = none := by decide

example : signed? "-9223372036854775808" = some (-9223372036854775808) := by decide

example : signed? "9223372036854775808" = none ∧ signed? "+" = none := by decide

end Text
end LoopNest
