/-! White space: the 25 characters of the Unicode property White_Space, and trimming by it. -/
namespace LoopNest
namespace Text

/-- The property White_Space, which is wider than the blank, tab and line breaks of ASCII. -/
def isBlank (c : Char) : Bool :=
  let n := c.toNat
  (9 ≤ n && n ≤ 13) || n == 0x20 || n == 0x85 || n == 0xA0 || n == 0x1680 ||
    (0x2000 ≤ n && n ≤ 0x200A) || n == 0x2028 || n == 0x2029 || n == 0x202F ||
    n == 0x205F || n == 0x3000

def trimmed (cs : List Char) : List Char :=
  ((cs.dropWhile isBlank).reverse.dropWhile isBlank).reverse

def trim (s : String) : String := String.ofList (trimmed s.toList)

def blank (s : String) : Bool := s.toList.all isBlank

example : isBlank '\u00a0' = true ∧ isBlank '\u200b' = false ∧ isBlank '\t' = true := by decide

example : trim "\u3000 a b\n" = "a b" := by decide

end Text
end LoopNest
