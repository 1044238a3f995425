import LoopNest.Json.Basic

/-! The tokens of JSON text. Between tokens stand blanks, tabs and line breaks; a word, such as a
number or `true`, goes as far as the characters of words do. -/
namespace LoopNest
namespace Json

/-- A token: a bracket, a mark, a word's value, or a text, which is missing if its escapes leave
half a surrogate pair. -/
inductive Token where
  | leftBrace
  | rightBrace
  | leftBracket
  | rightBracket
  | comma
  | colon
  | word (value : Json)
  | str (value : Option String)

def isSpace (c : Char) : Bool := c == ' ' || c == '\n' || c == '\t' || c == '\r'

def mark? : Char → Option Token
  | '\x7b' => some .leftBrace
  | '\x7d' => some .rightBrace
  | '[' => some .leftBracket
  | ']' => some .rightBracket
  | ',' => some .comma
  | ':' => some .colon
  | _ => none

/-- A piece of a text: a character, or half of a surrogate pair. -/
inductive Piece where
  | char (c : Char)
  | half (unit : Nat)

def escaped? : Char → Option Char
  | '\x22' => some '\x22'
  | '\\' => some '\\'
  | '/' => some '/'
  | 'b' => some '\x08'
  | 'f' => some '\x0c'
  | 'n' => some '\n'
  | 'r' => some '\r'
  | 't' => some '\t'
  | _ => none

def hexValue? (c : Char) : Option Nat :=
  if '0' ≤ c ∧ c ≤ '9' then some (c.toNat - 48)
  else if 'a' ≤ c ∧ c ≤ 'f' then some (c.toNat - 87)
  else if 'A' ≤ c ∧ c ≤ 'F' then some (c.toNat - 55)
  else none

def hexUnit? (a b c d : Char) : Option Nat :=
  match hexValue? a, hexValue? b, hexValue? c, hexValue? d with
  | some a, some b, some c, some d => some (((a * 16 + b) * 16 + c) * 16 + d)
  | _, _, _, _ => none

def Piece.ofUnit (unit : Nat) : Piece :=
  if 0xD800 ≤ unit ∧ unit < 0xE000 then half unit else char (Char.ofNat unit)

def scanText (read : List Piece) : List Char → Option (List Piece × List Char)
  | '\x22' :: rest => some (read.reverse, rest)
  | '\\' :: 'u' :: a :: b :: c :: d :: rest =>
    match hexUnit? a b c d with
    | some unit => scanText (.ofUnit unit :: read) rest
    | none => none
  | '\\' :: c :: rest =>
    match escaped? c with
    | some c => scanText (.char c :: read) rest
    | none => none
  | c :: rest => if c.toNat < 0x20 then none else scanText (.char c :: read) rest
  | [] => none

/-- What is left behind a text is shorter than what it was read from. -/
theorem length_lt_of_scanText {read pieces : List Piece} {cs rest : List Char}
    (scanned : scanText read cs = some (pieces, rest)) : rest.length < cs.length := by
  fun_induction scanText read cs with
  | case1 read rest' =>
    obtain ⟨_, rfl⟩ : _ ∧ rest' = rest := by simpa using scanned
    simp
  | case2 read a b c d rest' unit hex ih =>
    have := ih scanned
    simp only [List.length_cons]
    omega
  | case3 => simp at scanned
  | case4 read c rest' notUnit c' escape ih =>
    have := ih scanned
    simp only [List.length_cons]
    omega
  | case5 => simp at scanned
  | case6 => simp at scanned
  | case7 read c rest' notQuote notUnit notEscape visible ih =>
    have := ih scanned
    simp only [List.length_cons]
    omega
  | case8 => simp at scanned

/-- The characters of pieces, if halves stand in pairs only: a high one before a low one. -/
def joinHalves : List Piece → Option (List Char)
  | [] => some []
  | .char c :: pieces => (joinHalves pieces).map (c :: ·)
  | .half high :: .half low :: pieces =>
    if high < 0xDC00 ∧ 0xDC00 ≤ low then
      (joinHalves pieces).map
        (Char.ofNat (0x10000 + (high - 0xD800) * 0x400 + (low - 0xDC00)) :: ·)
    else none
  | .half _ :: _ => none

def isWordChar (c : Char) : Bool := c.isAlphanum || c == '-' || c == '+' || c == '.'

/-- Whether what follows the digits of a number is an exponent, or nothing. -/
def isExponent : List Char → Bool
  | [] => true
  | e :: cs =>
    (e == 'e' || e == 'E') &&
      (match cs with
        | '+' :: cs => (Text.digits? cs).isSome
        | '-' :: cs => (Text.digits? cs).isSome
        | cs => (Text.digits? cs).isSome)

def isFraction : List Char → Bool
  | '.' :: cs => cs.takeWhile Char.isDigit != [] && isExponent (cs.dropWhile Char.isDigit)
  | cs => isExponent cs

/-- The value of a number without sign. Zeros may not lead, and minus zero is no integer. -/
def magnitude? (negative : Bool) (cs : List Char) : Option Json :=
  let whole := cs.takeWhile Char.isDigit
  let rest := cs.dropWhile Char.isDigit
  if whole = [] ∨ (whole.head? = some '0' ∧ whole.length ≠ 1) then none
  else if rest = [] then
    match negative, Text.digitsValue whole with
    | true, 0 => some .foreign
    | true, n => some (.int (-(n : Int)))
    | false, n => some (.int n)
  else if isFraction rest then some .foreign
  else none

def word? : List Char → Option Json
  | ['n', 'u', 'l', 'l'] => some .null
  | ['t', 'r', 'u', 'e'] => some (.bool true)
  | ['f', 'a', 'l', 's', 'e'] => some (.bool false)
  | '-' :: cs => magnitude? true cs
  | cs => magnitude? false cs

/-- The tokens of a text, behind those read before it, which are given in reverse. -/
def tokens? (read : List Token) : List Char → Option (List Token)
  | [] => some read.reverse
  | c :: rest =>
    if isSpace c then tokens? read rest
    else
      match mark? c with
      | some token => tokens? (token :: read) rest
      | none =>
        if c = '\x22' then
          match _scanned : scanText [] rest with
          | some (pieces, rest') =>
            tokens? (.str ((joinHalves pieces).map String.ofList) :: read) rest'
          | none => none
        else
          match word? (c :: rest.takeWhile isWordChar) with
          | some value => tokens? (.word value :: read) (rest.dropWhile isWordChar)
          | none => none
termination_by cs => cs.length
decreasing_by
  · simp
  · simp
  · have := length_lt_of_scanText _scanned
    simp only [List.length_cons]
    omega
  · have := (List.dropWhile_sublist isWordChar (l := rest)).length_le
    simp only [List.length_cons]
    omega

end Json
end LoopNest
