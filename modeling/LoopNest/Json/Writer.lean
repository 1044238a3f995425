import LoopNest.Json.Basic

/-! Writing JSON text: no space between tokens, members in their order. -/
namespace LoopNest
namespace Json

def hexDigit (n : Nat) : Char := if n < 10 then Char.ofNat (48 + n) else Char.ofNat (87 + n)

/-- A character inside a text: quotes, backslashes and controls are escaped, all else stands for
itself. -/
def writtenChar (c : Char) : List Char :=
  match c with
  | '\x22' => ['\\', '\x22']
  | '\\' => ['\\', '\\']
  | '\x08' => ['\\', 'b']
  | '\x0c' => ['\\', 'f']
  | '\n' => ['\\', 'n']
  | '\r' => ['\\', 'r']
  | '\t' => ['\\', 't']
  | c =>
    if c.toNat < 0x20 then ['\\', 'u', '0', '0', hexDigit (c.toNat / 16), hexDigit (c.toNat % 16)]
    else [c]

def writtenText (s : String) : List Char :=
  '\x22' :: (s.toList.flatMap writtenChar ++ ['\x22'])

def commaJoined : List (List Char) → List Char
  | [] => []
  | [part] => part
  | part :: parts => part ++ ',' :: commaJoined parts

mutual

/-- The characters of a value. A value that nothing here can hold is written as such a number. -/
def written : Json → List Char
  | null => ['n', 'u', 'l', 'l']
  | bool true => ['t', 'r', 'u', 'e']
  | bool false => ['f', 'a', 'l', 's', 'e']
  | int value => (toString value).toList
  | str value => writtenText value
  | array items => '[' :: (commaJoined (writtenItems items) ++ [']'])
  | object members => '\x7b' :: (commaJoined (writtenMembers members) ++ ['\x7d'])
  | foreign => ['0', '.', '0']

def writtenItems : List Json → List (List Char)
  | [] => []
  | item :: items => written item :: writtenItems items

def writtenMembers : List (String × Json) → List (List Char)
  | [] => []
  | (name, value) :: members =>
    (writtenText name ++ ':' :: written value) :: writtenMembers members

end

def text (j : Json) : String := String.ofList j.written

end Json
end LoopNest
