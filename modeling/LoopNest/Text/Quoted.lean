import LoopNest.Text.Unprintable

/-! Quoted texts for messages: between double quotes, with backslash escapes for quotes,
backslashes and the common controls, and `\u{…}` for whatever has no visible form. -/
namespace LoopNest
namespace Text

def hexadecimal (n : Nat) : String := String.ofList (Nat.toDigits 16 n)

def quotedChar (c : Char) : String :=
  match c with
  | '\x22' => "\\\""
  | '\\' => "\\\\"
  | '\n' => "\\n"
  | '\r' => "\\r"
  | '\t' => "\\t"
  | '\x00' => "\\0"
  | c => if isUnprintable c then "\\u\x7b" ++ hexadecimal c.toNat ++ "\x7d" else c.toString

def quoted (s : String) : String :=
  "\"" ++ String.join (s.toList.map quotedChar) ++ "\""

example : quoted "a\"\n\u0301'" = "\"a\\\"\\n\\u\x7b301\x7d'\"" := by decide +kernel

example : quoted "\u3164\u0cc0\uff9e" = "\"\\u\x7b3164\x7d\\u\x7bcc0\x7d\uff9e\"" := by
  decide +kernel

end Text
end LoopNest
