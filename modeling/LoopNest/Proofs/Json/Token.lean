import Mathlib.Data.List.TakeWhile
import LoopNest.Json.Token
import LoopNest.Json.Writer
import LoopNest.Proofs.Text.Digits

/-! The tokens of written text. What is written for a value is read as the tokens of that value,
whatever follows, as long as this does not go on with a word. -/
namespace LoopNest
namespace Json

theorem joinHalves_map_char (cs : List Char) : joinHalves (cs.map .char) = some cs := by
  induction cs with
  | nil => rfl
  | cons c cs ih => rw [List.map_cons, joinHalves, ih, Option.map_some]

theorem hexValue?_hexDigit {n : Nat} (h : n < 16) : hexValue? (hexDigit n) = some n := by
  revert n
  decide

/-- A control character is told by the two digits that it is written with. -/
theorem hexUnit?_control {c : Char} (control : c.toNat < 0x20) :
    hexUnit? '0' '0' (hexDigit (c.toNat / 16)) (hexDigit (c.toNat % 16)) = some c.toNat := by
  have zero : hexValue? '0' = some 0 := rfl
  rw [hexUnit?, zero, hexValue?_hexDigit (by omega), hexValue?_hexDigit (by omega)]
  simp only [Option.some.injEq]
  omega

/-- Each character is read as it was written. -/
theorem scanText_writtenChar (read : List Piece) (c : Char) (rest : List Char) :
    scanText read (writtenChar c ++ rest) = scanText (.char c :: read) rest := by
  fun_cases writtenChar c with
  | case1 | case2 | case3 | case4 | case5 | case6 | case7 => rfl
  | case8 _ _ _ _ _ _ _ _ control =>
    have piece : Piece.ofUnit c.toNat = .char c := by
      rw [Piece.ofUnit, if_neg (by omega), Char.ofNat_toNat]
    simp only [List.cons_append, List.nil_append, scanText, hexUnit?_control control, piece]
  | case9 _ notQuote notBackslash _ _ _ _ _ visible =>
    rw [List.singleton_append, scanText]
    · rw [if_neg visible]
    all_goals simp_all

theorem scanText_flatMap (read : List Piece) (cs rest : List Char) :
    scanText read (cs.flatMap writtenChar ++ '\x22' :: rest) =
      some (read.reverse ++ cs.map .char, rest) := by
  induction cs generalizing read with
  | nil => simp [scanText]
  | cons c cs ih =>
    rw [List.flatMap_cons, List.append_assoc, scanText_writtenChar, ih]
    simp

/-- A written text is read as that text. -/
theorem tokens?_writtenText (read : List Token) (s : String) (rest : List Char) :
    tokens? read (writtenText s ++ rest) = tokens? (.str (some s) :: read) rest := by
  have scanned := scanText_flatMap [] s.toList rest
  have noMark : mark? '\x22' = none := rfl
  rw [writtenText, List.cons_append, List.append_assoc, List.singleton_append, tokens?,
    if_neg (by decide)]
  simp only [noMark, if_true]
  split
  · next pieces rest' found =>
    obtain ⟨rfl, rfl⟩ := Prod.mk.inj (Option.some.inj (found.symm.trans scanned))
    rw [List.reverse_nil, List.nil_append, joinHalves_map_char, Option.map_some,
      String.ofList_toList]
  · next none_left =>
    rw [scanned] at none_left
    cases none_left

theorem isSpace_iff {c : Char} : isSpace c = true ↔ c = ' ' ∨ c = '\n' ∨ c = '\t' ∨ c = '\r' := by
  simp [isSpace, or_assoc]

theorem tokens?_mark (read : List Token) {c : Char} {token : Token} (mark : mark? c = some token)
    (rest : List Char) : tokens? read (c :: rest) = tokens? (token :: read) rest := by
  have noSpace : isSpace c = false := Bool.eq_false_iff.mpr fun space => by
    rcases isSpace_iff.mp space with rfl | rfl | rfl | rfl <;> cases mark
  rw [tokens?, noSpace, mark]
  rfl

/-- What follows a word does not go on with it. -/
def Ends (rest : List Char) : Prop := ∀ c, rest.head? = some c → isWordChar c = false

theorem ends_nil : Ends [] := fun _ head => by cases head

theorem ends_cons {c : Char} {rest : List Char} (h : isWordChar c = false) : Ends (c :: rest) :=
  fun _ head => Option.some.inj head ▸ h

theorem Ends.takeWhile_eq_nil {rest : List Char} (ends : Ends rest) :
    rest.takeWhile isWordChar = [] := by
  cases rest with
  | nil => rfl
  | cons c rest => rw [List.takeWhile_cons_of_neg (by simp [ends c rfl])]

theorem Ends.dropWhile_eq_self {rest : List Char} (ends : Ends rest) :
    rest.dropWhile isWordChar = rest := by
  cases rest with
  | nil => rfl
  | cons c rest => rw [List.dropWhile_cons_of_neg (by simp [ends c rfl])]

theorem tokens?_word (read : List Token) {c : Char} {word rest : List Char} {value : Json}
    (chars : ∀ x ∈ c :: word, isWordChar x = true) (known : word? (c :: word) = some value)
    (ends : Ends rest) :
    tokens? read (c :: word ++ rest) = tokens? (.word value :: read) rest := by
  have first : isWordChar c = true := chars c (by simp)
  have noSpace : isSpace c = false := Bool.eq_false_iff.mpr fun space => by
    rcases isSpace_iff.mp space with rfl | rfl | rfl | rfl <;> cases first
  have noMark : mark? c = none := by
    fun_cases mark? c <;> first | rfl | cases first
  have noQuote : c ≠ '\x22' := by
    rintro rfl
    cases first
  rw [List.forall_mem_cons] at chars
  have taken : (word ++ rest).takeWhile isWordChar = word := by
    rw [List.takeWhile_append_of_pos chars.2, ends.takeWhile_eq_nil, List.append_nil]
  have left : (word ++ rest).dropWhile isWordChar = rest := by
    rw [List.dropWhile_append_of_pos chars.2, ends.dropWhile_eq_self]
  rw [List.cons_append, tokens?, noSpace, noMark, if_neg noQuote, taken, known, left]
  rfl

theorem magnitude?_toDigits {negative : Bool} {n : Nat} (signed : negative = true → 0 < n) :
    magnitude? negative (Nat.toDigits 10 n) = some (.int (if negative then -(n : Int) else n)) := by
  have digits : ∀ c ∈ Nat.toDigits 10 n, c.isDigit = true := fun _ mem => Text.isDigit_decimal mem
  have taken := List.takeWhile_eq_self_iff.mpr digits
  have left := List.dropWhile_eq_nil_iff.mpr digits
  have noZero : ¬((Nat.toDigits 10 n).head? = some '0' ∧ (Nat.toDigits 10 n).length ≠ 1) := by
    rintro ⟨zero, long⟩
    rcases Nat.eq_zero_or_pos n with rfl | pos
    · exact long rfl
    · exact Text.head?_toDigits_ne pos zero
  cases negative with
  | false => simp [magnitude?, taken, left, Nat.toDigits_ne_nil, noZero]
  | true =>
    obtain ⟨m, rfl⟩ := Nat.exists_eq_succ_of_ne_zero (signed rfl).ne'
    simp [magnitude?, taken, left, Nat.toDigits_ne_nil, noZero]

theorem word?_digits {cs : List Char} (digits : ∀ c ∈ cs, c.isDigit = true) :
    word? cs = magnitude? false cs := by
  fun_cases word? cs with
  | case1 | case2 | case3 | case4 => exact absurd (digits _ List.mem_cons_self) (by decide)
  | case5 => rfl

theorem word?_int (v : Int) : word? (toString v).toList = some (.int v) := by
  cases v with
  | ofNat n =>
    rw [Text.toList_ofNat, word?_digits fun _ mem => Text.isDigit_decimal mem,
      magnitude?_toDigits (by simp)]
    rfl
  | negSucc n =>
    rw [Text.toList_negSucc, word?, magnitude?_toDigits fun _ => Nat.succ_pos n]
    rfl

theorem isWordChar_int (v : Int) : ∀ c ∈ (toString v).toList, isWordChar c = true := by
  have digits (n : Nat) : ∀ c ∈ Nat.toDigits 10 n, isWordChar c = true := fun c mem => by
    simp [isWordChar, Char.isAlphanum, Text.isDigit_decimal mem]
  cases v with
  | ofNat n =>
    rw [Text.toList_ofNat]
    exact digits n
  | negSucc n =>
    rw [Text.toList_negSucc, List.forall_mem_cons]
    exact ⟨rfl, digits (n + 1)⟩

theorem tokens?_int (read : List Token) (v : Int) {rest : List Char} (ends : Ends rest) :
    tokens? read ((toString v).toList ++ rest) = tokens? (.word (.int v) :: read) rest := by
  have known := word?_int v
  have chars := isWordChar_int v
  cases word : (toString v).toList with
  | nil =>
    rw [word] at known
    cases known
  | cons c cs =>
    rw [word] at known chars
    exact tokens?_word read chars known ends

mutual

def tokens : Json → List Token
  | null => [.word null]
  | bool value => [.word (bool value)]
  | int value => [.word (int value)]
  | foreign => [.word foreign]
  | str value => [.str (some value)]
  | array [] => [.leftBracket, .rightBracket]
  | array (item :: items) => .leftBracket :: (tokens item ++ itemTokens items)
  | object [] => [.leftBrace, .rightBrace]
  | object ((name, value) :: members) =>
    .leftBrace :: .str (some name) :: .colon :: (tokens value ++ memberTokens members)

def itemTokens : List Json → List Token
  | [] => [.rightBracket]
  | item :: items => .comma :: (tokens item ++ itemTokens items)

def memberTokens : List (String × Json) → List Token
  | [] => [.rightBrace]
  | (name, value) :: members =>
    .comma :: .str (some name) :: .colon :: (tokens value ++ memberTokens members)

end

theorem commaJoined_cons (part : List Char) (parts : List (List Char)) :
    commaJoined (part :: parts) = part ++ parts.flatMap (',' :: ·) := by
  induction parts generalizing part with
  | nil => simp [commaJoined]
  | cons next parts ih => rw [commaJoined, ih, List.flatMap_cons, List.cons_append]; simp

theorem ends_parts (parts : List (List Char)) (close : Char) (h : isWordChar close = false)
    (rest : List Char) : Ends (parts.flatMap (',' :: ·) ++ close :: rest) := by
  cases parts with
  | nil => exact ends_cons h
  | cons part parts => exact ends_cons rfl

mutual

/-- What is written for a value is read as its tokens. -/
theorem tokens?_written (read : List Token) {rest : List Char} (ends : Ends rest) :
    ∀ j : Json, tokens? read (j.written ++ rest) = tokens? (j.tokens.reverse ++ read) rest
  | null => tokens?_word read (List.all_eq_true.mp rfl) rfl ends
  | bool false => tokens?_word read (List.all_eq_true.mp rfl) rfl ends
  | bool true => tokens?_word read (List.all_eq_true.mp rfl) rfl ends
  | int value => tokens?_int read value ends
  | foreign => tokens?_word read (List.all_eq_true.mp rfl) rfl ends
  | str value => tokens?_writtenText read value rest
  | array [] => (tokens?_mark read rfl _).trans (tokens?_mark _ rfl rest)
  | array (item :: items) => by
    have behind := ends_parts (writtenItems items) ']' rfl rest
    rw [written, writtenItems, commaJoined_cons, tokens, List.cons_append, List.append_assoc,
      List.append_assoc, List.singleton_append, tokens?_mark read rfl,
      tokens?_written _ behind item, tokens?_items]
    simp
  | object [] => (tokens?_mark read rfl _).trans (tokens?_mark _ rfl rest)
  | object ((name, value) :: members) => by
    have behind := ends_parts (writtenMembers members) '\x7d' rfl rest
    rw [written, writtenMembers, commaJoined_cons, tokens, List.cons_append, List.append_assoc,
      List.append_assoc, List.append_assoc, List.singleton_append, tokens?_mark read rfl,
      tokens?_writtenText, List.cons_append, tokens?_mark _ rfl,
      tokens?_written _ behind value, tokens?_members]
    simp

theorem tokens?_items (read : List Token) (rest : List Char) : ∀ items : List Json,
    tokens? read ((writtenItems items).flatMap (',' :: ·) ++ ']' :: rest) =
      tokens? ((itemTokens items).reverse ++ read) rest
  | [] => tokens?_mark read rfl rest
  | item :: items => by
    have behind := ends_parts (writtenItems items) ']' rfl rest
    rw [writtenItems, itemTokens, List.flatMap_cons, List.cons_append, List.cons_append,
      List.append_assoc, tokens?_mark read rfl, tokens?_written _ behind item, tokens?_items]
    simp

theorem tokens?_members (read : List Token) (rest : List Char) : ∀ members : List (String × Json),
    tokens? read ((writtenMembers members).flatMap (',' :: ·) ++ '\x7d' :: rest) =
      tokens? ((memberTokens members).reverse ++ read) rest
  | [] => tokens?_mark read rfl rest
  | (name, value) :: members => by
    have behind := ends_parts (writtenMembers members) '\x7d' rfl rest
    rw [writtenMembers, memberTokens, List.flatMap_cons, List.cons_append, List.cons_append,
      List.append_assoc, List.append_assoc, tokens?_mark read rfl, tokens?_writtenText,
      List.cons_append, tokens?_mark _ rfl, tokens?_written _ behind value, tokens?_members]
    simp

end

end Json
end LoopNest
