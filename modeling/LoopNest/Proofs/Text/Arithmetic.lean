import Mathlib.Algebra.Order.Floor.Ring
import Mathlib.Data.List.SplitBy
import Mathlib.Data.Rat.Floor
import LoopNest.Proofs.Text.Blank
import LoopNest.Proofs.Text.Digits

/-! Texts read as arithmetic. Division binds more tightly than addition and subtraction, signs in
front and `floor` more tightly than division, and what binds alike goes from left to right. An
expression keeps the brackets that it is written with, so it is read from just one row of tokens,
and the reader finds it there. -/
namespace LoopNest
namespace Arith

inductive Op where
  | plus
  | minus
  | slash
deriving DecidableEq

inductive Unary where
  | plus
  | minus
  | floor
deriving DecidableEq

inductive Token where
  | number (value : Nat)
  | symbol (name : String)
  | op (op : Op)
  | floor
  | left
  | right
deriving DecidableEq

/-- An expression as it is written. -/
inductive Expr where
  | number (value : Nat)
  | symbol (name : String)
  | group (e : Expr)
  | unary (u : Unary) (e : Expr)
  | binary (op : Op) (a b : Expr)
deriving DecidableEq

def Op.rank : Op → Nat
  | slash => 1
  | plus | minus => 2

def Unary.token : Unary → Token
  | plus => .op .plus
  | minus => .op .minus
  | floor => .floor

namespace Expr

def tokens : Expr → List Token
  | number value => [.number value]
  | symbol name => [.symbol name]
  | group e => .left :: (e.tokens ++ [.right])
  | unary u e => u.token :: e.tokens
  | binary op a b => a.tokens ++ .op op :: b.tokens

def rank : Expr → Nat
  | number _ | symbol _ | group _ | unary _ _ => 0
  | binary op _ _ => op.rank

/-- Whether an expression is what its tokens are usually read as: behind an operator stands what
binds more tightly, before it what binds no more loosely, and a sign or `floor` takes a single
operand. -/
def Regular : Expr → Prop
  | number _ | symbol _ => True
  | group e => e.Regular
  | unary _ e => e.rank = 0 ∧ e.Regular
  | binary op a b => (a.rank ≤ op.rank ∧ b.rank < op.rank) ∧ a.Regular ∧ b.Regular

def value (env : String → Int) : Expr → Rat
  | number value => value
  | symbol name => env name
  | group e => e.value env
  | unary .plus e => e.value env
  | unary .minus e => -e.value env
  | unary .floor e => ⌊e.value env⌋
  | binary .plus a b => a.value env + b.value env
  | binary .minus a b => a.value env - b.value env
  | binary .slash a b => a.value env / b.value env

end Expr

/-! The reader keeps what is begun and not yet finished, the innermost first. -/

inductive Frame where
  | group
  | unary (u : Unary)
  | binary (op : Op) (a : Expr)
deriving DecidableEq

inductive State where
  | lacking (stack : List Frame)
  | filled (e : Expr) (stack : List Frame)
deriving DecidableEq

/-- Finishes with an operand all that binds it at least as tightly as a rank. -/
def close (rank : Nat) (e : Expr) : List Frame → Expr × List Frame
  | .unary u :: stack => close rank (.unary u e) stack
  | .binary op a :: stack =>
    if op.rank ≤ rank then close rank (.binary op a e) stack else (e, .binary op a :: stack)
  | stack => (e, stack)

def step : State → Token → Option State
  | .lacking stack, .number value => some (.filled (.number value) stack)
  | .lacking stack, .symbol name => some (.filled (.symbol name) stack)
  | .lacking stack, .left => some (.lacking (.group :: stack))
  | .lacking stack, .floor => some (.lacking (.unary .floor :: stack))
  | .lacking stack, .op .plus => some (.lacking (.unary .plus :: stack))
  | .lacking stack, .op .minus => some (.lacking (.unary .minus :: stack))
  | .filled e stack, .op op =>
    match close op.rank e stack with
    | (a, stack) => some (.lacking (.binary op a :: stack))
  | .filled e stack, .right =>
    match close 2 e stack with
    | (e, .group :: stack) => some (.filled (.group e) stack)
    | _ => none
  | _, _ => none

def State.finish : State → Option Expr
  | .filled e stack =>
    match close 2 e stack with
    | (e, []) => some e
    | _ => none
  | .lacking _ => none

/-- Reads an expression. -/
def read? (tokens : List Token) : Option Expr :=
  (tokens.foldlM step (.lacking [])).bind State.finish

example : read? [.symbol "N", .op .minus, .number 2, .op .minus, .symbol "M"] =
    some (.binary .minus (.binary .minus (.symbol "N") (.number 2)) (.symbol "M")) := by decide

section Complete

def Expr.tip : Expr → Expr
  | .unary _ e => e.tip
  | .binary _ _ b => b.tip
  | e => e

def Expr.spine : Expr → List Frame
  | .unary u e => e.spine ++ [.unary u]
  | .binary op a b => b.spine ++ [.binary op a]
  | _ => []

/-- What is begun leaves room for an expression of a rank. -/
def Room (rank : Nat) : List Frame → Prop
  | .unary _ :: _ => rank = 0
  | .binary op _ :: _ => rank < op.rank
  | _ => True

theorem Op.rank_pos (op : Op) : 0 < op.rank := by cases op <;> decide

theorem Op.rank_le (op : Op) : op.rank ≤ 2 := by cases op <;> decide

theorem Expr.rank_le (e : Expr) : e.rank ≤ 2 := by
  cases e with
  | binary op => exact op.rank_le
  | _ => exact Nat.zero_le 2

theorem Room.mono {rank rank' : Nat} {stack : List Frame} (room : Room rank stack)
    (le : rank' ≤ rank) : Room rank' stack := by
  match stack, room with
  | .unary _ :: _, room => exact Nat.le_zero.mp (le.trans_eq room)
  | .binary op _ :: _, room => exact Nat.lt_of_le_of_lt le room
  | .group :: _, _ => trivial
  | [], _ => trivial

/-- Where there is room for what follows, nothing is finished yet. -/
theorem close_of_room {rank : Nat} {stack : List Frame} (room : Room rank stack) (pos : 0 < rank)
    (e : Expr) : close rank e stack = (e, stack) := by
  match stack, room with
  | .unary _ :: _, room => exact absurd room pos.ne'
  | .binary op _ :: _, room => exact if_neg (Nat.not_le.mpr room)
  | .group :: _, _ => rfl
  | [], _ => rfl

theorem close_spine {e : Expr} (regular : e.Regular) {rank : Nat} (le : e.rank ≤ rank)
    (stack : List Frame) : close rank e.tip (e.spine ++ stack) = close rank e stack := by
  induction e generalizing stack with
  | number | symbol | group => rfl
  | unary u e ih =>
    obtain ⟨single, inner⟩ := regular
    rw [Expr.tip, Expr.spine, List.append_assoc, ih inner (single ▸ Nat.zero_le rank)]
    rfl
  | binary op a b _ ih =>
    obtain ⟨⟨-, tighter⟩, -, inner⟩ := regular
    have le : op.rank ≤ rank := le
    rw [Expr.tip, Expr.spine, List.append_assoc, ih inner (tighter.le.trans le)]
    exact if_pos le

theorem step_unary (stack : List Frame) (u : Unary) :
    step (.lacking stack) u.token = some (.lacking (.unary u :: stack)) := by
  cases u <;> rfl

theorem foldlM_tokens {e : Expr} (regular : e.Regular) (stack : List Frame)
    (room : Room e.rank stack) :
    e.tokens.foldlM step (.lacking stack) = some (.filled e.tip (e.spine ++ stack)) := by
  induction e generalizing stack with
  | number | symbol => rfl
  | group e ih =>
    have inner := ih regular (.group :: stack) trivial
    have closed := close_spine (e := e) regular e.rank_le (.group :: stack)
    simp only [Expr.tokens, List.foldlM_cons, step, Option.bind_eq_bind, Option.bind_some,
      List.foldlM_append, inner, closed, close]
    rfl
  | unary u e ih =>
    obtain ⟨single, inner⟩ := regular
    have below := ih inner (.unary u :: stack) single
    simp only [Expr.tokens, List.foldlM_cons, step_unary, Option.bind_eq_bind, Option.bind_some,
      below, Expr.tip, Expr.spine, List.append_assoc, List.singleton_append]
  | binary op a b ihA ihB =>
    obtain ⟨⟨le, tighter⟩, first, second⟩ := regular
    have before := ihA first stack (room.mono le)
    have closed := (close_spine first le stack).trans (close_of_room room op.rank_pos a)
    have behind := ihB second (.binary op a :: stack) tighter
    simp only [Expr.tokens, List.foldlM_append, List.foldlM_cons, before, Option.bind_eq_bind,
      Option.bind_some, step, closed, behind, Expr.tip, Expr.spine, List.append_assoc,
      List.singleton_append]

theorem read?_tokens {e : Expr} (regular : e.Regular) : read? e.tokens = some e := by
  have closed := close_spine regular e.rank_le []
  simp only [read?, foldlM_tokens regular [] trivial, Option.bind_some, State.finish,
    closed, close]

end Complete

section Sound

def Frame.tokens : Frame → List Token
  | group => [.left]
  | unary u => [u.token]
  | binary op a => a.tokens ++ [.op op]

def written : List Frame → List Token
  | [] => []
  | frame :: stack => written stack ++ frame.tokens

/-- What is begun can be finished: the operands before operators fit. -/
def Begun : List Frame → Prop
  | .binary op a :: stack => (a.rank ≤ op.rank ∧ a.Regular) ∧ Room op.rank stack ∧ Begun stack
  | _ :: stack => Begun stack
  | [] => True

theorem room_zero (stack : List Frame) : Room 0 stack := by
  match stack with
  | .unary _ :: _ => rfl
  | .binary op _ :: _ => exact op.rank_pos
  | .group :: _ => trivial
  | [] => trivial

/-- An operand with what is finished by it is written as before. -/
theorem close_sound {rank : Nat} {stack : List Frame} {e : Expr} (begun : Begun stack)
    (regular : e.Regular) (room : Room e.rank stack) (le : e.rank ≤ rank) {e' : Expr}
    {stack' : List Frame} (closed : close rank e stack = (e', stack')) :
    Begun stack' ∧ (e'.Regular ∧ e'.rank ≤ rank ∧ Room rank stack') ∧
      written stack' ++ e'.tokens = written stack ++ e.tokens := by
  induction stack generalizing e with
  | nil =>
    cases closed
    exact ⟨begun, ⟨regular, le, trivial⟩, rfl⟩
  | cons frame stack ih =>
    cases frame with
    | group =>
      cases closed
      exact ⟨begun, ⟨regular, le, trivial⟩, rfl⟩
    | unary u =>
      obtain ⟨begun', fits, same⟩ :=
        ih (e := .unary u e) begun ⟨room, regular⟩ (room_zero stack) (Nat.zero_le rank) closed
      refine ⟨begun', fits, same.trans ?_⟩
      simp [written, Frame.tokens, Expr.tokens]
    | binary op a =>
      obtain ⟨before, around, begun⟩ := begun
      rw [close] at closed
      split at closed
      · next tight =>
        obtain ⟨begun', fits, same⟩ :=
          ih (e := .binary op a e) begun ⟨⟨before.1, room⟩, before.2, regular⟩ around tight closed
        refine ⟨begun', fits, same.trans ?_⟩
        simp [written, Frame.tokens, Expr.tokens]
      · next loose =>
        cases closed
        exact ⟨⟨before, around, begun⟩, ⟨regular, le, Nat.not_le.mp loose⟩, rfl⟩

def State.Reads (read : List Token) : State → Prop
  | .lacking stack => Begun stack ∧ written stack = read
  | .filled e stack =>
    Begun stack ∧ (e.Regular ∧ e.rank = 0) ∧ written stack ++ e.tokens = read

theorem step_sound {read : List Token} {state next : State} (sound : state.Reads read)
    {token : Token} (steps : step state token = some next) : next.Reads (read ++ [token]) := by
  cases state with
  | lacking stack =>
    obtain ⟨begun, rfl⟩ := sound
    match token, steps with
    | .number _, steps | .symbol _, steps =>
      cases steps
      exact ⟨begun, ⟨trivial, rfl⟩, rfl⟩
    | .left, steps | .floor, steps | .op .plus, steps | .op .minus, steps =>
      cases steps
      exact ⟨begun, rfl⟩
  | filled e stack =>
    obtain ⟨begun, ⟨regular, single⟩, rfl⟩ := sound
    have room : Room e.rank stack := single ▸ room_zero stack
    match token, steps with
    | .op op, steps =>
      cases closed : close op.rank e stack with
      | mk a stack' =>
        obtain ⟨begun', ⟨regular', le, room'⟩, same⟩ :=
          close_sound begun regular room (single ▸ Nat.zero_le _) closed
        simp only [step, closed, Option.some.injEq] at steps
        cases steps
        refine ⟨⟨⟨le, regular'⟩, room', begun'⟩, ?_⟩
        rw [← same, written, Frame.tokens, List.append_assoc]
    | .right, steps =>
      cases closed : close 2 e stack with
      | mk a stack' =>
        obtain ⟨begun', ⟨regular', -, -⟩, same⟩ :=
          close_sound begun regular room (single ▸ Nat.zero_le _) closed
        simp only [step, closed] at steps
        split at steps
        · next inner rest isGroup =>
          cases isGroup
          cases steps
          refine ⟨begun', ⟨regular', rfl⟩, ?_⟩
          rw [← same, written, Frame.tokens, Expr.tokens]
          simp
        · cases steps

theorem foldlM_sound {read tokens : List Token} {state last : State} (sound : state.Reads read)
    (runs : tokens.foldlM step state = some last) : last.Reads (read ++ tokens) := by
  induction tokens generalizing read state with
  | nil =>
    cases runs
    rwa [List.append_nil]
  | cons token tokens ih =>
    rw [List.foldlM_cons, Option.bind_eq_bind, Option.bind_eq_some_iff] at runs
    obtain ⟨next, steps, rest⟩ := runs
    have sound' := ih (step_sound sound steps) rest
    rwa [List.append_assoc] at sound'

/-- What is read is the expression that the tokens are usually read as. -/
theorem read?_eq_some_iff {tokens : List Token} {e : Expr} :
    read? tokens = some e ↔ e.Regular ∧ e.tokens = tokens := by
  constructor
  · intro found
    obtain ⟨last, runs, finished⟩ := Option.bind_eq_some_iff.mp found
    have start : (State.lacking []).Reads [] := ⟨trivial, rfl⟩
    have sound := foldlM_sound start runs
    cases last with
    | lacking => cases finished
    | filled a stack =>
      obtain ⟨begun, ⟨regular, single⟩, same⟩ := sound
      cases closed : close 2 a stack with
      | mk a' stack' =>
        obtain ⟨-, ⟨regular', -, -⟩, same'⟩ :=
          close_sound begun regular (single ▸ room_zero stack) (single ▸ Nat.zero_le 2) closed
        simp only [State.finish, closed] at finished
        split at finished
        · next whole =>
          cases whole
          cases finished
          exact ⟨regular', same'.trans same⟩
        · cases finished
  · rintro ⟨regular, rfl⟩
    exact read?_tokens regular

end Sound

/-! Texts are cut where a word or a sign ends. White space only separates. -/

def isWord (c : Char) : Bool := c.isAlphanum || c == '_'

def pieces (cs : List Char) : List (List Char) :=
  (cs.splitBy fun a b => isWord a && isWord b).filter fun piece => !piece.all Text.isBlank

def Token.ofPiece? (cs : List Char) : Option Token :=
  match Text.digits? cs with
  | some value => some (.number value)
  | none =>
    match cs with
    | ['+'] => some (.op .plus)
    | ['-'] => some (.op .minus)
    | ['/'] => some (.op .slash)
    | ['('] => some .left
    | [')'] => some .right
    | cs =>
      if cs = "floor".toList then some .floor
      else if cs.all isWord && !cs.head?.any Char.isDigit then some (.symbol (String.ofList cs))
      else none

def lex? (cs : List Char) : Option (List Token) := (pieces cs).mapM Token.ofPiece?

def Expr.ofText? (s : String) : Option Expr := (lex? s.toList).bind read?

theorem Expr.ofText?_eq_some_iff {s : String} {e : Expr} :
    Expr.ofText? s = some e ↔ e.Regular ∧ lex? s.toList = some e.tokens := by
  simp only [Expr.ofText?, Option.bind_eq_some_iff, read?_eq_some_iff]
  constructor
  · rintro ⟨tokens, lexed, regular, rfl⟩
    exact ⟨regular, lexed⟩
  · rintro ⟨regular, lexed⟩
    exact ⟨_, lexed, regular, rfl⟩

example : Expr.ofText? "N - 2/(m_1 + 03)" =
    some (.binary .minus (.symbol "N")
      (.binary .slash (.number 2) (.group (.binary .plus (.symbol "m_1") (.number 3))))) := by
  decide

example : Expr.ofText? "2N" = none ∧ Expr.ofText? "N N" = none ∧ Expr.ofText? "" = none := by decide

theorem lex?_append {xs ys : List Char} {ts us : List Token} (first : lex? xs = some ts)
    (second : lex? ys = some us)
    (apart : xs.getLast?.any isWord = false ∨ ys.head?.any isWord = false) :
    lex? (xs ++ ys) = some (ts ++ us) := by
  have cut := List.splitBy_append (r := fun a b => isWord a && isWord b) (l := xs) (m := ys)
    fun x last y head => by
      rw [Option.mem_def] at last head
      rcases apart with apart | apart
      · rw [last, Option.any_some] at apart
        rw [apart, Bool.false_and]
      · rw [head, Option.any_some] at apart
        rw [apart, Bool.and_false]
  unfold lex? pieces at first second ⊢
  rw [cut, List.filter_append, List.mapM_append, first, second]
  rfl

theorem lex?_between {xs sep ys : List Char} {ts us vs : List Token} (first : lex? xs = some ts)
    (middle : lex? sep = some us) (last : lex? ys = some vs)
    (apart : sep.head?.map isWord = some false ∧ sep.getLast?.any isWord = false) :
    lex? (xs ++ (sep ++ ys)) = some (ts ++ (us ++ vs)) := by
  obtain ⟨starts, ends⟩ := apart
  refine lex?_append first (lex?_append middle last (.inl ends)) (.inr ?_)
  cases sep with
  | nil => cases starts
  | cons c sep => simpa using starts

theorem isWord_of_isDigit {c : Char} (digit : c.isDigit = true) : isWord c = true := by
  simp [isWord, Char.isAlphanum, digit]

theorem lex?_decimal (n : Nat) : lex? (toString n).toList = some [.number n] := by
  rw [Text.toList_decimal]
  have digits : ∀ c ∈ Nat.toDigits 10 n, c.isDigit = true := fun c => Text.isDigit_decimal
  have nonempty : Nat.toDigits 10 n ≠ [] := Nat.toDigits_ne_nil
  have joined : (Nat.toDigits 10 n).IsChain fun a b => isWord a && isWord b :=
    (List.pairwise_of_forall_mem_list fun a memA b memB => by
      simp [isWord_of_isDigit (digits a memA), isWord_of_isDigit (digits b memB)]).isChain
  obtain ⟨c, rest, cons⟩ := List.exists_cons_of_ne_nil nonempty
  have shown : (Nat.toDigits 10 n).all Text.isBlank = false := by
    rw [cons, List.all_cons, Text.isBlank_of_isDigit (digits c (cons ▸ List.mem_cons_self)),
      Bool.false_and]
  simp [lex?, pieces, List.splitBy_of_isChain nonempty joined, shown, Token.ofPiece?,
    Text.digits?_toDigits]

def Expr.ofInt : Int → Expr
  | .ofNat n => .number n
  | .negSucc n => .unary .minus (.number (n + 1))

theorem Expr.value_ofInt (env : String → Int) (v : Int) : (Expr.ofInt v).value env = v := by
  cases v with
  | ofNat n => rfl
  | negSucc n => simp [Expr.ofInt, Expr.value, Int.negSucc_eq]

theorem Expr.ofText?_ofInt (v : Int) : Expr.ofText? (toString v) = some (Expr.ofInt v) := by
  cases v with
  | ofNat n =>
    refine Expr.ofText?_eq_some_iff.mpr ⟨trivial, ?_⟩
    rw [Text.toList_ofNat, ← Text.toList_decimal, lex?_decimal]
    rfl
  | negSucc n =>
    have sign : lex? ['-'] = some [.op .minus] := by decide +kernel
    refine Expr.ofText?_eq_some_iff.mpr ⟨⟨rfl, trivial⟩, ?_⟩
    rw [Text.toList_negSucc, ← Text.toList_decimal]
    exact lex?_append sign (lex?_decimal (n + 1)) (.inl rfl)

end Arith
end LoopNest
