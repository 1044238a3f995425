import LoopNest.Proofs.Action.Tiling
import LoopNest.Proofs.Text.Arithmetic

/-! Symbolic tile counts, read as arithmetic. The bounds are put into the text as they are written,
without brackets. Of the lower bound only the first term stands behind the minus sign as it should:
the signs of the others are not turned round. -/
namespace LoopNest

namespace Arith.Expr

def head : Expr → Expr
  | binary .plus a _ | binary .minus a _ => a.head
  | e => e

/-- What the texts of two expressions are read as with a minus sign between them. -/
def minusText (u : Expr) : Expr → Expr
  | binary .plus a b => binary .plus (u.minusText a) b
  | binary .minus a b => binary .minus (u.minusText a) b
  | e => binary .minus u e

def Plain : Expr → Prop
  | number _ | symbol _ => True
  | group e | unary .plus e | unary .minus e => e.Plain
  | binary .plus a b | binary .minus a b => a.Plain ∧ b.Plain
  | unary .floor _ | binary .slash _ _ => False

theorem tokens_minusText (u v : Expr) :
    (u.minusText v).tokens = u.tokens ++ .op .minus :: v.tokens := by
  induction v with
  | binary op a b ih =>
    cases op with
    | slash => rfl
    | plus | minus => simp [minusText, tokens, ih]
  | _ => rfl

theorem rank_minusText (u v : Expr) : (u.minusText v).rank = 2 := by
  cases v with
  | binary op => cases op <;> rfl
  | _ => rfl

theorem regular_minusText {u v : Expr} (first : u.Regular) (second : v.Regular) :
    (u.minusText v).Regular := by
  induction v with
  | number | symbol | group | unary =>
    exact ⟨⟨u.rank_le, Nat.zero_lt_succ 1⟩, first, second⟩
  | binary op a b ih =>
    cases op with
    | slash => exact ⟨⟨u.rank_le, Nat.lt_succ_self 1⟩, first, second⟩
    | plus | minus =>
      obtain ⟨⟨-, tighter⟩, before, behind⟩ := second
      exact ⟨⟨(rank_minusText u a).le, tighter⟩, ih before, behind⟩

/-- Only the first term is subtracted. -/
theorem value_minusText (env : String → Int) (u v : Expr) :
    (u.minusText v).value env = u.value env + v.value env - 2 * v.head.value env := by
  induction v with
  | number | symbol | group | unary =>
    simp only [minusText, head, value]
    ring
  | binary op a b ih =>
    cases op with
    | slash =>
      simp only [minusText, head, value]
      ring
    | plus | minus =>
      simp only [minusText, head, value, ih]
      ring

theorem Plain.exists_int {e : Expr} (plain : e.Plain) (env : String → Int) :
    ∃ x : Int, e.value env = x := by
  induction e with
  | number n => exact ⟨n, by simp [value]⟩
  | symbol name => exact ⟨env name, rfl⟩
  | group e ih => exact ih plain
  | unary u e ih =>
    cases u with
    | floor => exact plain.elim
    | plus => exact ih plain
    | minus =>
      obtain ⟨x, same⟩ := ih plain
      exact ⟨-x, by simp [value, same]⟩
  | binary op a b ihA ihB =>
    cases op with
    | slash => exact plain.elim
    | plus =>
      obtain ⟨⟨x, sameA⟩, ⟨y, sameB⟩⟩ := And.intro (ihA plain.1) (ihB plain.2)
      exact ⟨x + y, by simp [value, sameA, sameB]⟩
    | minus =>
      obtain ⟨⟨x, sameA⟩, ⟨y, sameB⟩⟩ := And.intro (ihA plain.1) (ihB plain.2)
      exact ⟨x - y, by simp [value, sameA, sameB]⟩

theorem Plain.head {e : Expr} (plain : e.Plain) : e.head.Plain := by
  induction e with
  | binary op a b ih =>
    cases op with
    | slash => exact plain.elim
    | plus | minus => exact ih plain.1
  | _ => exact plain

end Arith.Expr

open Arith Arith.Expr

/-- The expression that a bound is: a number, or what its text is read as. -/
def Bound.expr? : Bound → Option Expr
  | concrete value => some (Expr.ofInt value.toInt)
  | symbolic text => Expr.ofText? text

theorem Bound.ofText?_text {b : Bound} {e : Expr} (isExpr : b.expr? = some e) :
    Expr.ofText? b.text = some e := by
  cases b with
  | concrete value =>
    cases isExpr
    exact Expr.ofText?_ofInt value.toInt
  | symbolic text => exact isExpr

def tileExpr (u v : Expr) (size : Factor) : Expr :=
  .unary .floor (.group (.binary .slash
    (.group (.binary .plus (u.minusText v) (.number (size.val - 1)))) (.number size.val)))

theorem expr?_tileCount {l : Loop} (unknown : l.extent? = none) {u v : Expr}
    (upper : l.upper.expr? = some u) (lower : l.lower.expr? = some v) (size : Factor) :
    (tileCount l size).expr? = some (tileExpr u v size) := by
  obtain ⟨regularU, lexU⟩ := Expr.ofText?_eq_some_iff.mp (Bound.ofText?_text upper)
  obtain ⟨regularV, lexV⟩ := Expr.ofText?_eq_some_iff.mp (Bound.ofText?_text lower)
  simp only [tileCount, unknown, Bound.expr?]
  refine Expr.ofText?_eq_some_iff.mpr ⟨?_, ?_⟩
  · have sum : (u.minusText v).rank ≤ 2 := (rank_minusText u v).le
    exact ⟨rfl, ⟨Nat.zero_le 1, Nat.one_pos⟩,
      ⟨⟨sum, Nat.two_pos⟩, regular_minusText regularU regularV, trivial⟩, trivial⟩
  · have behind := lex?_append (lex?_decimal size.val)
      (show lex? ")".toList = some [.right] by decide +kernel) (.inr rfl)
    have counted := lex?_between (lex?_decimal (size.val - 1))
      (show lex? ") / ".toList = some [.right, .op .slash] by decide +kernel) behind ⟨rfl, rfl⟩
    have added := lex?_between lexV
      (show lex? " + ".toList = some [.op .plus] by decide +kernel) counted ⟨rfl, rfl⟩
    have subtracted := lex?_between lexU
      (show lex? " - ".toList = some [.op .minus] by decide +kernel) added ⟨rfl, rfl⟩
    have whole := lex?_append
      (show lex? "floor((".toList = some [.floor, .left, .left] by decide +kernel) subtracted
      (.inl rfl)
    simp only [tileExpr, tokens, Unary.token, tokens_minusText]
    simpa [Factor.text] using whole

/-- With one less than the size added, rounding down is rounding up. -/
theorem floor_eq_ceil (size : Factor) (x : Int) :
    ⌊((x : Rat) + (size.val - 1 : Nat)) / size.val⌋ = ⌈(x : Rat) / size.val⌉ := by
  have positive : (0 : Rat) < size.val := Nat.cast_pos.mpr size.pos
  obtain ⟨short, enough⟩ := size.covers x
  have whole : (x : Rat) + (size.val - 1 : Nat) = (x + size.val - 1 : Int) := by
    rw [Nat.cast_sub size.pos]
    push_cast
    ring
  rw [whole, Rat.floor_intCast_div_natCast, eq_comm, Int.ceil_eq_iff, lt_div_iff₀ positive,
    div_le_iff₀ positive]
  exact ⟨by exact_mod_cast short, by exact_mod_cast enough⟩

theorem value_tileExpr {u v : Expr} (plainU : u.Plain) (plainV : v.Plain) (size : Factor)
    (env : String → Int) :
    (tileExpr u v size).value env =
      ⌈(u.value env + v.value env - 2 * v.head.value env) / size.val⌉ := by
  obtain ⟨x, sameU⟩ := plainU.exists_int env
  obtain ⟨y, sameV⟩ := plainV.exists_int env
  obtain ⟨z, sameH⟩ := plainV.head.exists_int env
  have whole : (x : Rat) + y - 2 * z = (x + y - 2 * z : Int) := by push_cast; ring
  simp only [tileExpr, value, value_minusText, sameU, sameV, sameH, whole, floor_eq_ceil]

/-- A symbolic tile count is an expression. If the bounds only add and subtract, it counts the tiles
that cover the difference of the bounds with the signs of all but the first term of the lower bound
turned round. So for given values of the symbols it is right at every tile size exactly if these
terms cancel out. -/
theorem tileCount_eq_ceil_iff {l : Loop} (unknown : l.extent? = none) {u v : Expr}
    (upper : l.upper.expr? = some u) (lower : l.lower.expr? = some v) (plainU : u.Plain)
    (plainV : v.Plain) :
    (∀ size, ∃ e, (tileCount l size).expr? = some e ∧ ∀ env, e.value env =
      ⌈(u.value env + v.value env - 2 * v.head.value env) / size.val⌉) ∧
    ∀ env, (∀ size e, (tileCount l size).expr? = some e →
        e.value env = ⌈(u.value env - v.value env) / size.val⌉) ↔
      v.value env = v.head.value env := by
  refine ⟨fun size => ⟨_, expr?_tileCount unknown upper lower size,
    value_tileExpr plainU plainV size⟩, fun env => ⟨fun right => ?_, fun same size e reads => ?_⟩⟩
  · -- at tile size 1 nothing is rounded
    have one := right ⟨1, by decide, by decide⟩ _ (expr?_tileCount unknown upper lower _)
    obtain ⟨x, sameU⟩ := plainU.exists_int env
    obtain ⟨y, sameV⟩ := plainV.exists_int env
    obtain ⟨z, sameH⟩ := plainV.head.exists_int env
    have whole : (x : Rat) + y - 2 * z = (x + y - 2 * z : Int) := by push_cast; ring
    have extent : (x : Rat) - y = (x - y : Int) := by push_cast; ring
    rw [value_tileExpr plainU plainV, sameU, sameV, sameH, whole, extent, Nat.cast_one, div_one,
      div_one, Int.ceil_intCast, Int.ceil_intCast, Int.cast_inj] at one
    rw [sameV, sameH, Int.cast_inj]
    omega
  · rw [expr?_tileCount unknown upper lower] at reads
    cases reads
    rw [value_tileExpr plainU plainV, same]
    congr 3
    ring

theorem tileCount_symbol : ∃ e,
    (tileCount { name := "k", lower := .concrete 0, upper := .symbolic "N" }
      ⟨8, by decide, by decide⟩).expr? = some e ∧ e.value (fun _ => 20) = 3 := by
  obtain ⟨reads, right⟩ := tileCount_eq_ceil_iff (u := .symbol "N") (v := .number 0)
    (l := { name := "k", lower := .concrete 0, upper := .symbolic "N" }) rfl (by decide) rfl
    trivial trivial
  obtain ⟨e, found, -⟩ := reads ⟨8, by decide, by decide⟩
  refine ⟨e, found, ((right fun _ => 20).mpr rfl _ e found).trans (Int.cast_inj.mpr ?_)⟩
  exact Int.ceil_eq_iff.mpr ⟨by norm_num [value], by norm_num [value]⟩

/-- A loop over the last two of `N` iterations. -/
def lastTwo : Loop where
  name := "i"
  lower := .symbolic "N - 2"
  upper := .symbolic "N"

/-- Its tile loop never runs, though one tile of 8 is needed. -/
theorem tileCount_lastTwo_ne :
    tileCount lastTwo ⟨8, by decide, by decide⟩ = .symbolic "floor((N - N - 2 + 7) / 8)" ∧
    ∃ u v e, lastTwo.upper.expr? = some u ∧ lastTwo.lower.expr? = some v ∧ u.Plain ∧ v.Plain ∧
      (tileCount lastTwo ⟨8, by decide, by decide⟩).expr? = some e ∧
      e.value (fun _ => 10) = 0 ∧ ⌈(u.value (fun _ => 10) - v.value (fun _ => 10)) / 8⌉ = 1 := by
  have upper : lastTwo.upper.expr? = some (.symbol "N") := by decide
  have lower : lastTwo.lower.expr? = some (.binary .minus (.symbol "N") (.number 2)) := by decide
  have plainUpper : (Expr.symbol "N").Plain := trivial
  have plainLower : (Expr.binary .minus (.symbol "N") (.number 2)).Plain := ⟨trivial, trivial⟩
  refine ⟨by decide +kernel, _, _, _, upper, lower, plainUpper, plainLower,
    expr?_tileCount rfl upper lower _, ?_, ?_⟩
  · rw [value_tileExpr plainUpper plainLower, Int.cast_eq_zero]
    exact Int.ceil_eq_iff.mpr ⟨by norm_num [value, Expr.head], by norm_num [value, Expr.head]⟩
  · exact Int.ceil_eq_iff.mpr ⟨by norm_num [value], by norm_num [value]⟩

end LoopNest
