import Mathlib.Data.Set.List
import LoopNest.Action.Basic
import LoopNest.Proofs.Action.Check

/-! Positional parameters and changes. The parameters of a change give it back, and no other list
does; so an action is made of just the lists of as many loops as its form takes and then as many
positive numbers of 32 bits. -/
namespace LoopNest

namespace Factor

variable {f : Factor}

theorem ofInt?_eq_some_iff {v : Int} : ofInt? v = some f ↔ v = f.val := by
  constructor
  · intro read
    rw [ofInt?] at read
    split_ifs at read with fits
    cases read
    exact (Int.toNat_of_nonneg (Int.lt_toNat.mp fits.1).le).symm
  · rintro rfl
    exact ofInt?_val f

theorem exists_val_eq_iff {v : Int} : (∃ f : Factor, v = f.val) ↔ 1 ≤ v ∧ v ≤ 4294967295 := by
  constructor
  · rintro ⟨f, rfl⟩
    have pos := f.pos
    have lt := f.lt
    omega
  · rintro ⟨least, most⟩
    exact ⟨⟨v.toNat, by omega, by omega⟩, (Int.toNat_of_nonneg (by omega)).symm⟩

theorem ofWord?_eq_some_iff {w : UInt32} : ofWord? w = some f ↔ f.val = w.toNat := by
  rw [ofWord?]
  constructor
  · intro read
    split_ifs at read with pos
    cases read
    rfl
  · intro same
    obtain ⟨val, pos, lt⟩ := f
    subst same
    exact dif_pos pos

theorem exists_word (f : Factor) : ∃ w : UInt32, f.val = w.toNat :=
  ⟨UInt32.ofNatLT f.val f.lt, UInt32.toNat_ofNatLT.symm⟩

end Factor

namespace Param

theorem asLoop_eq_ok_iff {p : Param} {index : Nat} {id : LoopId} :
    p.asLoop index = .ok id ↔ p = loop id := by
  cases p <;> simp [asLoop]

theorem asFactor_eq_ok_iff {p : Param} {index : Nat} {f : Factor} :
    p.asFactor index = .ok f ↔ p = int f.val := by
  cases p with
  | loop id => simp [asFactor]
  | int v =>
    rw [asFactor, int.injEq, ← Factor.ofInt?_eq_some_iff]
    cases Factor.ofInt? v <;> simp

end Param

namespace Form

def loopCount : Form → Nat
  | tiling2D | interchange | fusion => 2
  | tiling3D => 3
  | parallelization | unrolling | reversal => 1

def numberCount : Form → Nat
  | tiling2D => 2
  | tiling3D => 3
  | unrolling => 1
  | interchange | parallelization | reversal | fusion => 0

theorem loopCount_add_numberCount (form : Form) : form.loopCount + form.numberCount = form.arity := by
  cases form <;> rfl

/-- A list has the loops that a form takes and behind them the numbers, which are positive and of 32
bits. -/
def Takes (form : Form) (params : List Param) : Prop :=
  ∃ (ids : List LoopId) (vs : List Int), params = ids.map .loop ++ vs.map .int ∧
    ids.length = form.loopCount ∧ vs.length = form.numberCount ∧
    ∀ v ∈ vs, 1 ≤ v ∧ v ≤ 4294967295

theorem exists_change {form : Form} {ids : List LoopId} {factors : List Factor}
    (loops : ids.length = form.loopCount) (numbers : factors.length = form.numberCount) :
    ∃ c : Change, c.form = form ∧ c.loops = ids ∧ c.factors = factors := by
  cases form with
  | tiling2D =>
    obtain ⟨a, b, rfl⟩ := List.length_eq_two.mp loops
    obtain ⟨s, t, rfl⟩ := List.length_eq_two.mp numbers
    exact ⟨.tiling2D a b s t, rfl, rfl, rfl⟩
  | tiling3D =>
    obtain ⟨a, b, c, rfl⟩ := List.length_eq_three.mp loops
    obtain ⟨s, t, u, rfl⟩ := List.length_eq_three.mp numbers
    exact ⟨.tiling3D a b c s t u, rfl, rfl, rfl⟩
  | interchange =>
    obtain ⟨a, b, rfl⟩ := List.length_eq_two.mp loops
    obtain rfl := List.length_eq_zero_iff.mp numbers
    exact ⟨.interchange a b, rfl, rfl, rfl⟩
  | parallelization =>
    obtain ⟨a, rfl⟩ := List.length_eq_one_iff.mp loops
    obtain rfl := List.length_eq_zero_iff.mp numbers
    exact ⟨.parallelization a, rfl, rfl, rfl⟩
  | unrolling =>
    obtain ⟨a, rfl⟩ := List.length_eq_one_iff.mp loops
    obtain ⟨f, rfl⟩ := List.length_eq_one_iff.mp numbers
    exact ⟨.unrolling a f, rfl, rfl, rfl⟩
  | reversal =>
    obtain ⟨a, rfl⟩ := List.length_eq_one_iff.mp loops
    obtain rfl := List.length_eq_zero_iff.mp numbers
    exact ⟨.reversal a, rfl, rfl, rfl⟩
  | fusion =>
    obtain ⟨a, b, rfl⟩ := List.length_eq_two.mp loops
    obtain rfl := List.length_eq_zero_iff.mp numbers
    exact ⟨.fusion a b, rfl, rfl, rfl⟩

end Form

namespace Change

theorem length_loops (c : Change) : c.loops.length = c.form.loopCount := by
  cases c <;> rfl

theorem length_factors (c : Change) : c.factors.length = c.form.numberCount := by
  cases c <;> rfl

/-- The parameters of a change are read back as the change. -/
theorem ofParams_params (c : Change) : ofParams c.form c.params = .ok c := by
  cases c <;>
    simp [ofParams, form, params, loops, factors, Param.asLoop, Param.asFactor] <;> rfl

/-- Nothing else is read as it. -/
theorem ofParams_eq_ok_iff {form : Form} {params : List Param} {c : Change} :
    ofParams form params = .ok c ↔ c.form = form ∧ c.params = params := by
  constructor
  · intro read
    fun_cases ofParams form params <;>
      simp only [ofParams, Except.bind_eq_ok_iff, Param.asLoop_eq_ok_iff, Param.asFactor_eq_ok_iff,
        Except.pure_eq_ok_iff] at read
    case case1 =>
      obtain ⟨_, rfl, _, rfl, _, rfl, _, rfl, rfl⟩ := read
      exact ⟨rfl, rfl⟩
    case case2 =>
      obtain ⟨_, rfl, _, rfl, _, rfl, _, rfl, _, rfl, _, rfl, rfl⟩ := read
      exact ⟨rfl, rfl⟩
    case case3 | case5 | case7 =>
      obtain ⟨_, rfl, _, rfl, rfl⟩ := read
      exact ⟨rfl, rfl⟩
    case case4 | case6 =>
      obtain ⟨_, rfl, rfl⟩ := read
      exact ⟨rfl, rfl⟩
    case case8 => cases read
  · rintro ⟨rfl, rfl⟩
    exact c.ofParams_params

theorem exists_params_iff {form : Form} {params : List Param} :
    (∃ c : Change, c.form = form ∧ c.params = params) ↔ form.Takes params := by
  constructor
  · rintro ⟨c, rfl, rfl⟩
    refine ⟨c.loops, c.factors.map fun f => f.val, by simp [Change.params], c.length_loops, ?_, ?_⟩
    · rw [List.length_map, length_factors]
    · exact List.forall_mem_map.mpr fun f _ => Factor.exists_val_eq_iff.mp ⟨f, rfl⟩
  · rintro ⟨ids, vs, rfl, loops, numbers, bounds⟩
    have made : vs ∈ Set.range (List.map fun f : Factor => (f.val : Int)) := by
      rw [Set.range_list_map]
      exact fun v mem => (Factor.exists_val_eq_iff.mpr (bounds v mem)).imp fun _ => Eq.symm
    obtain ⟨factors, rfl⟩ := made
    rw [List.length_map] at numbers
    obtain ⟨c, rfl, rfl, rfl⟩ := Form.exists_change loops numbers
    exact ⟨c, rfl, by simp [Change.params]⟩

/-- What the constructor of a form makes of the values that are listed. -/
inductive Made : Form → List Param → Change → Prop
  | tiling2D {a b : LoopId} {s t : UInt32} {c : Change} (made : tile2D a b s t = .ok c) :
    Made .tiling2D [.loop a, .loop b, .int s.toNat, .int t.toNat] c
  | tiling3D {a b d : LoopId} {s t u : UInt32} {c : Change} (made : tile3D a b d s t u = .ok c) :
    Made .tiling3D [.loop a, .loop b, .loop d, .int s.toNat, .int t.toNat, .int u.toNat] c
  | interchange {a b : LoopId} : Made .interchange [.loop a, .loop b] (.interchange a b)
  | parallelization {a : LoopId} : Made .parallelization [.loop a] (.parallelization a)
  | unrolling {a : LoopId} {f : UInt32} {c : Change} (made : unroll a f = .ok c) :
    Made .unrolling [.loop a, .int f.toNat] c
  | reversal {a : LoopId} : Made .reversal [.loop a] (.reversal a)
  | fusion {a b : LoopId} : Made .fusion [.loop a, .loop b] (.fusion a b)

section Made

variable {a b d : LoopId} {s t u : UInt32} {c : Change}

theorem tile2D_eq_ok_iff : tile2D a b s t = .ok c ↔
    ∃ f g : Factor, f.val = s.toNat ∧ g.val = t.toNat ∧ c = .tiling2D a b f g := by
  simp only [tile2D, ← Factor.ofWord?_eq_some_iff]
  cases Factor.ofWord? s <;> cases Factor.ofWord? t <;> simp [eq_comm]

theorem tile3D_eq_ok_iff : tile3D a b d s t u = .ok c ↔
    ∃ f g h : Factor, f.val = s.toNat ∧ g.val = t.toNat ∧ h.val = u.toNat ∧
      c = .tiling3D a b d f g h := by
  simp only [tile3D, ← Factor.ofWord?_eq_some_iff]
  cases Factor.ofWord? s <;> cases Factor.ofWord? t <;> cases Factor.ofWord? u <;> simp [eq_comm]

theorem unroll_eq_ok_iff : unroll a s = .ok c ↔
    ∃ f : Factor, f.val = s.toNat ∧ c = .unrolling a f := by
  simp only [unroll, ← Factor.ofWord?_eq_some_iff]
  cases Factor.ofWord? s <;> simp [eq_comm]

/-- The constructors make just the changes that the values are the parameters of. -/
theorem made_iff {form : Form} {params : List Param} :
    Made form params c ↔ c.form = form ∧ c.params = params := by
  constructor
  · rintro (made | made | _ | _ | made | _ | _)
    · obtain ⟨f, g, first, second, rfl⟩ := tile2D_eq_ok_iff.mp made
      exact ⟨rfl, by rw [← first, ← second]; rfl⟩
    · obtain ⟨f, g, h, first, second, third, rfl⟩ := tile3D_eq_ok_iff.mp made
      exact ⟨rfl, by rw [← first, ← second, ← third]; rfl⟩
    · exact ⟨rfl, rfl⟩
    · exact ⟨rfl, rfl⟩
    · obtain ⟨f, value, rfl⟩ := unroll_eq_ok_iff.mp made
      exact ⟨rfl, by rw [← value]; rfl⟩
    · exact ⟨rfl, rfl⟩
    · exact ⟨rfl, rfl⟩
  · rintro ⟨rfl, rfl⟩
    cases c with
    | tiling2D a b f g =>
      obtain ⟨s, first⟩ := f.exists_word
      obtain ⟨t, second⟩ := g.exists_word
      show Made _ [.loop a, .loop b, .int f.val, .int g.val] _
      rw [first, second]
      exact .tiling2D (tile2D_eq_ok_iff.mpr ⟨f, g, first, second, rfl⟩)
    | tiling3D a b d f g h =>
      obtain ⟨s, first⟩ := f.exists_word
      obtain ⟨t, second⟩ := g.exists_word
      obtain ⟨u, third⟩ := h.exists_word
      show Made _ [.loop a, .loop b, .loop d, .int f.val, .int g.val, .int h.val] _
      rw [first, second, third]
      exact .tiling3D (tile3D_eq_ok_iff.mpr ⟨f, g, h, first, second, third, rfl⟩)
    | interchange => exact .interchange
    | parallelization => exact .parallelization
    | unrolling a f =>
      obtain ⟨s, value⟩ := f.exists_word
      show Made _ [.loop a, .int f.val] _
      rw [value]
      exact .unrolling (unroll_eq_ok_iff.mpr ⟨f, value, rfl⟩)
    | reversal => exact .reversal
    | fusion => exact .fusion

end Made

end Change

theorem Action.checkExplicit_eq_ok_iff {form : Form} {explicit : Option (List String)} {u : Unit} :
    Action.checkExplicit form explicit = .ok u ↔ explicit ≠ some [] := by
  match explicit with
  | none | some (_ :: _) | some [] => simp [Action.checkExplicit]

theorem Action.ofParams_eq_ok_iff {form : Form} {params : List Param}
    {explicit : Option (List String)} {a : Action} :
    Action.ofParams form params explicit = .ok a ↔
      ∃ c, (c.form = form ∧ c.params = params) ∧ explicit ≠ some [] ∧
        a = { change := c, explicit } := by
  simp only [Action.ofParams, Except.bind_eq_ok_iff, Except.mapError_eq_ok_iff,
    Change.ofParams_eq_ok_iff, Action.checkExplicit_eq_ok_iff, Except.pure_eq_ok_iff,
    exists_const]

/-- An action that is made of a list has the list as its parameters. What the constructor of a form
makes is made again of its own parameters. And a list makes an action, whether computations are given
or not, exactly if the form takes it. -/
theorem Action.ofParams_exact (form : Form) (params : List Param)
    (explicit : Option (List String)) :
    (∀ a, Action.ofParams form params explicit = .ok a →
      a.form = form ∧ a.change.params = params) ∧
    (∀ c, Change.Made form params c → c.form = form ∧ c.params = params ∧
      Action.ofParams c.form c.params none = .ok { change := c }) ∧
    (explicit ≠ some [] →
      ((∃ a, Action.ofParams form params explicit = .ok a) ↔ form.Takes params)) := by
  refine ⟨fun a read => ?_, fun c made => ?_, fun given => ?_⟩
  · obtain ⟨c, same, -, rfl⟩ := Action.ofParams_eq_ok_iff.mp read
    exact same
  · obtain ⟨sameForm, sameParams⟩ := Change.made_iff.mp made
    exact ⟨sameForm, sameParams,
      Action.ofParams_eq_ok_iff.mpr ⟨c, ⟨rfl, rfl⟩, by simp, rfl⟩⟩
  · rw [← Change.exists_params_iff]
    simp only [Action.ofParams_eq_ok_iff]
    exact ⟨fun ⟨_, c, same, _⟩ => ⟨c, same⟩, fun ⟨c, same⟩ => ⟨_, c, same, given, rfl⟩⟩

theorem Action.ofParams_tiling3D :
    ∃ c a, Change.tile3D ⟨"i0", 0⟩ ⟨"i1", 1⟩ ⟨"i2", 2⟩ 2 4 4294967295 = .ok c ∧
      c.params = [.loop ⟨"i0", 0⟩, .loop ⟨"i1", 1⟩, .loop ⟨"i2", 2⟩, .int 2, .int 4,
        .int 4294967295] ∧
      Action.ofParams c.form c.params none = .ok { change := c } ∧
      Action.ofParams .tiling3D c.params (some ["blur"]) = .ok a ∧
      a.change.params = c.params := by
  have made : Change.tile3D ⟨"i0", 0⟩ ⟨"i1", 1⟩ ⟨"i2", 2⟩ 2 4 4294967295 =
      .ok (.tiling3D ⟨"i0", 0⟩ ⟨"i1", 1⟩ ⟨"i2", 2⟩ ⟨2, by decide, by decide⟩
        ⟨4, by decide, by decide⟩ ⟨4294967295, by decide, by decide⟩) := rfl
  have takes : Form.tiling3D.Takes [.loop ⟨"i0", 0⟩, .loop ⟨"i1", 1⟩, .loop ⟨"i2", 2⟩, .int 2,
      .int 4, .int 4294967295] :=
    ⟨[⟨"i0", 0⟩, ⟨"i1", 1⟩, ⟨"i2", 2⟩], [2, 4, 4294967295], rfl, rfl, rfl, by decide⟩
  obtain ⟨read, back, accepts⟩ := Action.ofParams_exact .tiling3D [.loop ⟨"i0", 0⟩,
    .loop ⟨"i1", 1⟩, .loop ⟨"i2", 2⟩, .int 2, .int 4, .int 4294967295] (some ["blur"])
  obtain ⟨a, accepted⟩ := (accepts (by decide)).mpr takes
  obtain ⟨-, params, again⟩ := back _ (.tiling3D made)
  exact ⟨_, a, made, params, again, params ▸ accepted, params ▸ (read a accepted).2⟩

end LoopNest
