import Mathlib.Data.List.Nodup
import Mathlib.Data.List.Perm.Subperm
import LoopNest.Action.Tiling
import LoopNest.Proofs.Text.Digits
import LoopNest.Proofs.Word

/-! Names of tile loops are new. Of a base and as many numbered variants as names are taken, one is
free, since all of them differ. A variant only adds digits, so the name tells which loop is tiled. -/
namespace LoopNest

/-- The numbered variants of a base. -/
def variants (base : String) (count : Nat) : List String :=
  (List.range count).map fun k => base ++ toString (k + 1)

theorem variant_injective {base : String} {k l : Nat}
    (same : base ++ toString (k + 1) = base ++ toString (l + 1)) : k = l := by
  have numbers : toString (k + 1) = toString (l + 1) := by
    have lists := congrArg String.toList same
    rw [String.toList_append, String.toList_append] at lists
    exact String.toList_injective (List.append_cancel_left lists)
  exact Nat.succ.inj (Text.decimal_injective numbers)

theorem base_notMem_variants (base : String) (count : Nat) : base ∉ variants base count := by
  intro mem
  obtain ⟨k, -, same⟩ := List.mem_map.mp mem
  have lists := congrArg String.toList same
  rw [String.toList_append, List.append_right_eq_self] at lists
  simp [Nat.toString_eq_repr, Nat.toList_repr, Nat.toDigits_ne_nil] at lists

theorem nodup_variants (base : String) (count : Nat) : (variants base count).Nodup :=
  List.nodup_range.map fun _ _ => variant_injective

/-- If a base and its first variants are all taken, so many names are taken and one more. -/
theorem lt_length_of_variants {taken : List String} {base : String} {count : Nat}
    (mem : base ∈ taken) (all : ∀ k < count, base ++ toString (k + 1) ∈ taken) :
    count < taken.length := by
  have all_taken : base :: variants base count ⊆ taken := by
    intro name mem'
    rcases List.mem_cons.mp mem' with rfl | mem'
    · exact mem
    · obtain ⟨k, among, rfl⟩ := List.mem_map.mp mem'
      exact all k (List.mem_range.mp among)
  have differ : (base :: variants base count).Nodup :=
    List.nodup_cons.mpr ⟨base_notMem_variants base _, nodup_variants base _⟩
  have length := (differ.subperm all_taken).length_le
  rwa [List.length_cons, variants, List.length_map, List.length_range] at length

theorem freshName_of_notMem {taken : List String} {base : String} (free : base ∉ taken) :
    freshName taken base = base := if_pos free

theorem exists_freshName {taken : List String} {base : String} (mem : base ∈ taken) :
    ∃ k, freshName taken base = base ++ toString (k + 1) ∧ base ++ toString (k + 1) ∉ taken ∧
      ∀ j < k, base ++ toString (j + 1) ∈ taken := by
  have search : freshName taken base =
      (((List.range taken.length).find? fun k => base ++ toString (k + 1) ∉ taken).map
        fun k => base ++ toString (k + 1)).getD base := by
    simp only [freshName, mem, not_true_eq_false, if_false, List.find?_map, Function.comp_def]
  cases found : (List.range taken.length).find? fun k => base ++ toString (k + 1) ∉ taken with
  | some k =>
    obtain ⟨free, -, least⟩ := List.find?_range_eq_some.mp found
    refine ⟨k, ?_, by simpa using free, fun j less => by simpa using least j less⟩
    rw [search, found, Option.map_some, Option.getD_some]
  | none =>
    -- all variants and the base would be taken: one name more than there are
    have all : ∀ k < taken.length, base ++ toString (k + 1) ∈ taken := fun k less => by
      simpa using List.find?_eq_none.mp found k (List.mem_range.mpr less)
    exact absurd (lt_length_of_variants mem all) (Nat.lt_irrefl _)

/-- A fresh name is none of those taken. -/
theorem freshName_notMem (taken : List String) (base : String) :
    freshName taken base ∉ taken := by
  by_cases mem : base ∈ taken
  · obtain ⟨k, fresh, free, -⟩ := exists_freshName mem
    rwa [fresh]
  · rwa [freshName_of_notMem mem]

theorem length_tileLoops (taken : List String) (band : List (Loop × Factor)) :
    (tileLoops taken band).length = band.length := by
  induction band generalizing taken with
  | nil => rfl
  | cons part band ih => simp [tileLoops, ih]

theorem nodup_tileLoops {taken : List String} (band : List (Loop × Factor)) (unique : taken.Nodup) :
    ((tileLoops taken band).map Loop.name ++ taken).Nodup := by
  induction band generalizing taken with
  | nil => exact unique
  | cons part band ih =>
    have fresh : (tileLoop taken part.1 part.2).name ∉ taken := freshName_notMem taken _
    have rest := ih (List.nodup_cons.mpr ⟨fresh, unique⟩)
    exact (List.perm_middle.nodup_iff).mp rest

/-- So many tiles cover a number of iterations, and one tile less does not. -/
theorem Factor.covers (size : Factor) (x : Int) :
    ((x + size.val - 1) / size.val - 1) * size.val < x ∧
      x ≤ (x + size.val - 1) / size.val * size.val := by
  have positive : (0 : Int) < size.val := Int.natCast_pos.mpr size.pos
  have divided := Int.mul_ediv_add_emod (x + size.val - 1) size.val
  have nonneg := Int.emod_nonneg (x + size.val - 1) (Int.ne_of_gt positive)
  have less := Int.emod_lt_of_pos (x + size.val - 1) positive
  rw [Int.sub_mul, Int.one_mul, Int.mul_comm]
  omega

theorem Factor.covers_unique (size : Factor) {x count other : Int}
    (less : (count - 1) * size.val < x) (enough : x ≤ count * size.val)
    (less' : (other - 1) * size.val < x) (enough' : x ≤ other * size.val) : count = other := by
  have positive : (0 : Int) < size.val := Int.natCast_pos.mpr size.pos
  have below : count - 1 < other :=
    Int.lt_of_mul_lt_mul_right (Int.lt_of_lt_of_le less enough') (Int.le_of_lt positive)
  have above : other - 1 < count :=
    Int.lt_of_mul_lt_mul_right (Int.lt_of_lt_of_le less' enough) (Int.le_of_lt positive)
  omega

/-- The bounds of a loop are known, and its tiles cannot be counted within 64 bits: the number of
iterations is out of range, or it is once a tile size is added. -/
def Loop.Overflows (l : Loop) (size : Factor) : Prop :=
  ∃ low high : Int64, l.lower = .concrete low ∧ l.upper = .concrete high ∧
    ¬(Text.fitsSigned (high.toInt - low.toInt) = true ∧
      Text.fitsSigned (max (high.toInt - low.toInt) 0 + size.val) = true)

theorem not_overflows_iff {l : Loop} {low high : Int64} {size : Factor}
    (lower : l.lower = .concrete low) (upper : l.upper = .concrete high) :
    ¬l.Overflows size ↔ Text.fitsSigned (high.toInt - low.toInt) = true ∧
      Text.fitsSigned (max (high.toInt - low.toInt) 0 + size.val) = true := by
  simp [Loop.Overflows, lower, upper]

theorem toInt_extent {low high : Int64}
    (extent : Text.fitsSigned (high.toInt - low.toInt) = true) :
    (max (high - low) 0).toInt = max (high.toInt - low.toInt) 0 := by
  rw [toInt_max, toInt_sub extent, Int64.toInt_zero]

theorem fits_dividend {a : Int64} {size : Factor} (nonneg : 0 ≤ a.toInt)
    (sum : Text.fitsSigned (a.toInt + size.word.toInt) = true) :
    Text.fitsSigned ((a + size.word).toInt - (1 : Int64).toInt) = true := by
  rw [toInt_add sum, Int64.toInt_one, size.toInt_word, Text.fitsSigned_iff]
  rw [size.toInt_word, Text.fitsSigned_iff] at sum
  omega

theorem toInt_dividend {a : Int64} {size : Factor} (nonneg : 0 ≤ a.toInt)
    (sum : Text.fitsSigned (a.toInt + size.word.toInt) = true) :
    (a + size.word - 1).toInt = a.toInt + size.val - 1 := by
  rw [toInt_sub (fits_dividend nonneg sum), toInt_add sum, Int64.toInt_one, size.toInt_word]

/-- Between known bounds the tiles are counted by the least number of them that covers the
iterations, of which there may be none, as long as nothing leaves 64 bits. -/
theorem tileCount_concrete {l : Loop} {low high : Int64} (lower : l.lower = .concrete low)
    (upper : l.upper = .concrete high) {size : Factor} (fits : ¬l.Overflows size) :
    ∃ count : Int64, tileCount l size = .concrete count ∧
      (high.toInt - low.toInt ≤ 0 → count.toInt = 0) ∧
      (0 < high.toInt - low.toInt →
        (count.toInt - 1) * size.val < high.toInt - low.toInt ∧
          high.toInt - low.toInt ≤ count.toInt * size.val) := by
  obtain ⟨extent, sum⟩ := (not_overflows_iff lower upper).mp fits
  have counted : tileCount l size =
      .concrete ((max (high - low) 0 + size.word - 1) / size.word) := by
    simp only [tileCount, Loop.extent?, upper, lower]
  have positive : (0 : Int) < size.val := Int.natCast_pos.mpr size.pos
  rw [← toInt_extent extent, ← size.toInt_word] at sum
  have dividend := toInt_dividend (by rw [toInt_extent extent]; omega) sum
  rw [toInt_extent extent] at dividend
  have value : ((max (high - low) 0 + size.word - 1) / size.word).toInt =
      (max (high.toInt - low.toInt) 0 + size.val - 1) / size.val := by
    rw [toInt_div (by omega) (size.toInt_word ▸ positive), dividend, size.toInt_word]
  refine ⟨_, counted, fun empty => ?_, fun some_left => ?_⟩
  · rw [value, Int.max_eq_right empty]
    exact Int.ediv_eq_zero_of_lt (by omega) (by omega)
  · rw [value, Int.max_eq_left (Int.le_of_lt some_left)]
    exact size.covers (high.toInt - low.toInt)

/-- A name backwards, without the digits at its end. -/
def stem (name : String) : List Char := name.toList.reverse.dropWhile Char.isDigit

theorem stem_append_decimal (base : String) (k : Nat) : stem (base ++ toString k) = stem base := by
  have digits : ∀ c ∈ (toString k).toList.reverse, c.isDigit = true := fun c mem => by
    rw [List.mem_reverse, Text.toList_decimal] at mem
    exact Text.isDigit_decimal mem
  rw [stem, String.toList_append, List.reverse_append, List.dropWhile_append_of_pos digits, stem]

theorem stem_freshName (taken : List String) (base : String) :
    stem (freshName taken base) = stem base := by
  by_cases mem : base ∈ taken
  · obtain ⟨k, fresh, -, -⟩ := exists_freshName mem
    rw [fresh, stem_append_decimal]
  · rw [freshName_of_notMem mem]

/-- Which name is fresh depends on the taken names of the base's stem only. -/
theorem freshName_congr {taken taken' : List String} {base : String}
    (same : ∀ name, stem name = stem base → (name ∈ taken' ↔ name ∈ taken)) :
    freshName taken' base = freshName taken base := by
  by_cases mem : base ∈ taken
  · obtain ⟨k, fresh, free, least⟩ := exists_freshName mem
    obtain ⟨k', fresh', free', least'⟩ := exists_freshName ((same base rfl).mpr mem)
    have variant (j : Nat) : base ++ toString (j + 1) ∈ taken' ↔ base ++ toString (j + 1) ∈ taken :=
      same _ (stem_append_decimal base (j + 1))
    rw [fresh, fresh']
    rcases Nat.lt_trichotomy k' k with less | rfl | less
    · exact absurd ((variant k').mpr (least k' less)) free'
    · rfl
    · exact absurd ((variant k).mp (least' k less)) free
  · have free : base ∉ taken' := fun mem' => mem ((same base rfl).mp mem')
    rw [freshName_of_notMem mem, freshName_of_notMem free]

theorem tileLoops_congr {taken taken' : List String} {band : List (Loop × Factor)}
    (same : ∀ part ∈ band, ∀ name, stem name = stem (part.1.name ++ "_tile") →
      (name ∈ taken' ↔ name ∈ taken)) : tileLoops taken' band = tileLoops taken band := by
  induction band generalizing taken taken' with
  | nil => rfl
  | cons part band ih =>
    have tile : tileLoop taken' part.1 part.2 = tileLoop taken part.1 part.2 := by
      rw [tileLoop, tileLoop, freshName_congr (same part List.mem_cons_self)]
    rw [tileLoops, tileLoops, tile, ih fun other mem name stems => ?_]
    rw [List.mem_cons, List.mem_cons, same other (List.mem_cons_of_mem _ mem) name stems]

theorem map_stem_tileLoops (taken : List String) (band : List (Loop × Factor)) :
    (tileLoops taken band).map (fun tile => stem tile.name) =
      (band.map fun part => part.1.name).map fun name => stem (name ++ "_tile") := by
  induction band generalizing taken with
  | nil => rfl
  | cons part band ih =>
    rw [tileLoops, List.map_cons, List.map_cons, List.map_cons, ih, tileLoop, stem_freshName]

theorem exists_part_of_mem_tileLoops {taken : List String} {band : List (Loop × Factor)}
    {tile : Loop} (mem : tile ∈ tileLoops taken band) :
    ∃ part ∈ band, stem tile.name = stem (part.1.name ++ "_tile") := by
  have among : stem tile.name ∈ (tileLoops taken band).map fun tile => stem tile.name :=
    List.mem_map_of_mem mem
  rw [map_stem_tileLoops, List.map_map, List.mem_map] at among
  obtain ⟨part, inBand, same⟩ := among
  exact ⟨part, inBand, same.symm⟩

theorem stem_tile_injective : Function.Injective fun name => stem (name ++ "_tile") := by
  intro x y same
  have ends (name : String) : stem (name ++ "_tile") = "elit_".toList ++ name.toList.reverse := by
    rw [stem, String.toList_append, List.reverse_append]
    rfl
  simp only [ends, List.append_cancel_left_eq, List.reverse_inj] at same
  exact String.toList_injective same

end LoopNest
