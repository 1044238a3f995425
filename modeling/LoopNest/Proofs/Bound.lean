import LoopNest.Proofs.Json.Record
import LoopNest.Proofs.Text.Blank
import LoopNest.Proofs.Text.Digits

/-! Bounds as texts. What is read from a text is read again from what is written for it. A bound
that comes from elsewhere may have a text that is read as another one: a symbolic bound whose text
is a number, or has white space at its ends. -/
namespace LoopNest

namespace Bound

/-- A symbolic bound is in normal form if its text has no white space at its ends and is no literal
of an integer in range. Known bounds are. -/
def Normal : Bound → Prop
  | concrete _ => True
  | symbolic text => Text.Tight text.toList ∧
      ¬∃ v, Text.Literal text.toList v ∧ Text.fitsSigned v = true

variable {b : Bound}

theorem ofText_eq_concrete {s : String} {v : Int} (read : Text.signed? (Text.trim s) = some v) :
    ofText s = concrete (.ofInt v) := by
  rw [ofText, read]

theorem ofText_eq_symbolic {s : String} (noNumber : Text.signed? (Text.trim s) = none) :
    ofText s = symbolic (Text.trim s) := by
  rw [ofText, noNumber]

theorem signed?_eq_none_iff {s : String} :
    Text.signed? s = none ↔ ¬∃ v, Text.Literal s.toList v ∧ Text.fitsSigned v = true := by
  simp only [Option.eq_none_iff_forall_ne_some, ne_eq, Text.signed?_eq_some_iff, not_exists]

/-- What is read is in normal form. -/
theorem normal_of_ofText {s : String} (back : ofText s = b) : b.Normal := by
  cases read : Text.signed? (Text.trim s) with
  | some v =>
    cases (ofText_eq_concrete read).symm.trans back
    trivial
  | none =>
    cases (ofText_eq_symbolic read).symm.trans back
    refine ⟨?_, signed?_eq_none_iff.mp read⟩
    rw [Text.toList_trim]
    exact Text.tight_trimmed s.toList

theorem Normal.ofText_eq_self (normal : b.Normal) : ofText b.text = b := by
  cases b with
  | concrete v =>
    have kept : Text.trim (toString v.toInt) = toString v.toInt :=
      Text.trim_of_tight (Text.tight_toString v.toInt)
    have read : Text.signed? (Text.trim (toString v.toInt)) = some v.toInt := by
      rw [kept]
      exact Text.signed?_toString (Text.fitsSigned_toInt v)
    exact (ofText_eq_concrete read).trans (congrArg concrete v.ofInt_toInt)
  | symbolic text =>
    have kept : Text.trim text = text := Text.trim_of_tight normal.1
    have read : Text.signed? (Text.trim text) = none := by
      rw [kept]
      exact signed?_eq_none_iff.mpr normal.2
    exact (ofText_eq_symbolic read).trans (congrArg symbolic kept)

/-- What is read from any text is read again from what is written for it. A bound is read from what
is written for it exactly if it is known, or its text has no white space at its ends and is no
literal of an integer in range. -/
theorem ofText_text_exact :
    (∀ s : String, ofText (ofText s).text = ofText s) ∧
    ∀ b : Bound, ofText b.text = b ↔ (∃ v, b = concrete v) ∨
      ∃ text, b = symbolic text ∧ Text.Tight text.toList ∧
        ¬∃ v, Text.Literal text.toList v ∧ Text.fitsSigned v = true := by
  refine ⟨fun s => (normal_of_ofText rfl).ofText_eq_self, fun b => ?_⟩
  have normal_iff : ofText b.text = b ↔ b.Normal := ⟨normal_of_ofText, Normal.ofText_eq_self⟩
  rw [normal_iff]
  cases b with
  | concrete v => exact iff_of_true trivial (.inl ⟨v, rfl⟩)
  | symbolic text =>
    constructor
    · exact fun normal => .inr ⟨text, rfl, normal⟩
    · rintro (⟨v, same⟩ | ⟨text', same, normal⟩)
      · cases same
      · cases same
        exact normal

theorem ofText_text_bounds :
    ofText (symbolic "9223372036854775808").text = symbolic "9223372036854775808" ∧
    ofText (symbolic "+007").text ≠ symbolic "+007" := by
  constructor
  · have noNumber := signed?_eq_none_iff.mp
      (show Text.signed? "9223372036854775808" = none by decide)
    exact (ofText_text_exact.2 _).mpr (.inr ⟨_, rfl, by decide, noNumber⟩)
  · intro same
    have literal : Text.Literal "+007".toList 7 := @Text.Literal.plus ['0', '0', '7'] (by decide)
    rcases (ofText_text_exact.2 _).mp same with ⟨v, known⟩ | ⟨text, equal, -, noNumber⟩
    · cases known
    · cases equal
      exact noNumber ⟨7, literal, by decide⟩

end Bound

end LoopNest
