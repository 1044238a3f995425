import Mathlib.Data.List.Nodup
import LoopNest.Action.Json
import LoopNest.Description.Json
import LoopNest.Schedule.Settings
import LoopNest.Proofs.Json.Reader
import LoopNest.Proofs.Word

/-! Records in JSON. Each value is read back from what is written for it, as long as its numbers are
in the ranges that they are kept in. -/
namespace LoopNest

namespace Json

theorem map_lookup_zip {names : List String} {values : List Json} (unique : names.Nodup)
    (count : names.length = values.length) :
    (names.map fun name => (names.zip values).lookup name) = values.map some := by
  induction names generalizing values with
  | nil =>
    cases values with
    | nil => rfl
    | cons v values => cases count
  | cons name names ih =>
    cases values with
    | nil => cases count
    | cons v values =>
      obtain ⟨absent, unique⟩ := List.nodup_cons.mp unique
      have behind : (names.map fun other => ((name, v) :: names.zip values).lookup other) =
          names.map fun other => (names.zip values).lookup other := by
        refine List.map_congr_left fun other mem => ?_
        have differ : (other == name) = false := beq_eq_false_iff_ne.mpr fun same => absent (same ▸ mem)
        rw [List.lookup_cons, differ]
      rw [List.zip_cons_cons, List.map_cons, List.map_cons, List.lookup_cons_self, behind,
        ih unique (Nat.succ.inj count)]

theorem fields?_zip {names : List String} {values : List Json} (unique : names.Nodup)
    (count : names.length = values.length) :
    (object (names.zip values)).fields? names = some (values.map some) := by
  have once (name : String) :
      ((names.zip values).filter fun m => m.1 == name).length ≤ 1 := by
    have named : ((names.zip values).filter fun m => m.1 == name).length = names.count name := by
      have keys : (names.zip values).map Prod.fst = names := List.map_fst_zip (Nat.le_of_eq count)
      rw [← List.countP_eq_length_filter, List.count]
      conv_rhs => rw [← keys, List.countP_map]
      rfl
    rw [named]
    exact List.nodup_iff_count_le_one.mp unique name
  rw [fields?, if_pos (by simp [once]), map_lookup_zip unique count]

theorem array?_map {α : Type} {read : Json → Option α} {write : α → Json} {xs : List α}
    (back : ∀ x ∈ xs, read (write x) = some x) : array? read (.array (xs.map write)) = some xs := by
  rw [array?]
  induction xs with
  | nil => rfl
  | cons x xs ih =>
    rw [List.forall_mem_cons] at back
    simp [List.mapM_cons, back.1, ih back.2]

theorem array?_str (texts : List String) : array? str? (.array (texts.map .str)) = some texts :=
  array?_map fun _ _ => rfl

theorem unsigned?_int {n : Nat} (fits : n < Text.unsignedBound) : unsigned? (.int n) = some n := by
  have inside : Text.fitsUnsigned n = true := decide_eq_true fits
  rw [← Int.ofNat_eq_natCast, unsigned?, if_pos inside]

theorem signed?_int {v : Int} (fits : Text.fitsSigned v = true) : signed? (.int v) = some v := by
  rw [signed?, if_pos fits]

end Json

theorem Bound.ofJson?_json (b : Bound) : ofJson? b.json = some b := by
  cases b with
  | concrete value =>
    rw [json, ofJson?, Json.signed?_int (Text.fitsSigned_toInt value), Option.map_some,
      Int64.ofInt_toInt]
    rintro text ⟨⟩
  | symbolic text => rfl

def LoopItem.InRange (item : LoopItem) : Prop := item.level < Text.unsignedBound

instance (item : LoopItem) : Decidable item.InRange := inferInstanceAs (Decidable (_ < _))

theorem LoopItem.ofJson?_json {item : LoopItem} (inRange : item.InRange) :
    ofJson? item.json = some item := by
  obtain ⟨name, level, lower, upper, parent, children⟩ := item
  rw [ofJson?, json, Json.fields?_zip (by decide) rfl]
  cases parent <;>
    simp [Json.required?, Json.optional?, Json.str?, Json.nullable?, Json.unsigned?_int inRange,
      Bound.ofJson?_json, Json.array?_str]

def ComputationItem.InRange (item : ComputationItem) : Prop := item.order < Text.unsignedBound

instance (item : ComputationItem) : Decidable item.InRange := inferInstanceAs (Decidable (_ < _))

theorem ComputationItem.ofJson?_json {item : ComputationItem} (inRange : item.InRange) :
    ofJson? item.json = some item := by
  rw [ofJson?, json, Json.fields?_zip (by decide) rfl]
  simp [Json.required?, Json.optional?, Json.str?, Json.unsigned?_int inRange, Json.array?_str]

/-- All numbers of a description are in range. -/
structure Description.InRange (d : Description) : Prop where
  loops : ∀ item ∈ d.loops, item.InRange
  computations : ∀ item ∈ d.computations, item.InRange

instance (d : Description) : Decidable d.InRange :=
  decidable_of_iff
    ((∀ item ∈ d.loops, item.InRange) ∧ ∀ item ∈ d.computations, item.InRange)
    ⟨fun ⟨loops, computations⟩ => ⟨loops, computations⟩,
      fun ⟨loops, computations⟩ => ⟨loops, computations⟩⟩

theorem Description.ofJson?_json {d : Description} (inRange : d.InRange) :
    ofJson? d.json = some d := by
  have loops := Json.array?_map fun item mem => LoopItem.ofJson?_json (inRange.loops item mem)
  have computations := Json.array?_map fun item mem =>
    ComputationItem.ofJson?_json (inRange.computations item mem)
  rw [ofJson?, json, Json.fields?_zip (by decide) rfl]
  simp [Json.required?, Json.optional?, Json.str?, loops, computations]

def Settings.InRange (c : Settings) : Prop := c.runs < Text.unsignedBound

instance (c : Settings) : Decidable c.InRange := inferInstanceAs (Decidable (_ < _))

theorem Settings.ofJson?_json {c : Settings} (inRange : c.InRange) : ofJson? c.json = some c := by
  rw [ofJson?, json, Json.fields?_zip (by decide) rfl]
  simp [Json.optional?, Json.bool?, Json.unsigned?_int inRange]

theorem Form.ofJson?_json (form : Form) : ofJson? form.json = some form := by
  cases form <;> rfl

def LoopId.InRange (id : LoopId) : Prop := id.level < Text.unsignedBound

instance (id : LoopId) : Decidable id.InRange := inferInstanceAs (Decidable (_ < _))

theorem LoopId.ofJson?_json {id : LoopId} (inRange : id.InRange) : ofJson? id.json = some id := by
  rw [ofJson?, json, Json.fields?_zip (by decide) rfl]
  simp [Json.required?, Json.str?, Json.unsigned?_int inRange]

def Param.InRange : Param → Prop
  | loop id => id.InRange
  | int value => Text.fitsSigned value = true

instance : DecidablePred Param.InRange
  | .loop id => inferInstanceAs (Decidable id.InRange)
  | .int value => inferInstanceAs (Decidable (Text.fitsSigned value = true))

theorem Param.ofJson?_json {p : Param} (inRange : p.InRange) : ofJson? p.json = some p := by
  cases p with
  | loop id => exact congrArg (Option.map loop) (LoopId.ofJson?_json inRange)
  | int value => exact congrArg (Option.map int) (Json.signed?_int inRange)

/-- Descriptions, settings, parameters, identifiers, bounds and forms are read back from their texts,
so a nest may be loaded from the text of a description as from the description. -/
theorem ofText_text :
    (∀ d : Description, d.InRange →
      Description.ofText d.json.text = .ok d ∧ Nest.ofText d.json.text = d.nest?) ∧
    (∀ c : Settings, c.InRange → Settings.ofText? c.json.text = some c) ∧
    (∀ p : Param, p.InRange → (Json.ofText? p.json.text).bind Param.ofJson? = some p) ∧
    (∀ id : LoopId, id.InRange → (Json.ofText? id.json.text).bind LoopId.ofJson? = some id) ∧
    (∀ b : Bound, (Json.ofText? b.json.text).bind Bound.ofJson? = some b) ∧
    ∀ form : Form, (Json.ofText? form.json.text).bind Form.ofJson? = some form := by
  refine ⟨fun d inRange => ?_, fun c inRange => ?_, fun p inRange => ?_, fun id inRange => ?_,
    fun b => ?_, fun form => ?_⟩
  · have described : Description.ofText d.json.text = .ok d := by
      rw [Description.ofText, Json.ofText?_text, Option.bind_some, Description.ofJson?_json inRange]
    exact ⟨described, by rw [Nest.ofText, described]⟩
  · rw [Settings.ofText?, Json.ofText?_text, Option.bind_some, Settings.ofJson?_json inRange]
  · rw [Json.ofText?_text, Option.bind_some, Param.ofJson?_json inRange]
  · rw [Json.ofText?_text, Option.bind_some, LoopId.ofJson?_json inRange]
  · rw [Json.ofText?_text, Option.bind_some, Bound.ofJson?_json]
  · rw [Json.ofText?_text, Option.bind_some, Form.ofJson?_json]

def escaped : Description where
  name := "tab\tquote\""
  loops := [{ name := "i\x01", level := 0, upper := .symbolic "12" }]
  computations := [{ name := "s", order := 18446744073709551615, loops := ["i\x01"] }]

theorem ofText_text_escaped :
    Description.ofText escaped.json.text = .ok escaped ∧
    Nest.ofText escaped.json.text = escaped.nest? ∧
    Settings.ofText? (Settings.json { runs := 0 }).text = some { runs := 0 } ∧
    (Json.ofText? (Param.json (.int (-9223372036854775808))).text).bind Param.ofJson? =
      some (.int (-9223372036854775808)) ∧
    (Json.ofText? (LoopId.json ⟨"\\", 1⟩).text).bind LoopId.ofJson? = some ⟨"\\", 1⟩ ∧
    (Json.ofText? (Bound.json (.symbolic "12")).text).bind Bound.ofJson? = some (.symbolic "12") ∧
    (Json.ofText? (Form.json .fusion).text).bind Form.ofJson? = some .fusion := by
  obtain ⟨descriptions, settings, params, ids, bounds, forms⟩ := ofText_text
  have inRange : escaped.InRange := by decide
  exact ⟨(descriptions escaped inRange).1, (descriptions escaped inRange).2,
    settings _ (by decide), params _ (by decide), ids _ (by decide), bounds _, forms _⟩

end LoopNest
