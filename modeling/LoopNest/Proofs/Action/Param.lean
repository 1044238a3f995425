import LoopNest.Action.Error
import LoopNest.Proofs.Action.Check
import LoopNest.Proofs.Json.Record
import LoopNest.Proofs.Text.Blank

/-! Lists of positional parameters as texts. What is written for a list is read as the list, unless a
name cannot be told from what stands around it: an empty one, one with a comma, or one with white
space at its ends. No list that is read has such names. -/
namespace LoopNest

structure LoopId.Plain (id : LoopId) : Prop where
  nonempty : id.name ≠ ""
  tight : Text.Tight id.name.toList
  whole : ',' ∉ id.name.toList

instance (id : LoopId) : Decidable id.Plain :=
  decidable_of_iff (id.name ≠ "" ∧ Text.Tight id.name.toList ∧ ',' ∉ id.name.toList)
    ⟨fun ⟨nonempty, tight, whole⟩ => ⟨nonempty, tight, whole⟩,
      fun ⟨nonempty, tight, whole⟩ => ⟨nonempty, tight, whole⟩⟩

namespace Param

/-- The name of a parameter, if it has one, can be told from what stands around it. -/
def Plain : Param → Prop
  | loop id => id.Plain
  | int _ => True

instance : DecidablePred Plain
  | loop id => inferInstanceAs (Decidable id.Plain)
  | int _ => inferInstanceAs (Decidable True)

section Split

variable {c : Char} {before behind : List Char}

theorem splitLast?_of_not_mem {cs : List Char} (absent : c ∉ cs) : splitLast? c cs = none := by
  induction cs with
  | nil => rfl
  | cons x cs ih =>
    rw [List.mem_cons, not_or] at absent
    rw [splitLast?, ih absent.2]
    exact if_neg (Ne.symm absent.1)

theorem splitLast?_append (absent : c ∉ behind) :
    splitLast? c (before ++ c :: behind) = some (before, behind) := by
  induction before with
  | nil =>
    rw [List.nil_append, splitLast?, splitLast?_of_not_mem absent]
    exact if_pos rfl
  | cons x before ih => rw [List.cons_append, splitLast?, ih]

theorem eq_append_of_splitLast? {cs : List Char} (split : splitLast? c cs = some (before, behind)) :
    cs = before ++ c :: behind := by
  induction cs generalizing before with
  | nil => cases split
  | cons x cs ih =>
    rw [splitLast?] at split
    cases later : splitLast? c cs with
    | some parts =>
      rw [later] at split
      cases split
      rw [ih later, List.cons_append]
    | none =>
      rw [later] at split
      split_ifs at split with same
      cases split
      rw [same, List.nil_append]

theorem ofTrimmed?_of_split {s : String} {name level : List Char}
    (split : splitLast? ':' s.toList = some (name, level)) (named : name ≠ []) :
    ofTrimmed? s = (Text.unsigned? (Text.trim (String.ofList level))).map fun level =>
      loop ⟨Text.trim (String.ofList name), level⟩ := by
  rw [ofTrimmed?, split]
  cases name with
  | nil => exact absurd rfl named
  | cons c cs => rfl

end Split

section Written

theorem toList_text_loop (id : LoopId) :
    (loop id).text.toList = id.name.toList ++ ':' :: (toString id.level).toList := by
  rw [text, String.toList_append, String.toList_append, List.append_assoc]
  rfl

variable {p : Param}

theorem text_ne_nil (p : Param) : p.text.toList ≠ [] := by
  cases p with
  | loop id => simp [toList_text_loop]
  | int v =>
    rw [text]
    cases v with
    | ofNat n => simp only [Text.toList_ofNat, ne_eq, Nat.toDigits_ne_nil, not_false_eq_true]
    | negSucc n => simp only [Text.toList_negSucc, ne_eq, List.cons_ne_nil, not_false_eq_true]

theorem Plain.tight_text (plain : p.Plain) : Text.Tight p.text.toList := by
  cases p with
  | loop id =>
    have colon : Text.Tight [':'] := by decide
    rw [toList_text_loop, ← List.singleton_append]
    exact (LoopId.Plain.tight plain).append (colon.append (Text.tight_toString id.level))
  | int v => exact Text.tight_toString v

theorem Plain.comma_not_mem (plain : p.Plain) : ',' ∉ p.text.toList := by
  have number := Text.not_mem_toString (c := ',') rfl (by decide)
  cases p with
  | loop id =>
    rw [toList_text_loop, List.mem_append, List.mem_cons]
    rintro (name | colon | level)
    · exact LoopId.Plain.whole plain name
    · exact absurd colon (by decide)
    · exact number id.level level
  | int v => exact number v

/-- What is written for a parameter is read as the parameter. -/
theorem ofText_written (inRange : p.InRange) (plain : p.Plain) : ofText p.text = .ok p := by
  have back : ofTrimmed? p.text = some p := by
    cases p with
    | loop id =>
      have colon : ':' ∉ (toString id.level).toList := Text.not_mem_toString rfl (by decide) id.level
      have level : Text.trim (toString id.level) = toString id.level :=
        Text.trim_of_tight (Text.tight_toString id.level)
      have name : Text.trim id.name = id.name := Text.trim_of_tight (LoopId.Plain.tight plain)
      have split : splitLast? ':' (loop id).text.toList =
          some (id.name.toList, (toString id.level).toList) := by
        rw [toList_text_loop, splitLast?_append colon]
      have named : id.name.toList ≠ [] :=
        mt String.toList_eq_nil_iff.mp (LoopId.Plain.nonempty plain)
      rw [ofTrimmed?_of_split split named]
      simp only [String.ofList_toList, level, name, Text.unsigned?_toString inRange,
        Option.map_some]
    | int v =>
      have colon : ':' ∉ (toString v).toList := Text.not_mem_toString rfl (by decide) v
      rw [ofTrimmed?, text, splitLast?_of_not_mem colon]
      exact congrArg (Option.map int) (Text.signed?_toString inRange)
  rw [ofText, Text.trim_of_tight plain.tight_text, back]

end Written

section Read

theorem plain_trim {name level : List Char} (tight : Text.Tight (name ++ ':' :: level))
    (whole : ',' ∉ name) (named : name ≠ []) (n : Nat) :
    LoopId.Plain ⟨Text.trim (String.ofList name), n⟩ := by
  have kept : (Text.trim (String.ofList name)).toList = Text.trimmed name := by
    rw [Text.toList_trim, String.toList_ofList]
  refine ⟨fun empty => ?_, ?_, ?_⟩
  · have blank := Text.trimmed_eq_nil_iff.mp (kept.symm.trans (String.toList_eq_nil_iff.mpr empty))
    cases name with
    | nil => exact named rfl
    | cons c cs => exact absurd (blank c List.mem_cons_self) (Bool.eq_false_iff.mp tight.1)
  · rw [kept]
    exact Text.tight_trimmed name
  · rw [kept]
    exact fun mem => whole (Text.mem_of_mem_trimmed mem)

/-- A parameter that is read from a text without commas can be told from what stands around it. -/
theorem plain_of_ofText {s : String} {p : Param} (whole : ',' ∉ s.toList)
    (read : ofText s = .ok p) : p.InRange ∧ p.Plain := by
  have tight : Text.Tight (Text.trim s).toList := by
    rw [Text.toList_trim]
    exact Text.tight_trimmed s.toList
  have inside : ',' ∉ (Text.trim s).toList := fun mem =>
    whole (Text.mem_of_mem_trimmed (Text.toList_trim s ▸ mem))
  rw [ofText] at read
  split at read
  · next found =>
    cases read
    rw [ofTrimmed?] at found
    split at found
    · cases found
    · next name level named split =>
      obtain ⟨value, ranged, rfl⟩ := Option.map_eq_some_iff.mp found
      rw [eq_append_of_splitLast? split] at tight inside
      have free : ',' ∉ name := fun mem => inside (List.mem_append_left _ mem)
      exact ⟨Text.lt_of_unsigned?_eq_some ranged, plain_trim tight free named value⟩
    · next alone =>
      obtain ⟨v, ranged, rfl⟩ := Option.map_eq_some_iff.mp found
      exact ⟨Text.fitsSigned_of_signed?_eq_some ranged, trivial⟩
  · cases read

end Read

section List

theorem not_mem_of_mem_splitOn {c : Char} {cs part : List Char} (mem : part ∈ cs.splitOn c) :
    c ∉ part := by
  induction cs generalizing part with
  | nil =>
    rw [List.splitOn_nil, List.mem_singleton] at mem
    exact mem ▸ List.not_mem_nil
  | cons x cs ih =>
    obtain ⟨first, rest, parts⟩ := List.exists_cons_of_ne_nil (List.splitOn_ne_nil c cs)
    rw [parts] at ih
    rw [List.splitOn_cons_eq_if_modifyHead, parts] at mem
    split_ifs at mem with same
    · rcases List.mem_cons.mp mem with rfl | mem
      · exact List.not_mem_nil
      · exact ih mem
    · rcases List.mem_cons.mp mem with rfl | mem
      · have differ : c ≠ x := fun eq => same (beq_iff_eq.mpr eq.symm)
        exact fun inside => (List.mem_cons.mp inside).elim differ (ih List.mem_cons_self)
      · exact ih (List.mem_cons_of_mem _ mem)

variable {ps : List Param}

theorem mapM_ofText (plain : ∀ p ∈ ps, p.InRange ∧ p.Plain) :
    (ps.map text).mapM ofText = .ok ps := by
  induction ps with
  | nil => rfl
  | cons p ps ih =>
    obtain ⟨⟨inRange, first⟩, rest⟩ := List.forall_mem_cons.mp plain
    rw [List.map_cons, List.mapM_cons, ofText_written inRange first, ih rest]
    rfl

/-- Between the commas of a list stand its parameters. -/
theorem splitOn_intercalate (plain : ∀ p ∈ ps, p.Plain) (nonempty : ps ≠ []) :
    ((String.intercalate "," (ps.map text)).toList.splitOn ',').map String.ofList =
      ps.map text := by
  have comma : ∀ part ∈ (ps.map text).map String.toList, ',' ∉ part := by
    rw [List.map_map, List.forall_mem_map]
    exact fun p mem => (plain p mem).comma_not_mem
  have whole : (String.intercalate "," (ps.map text)).toList =
      [','].intercalate ((ps.map text).map String.toList) := String.toList_intercalate
  rw [whole, List.splitOn_intercalate ',' comma (by simpa using nonempty), List.map_map]
  simp only [Function.comp_def, String.ofList_toList, List.map_id']

theorem Plain.not_blank {p : Param} (plain : p.Plain) : Text.blank p.text = false := by
  obtain ⟨c, rest, chars⟩ := List.exists_cons_of_ne_nil (text_ne_nil p)
  have first : Text.isBlank c = false := by
    have tight := plain.tight_text.1
    rwa [chars] at tight
  rw [Text.blank, chars, List.all_cons, first, Bool.false_and]

theorem listOfText_intercalate (plain : ∀ p ∈ ps, p.InRange ∧ p.Plain) :
    listOfText (String.intercalate "," (ps.map text)) = .ok ps := by
  rcases eq_or_ne ps [] with rfl | nonempty
  · rfl
  · have shown : ∀ part ∈ ps.map text, (!Text.blank part) = true :=
      List.forall_mem_map.mpr fun p mem => by rw [(plain p mem).2.not_blank]; rfl
    rw [listOfText, splitOn_intercalate (fun p mem => (plain p mem).2) nonempty,
      List.filter_eq_self.mpr shown, mapM_ofText plain]

theorem plain_of_listOfText {s : String} (read : listOfText s = .ok ps) :
    ∀ p ∈ ps, p.InRange ∧ p.Plain := fun p mem => by
  obtain ⟨part, memPart, back⟩ := Except.exists_of_mem_mapM read p mem
  obtain ⟨chars, memChars, rfl⟩ := List.mem_map.mp (List.mem_of_mem_filter memPart)
  refine plain_of_ofText ?_ back
  rw [String.toList_ofList]
  exact not_mem_of_mem_splitOn memChars

end List

end Param

/-- A list whose names can be told from what stands around them is read from what is written for
it. Every list that is read has such names, so it is read again from what is written for it. -/
theorem readParams_written :
    (∀ ps : List Param, (∀ p ∈ ps, p.InRange ∧ p.Plain) →
      readParams (String.intercalate "," (ps.map Param.text)) = .ok ps) ∧
    ∀ (s : String) (ps : List Param), readParams s = .ok ps →
      (∀ p ∈ ps, p.InRange ∧ p.Plain) ∧
        readParams (String.intercalate "," (ps.map Param.text)) = readParams s := by
  have back (ps : List Param) (plain : ∀ p ∈ ps, p.InRange ∧ p.Plain) :
      readParams (String.intercalate "," (ps.map Param.text)) = .ok ps :=
    Except.mapError_eq_ok_iff.mpr (Param.listOfText_intercalate plain)
  refine ⟨back, fun s ps read => ?_⟩
  have plain := Param.plain_of_listOfText (Except.mapError_eq_ok_iff.mp read)
  exact ⟨plain, (back ps plain).trans read.symm⟩

theorem readParams_colons :
    ((∀ p ∈ [Param.loop ⟨"a:b c", 18446744073709551615⟩, .int (-9223372036854775808)],
        p.InRange ∧ p.Plain) ∧
      readParams (String.intercalate "," ([Param.loop ⟨"a:b c", 18446744073709551615⟩,
        .int (-9223372036854775808)].map Param.text)) =
        .ok [.loop ⟨"a:b c", 18446744073709551615⟩, .int (-9223372036854775808)]) ∧
    readParams " a: b : +007,\u2003, -0 " = .ok [.loop ⟨"a: b", 7⟩, .int 0] ∧
    (∀ p ∈ [Param.loop ⟨"a: b", 7⟩, .int 0], p.InRange ∧ p.Plain) ∧
    readParams (String.intercalate "," ([Param.loop ⟨"a: b", 7⟩, .int 0].map Param.text)) =
      readParams " a: b : +007,\u2003, -0 " := by
  have plain : ∀ p ∈ [Param.loop ⟨"a:b c", 18446744073709551615⟩, .int (-9223372036854775808)],
      p.InRange ∧ p.Plain := by decide
  have read : readParams " a: b : +007,\u2003, -0 " = .ok [.loop ⟨"a: b", 7⟩, .int 0] := rfl
  exact ⟨⟨plain, readParams_written.1 _ plain⟩, read, readParams_written.2 _ _ read⟩

end LoopNest
