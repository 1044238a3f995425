import LoopNest.Json.Reader
import LoopNest.Proofs.Json.Token

/-! Reading what was written. The tokens of a value are put together to that value, inside whatever
is open around it, so the text of a value gives the value back. -/
namespace LoopNest
namespace Json

theorem exists_tokens_eq_cons (j : Json) :
    ∃ first more, j.tokens = first :: more ∧ first ≠ .rightBracket := by
  cases j with
  | array items => cases items <;> exact ⟨_, _, rfl, by simp⟩
  | object members =>
    cases members with
    | nil => exact ⟨_, _, rfl, by simp⟩
    | cons member members => exact ⟨_, _, rfl, by simp⟩
  | _ => exact ⟨_, _, rfl, by simp⟩

theorem assemble?_array (frames : List Frame) (item : Json) (more : List Token) :
    assemble? frames none (.leftBracket :: (item.tokens ++ more)) =
      assemble? (.items [] :: frames) none (item.tokens ++ more) := by
  obtain ⟨first, behind, same, opens⟩ := exists_tokens_eq_cons item
  rw [same, List.cons_append, assemble?]
  exact fun _ closes => opens (List.cons.inj closes).1

theorem ofMembers_map (members : List (String × Json)) :
    ofMembers (members.map fun (name, value) => (some name, value)) = object members := by
  have named : (members.map fun (name, value) => (some name, value)).mapM
      (fun m => m.1.map fun name => (name, m.2)) = some members := by
    induction members with
    | nil => rfl
    | cons member members ih => simp [List.mapM_cons, ih]
  rw [ofMembers, named]

mutual

/-- The tokens of a value are put together to that value. -/
theorem assemble?_tokens (frames : List Frame) (more : List Token) : ∀ j : Json,
    assemble? frames none (j.tokens ++ more) = assemble? frames (some j) more
  | null => rfl
  | bool _ => rfl
  | int _ => rfl
  | foreign => rfl
  | str _ => rfl
  | array [] => rfl
  | array (item :: items) => by
    rw [tokens, List.cons_append, List.append_assoc, assemble?_array,
      assemble?_tokens _ _ item, assemble?_items]
    simp
  | object [] => rfl
  | object ((name, value) :: members) => by
    rw [tokens, List.cons_append, List.cons_append, List.cons_append, List.append_assoc, assemble?,
      assemble?_tokens _ _ value, assemble?_members, List.reverse_nil, List.nil_append]
    exact congrArg (fun object => assemble? frames (some object) more)
      (ofMembers_map ((name, value) :: members))

theorem assemble?_items (done : List Json) (frames : List Frame) (value : Json) (more : List Token) :
    ∀ items : List Json,
    assemble? (.items done :: frames) (some value) (itemTokens items ++ more) =
      assemble? frames (some (array (done.reverse ++ value :: items))) more
  | [] => by
    rw [itemTokens, List.singleton_append, assemble?, List.reverse_cons]
  | item :: items => by
    rw [itemTokens, List.cons_append, List.append_assoc, assemble?, assemble?_tokens _ _ item,
      assemble?_items]
    simp

theorem assemble?_members (done : List (Option String × Json)) (name : Option String)
    (frames : List Frame) (value : Json) (more : List Token) : ∀ members : List (String × Json),
    assemble? (.members done name :: frames) (some value) (memberTokens members ++ more) =
      assemble? frames (some (ofMembers (done.reverse ++ (name, value) ::
        members.map fun (name, value) => (some name, value)))) more
  | [] => by
    rw [memberTokens, List.singleton_append, assemble?, List.reverse_cons]
    rfl
  | (next, item) :: members => by
    rw [memberTokens, List.cons_append, List.cons_append, List.cons_append, List.append_assoc,
      assemble?, assemble?_tokens _ _ item, assemble?_members]
    simp

end

/-- The text of a value holds that value. -/
@[simp] theorem ofText?_text (j : Json) : ofText? j.text = some j := by
  have scanned := tokens?_written [] ends_nil j
  have built := assemble?_tokens [] [] j
  rw [List.append_nil, List.append_nil, tokens?, List.reverse_reverse] at scanned
  rw [List.append_nil] at built
  rw [ofText?, text, String.toList_ofList, scanned, Option.bind_some, built]
  rfl

end Json
end LoopNest
