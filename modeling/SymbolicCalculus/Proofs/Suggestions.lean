import SymbolicCalculus.Proofs.Edits
import SymbolicCalculus.Proofs.Places

/-! A misspelt function is answered with the functions at most one edit away. No two of them are that near to one name
except `sin` and `ln`, for the way from one function to another by way of the name would be too short. -/
namespace SymbolicCalculus

structure Nearby (name : String) (offered : List String) : Prop where
  ordered : offered.Sublist ["sin","cos","ln","exp"]
  once : offered.Nodup
  near : ∀ f, f ∈ offered ↔ f ∈ ["sin","cos","ln","exp"] ∧ (f.toList = name.toList ∨ Edit f.toList name.toList)
  few : offered.length ≤ 2
  both : offered.length = 2 → offered = ["sin","ln"]

def Failure.Offers (failure : Failure) : Prop :=
  ∀ name offered, failure.cause = .unknownFunction name offered → offered = suggestions name ∧ name ∉ offered

section words
variable {name f g : String}

theorem suggestionsFilter (name : String) :
    suggestions name = ["sin","cos","ln","exp"].filter (fun f => withinOneEdit f.toList name.toList) := rfl

theorem suggestedName : f ∈ suggestions name ↔
    f ∈ ["sin","cos","ln","exp"] ∧ (f.toList = name.toList ∨ Edit f.toList name.toList) := by
  rw [suggestionsFilter,List.mem_filter,withinNear]

theorem suggestedApart (first : withinOneEdit f.toList name.toList) (second : withinOneEdit g.toList name.toList) :
    tableDistance f.toList g.toList ≤ 2 := by
  obtain ⟨m,few,there⟩ := editsSingle.mpr ((withinNear _ _).mp first)
  obtain ⟨n,some,back⟩ := editsSingle.mpr ((withinNear _ _).mp second)
  have whole := tableLeast tableFilled (editsJoined there (editsUndone back))
  omega

theorem suggestedTogether (name : String) : suggestions name ∈ [[],["sin"],["cos"],["ln"],["exp"],["sin","ln"]] := by
  have apart (f g : String) (far : 2 < tableDistance f.toList g.toList) :
      ¬ (withinOneEdit f.toList name.toList ∧ withinOneEdit g.toList name.toList) :=
    fun ⟨first,second⟩ => Nat.not_lt_of_le (suggestedApart first second) far
  have sinCos := apart "sin" "cos" (by decide)
  have sinExp := apart "sin" "exp" (by decide)
  have cosLn := apart "cos" "ln" (by decide)
  have cosExp := apart "cos" "exp" (by decide)
  have lnExp := apart "ln" "exp" (by decide)
  rw [suggestionsFilter]
  simp only [List.filter_cons,List.filter_nil]
  -- Of the name nothing is left but which of the four are near to it.
  generalize withinOneEdit "sin".toList name.toList = sin at *
  generalize withinOneEdit "cos".toList name.toList = cos at *
  generalize withinOneEdit "ln".toList name.toList = ln at *
  generalize withinOneEdit "exp".toList name.toList = exp at *
  clear apart
  revert sin cos ln exp
  decide

theorem suggestionsNearby (name : String) : Nearby name (suggestions name) := by
  have ordered : (suggestions name).Sublist ["sin","cos","ln","exp"] := List.filter_sublist
  have once : (suggestions name).Nodup := ordered.nodup (by decide)
  have shapes := suggestedTogether name
  refine ⟨ordered,once,fun f => suggestedName,?_,?_⟩
  all_goals
    generalize suggestions name = offered at shapes
    revert offered
    decide

theorem unknownUnoffered (unknown : UnaryOp.ofName? name = none) : name ∉ suggestions name := by
  intro offered
  have listed : name ∈ functions.map UnaryOp.word := (suggestedName.mp offered).1
  obtain ⟨f,member,rfl⟩ := List.mem_map.mp listed
  exact List.find?_eq_none.mp unknown f member (beq_self_eq_true _)

theorem suggestedWithin {distance : List Char → List Char → Nat} (table : Tabled distance) (name : String) :
    suggestions name = ["sin","cos","ln","exp"].filter (fun f => distance f.toList name.toList < 2) := by
  refine List.filter_congr fun f _ => ?_
  rw [Bool.eq_iff_iff,withinNear,← editsSingle,← tableExact table,decide_eq_true_iff,Nat.lt_succ_iff]

end words

theorem blameOffers {α : Type} [Numeral α] {limit : Nat} {r : Remaining} {failure : Failure}
    (blame : Grammar.Blame α limit r failure) : failure.Offers := by
  intro name offered cause
  cases blame with
  | unknown member unknown =>
    cases cause
    exact ⟨rfl,unknownUnoffered unknown⟩
  | literal member refused =>
    rename_i fault
    cases fault <;> cases cause
  | _ => cases cause

/-- The suggestions for a name are the functions whose distance from it is less than two, for every distance that is
given by the recurrence of its table, and these are the functions that the name is made of by at most one insertion,
deletion or replacement of a character. They are in their order and without repetition, at most two of them, and two
only as `sin` and `ln`. An unknown function is reported with the suggestions for it, and it is none of them: whether a
text is read at once, or call by call with steps back, or over one kind of numbers after another. -/
theorem suggestionsNear {distance : List Char → List Char → Nat} (table : Tabled distance) :
    (∀ name, suggestions name = ["sin","cos","ln","exp"].filter (fun f => distance f.toList name.toList < 2) ∧
      Nearby name (suggestions name)) ∧
    ∀ text : String,
      (∀ {α : Type} [Numeral α] (limit : Nat) (extent : Extent) (failure : Failure),
        (parse limit extent text : Except Failure (Expr α)) = .error failure → failure.Offers) ∧
      (∀ {α : Type} [Numeral α] (limit : Nat) (moves : List (Move ParserCall)) (failure : Failure),
        some (.failed failure) ∈ parserReplay α limit text moves → failure.Offers) ∧
      ∀ (limit : Nat) (queries : List Query), ∀ reply ∈ (Parser.ofText text).replies limit text queries,
        ∀ failure, reply.2 = .failed failure → failure.Offers :=
  ⟨fun name => ⟨suggestedWithin table name,suggestionsNearby name⟩,fun _ => readingBlamed blameOffers⟩

theorem suggestionsNearBoth :
    Tabled (tableDistance : List Char → List Char → Nat) ∧ suggestions "in" = ["sin","ln"] ∧
    (parse 3 .whole "1+in(x)" : Except Failure (Expr Float)) = .error ⟨.unknownFunction "in" ["sin","ln"],[⟨2,4⟩]⟩ ∧
    "in" ∉ ["sin","ln"] := by
  obtain ⟨offered,reported⟩ := suggestionsNear tableFilled
  have refused : (parse 3 .whole "1+in(x)" : Except Failure (Expr Float)) =
      .error ⟨.unknownFunction "in" ["sin","ln"],[⟨2,4⟩]⟩ := by decide +kernel
  have near : suggestions "in" = ["sin","ln"] := (offered "in").1.trans (by decide)
  exact ⟨tableFilled,near,refused,((reported "1+in(x)").1 3 .whole _ refused "in" ["sin","ln"] rfl).2⟩

end SymbolicCalculus
