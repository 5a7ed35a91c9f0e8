import Mathlib.Data.Set.List
import SymbolicCalculus.Proofs.Dialogue
import SymbolicCalculus.Proofs.RealTexts

/-! A listing is a dialogue of its own. Each of its lines is an assignment of what it shows, and a new dialogue that is
given these lines, in whatever order and however often, knows the same names and the same numbers. -/
namespace SymbolicCalculus

namespace Line
variable {front cs back : List Char}

theorem partSeen {c : Char} (part : isNameChar c = true) : isWhite c = false := by
  have range := partRange part
  unfold isWhite
  simp only [Bool.or_eq_false_iff,Bool.and_eq_false_iff,decide_eq_false_iff_not,beq_eq_false_iff_ne]
  omega

theorem trimPadded (before : ∀ c ∈ front, isWhite c = true) (solid : ∀ c ∈ cs, isWhite c = false)
    (behind : ∀ c ∈ back, isWhite c = true) : trim (front ++ cs ++ back) = cs := by
  cases cs with
  | nil =>
    rw [List.append_nil,trim,trimStartWhite (by simpa [or_imp,forall_and] using And.intro before behind)]
    rfl
  | cons c tail =>
    have ends : ∀ d ∈ tail.reverse.head?, isWhite d = false := by
      intro d head
      exact solid d (List.mem_cons_of_mem c (List.mem_reverse.mp (List.mem_of_mem_head? head)))
    have cut := (spanEnds (fun d member => behind d (List.mem_reverse.mp member)) ends).2
    rw [List.append_assoc,List.cons_append,trimAround front _ (solid c List.mem_cons_self),trimStartWhite before,
      List.nil_append,trimEnd,List.reverse_append,cut,List.reverse_reverse]

end Line

namespace Shell
open Line

section lines
variable {α : Type} [Scalar α] [Numeral α] {context : Bindings α} {name : String} {value : α}

omit [Scalar α] [Numeral α] in
theorem literalSeen {cs : List Char} (literal : Literal cs) : ∀ c ∈ cs, isWhite c = false := by
  intro c member
  rcases literalChars literal c member with digit | rfl
  · exact partSeen (by simp [isNameChar,Char.isAlphanum,digit])
  · rfl

theorem writtenSeen (written : Written value) : ∀ c ∈ (Numeral.display value).toList, isWhite c = false := by
  cases written with
  | unsigned literal shown => exact shown ▸ literalSeen literal
  | signed literal shown =>
    rw [shown,String.toList_append]
    intro c member
    rcases List.mem_append.mp member with minus | later
    · cases List.mem_singleton.mp minus
      rfl
    · exact literalSeen literal c later

theorem listedAssigns (valid : IsName name) (written : Written value) :
    Assigns (bindingText name value).toList name (Numeral.display value) := by
  have visible (c : Char) (member : c ∈ name.toList) : isWhite c = false := partSeen (nameFree valid c member)
  have blank (c : Char) (member : c ∈ [' ']) : isWhite c = true := by
    cases List.mem_singleton.mp member
    rfl
  have bare (c : Char) (member : c ∈ []) : isWhite c = true := absurd member List.not_mem_nil
  refine ⟨name.toList ++ [' '],' ' :: (Numeral.display value).toList,by simp [bindingText],?_,?_,valid,?_⟩
  · intro member
    rcases List.mem_append.mp member with inside | behind
    · exact (nameVisible (nameFree valid _ inside)).2 rfl
    · cases List.mem_singleton.mp behind
  · simpa using trimPadded bare visible blank
  · simpa using trimPadded blank (writtenSeen written) bare

theorem displayedValue (written : Written value) : evaluateText context (Numeral.display value) = .ok value := by
  have presentable : (Expr.const value).Presentable := written
  have low : max (Expr.const value).need (Expr.const value).reach ≤ defaultLimit := by
    simp only [Expr.need,Expr.reach]
    split <;> decide
  have read := Grammar.wholeReads ((renderedDecided presentable defaultLimit).read low)
  refine textValue.mpr ⟨_,Grammar.parseFound.mpr ⟨_,read⟩,?_⟩
  rw [Expr.normalEvaluate presentable,Expr.evaluate]

theorem listedSets (valid : IsName name) (written : Written value) :
    Sets context (bindingText name value) name value := by
  have found : evaluateText context (Numeral.display value) = .ok value := displayedValue written
  obtain ⟨e,read,evaluates⟩ := textValue.mp found
  exact ⟨_,e,listedAssigns valid written,read,evaluates⟩

end lines

section runs
variable {α : Type} [Scalar α] [Numeral α]

def Listable (entry : String × α) : Prop := IsName entry.1 ∧ Written entry.2

abbrev listed (entry : String × α) : String := bindingText entry.1 entry.2

theorem listedReplay (context : Bindings α) {entries : List (String × α)} (proper : ∀ entry ∈ entries, Listable entry) :
    dialogue context (entries.map listed) = (entries.map listed).map (fun line => ⟨[line],[]⟩) ∧
    contextAfter context (entries.map listed) = entries.foldl (fun b entry => b.bind entry.1 entry.2) context := by
  induction entries generalizing context with
  | nil => exact ⟨rfl,rfl⟩
  | cons entry rest ih =>
    obtain ⟨⟨valid,written⟩,others⟩ := List.forall_mem_cons.mp proper
    have answer : enter context (listed entry) = (⟨[listed entry],[]⟩,context.bind entry.1 entry.2) :=
      enterSets (listedSets valid written)
    obtain ⟨answers,after⟩ := ih (context.bind entry.1 entry.2) others
    constructor
    · rw [List.map_cons,List.map_cons,dialogue,answer,answers]
    · rw [List.map_cons,contextAfter,List.foldl_cons,answer]
      exact after

theorem listedOnce {first second : String × α} (here : Listable first) (there : Listable second)
    (same : listed first = listed second) : first = second := by
  have sets : Sets (Bindings.empty : Bindings α) (listed first) first.1 first.2 := listedSets here.1 here.2
  have again : Sets (Bindings.empty : Bindings α) (listed first) second.1 second.2 := by
    rw [same]
    exact listedSets there.1 there.2
  obtain ⟨names,values⟩ := setsOnce sets again
  exact Prod.ext names values

theorem listedRestore {b : Bindings α} (proper : ∀ entry ∈ b.entries, Listable entry) {again : List String}
    (same : ∀ line, line ∈ again ↔ line ∈ b.entries.map listed) :
    dialogue (.empty : Bindings α) again = again.map (fun line => ⟨[line],[]⟩) ∧ contextAfter .empty again = b := by
  have source : again ∈ Set.range (List.map (fun entry : { entry // entry ∈ b.entries } => listed entry.1)) := by
    rw [Set.range_list_map]
    intro line member
    obtain ⟨entry,inside,rfl⟩ := List.mem_map.mp ((same line).mp member)
    exact ⟨⟨entry,inside⟩,rfl⟩
  obtain ⟨picked,rfl⟩ := source
  have whole : picked.map (fun entry => listed entry.1) = (picked.map Subtype.val).map listed := by
    rw [List.map_map]
    rfl
  have members (entry : String × α) : entry ∈ picked.map Subtype.val ↔ entry ∈ b.entries := by
    constructor
    · intro member
      obtain ⟨chosen,_,rfl⟩ := List.mem_map.mp member
      exact chosen.2
    · intro member
      have line : listed entry ∈ (picked.map Subtype.val).map listed :=
        whole ▸ (same _).mpr (List.mem_map_of_mem member)
      obtain ⟨other,here,alike⟩ := List.mem_map.mp line
      obtain ⟨chosen,_,rfl⟩ := List.mem_map.mp here
      exact listedOnce (proper _ chosen.2) (proper entry member) alike ▸ here
  obtain ⟨answers,after⟩ := listedReplay .empty (fun entry member => proper entry ((members entry).mp member))
  rw [whole]
  exact ⟨answers,after.trans (ofListSame members)⟩

end runs

/-- What a listing shows is enough to take a dialogue up again. If all numbers that are bound are finite, the lines that
the listing prints can be entered into a new dialogue, in any order and as often as one likes. Each of them is
answered by itself, with no complaint, and in the end the same names are bound to the same numbers, bit for bit: what
is below zero, a zero included, is read back from its minus. -/
theorem listingRestores (lines : List String) :
    let context : Bindings Float := contextAfter .empty lines
    (∀ name value, context.value? name = some value → RealNumber.IsFinite value) →
    ∀ again : List String, (∀ line, line ∈ again ↔ line ∈ (enter context ":vars").1.out) →
      dialogue (.empty : Bindings Float) again = again.map (fun line => ⟨[line],[]⟩) ∧
      contextAfter .empty again = context := by
  intro context finite again same
  have proper (entry : String × Float) (member : entry ∈ context.entries) : Listable entry := by
    have bound := (entryBound context entry.1 entry.2).mp member
    exact ⟨boundValid bound,RealNumber.finiteWritten (finite _ _ bound)⟩
  have shown : enter context ":vars" = (⟨context.entries.map listed,[]⟩,context) := enterListing (by decide +kernel)
  rw [shown] at same
  exact listedRestore proper same

theorem listingRestoresZero :
    (∀ name value, (contextAfter .empty ["y = 2.5","x = -0","y = -y"] : Bindings Float).value? name = some value →
      RealNumber.IsFinite value) ∧
    (enter (contextAfter .empty ["y = 2.5","x = -0","y = -y"] : Bindings Float) ":vars").1.out = ["x = -0","y = -2.5"] ∧
    dialogue (.empty : Bindings Float) ["y = -2.5","x = -0","y = -2.5"] =
      [⟨["y = -2.5"],[]⟩,⟨["x = -0"],[]⟩,⟨["y = -2.5"],[]⟩] ∧
    ((contextAfter .empty ["y = -2.5","x = -0","y = -2.5"] : Bindings Float).value? "x").map Float.toBits =
      some (-0 : Float).toBits ∧
    (-0 : Float).toBits ≠ (0 : Float).toBits := by
  have entries : (contextAfter .empty ["y = 2.5","x = -0","y = -y"] : Bindings Float).entries =
      [("x",-0),("y",-2.5)] := by decide +kernel
  have finite (name : String) (value : Float)
      (bound : (contextAfter .empty ["y = 2.5","x = -0","y = -y"] : Bindings Float).value? name = some value) :
      RealNumber.IsFinite value := by
    have member := (entryBound _ _ _).mpr bound
    rw [entries] at member
    simp only [List.mem_cons,Prod.mk.injEq,List.not_mem_nil,or_false] at member
    rcases member with ⟨_,rfl⟩ | ⟨_,rfl⟩ <;> decide +kernel
  have shown : (enter (contextAfter .empty ["y = 2.5","x = -0","y = -y"] : Bindings Float) ":vars").1.out =
      ["x = -0","y = -2.5"] := by decide +kernel
  have zero : ((contextAfter .empty ["y = 2.5","x = -0","y = -y"] : Bindings Float).value? "x").map Float.toBits =
      some (-0 : Float).toBits := by decide +kernel
  obtain ⟨answers,restored⟩ := listingRestores ["y = 2.5","x = -0","y = -y"] finite ["y = -2.5","x = -0","y = -2.5"]
    (by rw [shown]; simp [or_comm])
  exact ⟨finite,shown,answers,restored ▸ zero,by decide +kernel⟩

end Shell
end SymbolicCalculus
