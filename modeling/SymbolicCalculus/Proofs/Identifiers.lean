import SymbolicCalculus.Proofs.Dialogue
import SymbolicCalculus.Proofs.ReadingOrder

/-! The names that can be bound in a dialogue are those that can be read back. A text is such a name exactly if it is
cut into one variable and nothing else, and exactly if all of it is read as that variable. -/
namespace SymbolicCalculus

section texts
open Grammar
variable {name : String}

theorem nameCut : IsName name ↔
    ∃ span, tokenize name = [.ok ⟨.variable name,span⟩,.ok (endToken name.utf8ByteSize)] := by
  constructor
  · intro valid
    have lexes := lexesVariable valid apartNone
    rw [List.append_nil] at lexes
    obtain ⟨items,stop,spells,same⟩ := lexes 0
    obtain ⟨span,tail,rfl,none⟩ := spellsHead spells
    have ends : (Cursor.mk [] stop).items = [] := itemsAtEnd rfl
    cases spellsNone none
    rw [ends] at same
    exact ⟨span,congrArg (fun items => items.map Item.result ++ [.ok (endToken name.utf8ByteSize)]) same⟩
  · rintro ⟨span,cut⟩
    have split : (Remaining.ofText name).results =
        [⟨.variable name,span⟩].map .ok ++ .ok (endToken name.utf8ByteSize) :: [] := cut
    obtain ⟨items,after,whole,spells,_⟩ := resultsSplit split
    obtain ⟨place,member⟩ := spellsMember spells List.mem_cons_self
    have here : ⟨.token (.variable name),place⟩ ∈ (Remaining.ofText name).items := by
      rw [whole]
      exact List.mem_append_left _ member
    exact itemsName here

variable {α : Type} [Numeral α] {limit : Nat}

theorem occurrenceName {text : String} {extent : Extent} {t : Expr α} (parsed : parse limit extent text = .ok t)
    (occurs : name ∈ t.occurrences) : IsName name := by
  obtain ⟨after,found⟩ := parseFound.mp parsed
  obtain ⟨_,w,items,phrase,spells,same,_⟩ := readFits found
  obtain ⟨token,taken,mark⟩ := (markToken phrase (.variable name)).mp (markVariable.mpr occurs)
  cases markVariableToken.mp mark
  obtain ⟨span,member⟩ := spellsMember spells taken
  have here : ⟨.token (.variable name),span⟩ ∈ (Remaining.ofText text).items := by
    rw [same]
    exact List.mem_append_left _ member
  exact itemsName here

theorem nameAlone : IsName name ↔ parse limit .whole name = .ok (.var name : Expr α) :=
  ⟨fun valid => Shell.nameParses valid limit,fun parsed => occurrenceName parsed List.mem_cons_self⟩

end texts

namespace Shell
open Line

/-- What counts as a name is cut from its text as one variable with nothing before or behind it, and is read as that
variable, under any limit and over any numbers; and what is cut so, or read so, is a name. All names that are bound at
the end of a dialogue are such texts, and a line with only the name on it shows the value that the name is bound to
and changes nothing. -/
theorem boundReadBack :
    (∀ text : String, (isIdentifier text.toList = true ↔
      ∃ span, tokenize text = [.ok ⟨.variable text,span⟩,.ok (endToken text.utf8ByteSize)])) ∧
    (∀ (α : Type) [Numeral α] (limit : Nat) (text : String), (isIdentifier text.toList = true ↔
      parse limit .whole text = .ok (.var text : Expr α))) ∧
    ∀ lines : List String,
      let context : Bindings Float := contextAfter .empty lines
      ∀ name value, context.value? name = some value →
        isIdentifier name.toList = true ∧ evaluateText context name = .ok value ∧
        ∀ line : String, trim line.toList = name.toList → enter context line = (⟨[Numeral.display value],[]⟩,context) := by
  have valid (text : String) : isIdentifier text.toList = true ↔ IsName text := by
    rw [identifierName,String.ofList_toList]
  refine ⟨fun text => (valid text).trans nameCut,fun α _ limit text => (valid text).trans nameAlone,?_⟩
  intro lines context name value bound
  have proper := boundValid bound
  exact ⟨(valid name).mpr proper,nameEvaluates proper bound,fun line only => enterName proper bound only⟩

theorem boundReadBackReplaced :
    (contextAfter .empty ["x_1 = 2",":diff x_1 x_1^2","x_1 = 4"] : Bindings Float).value? "x_1" = some 4 ∧
    isIdentifier "x_1".toList = true ∧
    enter (contextAfter .empty ["x_1 = 2",":diff x_1 x_1^2","x_1 = 4"]) "\u00a0x_1 " =
      (⟨["4"],[]⟩,(contextAfter .empty ["x_1 = 2",":diff x_1 x_1^2","x_1 = 4"] : Bindings Float)) := by
  have bound : (contextAfter .empty ["x_1 = 2",":diff x_1 x_1^2","x_1 = 4"] : Bindings Float).value? "x_1" =
      some 4 := by decide +kernel
  have shown : Numeral.display (4 : Float) = "4" := by decide +kernel
  obtain ⟨valid,_,only⟩ := boundReadBack.2.2 ["x_1 = 2",":diff x_1 x_1^2","x_1 = 4"] "x_1" 4 bound
  have answered := only "\u00a0x_1 " (by decide +kernel)
  rw [shown] at answered
  exact ⟨bound,valid,answered⟩

end Shell
end SymbolicCalculus
