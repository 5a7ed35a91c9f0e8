import Mathlib.Data.List.Forall2
import SymbolicCalculus.Proofs.Dialogue
import SymbolicCalculus.Proofs.Unbound

/-! The program as it is called with arguments. The arguments alone decide what it prints and whether it succeeds: of
several things that are wrong with them, the one that is complained of is the first that is looked for. -/
namespace SymbolicCalculus

section pairs
variable {α : Type} {pairs : List (String × α)} {name : String} {value : α}

def LastPair (pairs : List (String × α)) (name : String) (value : α) : Prop :=
  ∃ before behind, pairs = before ++ (name,value) :: behind ∧ ∀ entry ∈ behind, entry.1 ≠ name

theorem lastValue : (Bindings.ofList pairs).value? name = some value ↔ LastPair pairs name value := by
  rw [Bindings.valueOfList,valueIn,Option.map_eq_some_iff]
  constructor
  · rintro ⟨⟨_,_⟩,found,rfl⟩
    obtain ⟨same,behind,before,split,other⟩ := List.find?_eq_some_iff_append.mp found
    cases beq_iff_eq.mp same
    refine ⟨before.reverse,behind.reverse,List.reverse_injective (by simpa using split),?_⟩
    simpa using other
  · rintro ⟨before,behind,rfl,last⟩
    refine ⟨(name,value),List.find?_eq_some_iff_append.mpr ⟨beq_self_eq_true name,behind.reverse,before.reverse,?_⟩,rfl⟩
    simpa using last

theorem pairedName : ((Bindings.ofList pairs).value? name).isSome ↔ name ∈ pairs.map Prod.fst := by
  simp [Bindings.valueOfList,valueIn]

end pairs

namespace CommandLine

def Binds (argument : String) (pair : String × Float) : Prop :=
  ∃ left right, argument.toList = left ++ '=' :: right ∧ '=' ∉ left ∧ pair.1 = String.ofList (Line.trim left) ∧
    RealNumber.ofText? (String.ofList (Line.trim right)) = some pair.2

section reading
variable {argument : String} {pair : String × Float} {arguments : List String} {pairs : List (String × Float)}
  {context : Bindings Float}

theorem bindingRead : binding? argument = some pair ↔ Binds argument pair := by
  obtain ⟨name,x⟩ := pair
  simp only [binding?,bind,Option.bind_eq_some_iff,pure,Option.some.injEq,Prod.mk.injEq]
  constructor
  · rintro ⟨⟨left,right⟩,split,_,read,rfl,rfl⟩
    obtain ⟨whole,free⟩ := Line.equalsFound.mp split
    exact ⟨left,right,whole,free,rfl,read⟩
  · rintro ⟨left,right,whole,free,rfl,read⟩
    exact ⟨(left,right),Line.equalsFound.mpr ⟨whole,free⟩,x,read,rfl,rfl⟩

theorem bindingsTaken (read : List.Forall₂ Binds arguments pairs) (rest : List String) :
    bindings context (arguments ++ rest) =
      bindings (pairs.foldl (fun b entry => b.bind entry.1 entry.2) context) rest := by
  induction read generalizing context with
  | nil => rfl
  | cons binds _ ih =>
    rw [List.cons_append,bindings,bindingRead.mpr binds]
    exact ih

theorem bindingsFirst (arguments : List String) : (∃ pairs, List.Forall₂ Binds arguments pairs) ∨
    ∃ front argument back pairs, arguments = front ++ argument :: back ∧ List.Forall₂ Binds front pairs ∧
      ∀ pair, ¬ Binds argument pair := by
  induction arguments with
  | nil => exact Or.inl ⟨[],.nil⟩
  | cons argument arguments ih =>
    by_cases readable : ∃ pair, Binds argument pair
    · obtain ⟨pair,binds⟩ := readable
      rcases ih with ⟨pairs,read⟩ | ⟨front,other,back,pairs,rfl,read,bad⟩
      · exact Or.inl ⟨pair :: pairs,.cons binds read⟩
      · exact Or.inr ⟨argument :: front,other,back,pair :: pairs,rfl,.cons binds read,bad⟩
    · exact Or.inr ⟨[],argument,arguments,[],rfl,.nil,not_exists.mp readable⟩

theorem bindingsRead (read : List.Forall₂ Binds arguments pairs) :
    bindings .empty arguments = .ok (Bindings.ofList pairs) := by
  have taken : bindings .empty (arguments ++ []) = .ok (Bindings.ofList pairs) := bindingsTaken read []
  rwa [List.append_nil] at taken

theorem bindingsRefused {back : List String} (read : List.Forall₂ Binds arguments pairs)
    (bad : ∀ pair, ¬ Binds argument pair) : bindings context (arguments ++ argument :: back) = .error argument := by
  rw [bindingsTaken read,bindings,Option.eq_none_iff_forall_ne_some.mpr fun pair => mt bindingRead.mp (bad pair)]

end reading

inductive Answers : List String → Outcome → Prop where
  | unreadable {expression argument : String} {front back : List String} {pairs} (read : List.Forall₂ Binds front pairs)
      (bad : ∀ pair, ¬ Binds argument pair) :
      Answers ("--eval" :: expression :: (front ++ argument :: back))
        ⟨false,⟨[],["Invalid variable format: " ++ argument]⟩⟩
  | value {expression : String} {arguments : List String} {pairs} {t : Expr Float} {values : String → Float}
      (read : List.Forall₂ Binds arguments pairs) (parsed : parse defaultLimit .whole expression = .ok t)
      (bound : ∀ name ∈ t.occurrences, LastPair pairs name (values name)) :
      Answers ("--eval" :: expression :: arguments)
        ⟨true,⟨["Result: " ++ Numeral.display (t.valueAt values)],[]⟩⟩
  | unparsed {expression : String} {arguments : List String} {pairs} {failure : Failure}
      (read : List.Forall₂ Binds arguments pairs)
      (failed : (parse defaultLimit .whole expression : Except Failure (Expr Float)) = .error failure) :
      Answers ("--eval" :: expression :: arguments) ⟨false,⟨[],[failure.headline]⟩⟩
  | unbound {expression name : String} {arguments before behind : List String} {pairs} {t : Expr Float}
      (read : List.Forall₂ Binds arguments pairs) (parsed : parse defaultLimit .whole expression = .ok t)
      (split : t.occurrences = before ++ name :: behind) (bound : ∀ other ∈ before, other ∈ pairs.map Prod.fst)
      (missing : name ∉ pairs.map Prod.fst) :
      Answers ("--eval" :: expression :: arguments)
        ⟨false,⟨[],[(Failure.mk (.unboundVariable name) []).headline]⟩⟩
  | derivative {expression name : String} {further : List String} {t : Expr Float}
      (parsed : parse defaultLimit .whole expression = .ok t) :
      Answers ("--diff" :: expression :: "--by" :: name :: further)
        ⟨true,⟨["Derivative: " ++ (t.derivative name).render],[]⟩⟩
  | underived {expression name : String} {further : List String} {failure : Failure}
      (failed : (parse defaultLimit .whole expression : Except Failure (Expr Float)) = .error failure) :
      Answers ("--diff" :: expression :: "--by" :: name :: further) ⟨false,⟨[],[failure.headline]⟩⟩
  | usage {arguments : List String} (noValue : ∀ expression rest, arguments ≠ "--eval" :: expression :: rest)
      (noDerivative : ∀ expression name rest, arguments ≠ "--diff" :: expression :: "--by" :: name :: rest)
      (noDialogue : arguments ≠ ["--repl"]) : Answers arguments ⟨false,⟨usage,[]⟩⟩

def Outcome.Whole (outcome : Outcome) : Prop :=
  (outcome.succeeds = true ∧ ∃ line, outcome.printed = ⟨[line],[]⟩) ∨
    (outcome.succeeds = false ∧ ((∃ complaint, outcome.printed = ⟨[],[complaint]⟩) ∨ outcome.printed = ⟨usage,[]⟩))

section outcomes
variable {expression argument : String} {arguments front back : List String} {pairs : List (String × Float)}
  {t : Expr Float} {failure : Failure} {outcome : Outcome}

theorem evaluateRefused (read : List.Forall₂ Binds front pairs) (bad : ∀ pair, ¬ Binds argument pair) :
    evaluate expression (front ++ argument :: back) = .failure ("Invalid variable format: " ++ argument) := by
  rw [evaluate,bindingsRefused read bad]

theorem evaluateRead (read : List.Forall₂ Binds arguments pairs)
    (parsed : parse defaultLimit .whole expression = .ok t) {x : Float}
    (computed : t.evaluate (Bindings.ofList pairs) = .ok x) :
    evaluate expression arguments = .success ["Result: " ++ Numeral.display x] := by
  rw [evaluate,bindingsRead read]
  simp only [Shell.textValue.mpr ⟨t,parsed,computed⟩]

theorem evaluateFailed (read : List.Forall₂ Binds arguments pairs)
    (failed : Shell.evaluateText (Bindings.ofList pairs) expression = .error failure) :
    evaluate expression arguments = .failure failure.headline := by
  rw [evaluate,bindingsRead read]
  simp only [failed]

theorem evaluateUnread (read : List.Forall₂ Binds arguments pairs)
    (failed : (parse defaultLimit .whole expression : Except Failure (Expr Float)) = .error failure) :
    evaluate expression arguments = .failure failure.headline :=
  evaluateFailed read (by rw [Shell.evaluateText,failed]; rfl)

theorem evaluateLacking {name : String} (read : List.Forall₂ Binds arguments pairs)
    (parsed : parse defaultLimit .whole expression = .ok t)
    (first : t.occurrences.find? (Bindings.ofList pairs).lacks = some name) :
    evaluate expression arguments = .failure (Failure.mk (.unboundVariable name) []).headline :=
  evaluateFailed read (by rw [Shell.evaluateText,parsed]; exact evaluateUnbound first)

theorem evaluateAnswers (read : List.Forall₂ Binds arguments pairs)
    (parsed : parse defaultLimit .whole expression = .ok t) :
    Answers ("--eval" :: expression :: arguments) (evaluate expression arguments) := by
  cases first : t.occurrences.find? (Bindings.ofList pairs).lacks with
  | none =>
    let values (name : String) : Float := ((Bindings.ofList pairs).value? name).getD 0
    have found (name : String) (member : name ∈ t.occurrences) :
        (Bindings.ofList pairs).value? name = some (values name) := by
      obtain ⟨x,here⟩ := Option.isSome_iff_exists.mp (lacksNone.mp first name member)
      simp only [values,here,Option.getD_some]
    rw [evaluateRead read parsed (evaluateAt found)]
    exact .value read parsed fun name member => lastValue.mp (found name member)
  | some name =>
    obtain ⟨before,behind,split,bound,lacking⟩ := lacksFirst.mp first
    have missing : name ∉ pairs.map Prod.fst := by
      rw [← pairedName,lacking]
      exact Bool.noConfusion
    rw [evaluateLacking read parsed first]
    exact .unbound read parsed split (fun other member => pairedName.mp (bound other member)) missing

theorem requestOther (noValue : ∀ expression rest, arguments ≠ "--eval" :: expression :: rest)
    (noDerivative : ∀ expression name rest, arguments ≠ "--diff" :: expression :: "--by" :: name :: rest)
    (noDialogue : arguments ≠ ["--repl"]) : Request.ofArguments arguments = .usage := by
  unfold Request.ofArguments
  split
  · exact absurd rfl (noValue _ _)
  · exact absurd rfl (noDerivative _ _ _)
  · exact absurd rfl noDialogue
  · rfl

theorem runAnswers (input : List String) (noDialogue : arguments ≠ ["--repl"]) :
    Answers arguments (run arguments input) := by
  by_cases value : ∃ expression rest, arguments = "--eval" :: expression :: rest
  · obtain ⟨expression,rest,rfl⟩ := value
    change Answers _ (evaluate expression rest)
    rcases bindingsFirst rest with ⟨pairs,read⟩ | ⟨front,argument,back,pairs,rfl,read,bad⟩
    · cases parsed : (parse defaultLimit .whole expression : Except Failure (Expr Float)) with
      | ok t => exact evaluateAnswers read parsed
      | error failure =>
        rw [evaluateUnread read parsed]
        exact .unparsed read parsed
    · rw [evaluateRefused read bad]
      exact .unreadable read bad
  by_cases derivative : ∃ expression name rest, arguments = "--diff" :: expression :: "--by" :: name :: rest
  · obtain ⟨expression,name,rest,rfl⟩ := derivative
    change Answers _ (CommandLine.derivative expression name)
    unfold CommandLine.derivative
    cases parsed : (parse defaultLimit .whole expression : Except Failure (Expr Float)) with
    | ok t => exact .derivative parsed
    | error failure => exact .underived parsed
  · have noValue (expression : String) (rest : List String) (same : arguments = "--eval" :: expression :: rest) : False :=
      value ⟨expression,rest,same⟩
    have noDerivative (expression name : String) (rest : List String)
        (same : arguments = "--diff" :: expression :: "--by" :: name :: rest) : False :=
      derivative ⟨expression,name,rest,same⟩
    rw [run,requestOther noValue noDerivative noDialogue]
    exact .usage noValue noDerivative noDialogue

theorem answersRun (input : List String) (answers : Answers arguments outcome) : run arguments input = outcome := by
  cases answers with
  | unreadable read bad => exact evaluateRefused read bad
  | value read parsed bound =>
    exact evaluateRead read parsed (evaluateAt fun name member => lastValue.mpr (bound name member))
  | unparsed read failed => exact evaluateUnread read failed
  | @unbound expression name arguments before behind pairs t read parsed split bound missing =>
    have first : t.occurrences.find? (Bindings.ofList pairs).lacks = some name := by
      refine lacksFirst.mpr ⟨before,behind,split,fun other member => pairedName.mpr (bound other member),?_⟩
      exact Option.not_isSome_iff_eq_none.mp (mt pairedName.mp missing)
    exact evaluateLacking read parsed first
  | @derivative expression name further t parsed =>
    change CommandLine.derivative expression name = _
    rw [CommandLine.derivative,parsed]
    rfl
  | @underived expression name further failure failed =>
    change CommandLine.derivative expression name = _
    rw [CommandLine.derivative,failed]
    rfl
  | usage noValue noDerivative noDialogue => rw [run,requestOther noValue noDerivative noDialogue]

theorem answersWhole (answers : Answers arguments outcome) : outcome.Whole := by
  cases answers with
  | value read parsed bound => exact Or.inl ⟨rfl,_,rfl⟩
  | derivative parsed => exact Or.inl ⟨rfl,_,rfl⟩
  | usage noValue noDerivative noDialogue => exact Or.inr ⟨rfl,Or.inr rfl⟩
  | _ => exact Or.inr ⟨rfl,Or.inl ⟨_,rfl⟩⟩

end outcomes

/-- The arguments decide the outcome, whatever stands in the input. Every list of them but the one that asks for a
dialogue has exactly one. An argument that sets no name to a number is complained of before anything else, and the
first such argument it is; then an expression that cannot be read; then the leftmost variable that no argument sets.
If there is none of these, the value is printed in which each name stands for the number that it was set to last. A
derivative needs no more than an expression that can be read, and all else gets the usage. -/
theorem outcomeDetermined (arguments input : List String) (noDialogue : arguments ≠ ["--repl"]) :
    (∀ outcome, run arguments input = outcome ↔ Answers arguments outcome) ∧ (run arguments input).Whole := by
  have answers := runAnswers input noDialogue
  exact ⟨fun outcome => ⟨fun same => same ▸ answers,answersRun input⟩,answersWhole answers⟩

theorem outcomeDeterminedLast :
    ["--eval","y-x","x=1","y=0.5","x = 3"] ≠ ["--repl"] ∧
    Answers ["--eval","y-x","x=1","y=0.5","x = 3"] ⟨true,⟨["Result: -2.5"],[]⟩⟩ ∧
    run ["--eval",")","x=1","y","z="] [] = ⟨false,⟨[],["Invalid variable format: y"]⟩⟩ := by
  have computed : run ["--eval","y-x","x=1","y=0.5","x = 3"] [] = ⟨true,⟨["Result: -2.5"],[]⟩⟩ := by decide +kernel
  have read : List.Forall₂ Binds ["x=1"] [("x",1)] :=
    .cons ⟨['x'],['1'],rfl,by decide,by decide,by decide +kernel⟩ .nil
  have bad (pair : String × Float) : ¬ Binds "y" pair := by
    rintro ⟨left,right,whole,_⟩
    have member : '=' ∈ "y".toList := whole ▸ List.mem_append_right left List.mem_cons_self
    revert member
    decide
  have refused : Answers ["--eval",")","x=1","y","z="] ⟨false,⟨[],["Invalid variable format: " ++ "y"]⟩⟩ :=
    .unreadable read bad
  exact ⟨by decide,((outcomeDetermined _ [] (by decide)).1 _).mp computed,
    ((outcomeDetermined _ [] (by decide)).1 _).mpr refused⟩

end CommandLine
end SymbolicCalculus
