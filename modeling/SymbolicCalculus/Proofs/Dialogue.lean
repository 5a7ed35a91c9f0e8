import SymbolicCalculus.CommandLine
import SymbolicCalculus.Proofs.Listing
import SymbolicCalculus.Proofs.Rendering

/-! What a dialogue knows. A name is bound by the last line that set it with success, to the value that the
expression had just before that line; no other line changes a binding. What a name stands for can be seen by
its own line, and all of them in the listing. -/
namespace SymbolicCalculus

namespace Shell
open Line
variable {α : Type} [Scalar α] [Numeral α]

theorem textValue {context : Bindings α} {text : String} {value : α} : evaluateText context text = .ok value ↔
    ∃ e, parse defaultLimit .whole text = .ok e ∧ e.evaluate context = .ok value := by
  unfold evaluateText
  cases parse (α := α) defaultLimit .whole text with
  | error failure => simp [bind,Except.bind]
  | ok e => simp [bind,Except.bind]

def Sets (context : Bindings α) (line name : String) (value : α) : Prop :=
  ∃ text e, Assigns line.toList name text ∧ parse defaultLimit .whole text = .ok e ∧ e.evaluate context = .ok value

section step
variable {context : Bindings α} {line name : String} {value : α}

theorem enterBlank (blank : trim line.toList = []) : enter context line = (⟨[],[]⟩,context) := by
  unfold enter
  rw [blank]

theorem enterFilled (filled : trim line.toList ≠ []) : enter context line =
    match Command.ofLine (trim line.toList) with
    | .ok command => execute context command
    | .error misuse => (⟨[],[misuse.message]⟩,context) := by
  unfold enter
  cases left : trim line.toList with
  | nil => exact absurd left filled
  | cons c rest => rfl

theorem enterCommand {command : Command} (made : Command.ofLine (trim line.toList) = .ok command)
    (filled : trim line.toList ≠ []) : enter context line = execute context command := by
  rw [enterFilled filled,made]

theorem executeValue {text : String} (found : evaluateText context text = .ok value) :
    execute context (.evaluate text) = (⟨[Numeral.display value],[]⟩,context) := by
  unfold execute
  dsimp only
  rw [found]

theorem executeAssign {text : String} (found : evaluateText context text = .ok value) :
    execute context (.assign name text) = (⟨[bindingText name value],[]⟩,context.bind name value) := by
  unfold execute
  dsimp only
  rw [found]

theorem executeKeeps {command : Command} (idle : ∀ name text, command = .assign name text → ∀ value : α,
    evaluateText context text ≠ .ok value) : (execute context command).2 = context := by
  unfold execute
  cases command with
  | listing => rfl
  | evaluate text =>
    dsimp only
    cases evaluateText context text <;> rfl
  | derivative name text =>
    dsimp only
    cases parse (α := α) defaultLimit .whole text <;> rfl
  | assign name text =>
    dsimp only
    cases found : evaluateText context text with
    | error failure => rfl
    | ok value => exact absurd found (idle name text rfl value)

theorem assignsFilled {text : String} (assigns : Assigns line.toList name text) : trim line.toList ≠ [] := by
  obtain ⟨left,right,same,free,_⟩ := assigns
  rw [same,(equalsSplit free _).1]
  simp

theorem enterSets (sets : Sets context line name value) :
    enter context line = (⟨[bindingText name value],[]⟩,context.bind name value) := by
  obtain ⟨text,e,assigns,read,found⟩ := sets
  rw [enterCommand (assignRead.mpr assigns) (assignsFilled assigns),executeAssign (textValue.mpr ⟨e,read,found⟩)]

theorem enterKeeps (idle : ∀ name value, ¬ Sets context line name value) : (enter context line).2 = context := by
  by_cases blank : trim line.toList = []
  · rw [enterBlank blank]
  rw [enterFilled blank]
  cases made : Command.ofLine (trim line.toList) with
  | error misuse => rfl
  | ok command =>
    refine executeKeeps fun name text assign value found => ?_
    subst assign
    obtain ⟨e,read,evaluates⟩ := textValue.mp found
    exact idle name value ⟨text,e,assignRead.mp made,read,evaluates⟩

theorem setsOnce {other : String} {found : α} (sets : Sets context line name value)
    (again : Sets context line other found) : name = other ∧ value = found := by
  obtain ⟨text,e,assigns,read,evaluates⟩ := sets
  obtain ⟨_,_,reassigns,reread,reevaluates⟩ := again
  cases (assignRead.mpr assigns).symm.trans (assignRead.mpr reassigns)
  cases read.symm.trans reread
  cases evaluates.symm.trans reevaluates
  exact ⟨rfl,rfl⟩

theorem valueAfter : (enter context line).2.value? name = some value ↔ Sets context line name value ∨
    (∀ other, ¬ Sets context line name other) ∧ context.value? name = some value := by
  by_cases busy : ∃ x v, Sets context line x v
  · obtain ⟨x,v,sets⟩ := busy
    rw [enterSets sets,Bindings.valueBind]
    by_cases same : x = name
    · subst same
      rw [if_pos rfl]
      constructor
      · intro found
        exact Or.inl (Option.some.inj found ▸ sets)
      · rintro (again | ⟨none,_⟩)
        · rw [(setsOnce sets again).2]
        · exact absurd sets (none v)
    · rw [if_neg same]
      have other (w : α) : ¬ Sets context line name w := fun again => same (setsOnce sets again).1
      simp [other]
  · have idle (x : String) (v : α) : ¬ Sets context line x v := fun sets => busy ⟨x,v,sets⟩
    simp [enterKeeps idle,idle]

omit [Scalar α] in
theorem nameParses (valid : IsName name) (limit : Nat) : parse limit .whole name = .ok (.var name : Expr α) := by
  have phrase : Grammar.Phrase .expression 0 [.variable name] (.var name : Expr α) :=
    .alone (.single (.base (.named name)))
  have lexes := lexesVariable valid apartNone
  rw [List.append_nil] at lexes
  have read := lexedRead phrase lexes ⟨Nat.zero_le limit,Nat.zero_le limit⟩ .whole
  rwa [String.ofList_toList] at read

theorem nameEvaluates (valid : IsName name) (bound : context.value? name = some value) :
    evaluateText context name = .ok value := by
  refine textValue.mpr ⟨_,nameParses valid defaultLimit,?_⟩
  rw [Expr.evaluate,bound]

theorem enterName (valid : IsName name) (bound : context.value? name = some value)
    (only : trim line.toList = name.toList) : enter context line = (⟨[Numeral.display value],[]⟩,context) := by
  have filled : trim line.toList ≠ [] := by
    obtain ⟨c,tail,spelled,_⟩ := valid
    rw [only,spelled]
    simp
  rw [enterCommand (only ▸ nameRead valid) filled,executeValue (nameEvaluates valid bound)]

theorem enterListing (asks : trim line.toList = ":vars".toList) :
    enter context line = (⟨context.entries.map (fun entry => bindingText entry.1 entry.2),[]⟩,context) := by
  have made : Command.ofLine (trim line.toList) = .ok .listing := by
    rw [asks]
    rfl
  exact enterCommand made (by rw [asks]; decide)

end step

section run

def contextAfter (context : Bindings α) (lines : List String) : Bindings α :=
  lines.foldl (fun b line => (enter b line).2) context

theorem dialogueAt (context : Bindings α) (lines : List String) (k : Nat) : (dialogue context lines)[k]? =
    lines[k]?.map (fun line => (enter (contextAfter context (lines.take k)) line).1) := by
  induction lines generalizing context k with
  | nil => rfl
  | cons line rest ih =>
    cases k with
    | zero => rfl
    | succ k => exact ih (enter context line).2 k

def SetsAt (context : Bindings α) (lines : List String) (k : Nat) (name : String) (value : α) : Prop :=
  ∃ line, lines[k]? = some line ∧ Sets (contextAfter context (lines.take k)) line name value

def Untouched (context : Bindings α) (lines : List String) (name : String) : Prop :=
  ∀ k value, ¬ SetsAt context lines k name value

def SetsLast (context : Bindings α) (lines : List String) (name : String) (value : α) : Prop :=
  ∃ k, SetsAt context lines k name value ∧ ∀ j other, k < j → ¬ SetsAt context lines j name other

variable {context : Bindings α} {line name : String} {lines : List String} {value : α}

theorem setsHead : SetsAt context (line :: lines) 0 name value ↔ Sets context line name value :=
  ⟨fun ⟨_,found,sets⟩ => Option.some.inj found ▸ sets,fun sets => ⟨line,rfl,sets⟩⟩

theorem untouchedCons : Untouched context (line :: lines) name ↔
    (∀ value, ¬ Sets context line name value) ∧ Untouched (enter context line).2 lines name := by
  constructor
  · intro untouched
    exact ⟨fun value sets => untouched 0 value (setsHead.mpr sets),fun k => untouched (k + 1)⟩
  · intro both k value
    cases k with
    | zero => exact fun sets => both.1 value (setsHead.mp sets)
    | succ k => exact both.2 k value

theorem lastCons : SetsLast context (line :: lines) name value ↔
    Sets context line name value ∧ Untouched (enter context line).2 lines name ∨
      SetsLast (enter context line).2 lines name value := by
  constructor
  · rintro ⟨k,sets,last⟩
    cases k with
    | zero => exact Or.inl ⟨setsHead.mp sets,fun j other => last (j + 1) other (Nat.succ_pos j)⟩
    | succ k => exact Or.inr ⟨k,sets,fun j other behind => last (j + 1) other (Nat.succ_lt_succ behind)⟩
  · rintro (⟨sets,untouched⟩ | ⟨k,sets,last⟩)
    · refine ⟨0,setsHead.mpr sets,fun j other behind => ?_⟩
      cases j with
      | zero => exact absurd behind (Nat.lt_irrefl 0)
      | succ j => exact untouched j other
    · refine ⟨k + 1,sets,fun j other behind => ?_⟩
      cases j with
      | zero => exact absurd behind (Nat.not_lt_zero _)
      | succ j => exact last j other (Nat.lt_of_succ_lt_succ behind)

theorem valueLast : (contextAfter context lines).value? name = some value ↔
    SetsLast context lines name value ∨ Untouched context lines name ∧ context.value? name = some value := by
  induction lines generalizing context with
  | nil => simp [contextAfter,SetsLast,SetsAt,Untouched]
  | cons line rest ih =>
    have goesOn : contextAfter context (line :: rest) = contextAfter (enter context line).2 rest := rfl
    rw [goesOn,ih,lastCons,untouchedCons,valueAfter]
    tauto

theorem valueFresh : (contextAfter .empty lines).value? name = some value ↔ SetsLast .empty lines name value := by
  rw [valueLast,Bindings.valueEmpty]
  simp

theorem setsValid {k : Nat} (sets : SetsAt context lines k name value) : IsName name := by
  obtain ⟨_,_,_,_,⟨_,_,_,_,_,valid,_⟩,_⟩ := sets
  exact valid

theorem boundValid (bound : (contextAfter .empty lines).value? name = some value) : IsName name := by
  obtain ⟨_,sets,_⟩ := valueFresh.mp bound
  exact setsValid sets

theorem setsEarly {j k : Nat} (less : j < k) :
    SetsAt context (lines.take k) j name value ↔ SetsAt context lines j name value := by
  unfold SetsAt
  rw [List.getElem?_take_of_lt less,List.take_take,Nat.min_eq_left (Nat.le_of_lt less)]

theorem settingHolds {i k : Nat} (before : i < k) (sets : SetsAt .empty lines i name value)
    (kept : ∀ j (other : α), i < j → j < k → ¬ SetsAt .empty lines j name other) :
    (contextAfter .empty (lines.take k)).value? name = some value := by
  refine valueFresh.mpr ⟨i,(setsEarly before).mpr sets,fun j other behind again => ?_⟩
  have less : j < k := by
    obtain ⟨line,found,_⟩ := again
    by_contra beyond
    rw [List.getElem?_take_eq_none (Nat.le_of_not_lt beyond)] at found
    contradiction
  exact kept j other behind less ((setsEarly less).mp again)

theorem lineKeeps {k : Nat} (idle : ∀ name value, ¬ SetsAt context lines k name value) :
    contextAfter context (lines.take (k + 1)) = contextAfter context (lines.take k) := by
  rw [List.take_add_one]
  cases found : lines[k]? with
  | none => rw [Option.toList_none,List.append_nil]
  | some line =>
    rw [contextAfter,Option.toList_some,List.foldl_append]
    exact enterKeeps (fun name value sets => idle name value ⟨line,found,sets⟩)

end run

/-- The bindings of a dialogue are its successful assignments. Each line is answered in the context that the lines
before it have led to. In the end a name has a value exactly if some line has set it to this value, which its
expression had just there, and no later line has set it; a line that sets no name changes nothing. As long as a
name is not set again, a line with only the name shows the value that was shown when it was set, and a listing
shows all bindings, each name once and in the order of the bytes. The dialogue goes through all of its lines and
succeeds. -/
theorem boundBySetting (lines : List String) :
    let answers : List Printed := dialogue (.empty : Bindings Float) lines
    let context (k : Nat) : Bindings Float := contextAfter .empty (lines.take k)
    (∀ k, answers[k]? = lines[k]?.map (fun line => (enter (context k) line).1)) ∧
    (∀ name (value : Float), (contextAfter .empty lines).value? name = some value ↔
      ∃ k, SetsAt .empty lines k name value ∧ ∀ j (other : Float), k < j → ¬ SetsAt .empty lines j name other) ∧
    (∀ k, (∀ name (value : Float), ¬ SetsAt .empty lines k name value) → context (k + 1) = context k) ∧
    (∀ i k line name (value : Float), i < k → SetsAt .empty lines i name value →
      (∀ j (other : Float), i < j → j < k → ¬ SetsAt .empty lines j name other) →
      lines[k]? = some line → trim line.toList = name.toList →
      answers[i]? = some ⟨[name ++ " = " ++ Numeral.display value],[]⟩ ∧
      answers[k]? = some ⟨[Numeral.display value],[]⟩) ∧
    (∀ k line, lines[k]? = some line → trim line.toList = ":vars".toList → ∃ entries : List (String × Float),
      (∀ name value, (name,value) ∈ entries ↔ (context k).value? name = some value) ∧
      entries.Pairwise (fun a b => bytes a.1 < bytes b.1) ∧
      answers[k]? = some ⟨entries.map (fun entry => entry.1 ++ " = " ++ Numeral.display entry.2),[]⟩) ∧
    CommandLine.run ["--repl"] lines = ⟨true,⟨answers.flatMap (·.out),answers.flatMap (·.err)⟩⟩ := by
  intro answers context
  have answer (k : Nat) : answers[k]? = lines[k]?.map (fun line => (enter (context k) line).1) :=
    dialogueAt .empty lines k
  refine ⟨answer,fun name value => valueFresh,fun k => lineKeeps,?_,?_,rfl⟩
  · intro i k line name value before sets kept found only
    have bound : (context k).value? name = some value := settingHolds before sets kept
    obtain ⟨first,here,setting⟩ := sets
    constructor
    · rw [answer,here,Option.map_some,enterSets setting]
      rfl
    · rw [answer,found,Option.map_some,enterName (boundValid bound) bound only]
  · intro k line found asks
    refine ⟨(context k).entries,entryBound _,?_,?_⟩
    · refine (context k).ordered.imp_of_mem (fun first second below => ?_)
      exact namesBytes (boundValid ((entryBound _ _ _).mp first)) (boundValid ((entryBound _ _ _).mp second)) below
    · rw [answer,found,Option.map_some,enterListing asks]
      rfl

theorem boundAfterListing :
    SetsAt .empty ["x = 2",":vars"," x "] 0 "x" (2.0 : Float) ∧
    (dialogue (.empty : Bindings Float) ["x = 2",":vars"," x "])[0]? = some ⟨["x = 2"],[]⟩ ∧
    (dialogue (.empty : Bindings Float) ["x = 2",":vars"," x "])[2]? = some ⟨["2"],[]⟩ := by
  have valid : IsName "x" := ⟨'x',[],rfl,rfl,by simp⟩
  have assigns : Assigns "x = 2".toList "x" "2" := ⟨['x',' '],[' ','2'],rfl,by decide,by decide,valid,by decide⟩
  have read : parse defaultLimit .whole "2" = .ok (.const (2.0 : Float)) := by decide +kernel
  have sets : SetsAt .empty ["x = 2",":vars"," x "] 0 "x" (2.0 : Float) := ⟨"x = 2",rfl,"2",_,assigns,read,rfl⟩
  have kept (j : Nat) (other : Float) (behind : 0 < j) (before : j < 2) :
      ¬ SetsAt .empty ["x = 2",":vars"," x "] j "x" other := by
    obtain rfl : j = 1 := by omega
    rintro ⟨line,found,_,_,⟨left,right,same,_⟩,_⟩
    cases Option.some.inj found
    have member : '=' ∈ ":vars".toList := same ▸ List.mem_append_right left List.mem_cons_self
    revert member
    decide
  have shown : Numeral.display (2.0 : Float) = "2" := by decide +kernel
  have answered := (boundBySetting _).2.2.2.1 0 2 " x " "x" 2.0 (by decide) sets kept rfl (by decide)
  rw [shown] at answered
  exact ⟨sets,answered⟩

end Shell
end SymbolicCalculus
