import Mathlib.Data.List.DropRight
import SymbolicCalculus.Proofs.Lexing
import SymbolicCalculus.Shell

/-! The form of an assignment: a name, the first equals sign of the line and an expression, with white space
around each of them. A line is taken as an assignment exactly when it has this form. -/
namespace SymbolicCalculus

namespace Line
variable {left right cs : List Char} {c : Char}

theorem trimStartAround (left right : List Char) (seen : isWhite c = false) :
    trimStart (left ++ c :: right) = trimStart left ++ c :: right := by
  unfold trimStart
  rw [List.dropWhile_append]
  split
  · rename_i none
    simp [List.isEmpty_iff.mp none,seen]
  · rfl

theorem trimEndAround (left right : List Char) (seen : isWhite c = false) :
    trimEnd (left ++ c :: right) = left ++ c :: trimEnd right := by
  have turned := trimStartAround right.reverse left.reverse seen
  unfold trimStart at turned
  simp [trimEnd,turned]

theorem trimAround (left right : List Char) (seen : isWhite c = false) :
    trim (left ++ c :: right) = trimStart left ++ c :: trimEnd right := by
  rw [trim,trimStartAround left right seen,trimEndAround _ right seen]

theorem trimStartWhite (blank : ∀ c ∈ cs, isWhite c = true) : trimStart cs = [] := List.dropWhile_eq_nil_iff.mpr blank

theorem trimEndWhite (blank : ∀ c ∈ cs, isWhite c = true) : trimEnd cs = [] := List.rdropWhile_eq_nil_iff.mpr blank

theorem trimTrimStart (cs : List Char) : trim (trimStart cs) = trim cs := by
  unfold trim trimStart
  rw [List.dropWhile_idempotent]

theorem trimTrimEnd (cs : List Char) : trim (trimEnd cs) = trim cs := by
  by_cases blank : ∀ c ∈ cs, isWhite c = true
  · rw [trimEndWhite blank,trim,trim,trimStartWhite blank]
    rfl
  · push Not at blank
    obtain ⟨c,member,white⟩ := blank
    have seen : isWhite c = false := by simpa using white
    obtain ⟨left,right,rfl⟩ := List.append_of_mem member
    rw [trimEndAround left right seen,trimAround left _ seen,trimAround left right seen]
    exact congrArg (trimStart left ++ c :: ·) (List.rdropWhile_idempotent isWhite right)

theorem trimHead {c : Char} {tail : List Char} (trimmed : trim cs = c :: tail) : (trimStart cs).head? = some c := by
  obtain ⟨behind,whole⟩ := List.rdropWhile_prefix isWhite (trimStart cs)
  have same : (trimStart cs).rdropWhile isWhite = c :: tail := trimmed
  rw [← whole,same]
  rfl

theorem splitAt? {separates : Char → Bool} {front back : List Char} (free : ∀ d ∈ front, separates d = false)
    (here : separates c = true) : splitOnce? separates (front ++ c :: back) = some (front,back) := by
  have goes : ∀ d ∈ front, (!separates d) = true := fun d member => by simp [free d member]
  have ends : ∀ d ∈ (c :: back).head?, (!separates d) = false := fun d head => by cases head; simp [here]
  obtain ⟨taken,left⟩ := spanEnds goes ends
  unfold splitOnce?
  rw [left,taken]

theorem splitNone {separates : Char → Bool} (free : ∀ d ∈ cs, separates d = false) :
    splitOnce? separates cs = none := by
  unfold splitOnce?
  rw [(spanWhole (p := fun d => !separates d) (fun d member => by simp [free d member])).2]

theorem equalsApart (free : '=' ∉ cs) : ∀ d ∈ cs, (d == '=') = false :=
  fun _ member => beq_eq_false_iff_ne.mpr fun same => free (same ▸ member)

theorem equalsNone (free : '=' ∉ cs) : splitOnce? (· == '=') cs = none := splitNone (equalsApart free)

theorem equalsFound : splitOnce? (· == '=') cs = some (left,right) ↔ cs = left ++ '=' :: right ∧ '=' ∉ left := by
  constructor
  · intro split
    by_cases member : '=' ∈ cs
    · obtain ⟨front,back,rfl,free⟩ := List.eq_append_cons_of_mem member
      cases (splitAt? (equalsApart free) rfl).symm.trans split
      exact ⟨rfl,free⟩
    · cases (equalsNone member).symm.trans split
  · rintro ⟨rfl,free⟩
    exact splitAt? (equalsApart free) rfl

end Line

namespace Shell
open Line

theorem identifierName {cs : List Char} : isIdentifier cs = true ↔ IsName (String.ofList cs) := by
  unfold IsName
  rw [String.toList_ofList]
  cases cs with
  | nil => simp [isIdentifier]
  | cons c rest => simp [isIdentifier]

theorem namedFound {cs : List Char} {command : String → Command} {made : Command} :
    named cs command = .ok made ↔ IsName (String.ofList cs) ∧ command (String.ofList cs) = made := by
  unfold named
  split
  · rename_i valid
    simp [identifierName.mp valid]
  · rename_i other
    simp [mt identifierName.mpr other]

def Assigns (line : List Char) (name text : String) : Prop :=
  ∃ left right, line = left ++ '=' :: right ∧ '=' ∉ left ∧ trim left = name.toList ∧ IsName name ∧
    trim right = text.toList

theorem plainLine {cs : List Char} (plain : cs.head? ≠ some ':') :
    Command.ofLine cs = match splitOnce? (· == '=') cs with
      | some (name,expression) => named (trim name) (.assign · (String.ofList (trim expression)))
      | none => .ok (.evaluate (String.ofList cs)) := by
  have noPrefix : ":diff".toList.isPrefixOf? cs = none := by
    cases cs with
    | nil => rfl
    | cons c rest =>
      have other : (':' == c) = false := by
        rw [beq_eq_false_iff_ne]
        intro same
        exact plain (same ▸ rfl)
      simp [List.isPrefixOf?,other]
  have noListing : cs ≠ ":vars".toList := by
    intro same
    subst same
    exact plain rfl
  unfold Command.ofLine
  rw [if_neg noListing,noPrefix]
  exact if_neg plain

theorem colonLine {cs : List Char} (colon : cs.head? = some ':') (name text : String) :
    Command.ofLine cs ≠ .ok (.assign name text) := by
  intro made
  unfold Command.ofLine at made
  split at made
  · cases made
  split at made
  · split at made
    · cases (namedFound.mp made).2
    · cases made
  · cases made

theorem nameVisible {c : Char} (part : isNameChar c = true) : c ≠ ':' ∧ c ≠ '=' := by
  constructor <;> (intro same; subst same; revert part; decide)

theorem nameHead {name : String} (valid : IsName name) : ∃ c tail, name.toList = c :: tail ∧ c ≠ ':' := by
  obtain ⟨c,tail,spelled,letter,_⟩ := valid
  refine ⟨c,tail,spelled,(nameVisible ?_).1⟩
  simp [isNameChar,Char.isAlphanum,letter]

theorem equalsSplit {left : List Char} (free : '=' ∉ left) (right : List Char) :
    trim (left ++ '=' :: right) = trimStart left ++ '=' :: trimEnd right ∧
      splitOnce? (· == '=') (trim (left ++ '=' :: right)) = some (trimStart left,trimEnd right) := by
  have around := trimAround left right (c := '=') rfl
  refine ⟨around,?_⟩
  exact equalsFound.mpr ⟨around,fun member => free ((List.dropWhile_suffix isWhite).subset member)⟩

theorem assignRead {line : List Char} {name text : String} :
    Command.ofLine (trim line) = .ok (.assign name text) ↔ Assigns line name text := by
  constructor
  · intro made
    have plain : (trim line).head? ≠ some ':' := fun colon => colonLine colon name text made
    rw [plainLine plain] at made
    by_cases member : '=' ∈ line
    · obtain ⟨left,right,rfl,free⟩ := List.eq_append_cons_of_mem member
      rw [(equalsSplit free _).2] at made
      obtain ⟨valid,same⟩ := namedFound.mp made
      rw [trimTrimStart] at valid same
      obtain ⟨named,texts⟩ := Command.assign.inj same
      refine ⟨left,right,rfl,free,by rw [← named,String.toList_ofList],named ▸ valid,?_⟩
      rw [← trimTrimEnd right,← texts,String.toList_ofList]
    · have free : '=' ∉ trim line := fun inside =>
        member ((List.dropWhile_suffix isWhite).subset ((List.rdropWhile_prefix isWhite _).subset inside))
      rw [equalsNone free] at made
      cases made
  · intro assigns
    obtain ⟨left,right,rfl,free,front,valid,back⟩ := assigns
    obtain ⟨c,tail,spelled,colon⟩ := nameHead valid
    obtain ⟨around,split⟩ := equalsSplit free right
    have head : (trimStart left).head? = some c := trimHead (front.trans spelled)
    have plain : (trim (left ++ '=' :: right)).head? ≠ some ':' := by
      rw [around,List.head?_append,head]
      simpa using colon
    rw [plainLine plain,split]
    refine namedFound.mpr ?_
    rw [trimTrimStart,trimTrimEnd,front,back,String.ofList_toList,String.ofList_toList]
    exact ⟨valid,rfl⟩

theorem nameRead {name : String} (valid : IsName name) : Command.ofLine name.toList = .ok (.evaluate name) := by
  obtain ⟨c,tail,spelled,colon⟩ := nameHead valid
  have plain : name.toList.head? ≠ some ':' := by
    rw [spelled]
    simpa using colon
  have free : '=' ∉ name.toList := fun member => (nameVisible (nameFree valid '=' member)).2 rfl
  rw [plainLine plain,equalsNone free,String.ofList_toList]

end Shell
end SymbolicCalculus
