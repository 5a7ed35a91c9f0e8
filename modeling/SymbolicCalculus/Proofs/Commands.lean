import SymbolicCalculus.Proofs.Assignments

/-! The forms of a line, one for each command. A command that begins with a colon is told by the first word of its
line, except that the name behind the word for a derivative need not be set off from it. -/
namespace SymbolicCalculus

namespace Line
variable {line front back : List Char}

def firstWord (cs : List Char) : List Char := (trimStart cs).takeWhile (!isWhite ·)

def behindWord (cs : List Char) : List Char := (trimStart cs).dropWhile (!isWhite ·)

theorem wordThenRest (cs : List Char) : firstWord cs ++ behindWord cs = trimStart cs := List.takeWhile_append_dropWhile

theorem wordSplit (cs : List Char) : splitOnce? isWhite (trimStart cs) =
    if behindWord cs = [] then none else some (firstWord cs,(behindWord cs).tail) := by
  unfold splitOnce? behindWord
  cases (trimStart cs).dropWhile (!isWhite ·) <;> rfl

theorem behindWhite {cs : List Char} : trim (behindWord cs).tail = trim (behindWord cs) := by
  cases found : behindWord cs with
  | nil => rfl
  | cons c rest =>
    have white : isWhite c = true := by simpa using runStops (p := (!isWhite ·)) found
    rw [List.tail_cons,trim,trim,trimStart,trimStart,List.dropWhile_cons_of_pos white]

theorem trimBoth (trimmed : trim line = line) : trimStart line = line ∧ trimEnd line = line := by
  have ends : trimStart line <:+ line := List.dropWhile_suffix isWhite
  have starts : trim line <+: trimStart line := List.rdropWhile_prefix isWhite _
  have long : line.length ≤ (trimStart line).length := by
    have short := starts.length_le
    rwa [trimmed] at short
  have whole : trimStart line = line := ends.eq_of_length_le long
  refine ⟨whole,?_⟩
  rw [trim,whole] at trimmed
  exact trimmed

theorem endFilled (trimmed : trim line = line) (ends : back <:+ line) (filled : back ≠ []) : trim back ≠ [] := by
  have last : isWhite (back.getLast filled) = false := by
    have kept : line.rdropWhile isWhite = line := (trimBoth trimmed).2
    have seen := List.rdropWhile_eq_self_iff.mp kept (ends.ne_nil filled)
    rw [ends.getLast filled]
    simpa using seen
  rw [← List.dropLast_append_getLast filled,trimAround _ [] last]
  simp

theorem wordInFront (trimmed : trim line = line) (first : firstWord line = front) :
    line = front ++ behindWord line := by
  rw [← first,wordThenRest,(trimBoth trimmed).1]

theorem behindSuffix (cs : List Char) : behindWord cs <:+ cs :=
  (List.dropWhile_suffix _).trans (List.dropWhile_suffix _)

end Line

namespace Shell
open Line
variable {line rest : List Char}

structure Asks (cs : List Char) (name text : String) : Prop where
  word : firstWord cs = name.toList
  valid : IsName name
  behind : trim (behindWord cs) = text.toList
  filled : text ≠ ""

/- The documented form of a line that asks for a derivative. -/
def Derives (line : List Char) (name text : String) : Prop :=
  firstWord line = ":diff".toList ∧ Asks (behindWord line) name text

theorem derivativeLine (rest : List Char) : Command.ofLine (":diff".toList ++ rest) =
    if behindWord rest = [] then .error .usage
    else named (firstWord rest) (.derivative · (String.ofList (trim (behindWord rest)))) := by
  have other : ":diff".toList ++ rest ≠ ":vars".toList := by simp
  have behind : ":diff".toList.isPrefixOf? (":diff".toList ++ rest) = some rest :=
    List.isPrefixOf?_eq_some_iff_append_eq.mpr rfl
  unfold Command.ofLine
  rw [if_neg other,behind]
  dsimp only
  rw [wordSplit]
  by_cases none : behindWord rest = []
  · rw [if_pos none,if_pos none]
  · rw [if_neg none,if_neg none]
    dsimp only
    rw [behindWhite]

theorem unknownLine (colon : line.head? = some ':') (other : line ≠ ":vars".toList)
    (free : ¬ ":diff".toList <+: line) : Command.ofLine line = .error (.unknownCommand (String.ofList line)) := by
  have noPrefix : ":diff".toList.isPrefixOf? line = none := by
    cases found : ":diff".toList.isPrefixOf? line with
    | none => rfl
    | some rest => exact absurd ⟨rest,List.isPrefixOf?_eq_some_iff_append_eq.mp found⟩ free
  unfold Command.ofLine
  rw [if_neg other,noPrefix]
  exact if_pos colon

theorem commandMade {command : Command} (made : Command.ofLine line = .ok command) : match command with
    | .listing => line = ":vars".toList
    | .derivative _ _ => ":diff".toList <+: line
    | .assign _ _ | .evaluate _ => line.head? ≠ some ':' := by
  unfold Command.ofLine at made
  split at made
  · cases made
    assumption
  split at made
  · rename_i rest found
    split at made
    · cases (namedFound.mp made).2
      exact ⟨rest,List.isPrefixOf?_eq_some_iff_append_eq.mp found⟩
    · cases made
  split at made
  · cases made
  rename_i plain
  split at made
  · cases (namedFound.mp made).2
    exact plain
  · cases made
    exact plain

theorem derivativeFound (trimmed : trim line = line) {name text : String} :
    Command.ofLine line = .ok (.derivative name text) ↔
      ∃ rest, line = ":diff".toList ++ rest ∧ Asks rest name text := by
  constructor
  · intro made
    obtain ⟨rest,rfl⟩ := commandMade made
    rw [derivativeLine] at made
    split at made
    · cases made
    rename_i filled
    obtain ⟨valid,same⟩ := namedFound.mp made
    obtain ⟨named,texts⟩ := Command.derivative.inj same
    have behind : trim (behindWord rest) = text.toList := by rw [← texts,String.toList_ofList]
    have some := endFilled trimmed ((behindSuffix rest).trans (List.suffix_append _ rest)) filled
    refine ⟨rest,rfl,by rw [← named,String.toList_ofList],named ▸ valid,behind,fun empty => ?_⟩
    rw [behind,empty] at some
    exact some rfl
  · rintro ⟨rest,rfl,asks⟩
    have filled : behindWord rest ≠ [] := by
      intro none
      have behind := asks.behind
      rw [none] at behind
      exact asks.filled (String.toList_eq_nil_iff.mp behind.symm)
    rw [derivativeLine,if_neg filled]
    refine namedFound.mpr ?_
    rw [asks.word,asks.behind,String.ofList_toList,String.ofList_toList]
    exact ⟨asks.valid,rfl⟩

theorem derivativeSetOff (trimmed : trim line = line)
    (apart : ":diff".toList <+: line → firstWord line = ":diff".toList) {name text : String} :
    Command.ofLine line = .ok (.derivative name text) ↔ Derives line name text := by
  rw [derivativeFound trimmed]
  constructor
  · rintro ⟨rest,whole,asks⟩
    have first := apart ⟨rest,whole.symm⟩
    have same := List.append_cancel_left (whole.symm.trans (wordInFront trimmed first))
    exact ⟨first,same ▸ asks⟩
  · rintro ⟨first,asks⟩
    exact ⟨behindWord line,wordInFront trimmed first,asks⟩

def Misused (line : List Char) : Misuse → Prop
  | .usage => ∃ rest, line = ":diff".toList ++ rest ∧ behindWord rest = []
  | .invalidName name => ∃ rest, line = ":diff".toList ++ rest ∧ behindWord rest ≠ [] ∧
      firstWord rest = name.toList ∧ ¬ IsName name
  | .unknownCommand text => ¬ ":diff".toList <+: line ∧ text = String.ofList line

theorem colonRefused (colon : line.head? = some ':') (other : line ≠ ":vars".toList)
    (none : ∀ name text, Command.ofLine line ≠ .ok (.derivative name text)) :
    ∃ misuse, Command.ofLine line = .error misuse ∧ Misused line misuse := by
  by_cases prefixed : ":diff".toList <+: line
  · obtain ⟨rest,rfl⟩ := prefixed
    have read := derivativeLine rest
    split at read
    · rename_i empty
      exact ⟨_,read,rest,rfl,empty⟩
    · rename_i filled
      unfold named at read
      split at read
      · exact absurd read (none _ _)
      · rename_i invalid
        exact ⟨_,read,rest,rfl,filled,by rw [String.toList_ofList],mt identifierName.mpr invalid⟩
  · exact ⟨_,unknownLine colon other prefixed,prefixed,rfl⟩

theorem equalsLine {left right : List Char} (plain : line.head? ≠ some ':') (whole : line = left ++ '=' :: right)
    (free : '=' ∉ left) : Command.ofLine line = named (trim left) (.assign · (String.ofList (trim right))) := by
  rw [plainLine plain,equalsFound.mpr ⟨whole,free⟩]

theorem expressionLine (plain : line.head? ≠ some ':') (free : '=' ∉ line) :
    Command.ofLine line = .ok (.evaluate (String.ofList line)) := by rw [plainLine plain,equalsNone free]

/-- Each line without white space around it is taken for what its form says. It asks for the bindings if it is that word
and nothing else. It asks for a derivative if behind the characters of that command stand a name and, set off from the
name, an expression; on lines whose first word does not run on behind these characters, this is the documented form. All
other lines that begin with a colon are misuses of one of three kinds. Of what begins otherwise, a line with an equals
sign is an assignment to the text before the first one, or refused where this is no name, and the rest is evaluated. -/
theorem commandsRead {line : List Char} (trimmed : trim line = line) :
    (Command.ofLine line = .ok .listing ↔ line = ":vars".toList) ∧
    (∀ name text, Command.ofLine line = .ok (.derivative name text) ↔
      ∃ rest, line = ":diff".toList ++ rest ∧ Asks rest name text) ∧
    ((":diff".toList <+: line → firstWord line = ":diff".toList) → ∀ name text,
      Command.ofLine line = .ok (.derivative name text) ↔ Derives line name text) ∧
    (line.head? = some ':' → line ≠ ":vars".toList →
      (∀ name text, Command.ofLine line ≠ .ok (.derivative name text)) →
      ∃ misuse, Command.ofLine line = .error misuse ∧ Misused line misuse) ∧
    (line.head? ≠ some ':' → ∀ left right, line = left ++ '=' :: right → '=' ∉ left →
      (IsName (String.ofList (trim left)) → Command.ofLine line =
        .ok (.assign (String.ofList (trim left)) (String.ofList (trim right)))) ∧
      (¬ IsName (String.ofList (trim left)) → Command.ofLine line =
        .error (.invalidName (String.ofList (trim left))))) ∧
    (line.head? ≠ some ':' → '=' ∉ line → Command.ofLine line = .ok (.evaluate (String.ofList line))) := by
  refine ⟨⟨commandMade,fun same => by rw [same]; rfl⟩,fun _ _ => derivativeFound trimmed,
    fun apart _ _ => derivativeSetOff trimmed apart,colonRefused,fun plain left right whole free => ?_,expressionLine⟩
  have read := equalsLine plain whole free
  refine ⟨fun valid => ?_,fun invalid => ?_⟩
  · rw [read,named,if_pos (identifierName.mpr valid)]
  · rw [read,named,if_neg (mt identifierName.mp invalid)]

theorem commandsReadDerivative : trim ":diff x  x^2 + sin(x)".toList = ":diff x  x^2 + sin(x)".toList ∧
    firstWord ":diff x  x^2 + sin(x)".toList = ":diff".toList ∧
    Derives ":diff x  x^2 + sin(x)".toList "x" "x^2 + sin(x)" ∧
    Command.ofLine ":diff x  x^2 + sin(x)".toList = .ok (.derivative "x" "x^2 + sin(x)") := by
  have trimmed : trim ":diff x  x^2 + sin(x)".toList = ":diff x  x^2 + sin(x)".toList := by decide +kernel
  have first : firstWord ":diff x  x^2 + sin(x)".toList = ":diff".toList := by decide +kernel
  have asks : Asks (behindWord ":diff x  x^2 + sin(x)".toList) "x" "x^2 + sin(x)" :=
    ⟨by decide +kernel,⟨'x',[],rfl,by decide,by simp⟩,by decide +kernel,by decide⟩
  obtain ⟨_,_,documented,_⟩ := commandsRead trimmed
  exact ⟨trimmed,first,⟨first,asks⟩,(documented (fun _ => first) "x" "x^2 + sin(x)").mpr ⟨first,asks⟩⟩

theorem derivativeRunsOn : ¬ ∀ line : List Char, trim line = line → line ≠ [] → ∀ name text,
    Command.ofLine line = .ok (.derivative name text) ↔ Derives line name text := by
  intro documented
  have made : Command.ofLine ":diffx y".toList = .ok (.derivative "x" "y") := by decide +kernel
  have other : firstWord ":diffx y".toList ≠ ":diff".toList := by decide +kernel
  exact other ((documented _ (by decide +kernel) (by simp) "x" "y").mp made).1

end Shell
end SymbolicCalculus
