import SymbolicCalculus.Proofs.Places
import SymbolicCalculus.Proofs.Snapshots
import SymbolicCalculus.Proofs.Watching

/-! The argument of a function is begun at its parenthesis and nowhere else. A lexer makes a name a function only where
this parenthesis is the next item, and a parser takes nothing between the two. -/
namespace SymbolicCalculus

theorem blameExpects {α : Type} [Numeral α] {limit : Nat} {r : Remaining} {failure : Failure}
    (blame : Grammar.Blame α limit r failure) (found : String) : failure.cause ≠ .unexpectedToken "`(`" found := by
  cases blame with
  | @literal _ _ fault => cases fault <;> simp [Grammar.literalCause]
  | _ => simp

section lexer
variable {text : String} {name : String} {span : Span}

theorem resultFunction {item : Item} (function : item.result = .ok ⟨.function name,span⟩) :
    item = ⟨.token (.function name),span⟩ := by
  obtain ⟨⟨t⟩ | ⟨c⟩,place⟩ := item <;> cases function
  rfl

theorem resultsOpened {index : Nat} (function : (itemResults text)[index]? = some (.ok ⟨.function name,span⟩)) :
    (itemResults text)[index + 1]? = some (.ok ⟨.leftParen,⟨span.stop,span.stop + 1⟩⟩) := by
  rw [itemResults,List.getElem?_map] at function ⊢
  obtain ⟨item,here,same⟩ := Option.map_eq_some_iff.mp function
  obtain rfl := resultFunction same
  obtain ⟨inside,first⟩ := List.getElem?_eq_some_iff.mp here
  have split := List.take_append_drop index (Cursor.ofText text).items
  rw [List.drop_eq_getElem_cons inside,first] at split
  obtain ⟨tail,behind⟩ := itemsFunction split.symm
  rw [← List.head?_drop,behind]
  rfl

theorem functionAnswered {index : Nat} {move : Move LexerCall}
    (answered : answerAt text (itemResults text) index move = some (.found (.ok ⟨.function name,span⟩))) :
    (itemResults text)[index]? = some (.ok ⟨.function name,span⟩) ∧
      ∀ count saved, (Bookmark.after count ⟨index,saved⟩ move).index = min (index + 1) count := by
  cases move with
  | call request =>
    cases request with
    | source => cases answered
    | nextToken | iterate =>
      cases here : (itemResults text)[index]? with
      | none => simp [answerAt,here,endToken] at answered
      | some result =>
        simp only [answerAt,here] at answered
        cases answered
        exact ⟨rfl,fun _ _ => rfl⟩
  | save => cases answered
  | restore => cases answered

theorem functionThenOpening {moves : List (Move LexerCall)} {k : Nat} {request : LexerCall}
    (found : (lexerReplay text moves)[k]? = some (some (.found (.ok ⟨.function name,span⟩))))
    (asked : moves[k + 1]? = some (.call request)) (item : request ≠ .source) :
    (lexerReplay text moves)[k + 1]? = some (some (.found (.ok ⟨.leftParen,⟨span.stop,span.stop + 1⟩⟩))) := by
  let mark (i : Nat) := Bookmark.afterAll (itemResults text).length ⟨0,0⟩ (moves.take i)
  have start := standsStart text
  have answers (i : Nat) : (lexerReplay text moves)[i]? =
      moves[i]?.map (answerAt text (itemResults text) (mark i).index) := replayStands moves start start i
  rw [answers] at found ⊢
  obtain ⟨move,here,function⟩ := Option.map_eq_some_iff.mp found
  obtain ⟨present,moved⟩ := functionAnswered function
  have next := resultsOpened present
  have within : (mark k).index + 1 < (itemResults text).length := (List.getElem?_eq_some_iff.mp next).1
  have behind : (mark (k + 1)).index = (mark k).index + 1 := by
    simp only [mark,List.take_add_one,here,Bookmark.afterAll,List.foldl_append]
    exact (moved _ _).trans (Nat.min_eq_left (Nat.le_of_lt within))
  rw [asked,behind]
  cases request with
  | source => exact absurd rfl item
  | nextToken | iterate => simp only [Option.map_some,answerAt,next,Option.getD_some]

end lexer

/-- The argument of a function is begun at its parenthesis and nowhere else. Whatever a parser is asked for, over
whatever numbers, watching it changes no reply and leaves it where it is; and each time it has begun the argument of a
function, that function was the token taken last, and an opening parenthesis that begins where it ends came next. So it
is never replied that this parenthesis was expected. A lexer that has answered with a function answers with this
parenthesis when it is asked for the next item, whatever was asked for, saved or gone back to before. -/
theorem argumentsOpened (limit : Nat) (text : String) (queries : List Query) :
    let watched := (Watched.ofText text).session limit text queries
    (watched.1 = (Parser.ofText text).replies limit text queries ∧
      watched.2.parser = (Parser.ofText text).used limit text queries) ∧
    (∀ entry ∈ watched.2.entries, entry.Opened) ∧
    (∀ reply ∈ (Parser.ofText text).replies limit text queries, ∀ found spans,
      reply.2 ≠ .failed ⟨.unexpectedToken "`(`" found,spans⟩) ∧
    ∀ (moves : List (Move LexerCall)) (k : Nat) (request : LexerCall) (name : String) (span : Span),
      (lexerReplay text moves)[k]? = some (some (.found (.ok ⟨.function name,span⟩))) →
      moves[k + 1]? = some (.call request) → request ≠ .source →
      (lexerReplay text moves)[k + 1]? = some (some (.found (.ok ⟨.leftParen,⟨span.stop,span.stop + 1⟩⟩))) := by
  intro watched
  obtain ⟨replies,used,sound⟩ := sessionWatched limit text queries (soundFresh text)
  have blamed := repliesBlamed limit blameExpects queries (freshAlong text)
  refine ⟨⟨replies,used⟩,sound.entered,fun reply member found spans failed => ?_,?_⟩
  · exact blamed reply member _ failed found rfl
  · exact fun moves k request name span found asked item => functionThenOpening found asked item

theorem argumentsOpenedNested :
    let text := "$ln(-exp(y)"
    let queries : List Query := [⟨Float,inferInstance,.parse .first⟩,⟨Float,inferInstance,.peek⟩,
      ⟨Float,inferInstance,.parse .whole⟩]
    let inner : Entry := ⟨some ⟨.function "exp",⟨5,8⟩⟩,⟨⟨"(y)".toList,8⟩,none,3⟩⟩
    let moves : List (Move LexerCall) := [.call .nextToken,.call .nextToken,.call .iterate]
    inner ∈ ((Watched.ofText text).session 3 text queries).2.entries ∧ inner.Opened ∧
    (lexerReplay text moves)[1]? = some (some (.found (.ok ⟨.function "ln",⟨1,3⟩⟩))) ∧
    (lexerReplay text moves)[2]? = some (some (.found (.ok ⟨.leftParen,⟨3,4⟩⟩))) := by
  intro text queries inner moves
  have noted : inner ∈ ((Watched.ofText text).session 3 text queries).2.entries := by decide +kernel +revert
  have answered : (lexerReplay text moves)[1]? = some (some (.found (.ok ⟨.function "ln",⟨1,3⟩⟩))) := by cbv
  obtain ⟨_,entered,_,lexed⟩ := argumentsOpened 3 text queries
  exact ⟨noted,entered inner noted,answered,lexed moves 1 .iterate "ln" ⟨1,3⟩ answered rfl (by decide)⟩

end SymbolicCalculus
