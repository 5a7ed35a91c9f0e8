import SymbolicCalculus.Proofs.Partition

/-! A lexer and its saved copy as two indices into one list of items. The next token and the next step of an iteration
come from the same index. What an iteration keeps in mind is true wherever it is restored: it has found the end only
where no items are left. -/
namespace SymbolicCalculus

structure Bookmark where
  index : Nat
  saved : Nat
  deriving DecidableEq, Repr

def Bookmark.after (count : Nat) (mark : Bookmark) : Move LexerCall → Bookmark
  | .call .nextToken => ⟨min (mark.index + 1) count,mark.saved⟩
  | .call .iterate => ⟨min (mark.index + 1) count,mark.saved⟩
  | .call .source => mark
  | .save => ⟨mark.index,mark.index⟩
  | .restore => ⟨mark.saved,mark.saved⟩

def Bookmark.afterAll (count : Nat) (mark : Bookmark) (moves : List (Move LexerCall)) : Bookmark :=
  moves.foldl (Bookmark.after count) mark

def answerAt (text : String) (items : List (Except Failure PlacedToken)) (index : Nat) :
    Move LexerCall → Option LexerAnswer
  | .call .nextToken => some (.found (items[index]?.getD (.ok (endToken text.utf8ByteSize))))
  | .call .iterate => some (match items[index]? with
    | some result => .found result
    | none => .exhausted)
  | .call .source => some (.source text)
  | .save => none
  | .restore => none

def itemResults (text : String) : List (Except Failure PlacedToken) := (Cursor.ofText text).items.map Item.result

section step
variable {text : String} {lexer : Lexer} {index : Nat}

structure Lexer.Stands (text : String) (index : Nat) (lexer : Lexer) : Prop where
  ahead : lexer.cursor.items = (Cursor.ofText text).items.drop index
  within : index ≤ (itemResults text).length
  stop : lexer.cursor.stop = text.utf8ByteSize
  ended : lexer.finished = true → lexer.cursor.next = none

theorem standsStart (text : String) : (Lexer.ofText text).Stands text 0 :=
  ⟨rfl,Nat.zero_le _,stopOfText text,fun ended => by cases ended⟩

theorem standsEnd (here : lexer.Stands text index) (done : lexer.cursor.next = none) :
    (itemResults text)[index]? = none ∧ min (index + 1) (itemResults text).length = index := by
  have none := here.ahead
  rw [itemsAtEnd done] at none
  have passed := List.drop_eq_nil_iff.mp none.symm
  have within := here.within
  rw [itemResults,List.length_map] at within ⊢
  exact ⟨List.getElem?_eq_none (by rwa [List.length_map]),by omega⟩

theorem standsAhead {item : Item} {after : Cursor} (here : lexer.Stands text index)
    (found : lexer.cursor.next = some (item,after)) : lexer.finished = false ∧
      (itemResults text)[index]? = some item.result ∧
      (Lexer.mk after false).Stands text (min (index + 1) (itemResults text).length) := by
  have unfinished : lexer.finished = false := by
    rw [Bool.eq_false_iff]
    intro ended
    cases found.symm.trans (here.ended ended)
  have left := here.ahead
  rw [itemsAhead found] at left
  have first : (Cursor.ofText text).items[index]? = some item := by
    have head := congrArg List.head? left
    rw [List.head?_drop] at head
    exact head.symm
  have inside : index < (itemResults text).length := by
    rw [itemResults,List.length_map]
    exact (List.getElem?_eq_some_iff.mp first).1
  refine ⟨unfinished,by rw [itemResults,List.getElem?_map,first]; rfl,?_⟩
  rw [Nat.min_eq_left inside]
  refine ⟨?_,inside,(nextStop found).trans here.stop,fun ended => by cases ended⟩
  have rest := congrArg List.tail left
  rwa [List.tail_drop] at rest

theorem answerStands {mark : Bookmark} (here : lexer.Stands text mark.index) (request : LexerCall) :
    some (lexerAnswer text request lexer).1 = answerAt text (itemResults text) mark.index (.call request) ∧
      (lexerAnswer text request lexer).2.Stands text
        (mark.after (itemResults text).length (.call request)).index := by
  cases request with
  | source => exact ⟨rfl,here⟩
  | nextToken =>
    cases found : lexer.cursor.next with
    | none =>
      obtain ⟨absent,stays⟩ := standsEnd here found
      simp only [lexerAnswer,answerAt,Bookmark.after,tokenEnd found,absent,stays,here.stop]
      exact ⟨rfl,here⟩
    | some pair =>
      obtain ⟨unfinished,present,there⟩ := standsAhead here found
      simp only [lexerAnswer,answerAt,Bookmark.after,tokenAhead found,present,unfinished]
      exact ⟨rfl,there⟩
  | iterate =>
    cases found : lexer.cursor.next with
    | none =>
      obtain ⟨absent,stays⟩ := standsEnd here found
      simp only [lexerAnswer,answerAt,Bookmark.after,iterateEnd found,absent,stays]
      exact ⟨rfl,here.ahead,here.within,here.stop,fun _ => found⟩
    | some pair =>
      obtain ⟨unfinished,present,there⟩ := standsAhead here found
      simp only [lexerAnswer,answerAt,Bookmark.after,iterateAhead found unfinished,present]
      exact ⟨rfl,there⟩

end step

theorem replayStands {text : String} (moves : List (Move LexerCall)) {now saved : Lexer} {mark : Bookmark}
    (here : now.Stands text mark.index) (there : saved.Stands text mark.saved) (k : Nat) :
    (replay (lexerAnswer text) moves now saved)[k]? = moves[k]?.map
      (answerAt text (itemResults text) (mark.afterAll (itemResults text).length (moves.take k)).index) := by
  induction moves generalizing now saved mark k with
  | nil => rfl
  | cons move moves ih =>
    cases move with
    | call request =>
      obtain ⟨answer,next⟩ := answerStands here request
      cases k with
      | zero => exact congrArg some answer
      | succ k =>
        have kept : (mark.after (itemResults text).length (.call request)).saved = mark.saved := by
          cases request <;> rfl
        exact ih next (kept ▸ there) k
    | save =>
      cases k with
      | zero => rfl
      | succ k =>
        have stays : now.Stands text (mark.after (itemResults text).length .save).index := here
        exact ih stays here k
    | restore =>
      cases k with
      | zero => rfl
      | succ k =>
        have back : saved.Stands text (mark.after (itemResults text).length .restore).index := there
        exact ih back there k

/-- A lexer is one index into one list, the items that calls for the next token alone would find, none of which is
the end. Whatever was asked for before, saved or gone back to, both kinds of calls answer with the item at the index
and move it on by one; where the list is over it stays, the next token is the end, behind the last byte, and an
iteration has no item. Saving keeps the index, and going back takes it up again. -/
theorem oneIndex (text : String) :
    let items := itemResults text
    let stop := text.utf8ByteSize
    (∀ n, lexerReplay text (List.replicate n (.call .nextToken)) =
      (List.range n).map (fun k => some (.found (items[k]?.getD (.ok ⟨.endOfInput,⟨stop,stop⟩⟩))))) ∧
    (∀ span, .ok ⟨.endOfInput,span⟩ ∉ items) ∧
    ∀ (moves : List (Move LexerCall)) (k : Nat), (lexerReplay text moves)[k]? =
      moves[k]?.map (answerAt text items ((Bookmark.mk 0 0).afterAll items.length (moves.take k)).index) := by
  intro items stop
  have start := standsStart text
  refine ⟨fun n => ?_,fun span member => ?_,fun moves k => replayStands moves start start k⟩
  · have calls := callsNext text n (Lexer.ofText text) (Lexer.ofText text)
    have behind : (Lexer.ofText text).cursor.stop = text.utf8ByteSize := stopOfText text
    rw [behind] at calls
    simp only [lexerReplay,calls,items,itemResults,List.getElem?_map]
    rfl
  · obtain ⟨⟨piece,place⟩,here,same⟩ := List.mem_map.mp member
    cases piece with
    | stray c => cases same
    | token t =>
      cases same
      exact itemsNoEnd here

example : (lexerReplay "x" [.call .iterate,.call .iterate,.restore,.call .nextToken,.call .iterate,.call .nextToken]).map
    (fun answer => match answer with
      | some (.found (.ok here)) => here.token.lexeme
      | some .exhausted => "none"
      | _ => "done") = ["x","none","done","x","none",""] := by decide +kernel

end SymbolicCalculus
