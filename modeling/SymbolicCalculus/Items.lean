import SymbolicCalculus.Token

/-! A text cut into items. Between two items only blanks are skipped; an item is the longest
token that starts at its place, or the one character there that starts none, so the items and the
blanks between them are the whole text. -/
namespace SymbolicCalculus

inductive Piece where
  | token (token : Token)
  | stray (character : Char)
  deriving DecidableEq, Repr

def Piece.text : Piece → List Char
  | .token t => t.lexeme.toList
  | .stray c => [c]

structure Item where
  piece : Piece
  span : Span
  deriving DecidableEq, Repr

def utf8Length : List Char → Nat
  | [] => 0
  | c :: rest => c.utf8Size + utf8Length rest

theorem utf8LengthAppend (cs ds : List Char) : utf8Length (cs ++ ds) = utf8Length cs + utf8Length ds := by
  induction cs with
  | nil => exact (Nat.zero_add _).symm
  | cons c rest ih => rw [List.cons_append,utf8Length,utf8Length,ih,Nat.add_assoc]

theorem utf8LengthBytes (cs : List Char) : utf8Length cs = (String.ofList cs).utf8ByteSize := by
  induction cs with
  | nil => rfl
  | cons c rest ih =>
    have joined : String.ofList (c :: rest) = String.singleton c ++ String.ofList rest := by
      apply String.toList_inj.mp
      simp
    rw [joined,String.utf8ByteSize_append,String.utf8ByteSize_singleton,← ih]
    rfl

def isBlank (c : Char) : Bool :=
  c == ' ' || c == '\t' || c == '\n' || c == '\r' || c == '\x0b' || c == '\x0c'

def isNameChar (c : Char) : Bool := c.isAlphanum || c == '_'

def cutNumber (cs : List Char) : List Char × List Char :=
  match cs.dropWhile Char.isDigit with
  | '.' :: rest =>
      (cs.takeWhile Char.isDigit ++ '.' :: rest.takeWhile Char.isDigit, rest.dropWhile Char.isDigit)
  | rest => (cs.takeWhile Char.isDigit, rest)

theorem cutNumberLossless (cs : List Char) : (cutNumber cs).1 ++ (cutNumber cs).2 = cs := by
  unfold cutNumber
  split
  · rename_i rest shape
    rw [List.append_assoc,List.cons_append,List.takeWhile_append_dropWhile,← shape,
      List.takeWhile_append_dropWhile]
  · exact List.takeWhile_append_dropWhile

def nameToken (name : String) (rest : List Char) : Token :=
  if rest.head? = some '(' then .function name else .variable name

theorem nameTokenLexeme (name : String) (rest : List Char) : (nameToken name rest).lexeme = name := by
  unfold nameToken
  split <;> rfl

def cut (c : Char) (rest : List Char) : Piece × List Char :=
  if c.isDigit || c == '.' then
    (.token (.number (String.ofList (cutNumber (c :: rest)).1)), (cutNumber (c :: rest)).2)
  else if c.isAlpha then
    let left := rest.dropWhile isNameChar
    (.token (nameToken (String.ofList (c :: rest.takeWhile isNameChar)) left), left)
  else if c = '(' then (.token .leftParen, rest)
  else if c = ')' then (.token .rightParen, rest)
  else match BinaryOp.ofSymbol? c with
    | some op => (.token (.operator op), rest)
    | none => (.stray c, rest)

theorem cutLossless (c : Char) (rest : List Char) : (cut c rest).1.text ++ (cut c rest).2 = c :: rest := by
  unfold cut
  split
  · simpa [Piece.text,Token.lexeme] using cutNumberLossless (c :: rest)
  split
  · simp [Piece.text,nameTokenLexeme,List.takeWhile_append_dropWhile]
  split
  · rename_i same; subst same; rfl
  split
  · rename_i same; subst same; rfl
  split
  · rename_i op read
    simp [Piece.text,Token.lexeme,symbolWritten read]
  · rfl

theorem cutNonempty (c : Char) (rest : List Char) : (cut c rest).1.text ≠ [] := by
  unfold cut
  split
  · rename_i starts
    simp only [Piece.text,Token.lexeme,String.toList_ofList,cutNumber]
    split
    · simp
    · rename_i other
      cases digit : c.isDigit with
      | true => simp [digit]
      | false =>
        have point : c = '.' := by simpa [digit] using starts
        subst point
        exact absurd (by simp [digit]) (other rest)
  split
  · simp [Piece.text,nameTokenLexeme]
  split
  · simp [Piece.text,Token.lexeme]
  split
  · simp [Piece.text,Token.lexeme]
  split
  · simp [Piece.text,Token.lexeme]
  · simp [Piece.text]

theorem cutShorter (c : Char) (rest : List Char) : (cut c rest).2.length < (c :: rest).length := by
  have whole := congrArg List.length (cutLossless c rest)
  have some := List.length_pos_iff.mpr (cutNonempty c rest)
  simp only [List.length_append] at whole
  omega

structure Cursor where
  rest : List Char
  offset : Nat
  deriving DecidableEq, Repr

def Cursor.ofText (text : String) : Cursor := ⟨text.toList,0⟩

def Cursor.stop (cursor : Cursor) : Nat := cursor.offset + utf8Length cursor.rest

theorem stopOfText (text : String) : (Cursor.ofText text).stop = text.utf8ByteSize := by
  simp [Cursor.ofText,Cursor.stop,utf8LengthBytes]

def Cursor.next (cursor : Cursor) : Option (Item × Cursor) :=
  match cursor.rest.dropWhile isBlank with
  | [] => none
  | c :: rest =>
      let start := cursor.offset + (cursor.rest.takeWhile isBlank).length
      let stop := start + utf8Length (cut c rest).1.text
      some (⟨(cut c rest).1,⟨start,stop⟩⟩,⟨(cut c rest).2,stop⟩)

theorem nextShorter {cursor after : Cursor} {item : Item} (found : cursor.next = some (item,after)) :
    after.rest.length < cursor.rest.length := by
  unfold Cursor.next at found
  split at found
  · contradiction
  · rename_i c rest ahead
    cases Option.some.inj found
    have kept := (List.dropWhile_suffix isBlank (l := cursor.rest)).length_le
    have less := cutShorter c rest
    rw [ahead] at kept
    exact Nat.lt_of_lt_of_le less kept

def Cursor.items (cursor : Cursor) : List Item :=
  match _found : cursor.next with
  | none => []
  | some (item,after) => item :: after.items
termination_by cursor.rest.length
decreasing_by exact nextShorter (by assumption)

theorem itemsAtEnd {cursor : Cursor} (done : cursor.next = none) : cursor.items = [] := by
  rw [Cursor.items]
  split
  · rfl
  · rename_i found; rw [done] at found; contradiction

theorem itemsAhead {cursor after : Cursor} {item : Item} (found : cursor.next = some (item,after)) :
    cursor.items = item :: after.items := by
  rw [Cursor.items]
  split
  · rename_i done; rw [found] at done; contradiction
  · rename_i other; rw [found] at other; cases Option.some.inj other; rfl

end SymbolicCalculus
