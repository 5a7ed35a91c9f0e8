import SymbolicCalculus.Items

/-! The shapes of the items of a text: the lexeme of a number is a literal, a function has its
parenthesis directly behind it, and the end of the text is no item. -/
namespace SymbolicCalculus

def Literal (cs : List Char) : Prop :=
  cs ≠ [] ∧ ∃ whole, (∀ c ∈ whole, c.isDigit = true) ∧
    (cs = whole ∨ ∃ fraction, (∀ c ∈ fraction, c.isDigit = true) ∧ cs = whole ++ '.' :: fraction)

theorem spanEnds {κ : Type} {p : κ → Bool} {cs rest : List κ} (inside : ∀ c ∈ cs, p c = true)
    (ends : ∀ c ∈ rest.head?, p c = false) : (cs ++ rest).takeWhile p = cs ∧ (cs ++ rest).dropWhile p = rest := by
  rw [List.takeWhile_append_of_pos inside,List.dropWhile_append_of_pos inside]
  cases rest with
  | nil => simp
  | cons c rest => simp [ends c rfl]

theorem runHolds {κ : Type} {p : κ → Bool} {cs : List κ} : ∀ c ∈ cs.takeWhile p, p c = true :=
  fun c member => List.all_eq_true.mp List.all_takeWhile c member

theorem runStops {κ : Type} {p : κ → Bool} {cs rest : List κ} {c : κ} (behind : cs.dropWhile p = c :: rest) :
    p c = false := by
  have head := List.head?_dropWhile_not p cs
  rw [behind] at head
  simpa using head

theorem spanWhole {p : Char → Bool} {cs : List Char} (inside : ∀ c ∈ cs, p c = true) :
    cs.takeWhile p = cs ∧ cs.dropWhile p = [] := by
  have none (c : Char) (head : c ∈ ([] : List Char).head?) : p c = false := by cases head
  simpa using spanEnds inside none

theorem pointEnds (rest : List Char) (c : Char) (head : c ∈ ('.' :: rest).head?) : c.isDigit = false := by
  cases head
  rfl

theorem literalHead {cs : List Char} (literal : Literal cs) :
    ∃ c tail, cs = c :: tail ∧ (c.isDigit = true ∨ c = '.') := by
  obtain ⟨filled,whole,digits,shape⟩ := literal
  cases whole with
  | nil =>
    rcases shape with same | ⟨fraction,_,same⟩
    · exact absurd same filled
    · exact ⟨'.',fraction,same,Or.inr rfl⟩
  | cons c whole =>
    have digit : c.isDigit = true := digits c List.mem_cons_self
    rcases shape with same | ⟨fraction,_,same⟩
    · exact ⟨c,whole,same,Or.inl digit⟩
    · exact ⟨c,whole ++ '.' :: fraction,same,Or.inl digit⟩

theorem literalChars {cs : List Char} (literal : Literal cs) : ∀ c ∈ cs, c.isDigit = true ∨ c = '.' := by
  obtain ⟨_,whole,digits,shape⟩ := literal
  intro c member
  rcases shape with rfl | ⟨fraction,places,rfl⟩
  · exact Or.inl (digits c member)
  · rcases List.mem_append.mp member with front | back
    · exact Or.inl (digits c front)
    · rcases List.mem_cons.mp back with point | later
      · exact Or.inr point
      · exact Or.inl (places c later)

theorem literalUnsigned {cs : List Char} (literal : Literal cs) : cs.head? ≠ some '-' ∧ cs.head? ≠ some '+' := by
  obtain ⟨c,tail,same,starts⟩ := literalHead literal
  rw [same]
  constructor <;> (intro sign; cases sign; revert starts; decide)

theorem cutNumberShape {cs : List Char} (some : (cutNumber cs).1 ≠ []) : Literal (cutNumber cs).1 := by
  refine ⟨some,cs.takeWhile Char.isDigit,runHolds,?_⟩
  unfold cutNumber
  split
  · exact Or.inr ⟨_,runHolds,rfl⟩
  · exact Or.inl rfl

inductive Sign (c : Char) : Piece → Prop where
  | opening (same : c = '(') : Sign c (.token .leftParen)
  | closing (same : c = ')') : Sign c (.token .rightParen)
  | operator {op} (read : BinaryOp.ofSymbol? c = some op) : Sign c (.token (.operator op))
  | stray : Sign c (.stray c)

theorem cutCases (c : Char) (rest : List Char) :
    cut c rest = (.token (.number (String.ofList (cutNumber (c :: rest)).1)),(cutNumber (c :: rest)).2) ∨
    c.isAlpha = true ∧ cut c rest = (.token (nameToken (String.ofList (c :: rest.takeWhile isNameChar))
      (rest.dropWhile isNameChar)),rest.dropWhile isNameChar) ∨
    ∃ piece, (∀ behind, cut c behind = (piece,behind)) ∧ Sign c piece := by
  by_cases number : (c.isDigit || c == '.') = true
  · exact Or.inl (if_pos number)
  by_cases letter : c.isAlpha = true
  · exact Or.inr (Or.inl ⟨letter,(if_neg number).trans (if_pos letter)⟩)
  refine Or.inr (Or.inr ?_)
  by_cases opening : c = '('
  · exact ⟨_,fun behind => by rw [cut,if_neg number,if_neg letter,if_pos opening],.opening opening⟩
  by_cases closing : c = ')'
  · exact ⟨_,fun behind => by rw [cut,if_neg number,if_neg letter,if_neg opening,if_pos closing],.closing closing⟩
  cases read : BinaryOp.ofSymbol? c with
  | some op =>
    exact ⟨_,fun behind => by rw [cut,if_neg number,if_neg letter,if_neg opening,if_neg closing,read],.operator read⟩
  | none => exact ⟨_,fun behind => by rw [cut,if_neg number,if_neg letter,if_neg opening,if_neg closing,read],.stray⟩

theorem nameTokenFunction {name other : String} {rest : List Char} (function : nameToken name rest = .function other) :
    rest.head? = some '(' := by
  unfold nameToken at function
  split at function
  · assumption
  · contradiction

theorem nameTokenNumber {name digits : String} {rest : List Char} : nameToken name rest ≠ .number digits := by
  unfold nameToken
  split <;> simp

theorem cutDigits {c : Char} {rest : List Char} {digits : String} (found : (cut c rest).1 = .token (.number digits)) :
    Literal digits.toList := by
  rcases cutCases c rest with same | ⟨_,same⟩ | ⟨piece,same,sign⟩
  · have some := cutNonempty c rest
    rw [same] at found some
    cases found
    rw [String.toList_ofList]
    exact cutNumberShape (by simpa [Piece.text,Token.lexeme] using some)
  · rw [same] at found
    exact absurd (Piece.token.inj found) nameTokenNumber
  · rw [same] at found
    cases sign <;> cases found

theorem cutFunction {c : Char} {rest : List Char} {name : String} (found : (cut c rest).1 = .token (.function name)) :
    (cut c rest).2.head? = some '(' := by
  rcases cutCases c rest with same | ⟨_,same⟩ | ⟨piece,same,sign⟩
  · rw [same] at found
    cases found
  · rw [same] at found ⊢
    exact nameTokenFunction (Piece.token.inj found)
  · rw [same] at found
    cases sign <;> cases found

theorem cutNoEnd (c : Char) (rest : List Char) : (cut c rest).1 ≠ .token .endOfInput := by
  intro ends
  exact cutNonempty c rest (by rw [ends]; rfl)

theorem nextCut {cursor after : Cursor} {item : Item} (found : cursor.next = some (item,after)) :
    ∃ c rest, cursor.rest.dropWhile isBlank = c :: rest ∧ item.piece = (cut c rest).1 ∧ after.rest = (cut c rest).2 := by
  unfold Cursor.next at found
  split at found
  · contradiction
  · rename_i c rest ahead
    cases Option.some.inj found
    exact ⟨c,rest,ahead,rfl,rfl⟩

theorem nextAt {cursor : Cursor} {c : Char} {rest : List Char} (ahead : cursor.rest.dropWhile isBlank = c :: rest) :
    cursor.next = some (⟨(cut c rest).1,
      ⟨cursor.offset + (cursor.rest.takeWhile isBlank).length,
        cursor.offset + (cursor.rest.takeWhile isBlank).length + utf8Length (cut c rest).1.text⟩⟩,
      ⟨(cut c rest).2,cursor.offset + (cursor.rest.takeWhile isBlank).length + utf8Length (cut c rest).1.text⟩) := by
  unfold Cursor.next
  rw [ahead]

theorem itemsSame {cursor other : Cursor} (same : cursor.next = other.next) : cursor.items = other.items := by
  cases found : other.next with
  | none => rw [itemsAtEnd found,itemsAtEnd (same.trans found)]
  | some pair => rw [itemsAhead found,itemsAhead (same.trans found)]

theorem itemsFirst {cursor : Cursor} {item : Item} {back : List Item} (whole : cursor.items = item :: back) :
    ∃ after, cursor.next = some (item,after) ∧ after.items = back := by
  cases found : cursor.next with
  | none =>
    rw [itemsAtEnd found] at whole
    contradiction
  | some pair =>
    obtain ⟨first,after⟩ := pair
    rw [itemsAhead found] at whole
    cases whole
    exact ⟨after,rfl,rfl⟩

theorem itemsBehind {cursor : Cursor} {front back : List Item} {item : Item} (whole : cursor.items = front ++ item :: back) :
    ∃ here after, Cursor.next here = some (item,after) ∧ after.items = back := by
  induction front generalizing cursor with
  | nil => exact ⟨cursor,itemsFirst whole⟩
  | cons head front ih =>
    obtain ⟨after,_,rest⟩ := itemsFirst whole
    exact ih rest

theorem itemsCut {cursor : Cursor} {item : Item} (member : item ∈ cursor.items) :
    ∃ c rest, item.piece = (cut c rest).1 := by
  obtain ⟨front,back,whole⟩ := List.append_of_mem member
  obtain ⟨here,after,found,_⟩ := itemsBehind whole
  obtain ⟨c,rest,_,piece,_⟩ := nextCut found
  exact ⟨c,rest,piece⟩

theorem itemsLiteral {cursor : Cursor} {digits : String} {span : Span}
    (member : ⟨.token (.number digits),span⟩ ∈ cursor.items) : Literal digits.toList := by
  obtain ⟨c,rest,piece⟩ := itemsCut member
  exact cutDigits piece.symm

theorem itemsNoEnd {cursor : Cursor} {span : Span} : ⟨.token .endOfInput,span⟩ ∉ cursor.items := by
  intro member
  obtain ⟨c,rest,piece⟩ := itemsCut member
  exact cutNoEnd c rest piece.symm

theorem nextFunction {cursor after : Cursor} {name : String} {span : Span}
    (found : cursor.next = some (⟨.token (.function name),span⟩,after)) : ∃ rest, after = ⟨'(' :: rest,span.stop⟩ := by
  obtain ⟨c,rest,ahead,piece,_⟩ := nextCut found
  obtain ⟨tail,shape⟩ := List.head?_eq_some_iff.mp (cutFunction piece.symm)
  obtain ⟨item,behind⟩ := Prod.mk.inj (Option.some.inj ((nextAt ahead).symm.trans found))
  obtain ⟨_,place⟩ := Item.mk.inj item
  exact ⟨tail,by rw [← behind,← place,shape]⟩

theorem nextOpening (rest : List Char) (offset : Nat) : Cursor.next ⟨'(' :: rest,offset⟩ =
    some (⟨.token .leftParen,⟨offset,offset + 1⟩⟩,⟨rest,offset + 1⟩) := rfl

theorem itemsFunction {cursor : Cursor} {front back : List Item} {name : String} {span : Span}
    (whole : cursor.items = front ++ ⟨.token (.function name),span⟩ :: back) :
    ∃ tail, back = ⟨.token .leftParen,⟨span.stop,span.stop + 1⟩⟩ :: tail := by
  obtain ⟨here,after,found,same⟩ := itemsBehind whole
  obtain ⟨rest,rfl⟩ := nextFunction found
  exact ⟨_,same.symm.trans (itemsAhead (nextOpening rest span.stop))⟩

end SymbolicCalculus
