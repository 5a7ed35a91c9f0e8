import SymbolicCalculus.Proofs.Suffixes
import SymbolicCalculus.Proofs.Unplaced
import SymbolicCalculus.RealNumber

/-! The items of a text written down again with other blanks between them. They are cut as they were, for no item runs
on into the next one and a name keeps the parenthesis that makes it a function; so they are read as they were. -/
namespace SymbolicCalculus

def Piece.calls : Piece → Bool
  | .token (.function _) => true
  | _ => false

/- The blanks behind an item: at least one if another item follows, but none behind the name of a function. -/
structure Gap (piece : Piece) (behind : List Piece) (gap : List Char) : Prop where
  blank : ∀ c ∈ gap, isBlank c = true
  called : piece.calls = true → gap = []
  apart : piece.calls = false → behind ≠ [] → gap ≠ []

inductive Spaced : List Piece → List Char → Prop where
  | nil : Spaced [] []
  | cons {piece pieces gap cs} (space : Gap piece pieces gap) (rest : Spaced pieces cs) :
      Spaced (piece :: pieces) (piece.text ++ (gap ++ cs))

def LaidOut (pieces : List Piece) (text : String) : Prop :=
  ∃ before cs, (∀ c ∈ before, isBlank c = true) ∧ Spaced pieces cs ∧ text.toList = before ++ cs

section cutting
variable {c : Char} {rest tail other cs : List Char}

structure Ends (piece : Piece) (behind : List Char) : Prop where
  called : piece.calls = true → behind.head? = some '('
  apart : piece.calls = false → Apart behind

theorem nameTokenCalls (name : String) (rest : List Char) :
    (Piece.token (nameToken name rest)).calls = decide (rest.head? = some '(') := by
  unfold nameToken
  split <;> simp_all [Piece.calls]

theorem endsName {name : String} (ends : Ends (.token (nameToken name rest)) other) :
    (∀ d ∈ other.head?, isNameChar d = false) ∧ nameToken name other = nameToken name rest := by
  obtain ⟨called,apart⟩ := ends
  rw [nameTokenCalls] at called apart
  by_cases calls : rest.head? = some '('
  · have opens := called (decide_eq_true calls)
    refine ⟨fun d head => ?_,by rw [nameToken,nameToken,if_pos calls,if_pos opens]⟩
    cases opens.symm.trans head
    decide
  · have apart := apart (decide_eq_false calls)
    have uncalled : other.head? ≠ some '(' := fun opens => (apart '(' opens).2.2 rfl
    exact ⟨fun d head => (apart d head).1,by rw [nameToken,nameToken,if_neg calls,if_neg uncalled]⟩

theorem cutAgain (text : (cut c rest).1.text = c :: tail) (ends : Ends (cut c rest).1 other) :
    cut c (tail ++ other) = ((cut c rest).1,other) := by
  rcases cutCases c rest with same | ⟨letter,same⟩ | ⟨piece,alone,_⟩
  · have literal := cutDigits (congrArg Prod.fst same)
    rw [same] at text ends ⊢
    exact cutDigital text literal (ends.apart rfl)
  · rw [same] at text ends ⊢
    obtain ⟨ahead,kept⟩ := endsName ends
    rw [Piece.text,nameTokenLexeme,String.toList_ofList] at text
    obtain rfl := (List.cons.inj text).2
    rw [cutNamed (String.toList_ofList ..) letter runHolds ahead,
      kept]
  · have single : tail = [] := by
      have whole := cutLossless c rest
      rw [text,alone] at whole
      exact List.append_left_eq_self.mp (List.cons.inj whole).2
    rw [single,alone,alone]
    rfl

theorem nextAgain {cursor after : Cursor} {item : Item} (found : cursor.next = some (item,after))
    (ends : Ends item.piece other) (offset : Nat) :
    ∃ span stop, Cursor.next ⟨item.piece.text ++ other,offset⟩ = some (⟨item.piece,span⟩,⟨other,stop⟩) := by
  obtain ⟨c,rest,ahead,piece,_⟩ := nextCut found
  have visible : isBlank c = false := runStops ahead
  rw [piece] at ends ⊢
  obtain ⟨d,tail,text⟩ := List.exists_cons_of_ne_nil (cutNonempty c rest)
  have whole := cutLossless c rest
  rw [text,List.cons_append] at whole
  obtain rfl := (List.cons.inj whole).1
  have here : (Cursor.mk ((cut d rest).1.text ++ other) offset).rest.dropWhile isBlank = d :: (tail ++ other) := by
    simp [text,visible]
  have again := nextAt here
  rw [cutAgain text ends] at again
  exact ⟨_,_,again⟩

end cutting

section layout
variable {piece : Piece} {pieces : List Piece} {gap cs : List Char}

theorem spacedNone (spaced : Spaced [] cs) : cs = [] := by
  cases spaced
  rfl

theorem calledOpens {cursor after : Cursor} {item : Item} (found : cursor.next = some (item,after))
    (calls : item.piece.calls = true) (spaced : Spaced (after.items.map Item.piece) cs) : cs.head? = some '(' := by
  obtain ⟨piece,span⟩ := item
  obtain ⟨name,rfl⟩ : ∃ name, piece = .token (.function name) := by
    cases piece with
    | stray c => contradiction
    | token t => cases t with
      | function name => exact ⟨name,rfl⟩
      | _ => contradiction
  have whole : cursor.items = [] ++ ⟨.token (.function name),span⟩ :: after.items := itemsAhead found
  obtain ⟨behind,same⟩ := itemsFunction whole
  rw [same,List.map_cons] at spaced
  cases spaced
  rfl

theorem gapEnds (space : Gap piece pieces gap) (spaced : Spaced pieces cs)
    (opens : piece.calls = true → cs.head? = some '(') : Ends piece (gap ++ cs) := by
  refine ⟨fun calls => by rw [space.called calls]; exact opens calls,fun other => ?_⟩
  cases gap with
  | nil =>
    have last : pieces = [] := Classical.byContradiction fun more => space.apart other more rfl
    subst last
    rw [spacedNone spaced]
    exact apartNone
  | cons b gap =>
    refine blankApart fun c head => ?_
    cases head
    exact space.blank b List.mem_cons_self

theorem spacedItems {cursor : Cursor} (spaced : Spaced (cursor.items.map Item.piece) cs) (offset : Nat) :
    (Cursor.mk cs offset).items.map Item.piece = cursor.items.map Item.piece := by
  induction cursor using Cursor.items.induct generalizing cs offset with
  | case1 cursor done =>
    rw [itemsAtEnd done] at spaced ⊢
    rw [spacedNone spaced,itemsAtEnd rfl]
  | case2 cursor item after found ih =>
    rw [itemsAhead found,List.map_cons] at spaced ⊢
    cases spaced with
    | cons space rest =>
      have ends := gapEnds space rest fun calls => calledOpens found calls rest
      obtain ⟨span,stop,again⟩ := nextAgain found ends offset
      rw [itemsAhead again,List.map_cons,itemsSame (blanksBefore space.blank _ _),ih rest]

theorem laidOutItems {text layout : String} (laid : LaidOut ((Cursor.ofText text).items.map Item.piece) layout) :
    (Cursor.ofText layout).items.map Item.piece = (Cursor.ofText text).items.map Item.piece := by
  obtain ⟨before,cs,blank,spaced,whole⟩ := laid
  rw [Cursor.ofText,whole,itemsSame (blanksBefore blank cs 0)]
  exact spacedItems spaced _

end layout

/-- Layout carries no meaning. The items of a text, written down with any blanks in front, behind and between them, but
with none behind the name of a function and at least one between others, are cut into the same items, stray characters
included. Under any limit and over any numbers both texts are read as one tree, or fail for one cause. -/
theorem layoutFree {text layout : String} (laid : LaidOut ((Cursor.ofText text).items.map Item.piece) layout) :
    (Cursor.ofText layout).items.map Item.piece = (Cursor.ofText text).items.map Item.piece ∧
    ∀ {α : Type} [Numeral α] (limit : Nat) (extent : Extent),
      (parse limit extent layout : Except Failure (Expr α)).mapError Failure.cause =
        (parse limit extent text).mapError Failure.cause :=
  ⟨laidOutItems laid,fun limit extent => parseAnywhere (laidOutItems laid) limit extent⟩

theorem layoutFreeCall : LaidOut ((Cursor.ofText "f(x$").items.map Item.piece) "\tf( x  $\n" ∧
    (Cursor.ofText "\tf( x  $\n").items.map Item.piece = [.token (.function "f"),.token .leftParen,
      .token (.variable "x"),.stray '$'] ∧
    (parse 4 .whole "\tf( x  $\n" : Except Failure (Expr Float)).mapError Failure.cause =
      .error (.unexpectedCharacter '$') := by
  have cut : (Cursor.ofText "f(x$").items.map Item.piece =
      [.token (.function "f"),.token .leftParen,.token (.variable "x"),.stray '$'] := by decide +kernel
  have spaced : Spaced [.token (.function "f"),.token .leftParen,.token (.variable "x"),.stray '$'] _ :=
    .cons (⟨by simp,by decide,by decide⟩ : Gap _ _ []) <|
    .cons (⟨by simp [isBlank],by decide,by decide⟩ : Gap _ _ [' ']) <|
    .cons (⟨by simp [isBlank],by decide,by decide⟩ : Gap _ _ [' ',' ']) <|
    .cons (⟨by simp [isBlank],by decide,by decide⟩ : Gap _ _ ['\n']) .nil
  have laid : LaidOut ((Cursor.ofText "f(x$").items.map Item.piece) "\tf( x  $\n" :=
    ⟨['\t'],_,by simp [isBlank],cut ▸ spaced,by decide +kernel⟩
  have failed : (parse 4 .whole "f(x$" : Except Failure (Expr Float)) =
      .error ⟨.unexpectedCharacter '$',[⟨3,4⟩]⟩ := by with_unfolding_all rfl
  obtain ⟨items,reads⟩ := layoutFree laid
  exact ⟨laid,items.trans cut,(reads 4 .whole).trans (by rw [failed]; rfl)⟩

end SymbolicCalculus
