import SymbolicCalculus.Parser
import SymbolicCalculus.Proofs.Cutting
import SymbolicCalculus.Proofs.Readings

/-! A parser reads what is left of its text as if nothing had been before. What is left is told by a cursor
in front of the token that has been looked at; each call of the grammar leaves the parser as such a reading
leaves its items, with all places moved by the same number of bytes, and at the depth where it began. -/
namespace SymbolicCalculus

section cursors

theorem blankSize {c : Char} (blank : isBlank c = true) : c.utf8Size = 1 := by
  simp only [isBlank,Bool.or_eq_true,beq_iff_eq] at blank
  rcases blank with ((((same | same) | same) | same) | same) | same <;> subst same <;> decide

theorem blanksLength {cs : List Char} (blanks : ∀ c ∈ cs, isBlank c = true) : utf8Length cs = cs.length := by
  induction cs with
  | nil => rfl
  | cons c cs ih =>
    have one := blankSize (blanks c List.mem_cons_self)
    have rest := ih (fun d member => blanks d (List.mem_cons_of_mem c member))
    rw [utf8Length,one,rest,List.length_cons,Nat.add_comm]

theorem nextBlanks {cursor : Cursor} (done : cursor.next = none) : ∀ c ∈ cursor.rest, isBlank c = true := by
  unfold Cursor.next at done
  split at done
  · rename_i none
    have whole := List.takeWhile_append_dropWhile (p := isBlank) (l := cursor.rest)
    rw [none,List.append_nil] at whole
    exact whole ▸ runHolds
  · contradiction

theorem nextSplit {cursor after : Cursor} {item : Item} (found : cursor.next = some (item,after)) :
    ∃ skipped, (∀ c ∈ skipped, isBlank c = true) ∧ cursor.rest = skipped ++ (item.piece.text ++ after.rest) ∧
      item.span.start = cursor.offset + utf8Length skipped ∧
      item.span.stop = after.offset ∧ after.offset = item.span.start + utf8Length item.piece.text := by
  obtain ⟨c,rest,ahead,_,_⟩ := nextCut found
  cases (nextAt ahead).symm.trans found
  refine ⟨cursor.rest.takeWhile isBlank,runHolds,?_,?_,rfl,rfl⟩
  · simp only
    rw [cutLossless,← ahead,List.takeWhile_append_dropWhile]
  · simp only [blanksLength runHolds]

theorem nextStop {cursor after : Cursor} {item : Item} (found : cursor.next = some (item,after)) :
    after.stop = cursor.stop := by
  obtain ⟨skipped,_,split,starts,_,ends⟩ := nextSplit found
  simp only [Cursor.stop,split,utf8LengthAppend]
  omega

theorem nextResumes {cursor after : Cursor} {item : Item} (found : cursor.next = some (item,after)) :
    Cursor.next ⟨item.piece.text ++ after.rest,item.span.start⟩ = some (item,after) := by
  obtain ⟨c,rest,ahead,_,_⟩ := nextCut found
  have visible : isBlank c = false := runStops ahead
  cases (nextAt ahead).symm.trans found
  simp only [cutLossless]
  have here : (Cursor.mk (c :: rest) (cursor.offset + (cursor.rest.takeWhile isBlank).length)).rest.dropWhile isBlank =
      c :: rest := by simp [visible]
  rw [nextAt here]
  simp [visible]

end cursors

section shifts

def Span.shift (k : Nat) (span : Span) : Span := ⟨span.start + k,span.stop + k⟩

def PlacedToken.shift (k : Nat) (here : PlacedToken) : PlacedToken := ⟨here.token,here.span.shift k⟩

def Item.shift (k : Nat) (item : Item) : Item := ⟨item.piece,item.span.shift k⟩

def Failure.shift (k : Nat) (failure : Failure) : Failure := ⟨failure.cause,failure.spans.map (Span.shift k)⟩

def Remaining.shift (k : Nat) (r : Remaining) : Remaining := ⟨r.items.map (Item.shift k),r.stop + k⟩

theorem nextShift (cs : List Char) (offset k : Nat) : Cursor.next ⟨cs,offset + k⟩ =
    (Cursor.next ⟨cs,offset⟩).map (fun found => (found.1.shift k,⟨found.2.rest,found.2.offset + k⟩)) := by
  unfold Cursor.next
  cases ahead : cs.dropWhile isBlank with
  | nil => rfl
  | cons c rest =>
    simp only [Option.map_some,Item.shift,Span.shift,Option.some.injEq,Prod.mk.injEq,Item.mk.injEq,Span.mk.injEq,
      Cursor.mk.injEq,true_and]
    omega

theorem itemsShift (cursor : Cursor) (k : Nat) :
    Cursor.items ⟨cursor.rest,cursor.offset + k⟩ = cursor.items.map (Item.shift k) := by
  induction cursor using Cursor.items.induct with
  | case1 cursor done =>
    rw [itemsAtEnd done,itemsAtEnd]
    · rfl
    · rw [nextShift,done]
      rfl
  | case2 cursor item after found ih =>
    have moved : Cursor.next ⟨cursor.rest,cursor.offset + k⟩ = some (item.shift k,⟨after.rest,after.offset + k⟩) := by
      rw [nextShift,found]
      rfl
    rw [itemsAhead found,itemsAhead moved,ih]
    rfl

end shifts

namespace Parser

/- The text that has not been taken, and where it begins. A token that has only been looked at belongs to it. -/
def untaken (p : Parser) : Cursor :=
  match p.buffered with
  | none => p.cursor
  | some here => ⟨here.token.lexeme.toList ++ p.cursor.rest,here.span.start⟩

def remaining (p : Parser) : Remaining := ⟨p.untaken.items,p.untaken.stop⟩

structure Stands (text : List Char) (p : Parser) : Prop where
  within : ∃ before, text = before ++ p.untaken.rest ∧ p.untaken.offset = utf8Length before
  kept : ∀ here, p.buffered = some here →
    p.cursor.rest = [] ∧ here = ⟨.endOfInput,⟨p.cursor.offset,p.cursor.offset⟩⟩ ∨
      p.untaken.next = some (⟨.token here.token,here.span⟩,p.cursor)

theorem standsFresh (text : String) : Stands text.toList (ofText text) :=
  ⟨⟨[],rfl,rfl⟩,fun _ kept => by cases kept⟩

theorem remainingFresh (text : String) : (ofText text).remaining = Remaining.ofText text := by
  simp only [remaining,untaken,ofText,Remaining.ofText,stopOfText]

section calls
variable {text : List Char} {p : Parser}

theorem withinCut {cursor after : Cursor} {item : Item} (found : cursor.next = some (item,after))
    (within : ∃ before, text = before ++ cursor.rest ∧ cursor.offset = utf8Length before) :
    (∃ before, text = before ++ (item.piece.text ++ after.rest) ∧ item.span.start = utf8Length before) ∧
      ∃ before, text = before ++ after.rest ∧ after.offset = utf8Length before := by
  obtain ⟨before,whole,size⟩ := within
  obtain ⟨skipped,_,split,starts,_,ends⟩ := nextSplit found
  refine ⟨⟨before ++ skipped,?_,?_⟩,⟨before ++ skipped ++ item.piece.text,?_,?_⟩⟩
  · rw [whole,split,List.append_assoc]
  · rw [utf8LengthAppend,starts,size]
  · rw [whole,split]
    simp only [List.append_assoc]
  · rw [utf8LengthAppend,utf8LengthAppend,ends,starts,size]

inductive Peeks (text : List Char) (p : Parser) : Prop where
  | seen (here q) (above : peek p = .ok here q) (below : Grammar.peek p.remaining = .ok here p.remaining)
      (stands : Stands text q) (left : q.remaining = p.remaining) (level : q.depth = p.depth)
      (kept : q.buffered = some here)
  | strayed (failure q) (above : peek p = .error failure q)
      (below : Grammar.peek p.remaining = .error failure q.remaining) (stands : Stands text q) (level : q.depth = p.depth)

theorem peeksBuffered {here : PlacedToken} (stands : Stands text p) (kept : p.buffered = some here) : Peeks text p := by
  obtain ⟨cursor,buffered,depth⟩ := p
  cases kept
  refine .seen here _ rfl ?_ stands rfl rfl rfl
  rcases stands.kept here rfl with ⟨empty,same⟩ | found
  · obtain ⟨rest,offset⟩ := cursor
    simp only at empty same
    subst empty same
    have none : (Cursor.mk [] offset).items = [] := itemsAtEnd rfl
    simp only [Grammar.peek,remaining,untaken,Token.lexeme,String.toList_empty,List.nil_append,none]
    rfl
  · simp only [Grammar.peek,remaining,itemsAhead found]

theorem peeksEnd {cursor : Cursor} {depth : Nat} (stands : Stands text ⟨cursor,none,depth⟩) (found : cursor.next = none) :
    Peeks text ⟨cursor,none,depth⟩ := by
  obtain ⟨before,whole,size⟩ := stands.within
  have none : (Cursor.mk [] cursor.stop).items = [] := itemsAtEnd rfl
  have stop : (Cursor.mk [] cursor.stop).stop = cursor.stop := rfl
  refine .seen ⟨.endOfInput,⟨cursor.stop,cursor.stop⟩⟩
    ⟨⟨[],cursor.stop⟩,some ⟨.endOfInput,⟨cursor.stop,cursor.stop⟩⟩,depth⟩ ?_ ?_ ⟨⟨text,?_,?_⟩,?_⟩ ?_ rfl rfl
  · simp only [peek,found]
  · simp only [Grammar.peek,remaining,untaken,itemsAtEnd found]
  · simp [untaken,Token.lexeme]
  · simp only [untaken,whole,utf8LengthAppend,← size,Cursor.stop]
  · intro here same
    cases same
    exact Or.inl ⟨rfl,rfl⟩
  · simp only [remaining,untaken,Token.lexeme,String.toList_empty,List.nil_append,none,itemsAtEnd found,stop]

theorem peeksAhead {cursor after : Cursor} {item : Item} {depth : Nat} (stands : Stands text ⟨cursor,none,depth⟩)
    (found : cursor.next = some (item,after)) : Peeks text ⟨cursor,none,depth⟩ := by
  obtain ⟨inside,behind⟩ := withinCut found stands.within
  have resumed := nextResumes found
  obtain ⟨piece,span⟩ := item
  cases piece with
  | token t =>
    refine .seen ⟨t,span⟩ ⟨after,some ⟨t,span⟩,depth⟩ ?_ ?_ ⟨inside,?_⟩ ?_ rfl rfl
    · simp only [peek,found]
    · simp only [Grammar.peek,remaining,untaken,itemsAhead found]
    · intro here same
      cases same
      exact Or.inr resumed
    · rw [remaining,remaining,Remaining.mk.injEq]
      exact ⟨(itemsAhead resumed).trans (itemsAhead found).symm,(nextStop resumed).symm.trans (nextStop found)⟩
  | stray c =>
    refine .strayed ⟨.unexpectedCharacter c,[span]⟩ ⟨after,none,depth⟩ ?_ ?_ ⟨behind,?_⟩ rfl
    · simp only [peek,found]
    · simp only [Grammar.peek,remaining,untaken,itemsAhead found,nextStop found]
    · intro here same
      cases same

theorem peekKept (stands : Stands text p) : Peeks text p := by
  obtain ⟨cursor,buffered,depth⟩ := p
  cases buffered with
  | some here => exact peeksBuffered stands rfl
  | none =>
    cases found : cursor.next with
    | none => exact peeksEnd stands found
    | some pair => exact peeksAhead stands found

theorem untakenStop (stands : Stands text p) : p.untaken.stop = p.cursor.stop := by
  obtain ⟨cursor,buffered,depth⟩ := p
  cases buffered with
  | none => rfl
  | some here =>
    rcases stands.kept here rfl with ⟨empty,same⟩ | found
    · simp only at empty same
      subst same
      simp [untaken,Token.lexeme,Cursor.stop,empty]
    · exact (nextStop found).symm

theorem advanceKept (stands : Stands text p) {here : PlacedToken} (seen : p.buffered = some here) :
    Stands text { p with buffered := none } ∧
      ({ p with buffered := none } : Parser).remaining = ⟨p.remaining.items.tail,p.remaining.stop⟩ := by
  obtain ⟨cursor,buffered,depth⟩ := p
  cases seen
  have none (other : PlacedToken) (same : (Option.none : Option PlacedToken) = some other) :
      cursor.rest = [] ∧ other = ⟨.endOfInput,⟨cursor.offset,cursor.offset⟩⟩ ∨
        cursor.next = some (⟨.token other.token,other.span⟩,cursor) := by cases same
  rcases stands.kept here rfl with ⟨empty,same⟩ | found
  · obtain ⟨rest,offset⟩ := cursor
    simp only at empty same
    subst empty same
    have spent : (Cursor.mk [] offset).items = [] := itemsAtEnd rfl
    refine ⟨⟨?_,none⟩,?_⟩
    · simpa [untaken,Token.lexeme] using stands.within
    · simp [remaining,untaken,Token.lexeme,spent]
  · refine ⟨⟨(withinCut found stands.within).2,none⟩,?_⟩
    have stop := nextStop found
    have items := congrArg List.tail (itemsAhead found)
    simp only [remaining,items,← stop]
    rfl

end calls
end Parser
end SymbolicCalculus
