import SymbolicCalculus.Proofs.LongestMatch
import SymbolicCalculus.Proofs.Nesting

/-! What stands in a text behind its first expression. Set off from the text in front of it, it changes none of the
items there, and the reading of an expression looks one item ahead into it and no further. -/
namespace SymbolicCalculus

section joining
variable {κ : Type} {behind : List Char}

theorem runBefore {p : κ → Bool} {behind : List κ} (ends : ∀ c ∈ behind.head?, p c = false) (cs : List κ) :
    (cs ++ behind).takeWhile p = cs.takeWhile p ∧ (cs ++ behind).dropWhile p = cs.dropWhile p ++ behind := by
  induction cs with
  | nil =>
    have none (c : κ) (member : c ∈ ([] : List κ)) : p c = true := by cases member
    simpa using spanEnds none ends
  | cons c cs ih => cases kind : p c <;> simp [kind,ih]

theorem runWithin {p : κ → Bool} {c : κ} {cs rest : List κ} (behind : List κ) (ends : cs.dropWhile p = c :: rest) :
    (cs ++ behind).takeWhile p = cs.takeWhile p ∧ (cs ++ behind).dropWhile p = c :: (rest ++ behind) := by
  have left : (cs ++ behind).dropWhile p = c :: (rest ++ behind) := by simp [List.dropWhile_append,ends]
  refine ⟨(List.append_left_inj (c :: (rest ++ behind))).mp ?_,left⟩
  calc (cs ++ behind).takeWhile p ++ c :: (rest ++ behind)
    _ = cs ++ behind := by rw [← left,List.takeWhile_append_dropWhile]
    _ = cs.takeWhile p ++ cs.dropWhile p ++ behind := by rw [List.takeWhile_append_dropWhile]
    _ = cs.takeWhile p ++ c :: (rest ++ behind) := by rw [ends,List.append_assoc,List.cons_append]

theorem nameTokenBefore (apart : Apart behind) (name : String) (rest : List Char) :
    nameToken name (rest ++ behind) = nameToken name rest := by
  cases rest with
  | nil =>
    have uncalled : behind.head? ≠ some '(' := fun opens => (apart '(' opens).2.2 rfl
    simp [nameToken,uncalled]
  | cons c rest => rfl

theorem cutNumberBefore (apart : Apart behind) (cs : List Char) :
    cutNumber (cs ++ behind) = ((cutNumber cs).1,(cutNumber cs).2 ++ behind) := by
  have run := runBefore (p := Char.isDigit) fun c head => otherNoDigit (apart c head).1
  obtain ⟨taken,left⟩ := run cs
  unfold cutNumber
  rw [taken,left]
  cases ends : cs.dropWhile Char.isDigit with
  | nil =>
    cases behind with
    | nil => rfl
    | cons c behind =>
      split
      · rename_i point
        exact absurd (List.cons.inj point).1 (apart c rfl).2.1
      · rfl
  | cons c rest =>
    by_cases point : c = '.'
    · subst point
      simp only [List.cons_append,run rest]
    · simp [point]

theorem cutBefore (apart : Apart behind) (c : Char) (rest : List Char) :
    cut c (rest ++ behind) = ((cut c rest).1,(cut c rest).2 ++ behind) := by
  have number := cutNumberBefore apart (c :: rest)
  obtain ⟨taken,left⟩ := runBefore (p := isNameChar) (fun c head => (apart c head).1) rest
  unfold cut
  split
  · rw [← List.cons_append,number]
  split
  · simp only [taken,left,nameTokenBefore apart]
  split
  · rfl
  split
  · rfl
  split <;> rfl

theorem blanksBefore {cs : List Char} (blank : ∀ c ∈ cs, isBlank c = true) (behind : List Char) (offset : Nat) :
    (Cursor.mk (cs ++ behind) offset).next = (Cursor.mk behind (offset + utf8Length cs)).next := by
  unfold Cursor.next
  simp only [List.dropWhile_append_of_pos blank,List.takeWhile_append_of_pos blank,List.length_append,
    blanksLength blank,Nat.add_assoc]

theorem nextBefore (apart : Apart behind) {cursor after : Cursor} {item : Item}
    (found : cursor.next = some (item,after)) :
    (Cursor.mk (cursor.rest ++ behind) cursor.offset).next = some (item,⟨after.rest ++ behind,after.offset⟩) := by
  obtain ⟨c,rest,ahead,_,_⟩ := nextCut found
  cases (nextAt ahead).symm.trans found
  obtain ⟨skipped,left⟩ := runWithin behind ahead
  have further : (Cursor.mk (cursor.rest ++ behind) cursor.offset).rest.dropWhile isBlank = c :: (rest ++ behind) := left
  rw [nextAt further]
  simp only [skipped,cutBefore apart]

theorem itemsBefore (apart : Apart behind) (cursor : Cursor) :
    (Cursor.mk (cursor.rest ++ behind) cursor.offset).items = cursor.items ++ (Cursor.mk behind cursor.stop).items := by
  induction cursor using Cursor.items.induct with
  | case1 cursor done =>
    rw [itemsAtEnd done]
    exact itemsSame (blanksBefore (nextBlanks done) behind cursor.offset)
  | case2 cursor item after found ih =>
    rw [itemsAhead found,itemsAhead (nextBefore apart found),ih,nextStop found]
    rfl

end joining

section reading
open Grammar
variable {α : Type} [Numeral α] {limit : Nat}

def Interrupted (limit : Nat) (k : Category) (n : Nat) (w : List Token) (e : Expr α) : Prop :=
  ∀ room items c span rest stop, Spells items w → Fits room limit n e →
    reader limit (inside limit room : Nested → Reading (Expr α)) k ⟨items ++ ⟨.stray c,span⟩ :: rest,stop⟩ =
      .error ⟨.unexpectedCharacter c,[span]⟩ ⟨rest,stop⟩

theorem phraseInterrupted {k : Category} {n : Nat} {w : List Token} {e : Expr α} (phrase : Phrase k n w e)
    (looks : k ≠ .primary) : Interrupted limit k n w e := by
  -- All but a primary look for an operator behind them and come upon the character.
  induction phrase with
  | number | named | call | group | minus => exact absurd rfl looks
  | base only =>
    intro room items c span rest stop spells fits
    have first := (settledComplete (phraseSettled only) room ⟨⟨.stray c,span⟩ :: rest,stop⟩ spells trivial).read fits
    exact bindRuns first
  | @power n m w v a b base _ _ ih =>
    intro room items c span rest stop spells fits
    obtain ⟨before,behind,rfl,left,spelled⟩ := spellsSplit spells
    obtain ⟨sign,tail,rfl,right⟩ := spellsHead spelled
    obtain ⟨low,enough,high⟩ := fitsPower.mpr fits
    obtain ⟨room,rfl⟩ := Nat.exists_eq_succ_of_ne_zero (Nat.ne_of_gt (Nat.lt_of_lt_of_le (Nat.succ_pos m) enough))
    have first := (settledComplete (phraseSettled base) (room + 1)
      ⟨⟨.token (.operator .pow),sign⟩ :: (tail ++ ⟨.stray c,span⟩ :: rest),stop⟩ left trivial).read low
    have exponent := ih (by simp) room tail c span rest stop right ⟨Nat.le_of_succ_le_succ enough,high⟩
    rw [List.append_assoc,List.cons_append]
    exact (bindRuns first).trans (poweredRaises.trans (bindFails exponent))
  | single only ih =>
    intro room items c span rest stop spells fits
    exact bindFails (ih (by simp) room items c span rest stop spells fits)
  | @product op n m w v a b joins term _ _ ih =>
    intro room items c span rest stop spells fits
    obtain ⟨before,behind,rfl,left,spelled⟩ := spellsSplit spells
    obtain ⟨sign,tail,rfl,right⟩ := spellsHead spelled
    obtain ⟨⟨low,high⟩,_⟩ := (fitsChain (factorsChain joins)).mpr fits
    have first := (phraseSettled term room before
      ⟨⟨.token (.operator op),sign⟩ :: (tail ++ ⟨.stray c,span⟩ :: rest),stop⟩ left (readyFactor joins)).read low
    have operand := ih (by simp) room tail c span rest stop right high
    rw [List.append_assoc,List.cons_append]
    exact first.trans ((chainJoins joins).trans (bindFails operand))
  | alone only ih =>
    intro room items c span rest stop spells fits
    exact bindFails (ih (by simp) room items c span rest stop spells fits)
  | @sum op n m w v a b joins terms _ _ ih =>
    intro room items c span rest stop spells fits
    obtain ⟨before,behind,rfl,left,spelled⟩ := spellsSplit spells
    obtain ⟨sign,tail,rfl,right⟩ := spellsHead spelled
    obtain ⟨⟨low,high⟩,_⟩ := (fitsChain (termsChain joins)).mpr fits
    have first := (phraseSettled terms room before
      ⟨⟨.token (.operator op),sign⟩ :: (tail ++ ⟨.stray c,span⟩ :: rest),stop⟩ left (readyTerm joins)).read low
    have operand := ih (by simp) room tail c span rest stop right high
    rw [List.append_assoc,List.cons_append]
    exact first.trans ((chainJoins joins).trans (bindFails operand))

theorem wholeBefore {text behind : String} {t : Expr α} (whole : parse limit .whole text = .ok t)
    (apart : Apart behind.toList) :
    ∃ n w items, Phrase .expression n w t ∧ Spells items w ∧ Fits limit limit n t ∧
      Remaining.ofText (text ++ behind) =
        ⟨items ++ (Cursor.mk behind.toList text.utf8ByteSize).items,(text ++ behind).utf8ByteSize⟩ := by
  obtain ⟨after,found⟩ := parseFound.mp whole
  obtain ⟨n,w,items,phrase,spells,same,fits⟩ := readFits found
  have alone : (Cursor.ofText text).items = items := by
    have split : (Cursor.ofText text).items = items ++ after.items := congrArg Remaining.items same
    rw [split,wholeTaken found,List.append_nil]
  have joined := itemsBefore apart (Cursor.ofText text)
  rw [alone,stopOfText] at joined
  refine ⟨n,w,items,phrase,spells,fits,?_⟩
  simp only [Remaining.ofText,Cursor.ofText,String.toList_append]
  exact congrArg (Remaining.mk · _) joined

theorem readyIgnored {text behind : String} {t : Expr α} (whole : parse limit .whole text = .ok t)
    (apart : Apart behind.toList) {others : List Item}
    (same : (Cursor.mk behind.toList text.utf8ByteSize).items = others)
    (ready : Ready .expression ⟨others,(text ++ behind).utf8ByteSize⟩) : parse limit .first (text ++ behind) = .ok t := by
  obtain ⟨n,w,items,phrase,spells,fits,joined⟩ := wholeBefore whole apart
  rw [parseFound,joined,same]
  exact ⟨_,(settledComplete (phraseSettled phrase) limit _ spells ready).read fits⟩

theorem strayReported {text behind : String} {t : Expr α} (whole : parse limit .whole text = .ok t)
    (apart : Apart behind.toList) {c : Char} {span : Span} {rest : List Item}
    (same : (Cursor.mk behind.toList text.utf8ByteSize).items = ⟨.stray c,span⟩ :: rest) :
    (parse limit .first (text ++ behind) : Except Failure (Expr α)) = .error ⟨.unexpectedCharacter c,[span]⟩ := by
  obtain ⟨n,w,items,phrase,spells,fits,joined⟩ := wholeBefore whole apart
  rw [parseFailed,joined,same]
  exact ⟨_,phraseInterrupted phrase (by simp) limit items c span rest _ spells fits⟩

theorem cutNoOperator {c : Char} {rest : List Char} {t : Token} (found : (cut c rest).1 = .token t)
    (other : BinaryOp.ofSymbol? c = none) : t.operator? = none := by
  rcases cutCases c rest with same | ⟨_,same⟩ | ⟨piece,same,sign⟩ <;> rw [same] at found
  · cases found
    rfl
  · cases found
    unfold nameToken
    split <;> rfl
  · cases sign with
    | operator read => cases other.symm.trans read
    | opening | closing =>
      cases found
      rfl
    | stray => cases found

/-- What is put behind a text that is an expression is ignored if it is set off by a blank and does not go on with an
operator: only blanks come, or a word begins behind them, whatever follows it. A character that begins no word is not
ignored there, for the reading looks one item ahead and reports it. -/
theorem restIgnored {text behind : String} {t : Expr α} (whole : parse limit .whole text = .ok t)
    (apart : ∀ c ∈ behind.toList.head?, isBlank c = true)
    (other : ∀ c ∈ (behind.toList.dropWhile isBlank).head?, BinaryOp.ofSymbol? c = none) :
    (behind.toList.dropWhile isBlank = [] ∨ Begun (behind.toList.dropWhile isBlank) →
      parse limit .first (text ++ behind) = .ok t) ∧
    ∀ c rest start, behind.toList.dropWhile isBlank = c :: rest → ¬ Begun (c :: rest) →
      start = text.utf8ByteSize + (behind.toList.takeWhile isBlank).length →
      (parse limit .first (text ++ behind) : Except Failure (Expr α)) =
        .error ⟨.unexpectedCharacter c,[⟨start,start + c.utf8Size⟩]⟩ := by
  have apart := blankApart apart
  cases ahead : behind.toList.dropWhile isBlank with
  | nil =>
    have done : (Cursor.mk behind.toList text.utf8ByteSize).next = none := by
      unfold Cursor.next
      rw [ahead]
    have ends := readyIgnored whole apart (itemsAtEnd done) (readyNoOperator.mpr ⟨_,rfl,rfl⟩)
    exact ⟨fun _ => ends,fun c rest start same => by cases same⟩
  | cons c rest =>
    have here : (Cursor.mk behind.toList text.utf8ByteSize).rest.dropWhile isBlank = c :: rest := ahead
    have first := itemsAhead (nextAt here)
    rcases cutClass c rest with ⟨k,t,token,takes⟩ | ⟨none,stray⟩
    · rw [token] at first
      have noOperator := cutNoOperator token (other c (by rw [ahead]; rfl))
      refine ⟨fun _ => readyIgnored whole apart first (readyNoOperator.mpr ⟨_,rfl,noOperator⟩),?_⟩
      intro d tail start same unbegun
      cases same
      exact absurd (takesBegun takes) unbegun
    · rw [stray] at first
      refine ⟨?_,?_⟩
      · rintro (ended | begun)
        · cases ended
        · exact absurd none (begunHead begun)
      · intro d tail start same _ place
        cases same
        subst place
        exact strayReported whole apart first

end reading

theorem restIgnoredParenthesis : (parse defaultLimit .whole "x" : Except Failure (Expr Float)) = .ok (.var "x") ∧
    (parse defaultLimit .first ("x" ++ " )$") : Except Failure (Expr Float)) = .ok (.var "x") ∧
    (parse defaultLimit .first ("x" ++ " $") : Except Failure (Expr Float)) =
      .error ⟨.unexpectedCharacter '$',[⟨2,3⟩]⟩ := by
  have whole : (parse defaultLimit .whole "x" : Except Failure (Expr Float)) = .ok (.var "x") := by
    with_unfolding_all rfl
  have closing : Begun [')','$'] := ⟨.closing,[')'],rfl,by simp,by decide⟩
  have stray : ¬ Begun ['$'] := fun begun => begunHead begun rfl
  refine ⟨whole,?_,?_⟩
  · exact (restIgnored whole (by simp [isBlank]) (by simp [isBlank,BinaryOp.ofSymbol?])).1 (Or.inr closing)
  · exact (restIgnored whole (by simp [isBlank]) (by simp [isBlank,BinaryOp.ofSymbol?])).2 '$' [] 2 rfl stray rfl

theorem strayNotIgnored : ¬ ∀ (text behind : String) (t : Expr Float), parse defaultLimit .whole text = .ok t →
    (∀ c ∈ behind.toList.head?, isBlank c = true) →
    (∀ c ∈ (behind.toList.dropWhile isBlank).head?, BinaryOp.ofSymbol? c = none) →
    parse defaultLimit .first (text ++ behind) = .ok t := by
  intro always
  have whole : (parse defaultLimit .whole "x" : Except Failure (Expr Float)) = .ok (.var "x") := by
    with_unfolding_all rfl
  have refused : (parse defaultLimit .first ("x" ++ " $") : Except Failure (Expr Float)) =
      .error ⟨.unexpectedCharacter '$',[⟨2,3⟩]⟩ := by with_unfolding_all rfl
  cases refused.symm.trans (always "x" " $" _ whole (by simp [isBlank]) (by simp [isBlank,BinaryOp.ofSymbol?]))

end SymbolicCalculus
