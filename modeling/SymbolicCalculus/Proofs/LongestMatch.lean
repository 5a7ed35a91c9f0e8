import SymbolicCalculus.Proofs.Blame
import SymbolicCalculus.Proofs.Buffering
import SymbolicCalculus.Proofs.TokenClasses

/-! Cutting takes the longest token word that begins at a place, whatever comes behind it. The characters that begin
no word are the stray ones, and the single point is a number word without a number. -/
namespace SymbolicCalculus
open TokenClass (ofHead? headClass classOnce numberWords nameWords operatorWords)

/- The token is a word of the class at the front of these characters, of no other class, and there is no longer
word of any class. A name is a function when a parenthesis comes directly behind it. -/
structure Takes (ahead : List Char) (k : TokenClass) (t : Token) : Prop where
  kind : t.class? = some k
  word : t.lexeme.toList ∈ k.language
  front : t.lexeme.toList <+: ahead
  alone : ∀ j : TokenClass, t.lexeme.toList ∈ j.language → j = k
  longest : ∀ (j : TokenClass) v, v ∈ j.language → v <+: ahead → v.length ≤ t.lexeme.toList.length
  called : ∀ behind, ahead = t.lexeme.toList ++ behind → k = .name →
    t = if behind.head? = some '(' then .function t.lexeme else .variable t.lexeme

section words
variable {c : Char} {rest : List Char} {k : TokenClass} {t : Token}

theorem takesWord (kind : t.class? = some k) (word : t.lexeme.toList ∈ k.language)
    (front : t.lexeme.toList <+: c :: rest)
    (longest : ∀ v, v ∈ k.language → v <+: c :: rest → v.length ≤ t.lexeme.toList.length)
    (called : ∀ behind, c :: rest = t.lexeme.toList ++ behind → k = .name →
      t = if behind.head? = some '(' then .function t.lexeme else .variable t.lexeme) : Takes (c :: rest) k t := by
  refine ⟨kind,word,front,fun j other => classOnce other word,fun j v other here => ?_,called⟩
  -- All words at a place are of the class of their first character.
  obtain ⟨d,tail,same,head⟩ := headClass word
  obtain ⟨e,more,again,beside⟩ := headClass other
  rw [same] at front
  rw [again] at here
  have first : d = c := (List.cons_prefix_cons.mp front).1
  have second : e = c := (List.cons_prefix_cons.mp here).1
  rw [first] at head
  rw [second] at beside
  cases head.symm.trans beside
  exact longest v other (again ▸ here)

theorem takesSign (kind : t.class? = some k) (sign : t.lexeme.toList = [c]) (other : k ≠ .name)
    (single : ∀ v, v ∈ k.language → ∃ d, v = [d]) (word : [c] ∈ k.language) : Takes (c :: rest) k t := by
  refine takesWord kind (sign ▸ word) ?_ (fun v word _ => ?_) (fun _ _ same => absurd same other)
  · rw [sign]
    exact List.cons_prefix_cons.mpr ⟨rfl,List.nil_prefix⟩
  · obtain ⟨d,same⟩ := single v word
    rw [same,sign]
    exact Nat.le_refl 1

theorem runPrefix {p : Char → Bool} {v cs : List Char} (inside : ∀ d ∈ v, p d = true) (front : v <+: cs) :
    v.length ≤ (cs.takeWhile p).length := by
  obtain ⟨more,rfl⟩ := front
  rw [List.takeWhile_append_of_pos inside,List.length_append]
  exact Nat.le_add_right _ _

theorem literalPrefix {v cs : List Char} (literal : Literal v) (front : v <+: cs) :
    v.length ≤ (cutNumber cs).1.length := by
  obtain ⟨_,whole,digits,shape⟩ := literal
  rcases shape with rfl | ⟨fraction,places,rfl⟩
  · have run := runPrefix digits front
    unfold cutNumber
    split
    · rw [List.length_append]
      omega
    · exact run
  · obtain ⟨more,rfl⟩ := front
    rw [List.append_assoc,List.cons_append]
    obtain ⟨taken,left⟩ := spanEnds digits (pointEnds (fraction ++ more))
    have run := runPrefix places (List.prefix_append fraction more)
    unfold cutNumber
    rw [left,taken]
    simp only [List.length_append,List.length_cons]
    omega

theorem takesNumber (starts : (c.isDigit || c == '.') = true) :
    Takes (c :: rest) .number (.number (String.ofList (cutNumber (c :: rest)).1)) := by
  have cutting : cut c rest = (.token (.number (String.ofList (cutNumber (c :: rest)).1)),(cutNumber (c :: rest)).2) :=
    if_pos starts
  have some := cutNonempty c rest
  rw [cutting] at some
  have filled : (cutNumber (c :: rest)).1 ≠ [] := by simpa [Piece.text,Token.lexeme] using some
  refine takesWord rfl ?_ ?_ (fun v word front => ?_) (fun _ _ same => by cases same)
  · rw [Token.lexeme,String.toList_ofList]
    exact numberWords.mpr (cutNumberShape filled)
  · rw [Token.lexeme,String.toList_ofList]
    exact ⟨_,cutNumberLossless (c :: rest)⟩
  · rw [Token.lexeme,String.toList_ofList]
    exact literalPrefix (numberWords.mp word) front

theorem takesName (letter : c.isAlpha = true) : Takes (c :: rest) .name
    (nameToken (String.ofList (c :: rest.takeWhile isNameChar)) (rest.dropWhile isNameChar)) := by
  have lexeme := nameTokenLexeme (String.ofList (c :: rest.takeWhile isNameChar)) (rest.dropWhile isNameChar)
  have whole : c :: rest = (c :: rest.takeWhile isNameChar) ++ rest.dropWhile isNameChar := by
    rw [List.cons_append,List.takeWhile_append_dropWhile]
  refine takesWord ?_ ?_ ?_ (fun v word front => ?_) (fun behind same _ => ?_)
  · unfold nameToken
    split <;> rfl
  · rw [lexeme,String.toList_ofList]
    exact nameWords.mpr ⟨c,_,rfl,letter,runHolds⟩
  · rw [lexeme,String.toList_ofList]
    exact ⟨_,whole.symm⟩
  · rw [lexeme,String.toList_ofList]
    obtain ⟨d,tail,rfl,_,others⟩ := nameWords.mp word
    exact Nat.succ_le_succ (runPrefix others (List.cons_prefix_cons.mp front).2)
  · rw [lexeme,String.toList_ofList] at same
    have ends : behind = rest.dropWhile isNameChar := (List.append_cancel_left (whole.symm.trans same)).symm
    subst ends
    rw [lexeme]
    rfl

end words

theorem cutClass (c : Char) (rest : List Char) :
    (∃ k t, (cut c rest).1 = .token t ∧ Takes (c :: rest) k t) ∨ ofHead? c = none ∧ (cut c rest).1 = .stray c := by
  unfold ofHead? cut
  split
  · exact Or.inl ⟨_,_,rfl,takesNumber (by assumption)⟩
  split
  · exact Or.inl ⟨_,_,rfl,takesName (by assumption)⟩
  split
  · rename_i same
    subst same
    exact Or.inl ⟨_,_,rfl,takesSign rfl rfl (by simp) (fun _ word => ⟨_,word⟩) rfl⟩
  split
  · rename_i same
    subst same
    exact Or.inl ⟨_,_,rfl,takesSign rfl rfl (by simp) (fun _ word => ⟨_,word⟩) rfl⟩
  cases sign : BinaryOp.ofSymbol? c with
  | none => exact Or.inr ⟨rfl,rfl⟩
  | some op =>
    have written : [op.symbol] = [c] := by rw [symbolWritten sign]
    have single (v : List Char) (word : v ∈ TokenClass.operator.language) : ∃ d, v = [d] :=
      (operatorWords.mp word).elim (fun _ same => ⟨_,same⟩)
    exact Or.inl ⟨_,_,rfl,takesSign rfl ((String.toList_singleton ..).trans written) (by simp) single
      (operatorWords.mpr ⟨op,written.symm⟩)⟩

theorem itemPlace {text : List Char} {cursor : Cursor} {item : Item} (member : item ∈ cursor.items)
    (within : ∃ before, text = before ++ cursor.rest ∧ cursor.offset = utf8Length before) :
    ∃ before c rest, text = before ++ c :: rest ∧ item.span.start = utf8Length before ∧
      item.piece = (cut c rest).1 := by
  induction cursor using Cursor.items.induct with
  | case1 cursor done =>
    rw [itemsAtEnd done] at member
    cases member
  | case2 cursor first after found ih =>
    obtain ⟨⟨before,whole,start⟩,later⟩ := Parser.withinCut found within
    rw [itemsAhead found] at member
    rcases List.mem_cons.mp member with rfl | behind
    · obtain ⟨c,rest,_,piece,left⟩ := nextCut found
      exact ⟨before,c,rest,by rw [whole,piece,left,cutLossless],start,piece⟩
    · exact ih behind later

def Begun (ahead : List Char) : Prop := ∃ (k : TokenClass) (v : List Char), v ∈ k.language ∧ v ≠ [] ∧ v <+: ahead

theorem begunHead {c : Char} {rest : List Char} (begun : Begun (c :: rest)) : ofHead? c ≠ none := by
  obtain ⟨k,v,word,_,front⟩ := begun
  obtain ⟨d,tail,rfl,head⟩ := headClass word
  obtain ⟨rfl,_⟩ := List.cons_prefix_cons.mp front
  simp [head]

theorem takesBegun {ahead : List Char} {k : TokenClass} {t : Token} (takes : Takes ahead k t) : Begun ahead := by
  obtain ⟨d,tail,same,_⟩ := headClass takes.word
  exact ⟨k,_,takes.word,by simp [same],takes.front⟩

theorem literalPoint {cs : List Char} (literal : Literal cs) (none : ∀ c ∈ cs, c.isDigit = false) : cs = ['.'] := by
  obtain ⟨filled,whole,digits,shape⟩ := literal
  have empty {part : List Char} (inside : part ⊆ cs) (all : ∀ c ∈ part, c.isDigit = true) : part = [] :=
    List.eq_nil_iff_forall_not_mem.mpr fun c member => absurd (all c member) (by simp [none c (inside member)])
  rcases shape with rfl | ⟨fraction,places,rfl⟩
  · exact absurd (empty (List.Subset.refl _) digits) filled
  · rw [empty (List.subset_append_left _ _) digits,empty (fun c member => by simp [member]) places]
    rfl

theorem blamedNumber {α : Type} [Numeral α] {limit : Nat} {r : Remaining} {lexeme : String} {spans : List Span}
    (blame : Grammar.Blame α limit r ⟨.invalidNumber lexeme,spans⟩) :
    (∃ span, ⟨.token (.number lexeme),span⟩ ∈ r.items) ∧
      (Numeral.ofLiteral lexeme : Except LiteralFault α) = .error .invalid := by
  generalize same : (⟨.invalidNumber lexeme,spans⟩ : Failure) = failure at blame
  cases blame with
  | @literal digits span fault member refused =>
    cases fault with
    | invalid =>
      cases same
      exact ⟨⟨span,member⟩,refused⟩
    | unsupported => cases same
  | _ => cases same

theorem invalidPoint {text : String} {limit : Nat} {extent : Extent} {lexeme : String} {spans : List Span}
    (failed : (parse limit extent text : Except Failure (Expr Float)) = .error ⟨.invalidNumber lexeme,spans⟩) :
    lexeme = "." := by
  obtain ⟨⟨span,member⟩,refused⟩ := blamedNumber (Grammar.parseBlamed failed)
  have bad := judgesReal.strict lexeme .invalid (itemsLiteral member) refused
  unfold missingDigits at bad
  split at bad
  · assumption
  · cases bad

/-- Every item of a text is the longest token word that begins at its place, of the one class the word is of, and a
name is a function exactly in front of a parenthesis; where no word begins, the character there is reported. So the
single point is the only number without a digit, and the only one that is refused over the real numbers. -/
theorem longestMatch (text : String) :
    (∀ item ∈ (Cursor.ofText text).items, ∃ before ahead, text.toList = before ++ ahead ∧
      utf8Length before = item.span.start ∧
      (Begun ahead → ∃ t k, item.result = .ok ⟨t,item.span⟩ ∧ Takes ahead k t) ∧
      (¬ Begun ahead → ∃ c rest, ahead = c :: rest ∧ item.result = .error ⟨.unexpectedCharacter c,[item.span]⟩)) ∧
    (∀ digits span, ⟨.token (.number digits),span⟩ ∈ (Cursor.ofText text).items →
      (∀ c ∈ digits.toList, c.isDigit = false) → digits = ".") ∧
    ∀ limit extent lexeme spans,
      (parse limit extent text : Except Failure (Expr Float)) = .error ⟨.invalidNumber lexeme,spans⟩ → lexeme = "." := by
  refine ⟨fun item member => ?_,fun digits span member none => ?_,fun _ _ _ _ failed => invalidPoint failed⟩
  · obtain ⟨before,c,rest,whole,start,piece⟩ := itemPlace member ⟨[],rfl,rfl⟩
    obtain ⟨found,span⟩ := item
    refine ⟨before,c :: rest,whole,start.symm,?_⟩
    rcases cutClass c rest with ⟨k,t,token,takes⟩ | ⟨none,stray⟩
    · cases piece.trans token
      exact ⟨fun _ => ⟨t,k,rfl,takes⟩,fun unbegun => absurd (takesBegun takes) unbegun⟩
    · cases piece.trans stray
      exact ⟨fun begun => absurd none (begunHead begun),fun _ => ⟨c,rest,rfl,rfl⟩⟩
  · exact String.toList_inj.mp (literalPoint (itemsLiteral member) none)

example : (Cursor.ofText "1.2.3 x_1(").items.map Item.piece = [.token (.number "1.2"),.token (.number ".3"),
    .token (.function "x_1"),.token .leftParen] := by decide +kernel

example : (parse 4 .whole "x+." : Except Failure (Expr Float)) = .error ⟨.invalidNumber ".",[⟨2,3⟩]⟩ := by
  with_unfolding_all rfl

end SymbolicCalculus
