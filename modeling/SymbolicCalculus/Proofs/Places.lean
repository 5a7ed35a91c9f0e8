import SymbolicCalculus.Proofs.Blame
import SymbolicCalculus.Proofs.LiteralFree
import SymbolicCalculus.Proofs.Partition

/-! The places that a failure points at lie in the text, and what stands there is what the failure says. This holds
of all failures that are met in one text, whatever has been asked for before. -/
namespace SymbolicCalculus

structure Lies (text : String) (span : Span) : Prop where
  ordered : span.start ≤ span.stop
  within : span.stop ≤ text.utf8ByteSize
  starts : String.Pos.Raw.IsValid text ⟨span.start⟩
  stops : String.Pos.Raw.IsValid text ⟨span.stop⟩

def Tokened (text : String) (span : Span) : Prop :=
  (∃ t, ⟨.token t,span⟩ ∈ (Cursor.ofText text).items) ∨ span = ⟨text.utf8ByteSize,text.utf8ByteSize⟩

def Cause.Tells (text : String) : Cause → List Span → Prop
  | .unexpectedCharacter c,[span] => Covers text span c.toString
  | .unexpectedEnd,[span] => span = ⟨text.utf8ByteSize,text.utf8ByteSize⟩
  | .unexpectedToken _ found,[span] => ∃ part, Covers text span part ∧ found = quoted part
  | .expectedToken _,[here,opening] => Tokened text here ∧ Covers text opening "(" ∧ opening.stop ≤ here.start
  | .expectedEnd,[span] => span.start < span.stop ∧ span.stop = text.utf8ByteSize
  | .unknownFunction name _,[span] => Covers text span name
  | .unsupportedLiteral _,[span] =>
      ∃ digits, ⟨.token (.number digits),span⟩ ∈ (Cursor.ofText text).items ∧ Covers text span digits
  | .invalidNumber lexeme,[span] => Covers text span lexeme
  | .nestingLimit _,[span] => Tokened text span
  | _,_ => False

structure Located (text : String) (failure : Failure) : Prop where
  labelled : failure.spans.length = failure.cause.labels.length
  lies : ∀ span ∈ failure.spans, Lies text span
  tells : failure.cause.Tells text failure.spans

section places
variable {text part : String} {span : Span}

theorem coversLies (covers : Covers text span part) : Lies text span :=
  ⟨Nat.le_of_lt covers.filled,covers.stops.le_utf8ByteSize,covers.starts,covers.stops⟩

theorem endLies : Lies text ⟨text.utf8ByteSize,text.utf8ByteSize⟩ :=
  ⟨Nat.le_refl _,Nat.le_refl _,String.Pos.Raw.isValid_rawEndPos,String.Pos.Raw.isValid_rawEndPos⟩

theorem tokenCovers {t : Token} (member : ⟨.token t,span⟩ ∈ (Cursor.ofText text).items) : Covers text span t.lexeme :=
  (textPartition text).tokens t span member

theorem tokenedLies (tokened : Tokened text span) : Lies text span := by
  rcases tokened with ⟨t,member⟩ | same
  · exact coversLies (tokenCovers member)
  · exact same ▸ endLies

theorem shownTokened {here : PlacedToken} (shown : (Remaining.ofText text).Shows here) : Tokened text here.span := by
  rcases shown with member | same
  · exact Or.inl ⟨_,member⟩
  · exact Or.inr (congrArg PlacedToken.span same)

theorem singleLocated {cause : Cause} (single : cause.labels.length = 1) (lies : Lies text span)
    (tells : cause.Tells text [span]) : Located text ⟨cause,[span]⟩ :=
  ⟨single.symm,by simpa using lies,tells⟩

theorem strayLocated {c : Char} (member : ⟨.stray c,span⟩ ∈ (Cursor.ofText text).items) :
    Located text ⟨.unexpectedCharacter c,[span]⟩ := by
  have covers := (textPartition text).strays c span member
  exact singleLocated rfl (coversLies covers) covers

theorem unclosedLocated {expected : String} {front behind : List Item} {opening : Span} {here : PlacedToken}
    (whole : (Cursor.ofText text).items = front ++ ⟨.token .leftParen,opening⟩ :: behind)
    (shown : (Remaining.mk behind text.utf8ByteSize).Shows here) :
    Located text ⟨.expectedToken expected,[here.span,opening]⟩ := by
  have covers : Covers text opening "(" :=
    tokenCovers (whole ▸ List.mem_append_right front List.mem_cons_self)
  have split : (Cursor.ofText text).items = (front ++ [⟨.token .leftParen,opening⟩]) ++ behind := by
    rw [whole,List.append_assoc,List.singleton_append]
  have tokened : Tokened text here.span := by
    refine shownTokened ?_
    rw [Remaining.ofText,split]
    exact showsBehind shown
  have before : opening.stop ≤ here.span.start := by
    rcases shown with member | same
    · have apart := (textPartition text).apart
      rw [whole] at apart
      obtain ⟨_,later,_⟩ := List.pairwise_append.mp apart
      exact (List.pairwise_cons.mp later).1 _ member
    · rw [same]
      exact (coversLies covers).within
  refine ⟨rfl,?_,tokened,covers,before⟩
  simpa using And.intro (tokenedLies tokened) (coversLies covers)

theorem blameLocated {α : Type} [Numeral α] {limit : Nat} {failure : Failure}
    (blame : Grammar.Blame α limit (Remaining.ofText text) failure) : Located text failure := by
  cases blame with
  | stray member => exact strayLocated member
  | @ended span shown =>
    rcases shown with member | same
    · exact absurd member ((textPartition text).endless span)
    · cases same
      exact singleLocated rfl endLies rfl
  | @misplaced t span member sign =>
    have covers := tokenCovers member
    refine singleLocated rfl (coversLies covers) ⟨t.lexeme,covers,?_⟩
    rcases sign with rfl | ⟨op,rfl⟩ <;> rfl
  | @literal digits span fault member refused =>
    have covers := tokenCovers member
    cases fault with
    | unsupported => exact singleLocated rfl (coversLies covers) ⟨digits,member,covers⟩
    | invalid => exact singleLocated rfl (coversLies covers) covers
  | unknown member unknown =>
    have covers := tokenCovers member
    exact singleLocated rfl (coversLies covers) covers
  | unclosed whole shown other => exact unclosedLocated whole shown
  | @unread t span member =>
    have covers := tokenCovers member
    have lies := coversLies covers
    have further : span.start < text.utf8ByteSize := Nat.lt_of_lt_of_le covers.filled lies.within
    exact singleLocated rfl ⟨Nat.le_of_lt further,Nat.le_refl _,lies.starts,endLies.stops⟩ ⟨further,rfl⟩
  | nested shown =>
    have tokened := shownTokened shown
    exact singleLocated rfl (tokenedLies tokened) tokened

end places

section replays
variable {σ γ β : Type} {answer : γ → σ → β × σ}

theorem replayKeeps {kept : σ → Prop} {good : β → Prop}
    (step : ∀ request now, kept now → good (answer request now).1 ∧ kept (answer request now).2) (moves : List (Move γ))
    {now saved : σ} (here : kept now) (there : kept saved) :
    ∀ found, some found ∈ replay answer moves now saved → good found := by
  induction moves generalizing now saved with
  | nil => simp [replay]
  | cons move moves ih =>
    intro found member
    cases move with
    | call request =>
      obtain ⟨right,next⟩ := step request now here
      rcases List.mem_cons.mp member with same | later
      · cases same
        exact right
      · exact ih next there found later
    | save =>
      rcases List.mem_cons.mp member with same | later
      · cases same
      · exact ih here here found later
    | restore =>
      rcases List.mem_cons.mp member with same | later
      · cases same
      · exact ih there there found later

end replays

section lexer
variable {text : String}

theorem resultLocated {item : Item} {failure : Failure} (member : item ∈ (Cursor.ofText text).items)
    (failed : item.result = .error failure) : Located text failure := by
  obtain ⟨piece,span⟩ := item
  cases piece with
  | token t => cases failed
  | stray c =>
    cases failed
    exact strayLocated member

def Cursor.Along (text : String) (cursor : Cursor) : Prop := ∃ before, (Cursor.ofText text).items = before ++ cursor.items

def LexerAnswer.Placed (text : String) (answer : LexerAnswer) : Prop :=
  ∀ failure, answer = .found (.error failure) → Located text failure

theorem placedAhead {cursor after : Cursor} {item : Item} (along : cursor.Along text)
    (found : cursor.next = some (item,after)) :
    (LexerAnswer.found item.result).Placed text ∧ after.Along text := by
  obtain ⟨before,whole⟩ := along
  rw [itemsAhead found] at whole
  have member : item ∈ (Cursor.ofText text).items := whole ▸ List.mem_append_right before List.mem_cons_self
  exact ⟨fun _ failed => resultLocated member (LexerAnswer.found.inj failed),before ++ [item],
    by rw [whole,List.append_assoc,List.singleton_append]⟩

theorem lexerPlaced (request : LexerCall) (lexer : Lexer) (along : lexer.cursor.Along text) :
    (lexerAnswer text request lexer).1.Placed text ∧ (lexerAnswer text request lexer).2.cursor.Along text := by
  cases request with
  | source => exact ⟨fun _ failed => (by cases failed),along⟩
  | nextToken =>
    cases found : lexer.cursor.next with
    | none =>
      simp only [lexerAnswer,tokenEnd found]
      exact ⟨fun _ failed => (by cases failed),along⟩
    | some pair =>
      simp only [lexerAnswer,tokenAhead found]
      exact placedAhead along found
  | iterate =>
    cases ended : lexer.finished with
    | true =>
      simp only [lexerAnswer,iterateFinished ended]
      exact ⟨fun _ failed => (by cases failed),along⟩
    | false =>
      cases found : lexer.cursor.next with
      | none =>
        simp only [lexerAnswer,iterateEnd found]
        exact ⟨fun _ failed => (by cases failed),along⟩
      | some pair =>
        simp only [lexerAnswer,iterateAhead found ended]
        exact placedAhead along found

end lexer

section parser
open Grammar
variable {α β σ : Type} {text : String} {limit : Nat} {r after : Remaining} {failure : Failure}

def ParserAnswer.Fails (good : Failure → Prop) (answer : ParserAnswer α) : Prop :=
  ∀ failure, answer = .failed failure → good failure

def ParserAnswer.Placed (text : String) : ParserAnswer α → Prop := ParserAnswer.Fails (Located text)

theorem answeredFailed {wrap : β → ParserAnswer α} {result : EStateM.Result Failure σ β}
    (other : ∀ b, wrap b ≠ .failed failure) (failed : (answered wrap result).1 = .failed failure) :
    ∃ after, result = .error failure after := by
  cases result with
  | ok b after => exact absurd failed (other b)
  | error _ after =>
    cases failed
    exact ⟨after,rfl⟩

theorem answeredHalt (wrap : β → ParserAnswer α) (result : EStateM.Result Failure σ β) :
    (answered wrap result).2 = halt result := by cases result <;> rfl

theorem peekLeaves (r : Remaining) : r.Leaves (halt (Grammar.peek r)) := by
  obtain ⟨items,stop⟩ := r
  rcases items with _ | ⟨⟨piece,span⟩,items⟩
  · exact leavesSame _
  cases piece with
  | token t => exact leavesSame _
  | stray c => exact ⟨[_],rfl⟩

theorem nextLeaves (r : Remaining) : r.Leaves (halt (Grammar.next r)) := by
  obtain ⟨items,stop⟩ := r
  rcases items with _ | ⟨⟨piece,span⟩,items⟩
  · exact leavesSame _
  cases piece with
  | token t | stray c => exact ⟨[_],rfl⟩

variable [Numeral α]

theorem peekBlamed (failed : Grammar.peek r = .error failure after) : Blame α limit r failure := by
  obtain ⟨items,stop⟩ := r
  rcases items with _ | ⟨⟨piece,span⟩,items⟩
  · cases failed
  cases piece with
  | token t => cases failed
  | stray c =>
    cases failed
    exact .stray List.mem_cons_self

theorem nextBlamed (failed : Grammar.next r = .error failure after) : Blame α limit r failure := by
  rcases bindFailed failed with inner | ⟨_,_,_,taken⟩
  · exact peekBlamed inner
  · cases taken

theorem answerBlamed (cut : WellCut r.items) (request : ParserCall)
    (failed : (r.answer (α := α) limit text request).1 = .failed failure) : Blame α limit r failure := by
  cases request with
  | peek =>
    obtain ⟨after,stray⟩ := answeredFailed (by simp) failed
    exact peekBlamed stray
  | nextToken =>
    obtain ⟨after,stray⟩ := answeredFailed (by simp) failed
    exact nextBlamed stray
  | parse extent =>
    obtain ⟨after,refused⟩ := answeredFailed (by simp) failed
    exact readBlamed extent r failure after cut refused
  | source => cases failed

theorem answerLeaves (request : ParserCall) : r.Leaves (r.answer (α := α) limit text request).2 := by
  cases request with
  | peek => exact answeredHalt (α := α) .token _ ▸ peekLeaves r
  | nextToken => exact answeredHalt (α := α) .token _ ▸ nextLeaves r
  | parse extent => exact answeredHalt (α := α) .tree _ ▸ readLeaves limit extent r
  | source => exact leavesSame r

def Parser.Along (text : String) (p : Parser) : Prop :=
  ∃ r, At text.toList 0 0 p r ∧ (Remaining.ofText text).Leaves r

theorem parserBlamed (limit : Nat) (request : ParserCall) (p : Parser) (along : p.Along text) :
    (parserAnswer (α := α) limit text request p).1.Fails (Blame α limit (Remaining.ofText text)) ∧
      (parserAnswer (α := α) limit text request p).2.Along text := by
  obtain ⟨r,here,taken,whole⟩ := along
  obtain ⟨same,there⟩ := answerFresh (α := α) limit request here
  refine ⟨fun failure failed => ?_,_,there,leavesFurther ⟨taken,whole⟩ (answerLeaves request)⟩
  have split : (Cursor.ofText text).items = taken ++ r.items := congrArg Remaining.items whole
  have cut : WellCut (taken ++ r.items) := split ▸ wellCutText text
  have blame := answerBlamed (α := α) (wellCutBehind taken cut) request (same.symm.trans failed)
  exact whole ▸ blameBehind taken blame

theorem parserPlaced (limit : Nat) (request : ParserCall) (p : Parser) (along : p.Along text) :
    (parserAnswer (α := α) limit text request p).1.Placed text ∧
      (parserAnswer (α := α) limit text request p).2.Along text :=
  (parserBlamed limit request p along).imp_left fun blamed failure failed => blameLocated (blamed failure failed)

end parser

theorem freshAlong (text : String) : (Parser.ofText text).Along text := ⟨_,freshAt text,leavesSame _⟩

section failures
variable {text : String} {good : Failure → Prop}

theorem repliesBlamed (limit : Nat)
    (right : ∀ {α : Type} [Numeral α] {failure}, Grammar.Blame α limit (Remaining.ofText text) failure → good failure)
    (queries : List Query) {p : Parser} (along : p.Along text) :
    ∀ reply ∈ p.replies limit text queries, reply.2.Fails good := by
  induction queries generalizing p with
  | nil => simp [Parser.replies]
  | cons query queries ih =>
    obtain ⟨scalar,numeral,request⟩ := query
    obtain ⟨blamed,next⟩ := parserBlamed (α := scalar) limit request p along
    intro reply member
    rcases List.mem_cons.mp member with same | later
    · exact same ▸ fun failure failed => right (blamed failure failed)
    · exact ih next reply later

theorem readingBlamed
    (right : ∀ {α : Type} [Numeral α] {limit failure}, Grammar.Blame α limit (Remaining.ofText text) failure →
      good failure) :
    (∀ {α : Type} [Numeral α] (limit : Nat) (extent : Extent) (failure : Failure),
      (parse limit extent text : Except Failure (Expr α)) = .error failure → good failure) ∧
    (∀ {α : Type} [Numeral α] (limit : Nat) (moves : List (Move ParserCall)) (failure : Failure),
      some (.failed failure) ∈ parserReplay α limit text moves → good failure) ∧
    ∀ (limit : Nat) (queries : List Query), ∀ reply ∈ (Parser.ofText text).replies limit text queries,
      ∀ failure, reply.2 = .failed failure → good failure := by
  refine ⟨fun limit extent failure failed => right (Grammar.parseBlamed failed),?_,
    fun limit queries => repliesBlamed limit right queries (freshAlong text)⟩
  intro α _ limit moves failure member
  have step (request : ParserCall) (now : Parser) (along : now.Along text) :
      (parserAnswer (α := α) limit text request now).1.Fails good ∧
        (parserAnswer (α := α) limit text request now).2.Along text :=
    (parserBlamed limit request now along).imp_left fun blamed failure failed => right (blamed failure failed)
  exact replayKeeps step moves (freshAlong text) (freshAlong text) _ member failure rfl

end failures

theorem repliesPlaced (limit : Nat) {text : String} (queries : List Query) {p : Parser} (along : p.Along text) :
    ∀ reply ∈ p.replies limit text queries, reply.2.Placed text :=
  repliesBlamed limit blameLocated queries along

/-- A failure has as many places as labels for them, and each of them begins and ends between two characters of the
text. What stands there is what the failure says: the character that starts no token, the name that is no function,
the number that is refused or invalid, the token that is out of place, all that is left behind an expression, the
parenthesis that is not closed and the token or end before which it should be, and the end of the text where that
comes too early. So it is for each failure of an expression, for each one of the lexer, and for each one of a parser
that is used call by call, over whatever numbers, and is taken back to places where it was before. -/
theorem failuresLocated (text : String) :
    (∀ {α : Type} [Numeral α] (limit : Nat) (extent : Extent) (failure : Failure),
      (parse limit extent text : Except Failure (Expr α)) = .error failure → Located text failure) ∧
    (∀ (moves : List (Move LexerCall)) (failure : Failure),
      some (.found (.error failure)) ∈ lexerReplay text moves → Located text failure) ∧
    (∀ {α : Type} [Numeral α] (limit : Nat) (moves : List (Move ParserCall)) (failure : Failure),
      some (.failed failure) ∈ parserReplay α limit text moves → Located text failure) ∧
    ∀ (limit : Nat) (queries : List Query), ∀ reply ∈ (Parser.ofText text).replies limit text queries,
      ∀ failure, reply.2 = .failed failure → Located text failure := by
  have fresh : (Parser.ofText text).Along text := ⟨_,freshAt text,leavesSame _⟩
  refine ⟨fun limit extent failure failed => blameLocated (Grammar.parseBlamed failed),?_,?_,
    fun limit queries => repliesPlaced limit queries fresh⟩
  · intro moves failure member
    have start : (Lexer.ofText text).cursor.Along text := ⟨[],rfl⟩
    exact replayKeeps lexerPlaced moves start start _ member failure rfl
  · intro α _ limit moves failure member
    exact replayKeeps (parserPlaced limit) moves fresh fresh _ member failure rfl

theorem failuresLocatedStray :
    (parse 3 .whole "é(x" : Except Failure (Expr Float)) = .error ⟨.unexpectedCharacter 'é',[⟨0,2⟩]⟩ ∧
    some (.failed ⟨.expectedToken ")",[⟨4,4⟩,⟨2,3⟩]⟩) ∈ parserReplay Float 3 "é(x" [.call .peek,.call (.parse .first)] ∧
    Covers "é(x" ⟨0,2⟩ "é" ∧ Covers "é(x" ⟨2,3⟩ "(" := by
  have refused : (parse 3 .whole "é(x" : Except Failure (Expr Float)) =
      .error ⟨.unexpectedCharacter 'é',[⟨0,2⟩]⟩ := by decide +kernel
  have answers : parserReplay Float 3 "é(x" [.call .peek,.call (.parse .first)] =
      [some (.failed ⟨.unexpectedCharacter 'é',[⟨0,2⟩]⟩),some (.failed ⟨.expectedToken ")",[⟨4,4⟩,⟨2,3⟩]⟩)] := by cbv
  have member : some (.failed ⟨.expectedToken ")",[⟨4,4⟩,⟨2,3⟩]⟩) ∈
      parserReplay Float 3 "é(x" [.call .peek,.call (.parse .first)] := by simp [answers]
  have stray := ((failuresLocated "é(x").1 3 .whole _ refused).tells
  have unclosed := ((failuresLocated "é(x").2.2.1 3 _ _ member).tells
  exact ⟨refused,member,stray,unclosed.2.1⟩

end SymbolicCalculus
