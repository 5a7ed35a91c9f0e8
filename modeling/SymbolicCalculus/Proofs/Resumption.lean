import SymbolicCalculus.Proofs.Buffering
import SymbolicCalculus.Replay

/-! A parser that has been used, with or without failures, goes on like a fresh one on the text that is left.
Both do what the reading of the grammar does on the items that are left, each with its own places. -/
namespace SymbolicCalculus

section following
variable {α β γ : Type}

structure At (text : List Char) (k depth : Nat) (p : Parser) (r : Remaining) : Prop where
  stands : p.Stands text
  level : p.depth = depth
  left : p.remaining = r.shift k

inductive Alike (text : List Char) (k depth : Nat) (move : β → β) :
    EStateM.Result Failure Parser β → EStateM.Result Failure Remaining β → Prop where
  | ok {p r} (b : β) (here : At text k depth p r) : Alike text k depth move (.ok (move b) p) (.ok b r)
  | error {p r} (failure : Failure) (here : At text k depth p r) :
      Alike text k depth move (.error (failure.shift k) p) (.error failure r)

/- Where the parser stands as the reading does, both go on alike. Some steps are only taken when a token has
been seen, which the parser then keeps. -/
def Follows (text : List Char) (k depth : Nat) (seen : Bool) (move : β → β) (m : EStateM Failure Parser β)
    (f : Reading β) : Prop :=
  ∀ p r, At text k depth p r → (seen = true → p.buffered.isSome = true) → Alike text k depth move (m p) (f r)

variable {text : List Char} {k depth : Nat} {seen : Bool} {move : β → β} {last : γ → γ}

theorem followsPure (b : β) : Follows text k depth seen move (pure (move b)) (pure b) :=
  fun _ _ here _ => .ok b here

theorem followsFail (cause : Cause) (spans : List Span) :
    Follows text k depth seen move (Grammar.fail cause (spans.map (Span.shift k))) (Grammar.fail cause spans) :=
  fun _ _ here _ => .error ⟨cause,spans⟩ here

theorem followsBind {m : EStateM Failure Parser β} {f : Reading β} {l : β → EStateM Failure Parser γ}
    {g : β → Reading γ} (first : Follows text k depth seen move m f)
    (second : ∀ b, Follows text k depth false last (l (move b)) (g b)) :
    Follows text k depth seen last (m >>= l) (f >>= g) := by
  intro p r here ready
  have alike := first p r here ready
  simp only [bind,EStateM.bind]
  generalize m p = above at alike
  generalize f r = below at alike
  cases alike with
  | ok b there => exact second b _ _ there (fun never => by cases never)
  | error failure there => exact .error failure there

theorem peekShift (k : Nat) (r : Remaining) :
    (∃ here, Grammar.peek r = .ok here r ∧ Grammar.peek (r.shift k) = .ok (here.shift k) (r.shift k)) ∨
    ∃ failure after, Grammar.peek r = .error failure after ∧
      Grammar.peek (r.shift k) = .error (failure.shift k) (after.shift k) := by
  obtain ⟨items,stop⟩ := r
  rcases items with _ | ⟨⟨piece,span⟩,items⟩
  · exact Or.inl ⟨_,rfl,rfl⟩
  cases piece with
  | token t => exact Or.inl ⟨_,rfl,rfl⟩
  | stray c => exact Or.inr ⟨_,_,rfl,rfl⟩

theorem peekAlike {p : Parser} {r : Remaining} (here : At text k depth p r) :
    (∃ found q, Parser.peek p = .ok (found.shift k) q ∧ Grammar.peek r = .ok found r ∧ At text k depth q r ∧
      q.buffered.isSome = true) ∨
    ∃ failure q after, Parser.peek p = .error (failure.shift k) q ∧ Grammar.peek r = .error failure after ∧
      At text k depth q after := by
  rcases Parser.peekKept here.stands with ⟨_,q,above,below,stands,left,level,kept⟩ | ⟨_,q,above,below,stands,level⟩ <;>
    rw [here.left] at below <;>
    rcases peekShift k r with ⟨found,seen,moved⟩ | ⟨failure,after,seen,moved⟩
  · cases below.symm.trans moved
    exact Or.inl ⟨found,q,above,seen,⟨stands,level.trans here.level,left.trans here.left⟩,by rw [kept]; rfl⟩
  · cases below.symm.trans moved
  · cases below.symm.trans moved
  · obtain ⟨same,left⟩ := EStateM.Result.error.inj (below.symm.trans moved)
    exact Or.inr ⟨failure,q,after,by rw [above,same],seen,⟨stands,level.trans here.level,left⟩⟩

theorem followsPeek {l : PlacedToken → EStateM Failure Parser γ} {g : PlacedToken → Reading γ}
    (next : ∀ here, Follows text k depth true last (l (here.shift k)) (g here)) :
    Follows text k depth seen last (Supply.peek >>= l) (Supply.peek >>= g) := by
  intro p r here _
  rcases peekAlike here with ⟨found,q,above,below,there,kept⟩ | ⟨failure,q,after,above,below,there⟩
  · have upper : (Supply.peek >>= l) p = l (found.shift k) q := bindRuns above
    have lower : (Supply.peek >>= g) r = g found r := bindRuns below
    rw [upper,lower]
    exact next found q r there (fun _ => kept)
  · have upper : (Supply.peek >>= l) p = .error (failure.shift k) q := bindFails above
    have lower : (Supply.peek >>= g) r = .error failure after := bindFails below
    rw [upper,lower]
    exact .error failure there

theorem advanceFollows : Follows text k depth true id Supply.advance Supply.advance := by
  intro p r here ready
  obtain ⟨found,kept⟩ := Option.isSome_iff_exists.mp (ready rfl)
  obtain ⟨stands,left⟩ := Parser.advanceKept here.stands kept
  refine .ok () ⟨stands,here.level,?_⟩
  rw [left,here.left]
  simp [Remaining.shift]

theorem nextFollows : Follows text k depth seen (PlacedToken.shift k) Grammar.next Grammar.next :=
  followsPeek (fun here => followsBind advanceFollows (fun _ => followsPure here))

theorem followsNext {l : PlacedToken → EStateM Failure Parser γ} {g : PlacedToken → Reading γ}
    (next : ∀ here, Follows text k depth false last (l (here.shift k)) (g here)) :
    Follows text k depth seen last (Grammar.next >>= l) (Grammar.next >>= g) := followsBind nextFollows next

end following

section grammar
open Grammar
variable {α : Type} {text : List Char} {k depth : Nat} {seen : Bool}

theorem expectCloseFollows (opening : Span) :
    Follows text k depth seen id (expectClose (opening.shift k)) (expectClose opening) := by
  refine followsPeek (fun here => ?_)
  obtain ⟨token,span⟩ := here
  cases token with
  | rightParen => exact advanceFollows
  | _ => exact followsFail _ [span,opening]

theorem callFollows (name : String) (span : Span) (operand : Expr α) :
    Follows text k depth seen id (call name (span.shift k) operand) (call name span operand) := by
  unfold call
  cases UnaryOp.ofName? name with
  | some f => exact followsPure _
  | none => exact followsFail _ [span]

theorem refuseFollows (limit : Nat) :
    Follows text k depth seen id (refuse limit : EStateM Failure Parser (Expr α)) (refuse limit) :=
  followsPeek (fun here => followsFail _ [here.span])

theorem closedFollows {m : EStateM Failure Parser (Expr α)} {f : Reading (Expr α)} (opening : Span)
    (follows : Follows text k depth seen id m f) :
    Follows text k depth seen id (m >>= fun e => expectClose (opening.shift k) >>= fun _ => pure e)
      (f >>= fun e => expectClose opening >>= fun _ => pure e) :=
  followsBind follows (fun e => followsBind (expectCloseFollows opening) (fun _ => followsPure e))

theorem chainFollows {limit : Nat} {joins : BinaryOp → Bool} {m : EStateM Failure Parser (Expr α)} {f : Reading (Expr α)}
    (follows : Follows text k depth false id m f) (left : Expr α) :
    ∀ {seen}, Follows text k depth seen id (chain limit joins m left) (chain limit joins f left) := by
  induction left using chain.induct limit with
  | case1 left ih =>
    intro seen
    rw [chain,chain]
    refine followsPeek (fun here => ?_)
    have same : (here.shift k).token = here.token := rfl
    rw [same]
    cases here.token.operator?.filter joins with
    | none => exact followsPure left
    | some op =>
      refine followsBind advanceFollows (fun _ => followsBind follows (fun right => ?_))
      simp only [id]
      split
      · exact followsFail _ [here.span]
      · rename_i fits
        exact ih op right fits

theorem nestedFollows {limit : Nat} {m : EStateM Failure Parser (Expr α)} {f : Reading (Expr α)} (room : depth < limit)
    (follows : Follows text k (depth + 1) false id m f) : Follows text k depth seen id (Parser.nested limit m) f := by
  intro p r here _
  have level := here.level
  have deeper : At text k (depth + 1) { p with depth := p.depth + 1 } r :=
    ⟨⟨here.stands.within,here.stands.kept⟩,by rw [← level],here.left⟩
  have alike := follows _ r deeper (fun never => by cases never)
  unfold Parser.nested
  rw [if_neg (by omega)]
  generalize m { p with depth := p.depth + 1 } = upper at alike
  generalize f r = lower at alike
  -- The level is closed again on both ways out.
  cases alike with
  | ok e there => exact .ok e ⟨⟨there.stands.within,there.stands.kept⟩,by simp [there.level],there.left⟩
  | error failure there =>
    exact .error failure ⟨⟨there.stands.within,there.stands.kept⟩,by simp [there.level],there.left⟩

theorem nestedFull {limit : Nat} {m : EStateM Failure Parser (Expr α)} (full : limit ≤ depth) :
    Follows text k depth seen id (Parser.nested limit m) (refuse limit) := by
  intro p r here ready
  unfold Parser.nested
  rw [if_pos (by rw [here.level]; exact full)]
  exact refuseFollows limit p r here ready

theorem readFollows {m : EStateM Failure Parser (Expr α)} {f : Reading (Expr α)} (extent : Extent)
    (follows : Follows text k depth seen id m f) : Follows text k depth seen id (extent.read m) (extent.read f) := by
  cases extent with
  | first => exact follows
  | whole =>
    refine followsBind follows (fun e => followsPeek (fun here => ?_))
    obtain ⟨token,span⟩ := here
    cases token with
    | endOfInput => exact followsPure e
    | _ =>
      intro p r here _
      have stop : p.cursor.stop = r.stop + k := by
        rw [← Parser.untakenStop here.stands]
        exact congrArg Remaining.stop here.left
      have moved : (⟨span.start + k,p.cursor.stop⟩ : Span) = Span.shift k ⟨span.start,r.stop⟩ := by rw [stop]; rfl
      change Alike text k depth id (.error ⟨.expectedEnd,[⟨span.start + k,p.cursor.stop⟩]⟩ p) _
      rw [moved]
      exact .error ⟨.expectedEnd,[⟨span.start,r.stop⟩]⟩ here

variable [Numeral α]

theorem numberFollows (digits : String) (span : Span) :
    Follows text k depth seen id (number digits (span.shift k) : EStateM Failure Parser (Expr α)) (number digits span) := by
  unfold number
  cases (Numeral.ofLiteral digits : Except LiteralFault α) with
  | ok value => exact followsPure _
  | error fault => cases fault <;> exact followsFail _ [span]

section level
variable {limit : Nat} {above : Nested → EStateM Failure Parser (Expr α)} {below : Nested → Reading (Expr α)}

def Nests (text : List Char) (k depth : Nat) (above : Nested → EStateM Failure Parser (Expr α))
    (below : Nested → Reading (Expr α)) : Prop :=
  ∀ part, Follows text k depth false id (above part) (below part)

theorem primaryFollows (nests : Nests text k depth above below) :
    Follows text k depth seen id (primary above) (primary below) := by
  refine followsNext (fun here => ?_)
  obtain ⟨token,span⟩ := here
  cases token with
  | number digits => exact numberFollows digits span
  | «variable» name => exact followsPure _
  | function name => exact followsBind (nests .argument) (callFollows name span)
  | operator op =>
    cases op with
    | sub => exact followsBind (nests .operand) (fun e => followsPure (Expr.unary .neg e))
    | _ => exact followsFail _ [span]
  | leftParen => exact closedFollows span (nests .group)
  | rightParen => exact followsFail _ [span]
  | endOfInput => exact followsFail _ [span]

theorem factorFollows (nests : Nests text k depth above below) :
    Follows text k depth seen id (factor above) (factor below) := by
  refine followsBind (primaryFollows nests) (fun base => followsPeek (fun here => ?_))
  obtain ⟨token,span⟩ := here
  cases token with
  | operator op =>
    cases op with
    | pow =>
      refine followsBind advanceFollows (fun _ => ?_)
      exact followsBind (nests .exponent) (fun e => followsPure (Expr.binary .pow base e))
    | _ => exact followsPure base
  | _ => exact followsPure base

theorem termFollows (nests : Nests text k depth above below) :
    Follows text k depth seen id (term limit above) (term limit below) :=
  followsBind (factorFollows nests) (fun first => chainFollows (factorFollows nests) first)

theorem expressionFollows (nests : Nests text k depth above below) :
    Follows text k depth seen id (expression limit above) (expression limit below) :=
  followsBind (termFollows nests) (fun first => chainFollows (termFollows nests) first)

theorem argumentFollows (nests : Nests text k depth above below) :
    Follows text k depth seen id (argument limit above) (argument limit below) := by
  refine followsNext (fun here => ?_)
  obtain ⟨token,span⟩ := here
  cases token with
  | leftParen => exact closedFollows span (expressionFollows nests)
  | _ => exact followsFail _ [span]

theorem partFollows (nests : Nests text k depth above below) : Nests text k depth (part limit above) (part limit below) := by
  intro nested
  cases nested with
  | group => exact expressionFollows nests
  | argument => exact argumentFollows nests
  | exponent => exact factorFollows nests
  | operand => exact primaryFollows nests

end level

theorem insideFollows {limit room : Nat} (levels : depth + room = limit) :
    Nests text k depth (Parser.inside limit (room + 1) : Nested → EStateM Failure Parser (Expr α)) (inside limit room) := by
  induction room generalizing depth with
  | zero => exact fun part => nestedFull (by omega)
  | succ room ih => exact fun part => nestedFollows (by omega) (partFollows (ih (by omega)) part)

theorem readExpressionFollows (limit : Nat) (extent : Extent) : Follows text k 0 false id
    (Parser.readExpression limit extent : EStateM Failure Parser (Expr α)) (readExpression limit extent) :=
  readFollows extent (expressionFollows (insideFollows (Nat.zero_add limit)))

end grammar

section answers
variable {α : Type}

def ParserAnswer.shift (before : String) : ParserAnswer α → ParserAnswer α
  | .token found => .token (found.shift before.utf8ByteSize)
  | .tree e => .tree e
  | .failed failure => .failed (failure.shift before.utf8ByteSize)
  | .source text => .source (before ++ text)

theorem shiftNone (answer : ParserAnswer α) : answer.shift "" = answer := by
  cases answer with
  | token | tree => rfl
  | failed failure =>
    have same : Span.shift 0 = id := rfl
    simp [ParserAnswer.shift,Failure.shift,same]
  | source text => simp [ParserAnswer.shift]

variable [Numeral α]

def Remaining.answer (limit : Nat) (text : String) (request : ParserCall) (r : Remaining) : ParserAnswer α × Remaining :=
  match request with
  | .peek => answered .token (Grammar.peek r)
  | .nextToken => answered .token (Grammar.next r)
  | .parse extent => answered .tree (readExpression limit extent r)
  | .source => (.source text,r)

omit [Numeral α] in
theorem answeredAlike {β : Type} {text : List Char} {before : String} {move : β → β} {wrap : β → ParserAnswer α}
    {above : EStateM.Result Failure Parser β} {below : EStateM.Result Failure Remaining β}
    (moved : ∀ b, wrap (move b) = (wrap b).shift before)
    (alike : Alike text before.utf8ByteSize 0 move above below) :
    (answered wrap above).1 = (answered wrap below).1.shift before ∧
      At text before.utf8ByteSize 0 (answered wrap above).2 (answered wrap below).2 := by
  cases alike with
  | ok b here => exact ⟨moved b,here⟩
  | error failure here => exact ⟨rfl,here⟩

theorem answerAlike (limit : Nat) {before rest : String} (request : ParserCall) {p : Parser} {r : Remaining}
    (here : At (before ++ rest).toList before.utf8ByteSize 0 p r) :
    (parserAnswer limit (before ++ rest) request p : ParserAnswer α × Parser).1 =
        (r.answer limit rest request).1.shift before ∧
      At (before ++ rest).toList before.utf8ByteSize 0 (parserAnswer (α := α) limit (before ++ rest) request p).2
        (r.answer (α := α) limit rest request).2 := by
  have unseen (never : false = true) : p.buffered.isSome = true := by cases never
  cases request with
  | peek =>
    rcases peekAlike here with ⟨found,q,above,below,there,_⟩ | ⟨failure,q,after,above,below,there⟩
    · simp only [parserAnswer,Remaining.answer,above,below]
      exact ⟨rfl,there⟩
    · simp only [parserAnswer,Remaining.answer,above,below]
      exact ⟨rfl,there⟩
  | nextToken => exact answeredAlike (fun _ => rfl) (nextFollows p r here unseen)
  | parse extent =>
    exact answeredAlike (fun _ => rfl) (readExpressionFollows limit extent p r here unseen)
  | source => exact ⟨rfl,here⟩

omit [Numeral α] in
theorem emptyBefore {text : String} {p : Parser} {r : Remaining} (here : At text.toList 0 0 p r) :
    At ("" ++ text).toList "".utf8ByteSize 0 p r := by rwa [String.empty_append]

theorem answerFresh (limit : Nat) {text : String} (request : ParserCall) {p : Parser} {r : Remaining}
    (here : At text.toList 0 0 p r) :
    (parserAnswer limit text request p : ParserAnswer α × Parser).1 = (r.answer limit text request).1 ∧
      At text.toList 0 0 (parserAnswer (α := α) limit text request p).2 (r.answer (α := α) limit text request).2 := by
  have alike := answerAlike (α := α) limit request (emptyBefore here)
  rwa [String.empty_append,shiftNone] at alike

end answers

structure Query where
  scalar : Type
  numeral : Numeral scalar
  request : ParserCall

abbrev Reply := Σ scalar : Type, ParserAnswer scalar

def Reply.shift (before : String) (reply : Reply) : Reply := ⟨reply.1,reply.2.shift before⟩

namespace Parser

def reply (limit : Nat) (text : String) (query : Query) (p : Parser) : Reply × Parser :=
  let answer := @parserAnswer query.scalar query.numeral limit text query.request p
  (⟨query.scalar,answer.1⟩,answer.2)

def replies (limit : Nat) (text : String) : List Query → Parser → List Reply
  | [],_ => []
  | query :: rest,p => (p.reply limit text query).1 :: replies limit text rest (p.reply limit text query).2

def used (limit : Nat) (text : String) : List Query → Parser → Parser
  | [],p => p
  | query :: rest,p => used limit text rest (p.reply limit text query).2

def place (p : Parser) : Nat :=
  match p.buffered with
  | some here => here.span.start
  | none => p.cursor.offset

theorem placeUntaken (p : Parser) : p.place = p.untaken.offset := by
  unfold place untaken
  cases p.buffered <;> rfl

end Parser

def Remaining.reply (limit : Nat) (text : String) (query : Query) (r : Remaining) : Reply × Remaining :=
  let answer := @Remaining.answer query.scalar query.numeral limit text query.request r
  (⟨query.scalar,answer.1⟩,answer.2)

def Remaining.replies (limit : Nat) (text : String) : List Query → Remaining → List Reply
  | [],_ => []
  | query :: rest,r => (r.reply limit text query).1 :: replies limit text rest (r.reply limit text query).2

section runs
variable (limit : Nat) {before rest : String} {p : Parser} {r : Remaining}

theorem replyAlike (query : Query) (here : At (before ++ rest).toList before.utf8ByteSize 0 p r) :
    (p.reply limit (before ++ rest) query).1 = (r.reply limit rest query).1.shift before ∧
      At (before ++ rest).toList before.utf8ByteSize 0 (p.reply limit (before ++ rest) query).2
        (r.reply limit rest query).2 := by
  obtain ⟨scalar,numeral,request⟩ := query
  obtain ⟨same,there⟩ := answerAlike (α := scalar) limit request here
  exact ⟨congrArg (Sigma.mk scalar) same,there⟩

theorem repliesAlike (queries : List Query) (here : At (before ++ rest).toList before.utf8ByteSize 0 p r) :
    p.replies limit (before ++ rest) queries = (r.replies limit rest queries).map (Reply.shift before) := by
  induction queries generalizing p r with
  | nil => rfl
  | cons query queries ih =>
    obtain ⟨same,there⟩ := replyAlike limit query here
    simp only [Parser.replies,Remaining.replies,List.map_cons,same,ih there]

theorem usedStands (made : List Query) {text : String} (here : At text.toList 0 0 p r) :
    ∃ left, At text.toList 0 0 (p.used limit text made) left := by
  induction made generalizing p r with
  | nil => exact ⟨r,here⟩
  | cons query made ih =>
    obtain ⟨scalar,numeral,request⟩ := query
    exact ih (answerFresh (α := scalar) limit request here).2

theorem freshAt (text : String) : At text.toList 0 0 (Parser.ofText text) (Remaining.ofText text) := by
  refine ⟨Parser.standsFresh text,rfl,?_⟩
  have same : Item.shift 0 = id := rfl
  simp [Parser.remainingFresh,Remaining.shift,same]

theorem freshReplies (text : String) (queries : List Query) :
    (Parser.ofText text).replies limit text queries = (Remaining.ofText text).replies limit text queries := by
  have alike := repliesAlike limit queries (emptyBefore (freshAt text))
  have same : Reply.shift "" = id := funext (fun reply => congrArg (Sigma.mk reply.1) (shiftNone reply.2))
  rwa [String.empty_append,same,List.map_id] at alike

end runs

theorem freshParses {α : Type} [Numeral α] (limit : Nat) (extent : Extent) (text : String) :
    (parserAnswer (α := α) limit text (.parse extent) (Parser.ofText text)).1 =
      match (parse limit extent text : Except Failure (Expr α)) with
      | .ok e => .tree e
      | .error failure => .failed failure := by
  have replied := freshReplies limit text [⟨α,inferInstance,.parse extent⟩]
  simp only [Parser.replies,Remaining.replies,Parser.reply,Remaining.reply,List.cons.injEq,and_true,Sigma.mk.injEq,
    heq_eq_eq,true_and,Remaining.answer] at replied
  rw [replied]
  unfold parse
  cases readExpression (α := α) limit extent (Remaining.ofText text) <;> rfl

theorem leftAsText (cursor : Cursor) :
    (⟨cursor.items,cursor.stop⟩ : Remaining) = (Remaining.ofText (String.ofList cursor.rest)).shift cursor.offset := by
  have moved := itemsShift ⟨cursor.rest,0⟩ cursor.offset
  rw [Nat.zero_add] at moved
  simp only [Remaining.shift,Remaining.ofText,Cursor.ofText,String.toList_ofList,← utf8LengthBytes,← moved,Cursor.stop,
    Nat.add_comm]

/-- A parser that has been used goes on as a new one would on what is left. Whatever was asked of it, and however that
was answered, no level is open between two calls, and every further call is answered as a new parser answers it from
the rest of the text, with all places moved by what stands before. -/
theorem usedAsFresh (limit : Nat) (text : String) (made : List Query) :
    ((Parser.ofText text).used limit text made).depth = 0 ∧
    ∃ before rest, text = before ++ rest ∧ before.utf8ByteSize = ((Parser.ofText text).used limit text made).place ∧
      ∀ further, ((Parser.ofText text).used limit text made).replies limit text further =
        ((Parser.ofText rest).replies limit rest further).map (Reply.shift before) := by
  obtain ⟨left,here⟩ := usedStands limit made (freshAt text)
  generalize (Parser.ofText text).used limit text made = p at here
  obtain ⟨cs,whole,size⟩ := here.stands.within
  have split : text = String.ofList cs ++ String.ofList p.untaken.rest := by
    rw [← String.ofList_append,← whole,String.ofList_toList]
  have bytes : (String.ofList cs).utf8ByteSize = p.untaken.offset := by rw [← utf8LengthBytes,size]
  refine ⟨here.level,String.ofList cs,String.ofList p.untaken.rest,split,bytes.trans p.placeUntaken.symm,?_⟩
  intro further
  have there : At (String.ofList cs ++ String.ofList p.untaken.rest).toList (String.ofList cs).utf8ByteSize 0 p
      (Remaining.ofText (String.ofList p.untaken.rest)) :=
    ⟨split ▸ here.stands,here.level,bytes ▸ leftAsText p.untaken⟩
  rw [freshReplies]
  conv => lhs; rw [split]
  exact repliesAlike limit further there

end SymbolicCalculus
