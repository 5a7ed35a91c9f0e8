import SymbolicCalculus.Proofs.Resumption

/-! A parser that is watched through all its calls: the token that it took last is kept beside it, and both are noted each
time the argument of a function is begun. Watching changes no reply and nothing of the parser. What has been noted is
always a function with its parenthesis next, since a function that the parser keeps or has just taken has the cursor
directly behind it. -/
namespace SymbolicCalculus

def Cursor.Opens (cursor : Cursor) (here : PlacedToken) : Prop :=
  ∀ name, here.token = .function name → ∃ rest, cursor = ⟨'(' :: rest,here.span.stop⟩

def Parser.Opens (p : Parser) : Prop := ∀ here, p.buffered = some here → p.cursor.Opens here

structure Entry where
  taken : Option PlacedToken
  parser : Parser
  deriving DecidableEq, Repr

def Entry.Opened (entry : Entry) : Prop :=
  ∃ name span after, entry.taken = some ⟨.function name,span⟩ ∧
    Grammar.next entry.parser = .ok ⟨.leftParen,⟨span.stop,span.stop + 1⟩⟩ after

structure Watched where
  parser : Parser
  taken : Option PlacedToken
  entries : List Entry
  deriving DecidableEq, Repr

namespace Watched

def ofText (text : String) : Watched := ⟨.ofText text,none,[]⟩

def peek : EStateM Failure Watched PlacedToken := fun w =>
  match Parser.peek w.parser with
  | .ok here p => .ok here { w with parser := p }
  | .error failure p => .error failure { w with parser := p }

def advance : EStateM Failure Watched Unit := fun w =>
  .ok () { w with parser := { w.parser with buffered := none }, taken := w.parser.buffered }

instance : Supply Watched := ⟨peek,advance,fun w => w.parser.cursor.stop⟩

def atDepth (depth : Nat) (w : Watched) : Watched := { w with parser := { w.parser with depth := depth } }

def nested {α : Type} (limit : Nat) (m : EStateM Failure Watched (Expr α)) : EStateM Failure Watched (Expr α) := fun w =>
  if limit ≤ w.parser.depth then Grammar.refuse limit w
  else match m (w.atDepth (w.parser.depth + 1)) with
    | .ok e after => .ok e (after.atDepth (after.parser.depth - 1))
    | .error failure after => .error failure (after.atDepth (after.parser.depth - 1))

def note : Grammar.Nested → EStateM Failure Watched Unit
  | .argument => fun w => .ok () { w with entries := w.entries ++ [⟨w.taken,w.parser⟩] }
  | _ => pure ()

section calls
variable {α : Type} [Numeral α]

def inside (limit : Nat) : Nat → Grammar.Nested → EStateM Failure Watched (Expr α)
  | 0,_ => Grammar.refuse limit
  | rounds+1,part => nested limit (note part >>= fun _ => Grammar.part limit (inside limit rounds) part)

def readExpression (limit : Nat) (extent : Extent) : EStateM Failure Watched (Expr α) :=
  extent.read (Grammar.expression limit (inside limit (limit + 1)))

def answer (limit : Nat) (text : String) (request : ParserCall) (w : Watched) : ParserAnswer α × Watched :=
  match request with
  | .peek => answered .token (peek w)
  | .nextToken => answered .token (Grammar.next w)
  | .parse extent => answered .tree (readExpression limit extent w)
  | .source => (.source text,w)

end calls

def reply (limit : Nat) (text : String) (query : Query) (w : Watched) : Reply × Watched :=
  let answer := @answer query.scalar query.numeral limit text query.request w
  (⟨query.scalar,answer.1⟩,answer.2)

def session (limit : Nat) (text : String) : List Query → Watched → List Reply × Watched
  | [],w => ([],w)
  | query :: rest,w =>
      let here := w.reply limit text query
      let behind := session limit text rest here.2
      (here.1 :: behind.1,behind.2)

structure Sound (w : Watched) : Prop where
  ahead : w.parser.Opens
  entered : ∀ entry ∈ w.entries, entry.Opened

structure Took (here : PlacedToken) (w : Watched) : Prop where
  taken : w.taken = some here
  spent : w.parser.buffered = none
  behind : w.parser.cursor.Opens here

end Watched

section watching
open Grammar
variable {α β γ : Type} {ready : Watched → Prop}

inductive Beside : EStateM.Result Failure Watched β → EStateM.Result Failure Parser β → Prop where
  | ok {w} (b : β) (sound : w.Sound) : Beside (.ok b w) (.ok b w.parser)
  | error {w} (failure : Failure) (sound : w.Sound) : Beside (.error failure w) (.error failure w.parser)

/- From where what is known is sound both go alike. The argument of a function is read only behind the function, which is
then what the watched parser has to be ready for. -/
def Watches (ready : Watched → Prop) (m : EStateM Failure Watched β) (f : EStateM Failure Parser β) : Prop :=
  ∀ w, w.Sound → ready w → Beside (m w) (f w.parser)

def Anytime (_ : Watched) : Prop := True

theorem watchesReady {m : EStateM Failure Watched β} {f : EStateM Failure Parser β} (watches : Watches Anytime m f) :
    Watches ready m f := fun w sound _ => watches w sound trivial

theorem watchesBeside {m : EStateM Failure Watched β} {f : EStateM Failure Parser β} (watches : Watches Anytime m f)
    {w : Watched} (sound : w.Sound) : Beside (m w) (f w.parser) := watches w sound trivial

theorem watchesPure (b : β) : Watches ready (pure b) (pure b) := fun _ sound _ => .ok b sound

theorem watchesFail (cause : Cause) (spans : List Span) :
    Watches ready (fail cause spans : EStateM Failure Watched β) (fail cause spans) :=
  fun _ sound _ => .error ⟨cause,spans⟩ sound

theorem watchesBind {m : EStateM Failure Watched β} {f : EStateM Failure Parser β} {l : β → EStateM Failure Watched γ}
    {g : β → EStateM Failure Parser γ} (first : Watches ready m f) (second : ∀ b, Watches Anytime (l b) (g b)) :
    Watches ready (m >>= l) (f >>= g) := by
  intro w sound here
  have beside := first w sound here
  simp only [bind,EStateM.bind]
  generalize m w = above at beside
  generalize f w.parser = below at beside
  cases beside with
  | ok b after => exact second b _ after trivial
  | error failure after => exact .error failure after

theorem opensEmpty {p : Parser} (empty : p.buffered = none) : p.Opens := by
  intro here kept
  cases empty.symm.trans kept

theorem opensKept {p : Parser} {here : PlacedToken} (kept : p.buffered = some here) (opens : p.cursor.Opens here) :
    p.Opens := by
  intro other same
  cases kept.symm.trans same
  exact opens

theorem peekOpens {p : Parser} (ahead : p.Opens) :
    (∃ here q, Parser.peek p = .ok here q ∧ q.buffered = some here ∧ q.cursor.Opens here) ∨
    ∃ failure q, Parser.peek p = .error failure q ∧ q.buffered = none := by
  obtain ⟨cursor,buffered,depth⟩ := p
  cases buffered with
  | some here => exact Or.inl ⟨here,_,rfl,rfl,ahead here rfl⟩
  | none =>
    unfold Parser.peek
    cases found : cursor.next with
    | none => exact Or.inl ⟨_,_,rfl,rfl,fun name never => (by cases never)⟩
    | some pair =>
      obtain ⟨⟨piece,span⟩,after⟩ := pair
      cases piece with
      | stray c => exact Or.inr ⟨_,_,rfl,rfl⟩
      | token t =>
        refine Or.inl ⟨_,_,rfl,rfl,?_⟩
        rintro name rfl
        exact nextFunction found

theorem peekBeside {w : Watched} (sound : w.Sound) :
    (∃ here v, Watched.peek w = .ok here v ∧ Parser.peek w.parser = .ok here v.parser ∧ v.Sound ∧
      v.parser.buffered = some here) ∨
    ∃ failure v, Watched.peek w = .error failure v ∧ Parser.peek w.parser = .error failure v.parser ∧ v.Sound := by
  rcases peekOpens sound.ahead with ⟨here,q,seen,kept,opens⟩ | ⟨failure,q,failed,none⟩
  · exact Or.inl ⟨here,{ w with parser := q },by simp only [Watched.peek,seen],seen,
      ⟨opensKept kept opens,sound.entered⟩,kept⟩
  · exact Or.inr ⟨failure,{ w with parser := q },by simp only [Watched.peek,failed],failed,
      ⟨opensEmpty none,sound.entered⟩⟩

theorem peekWatches : Watches ready (Supply.peek : EStateM Failure Watched PlacedToken) Supply.peek := by
  intro w sound _
  change Beside (Watched.peek w) (Parser.peek w.parser)
  rcases peekBeside sound with ⟨here,v,above,below,kept,_⟩ | ⟨failure,v,above,below,kept⟩ <;> rw [above,below]
  · exact .ok here kept
  · exact .error failure kept

theorem advanceWatches : Watches ready (Supply.advance : EStateM Failure Watched Unit) Supply.advance :=
  fun _ sound _ => .ok () ⟨opensEmpty rfl,sound.entered⟩

theorem watchesNext {l : PlacedToken → EStateM Failure Watched γ} {g : PlacedToken → EStateM Failure Parser γ}
    (further : ∀ here, Watches (Watched.Took here) (l here) (g here)) :
    Watches ready (Grammar.next >>= l) (Grammar.next >>= g) := by
  intro w sound _
  rcases peekBeside sound with ⟨here,v,above,below,kept,seen⟩ | ⟨failure,v,above,below,kept⟩
  · have upper : Grammar.next w = .ok here ⟨{ v.parser with buffered := none },v.parser.buffered,v.entries⟩ :=
      bindRuns above
    have lower : Grammar.next w.parser = .ok here { v.parser with buffered := none } := bindRuns below
    rw [bindRuns upper,bindRuns lower]
    exact further here _ ⟨opensEmpty rfl,kept.entered⟩ ⟨seen,rfl,kept.ahead here seen⟩
  · have upper : Grammar.next w = .error failure v := bindFails above
    have lower : Grammar.next w.parser = .error failure v.parser := bindFails below
    rw [bindFails upper,bindFails lower]
    exact .error failure kept

theorem nextWatches : Watches ready (Grammar.next : EStateM Failure Watched PlacedToken) Grammar.next :=
  watchesBind peekWatches (fun here => watchesBind advanceWatches (fun _ => watchesPure here))

theorem expectCloseWatches (opening : Span) :
    Watches ready (expectClose opening : EStateM Failure Watched Unit) (expectClose opening) := by
  refine watchesBind peekWatches (fun here => ?_)
  obtain ⟨token,span⟩ := here
  cases token with
  | rightParen => exact advanceWatches
  | _ => exact watchesFail _ _

theorem callWatches (name : String) (span : Span) (operand : Expr α) :
    Watches ready (call name span operand : EStateM Failure Watched (Expr α)) (call name span operand) := by
  unfold call
  cases UnaryOp.ofName? name with
  | some f => exact watchesPure _
  | none => exact watchesFail _ _

theorem refuseWatches (limit : Nat) :
    Watches ready (refuse limit : EStateM Failure Watched (Expr α)) (refuse limit) :=
  watchesBind peekWatches (fun _ => watchesFail _ _)

theorem closedWatches {m : EStateM Failure Watched (Expr α)} {f : EStateM Failure Parser (Expr α)} (opening : Span)
    (watches : Watches ready m f) :
    Watches ready (m >>= fun e => expectClose opening >>= fun _ => pure e)
      (f >>= fun e => expectClose opening >>= fun _ => pure e) :=
  watchesBind watches (fun e => watchesBind (expectCloseWatches opening) (fun _ => watchesPure e))

theorem chainWatches {limit : Nat} {joins : BinaryOp → Bool} {m : EStateM Failure Watched (Expr α)}
    {f : EStateM Failure Parser (Expr α)} (watches : Watches Anytime m f) (left : Expr α) :
    Watches ready (chain limit joins m left) (chain limit joins f left) := by
  induction left using chain.induct limit generalizing ready with
  | case1 left ih =>
    rw [chain,chain]
    refine watchesBind peekWatches (fun here => ?_)
    cases here.token.operator?.filter joins with
    | none => exact watchesPure left
    | some op =>
      refine watchesBind advanceWatches (fun _ => watchesBind watches (fun right => ?_))
      split
      · exact watchesFail _ _
      · rename_i fits
        exact ih op right fits

theorem readWatches {m : EStateM Failure Watched (Expr α)} {f : EStateM Failure Parser (Expr α)} (extent : Extent)
    (watches : Watches ready m f) : Watches ready (extent.read m) (extent.read f) := by
  cases extent with
  | first => exact watches
  | whole =>
    refine watchesBind watches (fun e => watchesBind peekWatches (fun here => ?_))
    obtain ⟨token,span⟩ := here
    cases token with
    | endOfInput => exact watchesPure e
    | _ => exact fun _ sound _ => .error _ sound

theorem nestedWatches {limit : Nat} {m : EStateM Failure Watched (Expr α)} {f : EStateM Failure Parser (Expr α)}
    (deeper : ∀ w depth, ready w → ready (w.atDepth depth)) (watches : Watches ready m f) :
    Watches ready (Watched.nested limit m) (Parser.nested limit f) := by
  intro w sound here
  unfold Watched.nested Parser.nested
  split
  · exact refuseWatches limit w sound here
  · have beside : Beside (m (w.atDepth (w.parser.depth + 1))) (f { w.parser with depth := w.parser.depth + 1 }) :=
      watches _ ⟨sound.ahead,sound.entered⟩ (deeper w _ here)
    generalize m (w.atDepth (w.parser.depth + 1)) = above at beside
    generalize f { w.parser with depth := w.parser.depth + 1 } = below at beside
    cases beside with
    | @ok after e kept => exact .ok (w := after.atDepth _) e ⟨kept.ahead,kept.entered⟩
    | @error after failure kept => exact .error (w := after.atDepth _) failure ⟨kept.ahead,kept.entered⟩

def Begins : Nested → Watched → Prop
  | .argument,w => ∃ name span, w.Took ⟨.function name,span⟩
  | _,_ => True

theorem tookOpened {w : Watched} {name : String} {span : Span} (took : w.Took ⟨.function name,span⟩) :
    (Entry.mk w.taken w.parser).Opened := by
  obtain ⟨⟨cursor,buffered,depth⟩,taken,entries⟩ := w
  obtain rfl : buffered = none := took.spent
  obtain ⟨rest,same⟩ := took.behind name rfl
  obtain rfl : cursor = ⟨'(' :: rest,span.stop⟩ := same
  exact ⟨name,span,⟨⟨rest,span.stop + 1⟩,none,depth⟩,took.taken,rfl⟩

theorem noteWatches {part : Nested} {m : EStateM Failure Watched (Expr α)} {f : EStateM Failure Parser (Expr α)}
    (watches : Watches Anytime m f) : Watches (Begins part) (Watched.note part >>= fun _ => m) f := by
  intro w sound begins
  cases part with
  | argument =>
    obtain ⟨name,span,took⟩ := begins
    refine watches { w with entries := w.entries ++ [⟨w.taken,w.parser⟩] } ⟨sound.ahead,?_⟩ trivial
    intro entry member
    rcases List.mem_append.mp member with before | new
    · exact sound.entered entry before
    · obtain rfl := List.mem_singleton.mp new
      exact tookOpened took
  | _ => exact watches w sound trivial

theorem beginsDeeper (part : Nested) (w : Watched) (depth : Nat) (begins : Begins part w) :
    Begins part (w.atDepth depth) := by
  cases part with
  | argument =>
    obtain ⟨name,span,took⟩ := begins
    exact ⟨name,span,took.taken,took.spent,took.behind⟩
  | _ => trivial

variable [Numeral α] {limit : Nat}

theorem numberWatches (digits : String) (span : Span) :
    Watches ready (number digits span : EStateM Failure Watched (Expr α)) (number digits span) := by
  unfold number
  cases (Numeral.ofLiteral digits : Except LiteralFault α) with
  | ok value => exact watchesPure _
  | error fault => cases fault <;> exact watchesFail _ _

section level
variable {above : Nested → EStateM Failure Watched (Expr α)} {below : Nested → EStateM Failure Parser (Expr α)}

def WatchesNested (above : Nested → EStateM Failure Watched (Expr α))
    (below : Nested → EStateM Failure Parser (Expr α)) : Prop :=
  ∀ part, Watches (Begins part) (above part) (below part)

theorem primaryWatches (nests : WatchesNested above below) : Watches ready (primary above) (primary below) := by
  refine watchesNext (fun here => ?_)
  obtain ⟨token,span⟩ := here
  cases token with
  | number digits => exact numberWatches digits span
  | «variable» name => exact watchesPure _
  | function name =>
    refine watchesBind (fun w sound took => ?_) (callWatches name span)
    exact nests .argument w sound ⟨name,span,took⟩
  | operator op =>
    cases op with
    | sub => exact watchesBind (watchesReady (nests .operand)) (fun e => watchesPure _)
    | _ => exact watchesFail _ _
  | leftParen => exact closedWatches span (watchesReady (nests .group))
  | rightParen => exact watchesFail _ _
  | endOfInput => exact watchesFail _ _

theorem factorWatches (nests : WatchesNested above below) : Watches ready (factor above) (factor below) := by
  refine watchesBind (primaryWatches nests) (fun base => watchesBind peekWatches (fun here => ?_))
  obtain ⟨token,span⟩ := here
  cases token with
  | operator op =>
    cases op with
    | pow =>
      refine watchesBind advanceWatches (fun _ => ?_)
      exact watchesBind (watchesReady (nests .exponent)) (fun e => watchesPure _)
    | _ => exact watchesPure base
  | _ => exact watchesPure base

theorem termWatches (nests : WatchesNested above below) : Watches ready (term limit above) (term limit below) :=
  watchesBind (factorWatches nests) (chainWatches (factorWatches nests))

theorem expressionWatches (nests : WatchesNested above below) :
    Watches ready (expression limit above) (expression limit below) :=
  watchesBind (termWatches nests) (chainWatches (termWatches nests))

theorem argumentWatches (nests : WatchesNested above below) :
    Watches ready (argument limit above) (argument limit below) := by
  refine watchesNext (fun here => ?_)
  obtain ⟨token,span⟩ := here
  cases token with
  | leftParen => exact closedWatches span (expressionWatches nests)
  | _ => exact watchesFail _ _

theorem partWatches (nests : WatchesNested above below) (part : Nested) :
    Watches ready (Grammar.part limit above part) (Grammar.part limit below part) := by
  cases part with
  | group => exact expressionWatches nests
  | argument => exact argumentWatches nests
  | exponent => exact factorWatches nests
  | operand => exact primaryWatches nests

end level

theorem insideWatches (limit rounds : Nat) : WatchesNested
    (Watched.inside limit rounds : Nested → EStateM Failure Watched (Expr α)) (Parser.inside limit rounds) := by
  induction rounds with
  | zero => exact fun part => refuseWatches limit
  | succ rounds ih => exact fun part => nestedWatches (beginsDeeper part) (noteWatches (partWatches ih part))

theorem readExpressionWatches (limit : Nat) (extent : Extent) : Watches ready
    (Watched.readExpression limit extent : EStateM Failure Watched (Expr α)) (Parser.readExpression limit extent) :=
  readWatches extent (expressionWatches (insideWatches limit (limit + 1)))

end watching

section sessions
variable {α β : Type}

theorem answeredBeside {wrap : β → ParserAnswer α} {above : EStateM.Result Failure Watched β}
    {below : EStateM.Result Failure Parser β} (beside : Beside above below) :
    (answered wrap above).1 = (answered wrap below).1 ∧ (answered wrap above).2.parser = (answered wrap below).2 ∧
      (answered wrap above).2.Sound := by
  cases beside with
  | ok b sound => exact ⟨rfl,rfl,sound⟩
  | error failure sound => exact ⟨rfl,rfl,sound⟩

theorem answerWatched [Numeral α] (limit : Nat) (text : String) (request : ParserCall) {w : Watched} (sound : w.Sound) :
    (w.answer limit text request : ParserAnswer α × Watched).1 = (parserAnswer limit text request w.parser).1 ∧
      (w.answer (α := α) limit text request).2.parser = (parserAnswer (α := α) limit text request w.parser).2 ∧
      (w.answer (α := α) limit text request).2.Sound := by
  cases request with
  | peek => exact answeredBeside (watchesBeside peekWatches sound)
  | nextToken => exact answeredBeside (watchesBeside nextWatches sound)
  | parse extent => exact answeredBeside (watchesBeside (readExpressionWatches limit extent) sound)
  | source => exact ⟨rfl,rfl,sound⟩

theorem sessionWatched (limit : Nat) (text : String) (queries : List Query) {w : Watched} (sound : w.Sound) :
    (w.session limit text queries).1 = w.parser.replies limit text queries ∧
      (w.session limit text queries).2.parser = w.parser.used limit text queries ∧
      (w.session limit text queries).2.Sound := by
  induction queries generalizing w with
  | nil => exact ⟨rfl,rfl,sound⟩
  | cons query queries ih =>
    obtain ⟨scalar,numeral,request⟩ := query
    obtain ⟨same,there,kept⟩ := answerWatched (α := scalar) limit text request sound
    obtain ⟨replies,used,further⟩ := ih kept
    rw [there] at replies used
    exact ⟨List.cons_eq_cons.mpr ⟨congrArg (Sigma.mk scalar) same,replies⟩,used,further⟩

theorem soundFresh (text : String) : (Watched.ofText text).Sound :=
  ⟨opensEmpty rfl,by simp [Watched.ofText]⟩

end sessions

end SymbolicCalculus
