import SymbolicCalculus.Proofs.Cutting
import SymbolicCalculus.Proofs.Limits
import SymbolicCalculus.RealNumber
import SymbolicCalculus.Replay

/-! Which texts are read, and as which trees, when the limit is out of the way. The whole text is read
exactly when it is an expression; its beginning is read exactly when an expression stands there in
front of a token that is no operator, and that expression is then the only one. -/
namespace SymbolicCalculus

def Item.isToken (item : Item) : Bool :=
  match item.piece with
  | .token _ => true
  | .stray _ => false

def tokenCount (items : List Item) : Nat := items.countP Item.isToken

def Remaining.results (r : Remaining) : List (Except Failure PlacedToken) :=
  r.items.map Item.result ++ [.ok (endToken r.stop)]

namespace Grammar

theorem tokenizeResults (text : String) : tokenize text = (Remaining.ofText text).results := rfl

theorem spellsCount {items : List Item} {w : List Token} (rest : List Item) (spells : Spells items w) :
    tokenCount (items ++ rest) = w.length + tokenCount rest := by
  induction items generalizing w with
  | nil =>
    cases w with
    | nil => simp [tokenCount]
    | cons t w => cases spells
  | cons item items ih =>
    cases w with
    | nil => cases spells
    | cons t w =>
      obtain ⟨span,tail,same,spelled⟩ := spellsHead spells
      cases same
      have more := ih spelled
      simp only [tokenCount,List.cons_append,List.countP_cons,List.length_cons,Item.isToken] at *
      simp only [if_true]
      omega

theorem spellsPlaced {items : List Item} {w : List Token} (spells : Spells items w) :
    ∃ placed : List PlacedToken, placed.map PlacedToken.token = w ∧ items.map Item.result = placed.map .ok := by
  induction w generalizing items with
  | nil =>
    cases spellsNone spells
    exact ⟨[],rfl,rfl⟩
  | cons t w ih =>
    obtain ⟨span,tail,rfl,spelled⟩ := spellsHead spells
    obtain ⟨placed,tokens,results⟩ := ih spelled
    exact ⟨⟨t,span⟩ :: placed,by rw [List.map_cons,tokens],by rw [List.map_cons,List.map_cons,results]; rfl⟩

theorem resultsAhead {r : Remaining} {here : PlacedToken} (ahead : r.ahead? = some here) :
    ∃ rest, r.results = .ok here :: rest := by
  obtain ⟨items,stop⟩ := r
  rcases items with _ | ⟨⟨piece,span⟩,items⟩
  · cases ahead
    exact ⟨[],rfl⟩
  cases piece with
  | stray c => cases ahead
  | token t =>
    cases ahead
    exact ⟨_,rfl⟩

theorem resultsSplit {placed : List PlacedToken} {here : PlacedToken} {rest : List (Except Failure PlacedToken)}
    {r : Remaining} (split : r.results = placed.map .ok ++ .ok here :: rest) :
    ∃ (items : List Item) (after : Remaining), r = ⟨items ++ after.items,after.stop⟩ ∧
      Spells items (placed.map PlacedToken.token) ∧ after.results = .ok here :: rest ∧ after.ahead? = some here := by
  induction placed generalizing r with
  | nil =>
    refine ⟨[],r,rfl,rfl,split,?_⟩
    obtain ⟨items,stop⟩ := r
    rcases items with _ | ⟨⟨piece,span⟩,items⟩
    · cases split
      rfl
    cases piece <;> cases split
    rfl
  | cons first placed ih =>
    obtain ⟨items,stop⟩ := r
    rcases items with _ | ⟨⟨piece,span⟩,items⟩
    · simp [Remaining.results] at split
    cases piece with
    | stray c => cases split
    | token t =>
      obtain ⟨head,tail⟩ := List.cons.inj split
      cases head
      obtain ⟨inner,after,same,spells,results,ahead⟩ := ih (r := ⟨items,stop⟩) tail
      cases same
      exact ⟨_,after,rfl,spellsCons spells,results,ahead⟩

variable {α : Type} [Numeral α] {limit : Nat}

theorem readyNoOperator {r : Remaining} :
    Ready .expression r ↔ ∃ here, r.ahead? = some here ∧ here.token.operator? = none := by
  refine exists_congr fun here => and_congr_right fun _ => ?_
  cases here.token.operator? with
  | none => exact iff_of_true rfl rfl
  | some op => cases op <;> simp [raises,joinsFactors,joinsTerms]

theorem phraseReads {n : Nat} {w : List Token} {e : Expr α} {items : List Item} {after : Remaining}
    (phrase : Phrase .expression n w e) (spells : Spells items w) (ready : Ready .expression after)
    (enough : w.length ≤ limit) :
    expression limit (inside limit limit) ⟨items ++ after.items,after.stop⟩ = .ok e after := by
  have nest := phraseNest phrase
  have tall := phraseTallest phrase
  exact (settledComplete (phraseSettled phrase) limit after spells ready).read ⟨by omega,by omega⟩

theorem expressionSplits {r after : Remaining} {e : Expr α}
    (found : expression limit (inside limit limit) r = .ok e after) :
    ∃ (placed : List PlacedToken) (here : PlacedToken) (rest : List (Except Failure PlacedToken)),
      r.results = placed.map .ok ++ .ok here :: rest ∧ here.token.operator? = none ∧
      Derives (placed.map PlacedToken.token) e ∧ after.results = .ok here :: rest := by
  obtain ⟨⟨n,w,items,phrase,spells,same⟩,ready⟩ := readExpressionAccepts limit limit r e after found
  obtain ⟨here,ahead,other⟩ := readyNoOperator.mp ready
  obtain ⟨placed,tokens,results⟩ := spellsPlaced spells
  obtain ⟨rest,behind⟩ := resultsAhead ahead
  refine ⟨placed,here,rest,?_,other,⟨n,by rw [tokens]; exact phrase⟩,behind⟩
  rw [same,← behind,← results]
  simp [Remaining.results]

theorem splitReads {r : Remaining} {e : Expr α} {placed : List PlacedToken} {here : PlacedToken}
    {rest : List (Except Failure PlacedToken)} (enough : tokenCount r.items ≤ limit)
    (split : r.results = placed.map .ok ++ .ok here :: rest) (other : here.token.operator? = none)
    (derives : Derives (placed.map PlacedToken.token) e) :
    ∃ after, expression limit (inside limit limit) r = .ok e after ∧ after.results = .ok here :: rest ∧
      after.ahead? = some here := by
  obtain ⟨items,after,same,spells,behind,ahead⟩ := resultsSplit split
  obtain ⟨n,phrase⟩ := derives
  have count := spellsCount after.items spells
  rw [same] at enough ⊢
  simp only at enough
  refine ⟨after,phraseReads phrase spells (readyNoOperator.mpr ⟨here,ahead,other⟩) ?_,behind,ahead⟩
  omega

theorem wholeReads {r : Remaining} {e : Expr α} {stop : Nat}
    (read : expression limit (inside limit limit) r = .ok e ⟨[],stop⟩) :
    readExpression limit .whole r = .ok e ⟨[],stop⟩ :=
  bindRuns read

theorem wholeBehind {r : Remaining} {e : Expr α} {t : Token} {span : Span} {items : List Item} {stop : Nat}
    (read : expression limit (inside limit limit) r = .ok e ⟨⟨.token t,span⟩ :: items,stop⟩) (more : t ≠ .endOfInput) :
    (readExpression limit .whole : Reading (Expr α)) r =
      .error ⟨.expectedEnd,[⟨span.start,stop⟩]⟩ ⟨⟨.token t,span⟩ :: items,stop⟩ := by
  refine (bindRuns read).trans ?_
  cases t <;> first | rfl | contradiction

theorem wholeFails {r after : Remaining} {failure : Failure}
    (failed : (expression limit (inside limit limit) : Reading (Expr α)) r = .error failure after) :
    (readExpression limit .whole : Reading (Expr α)) r = .error failure after :=
  bindFails failed

theorem behindExpression {text : String} {e : Expr α} {after : Remaining}
    (found : expression limit (inside limit limit) (Remaining.ofText text) = .ok e after) :
    after = ⟨[],text.utf8ByteSize⟩ ∨ ∃ t span items, t ≠ .endOfInput ∧ t.operator? = none ∧
      after = ⟨⟨.token t,span⟩ :: items,text.utf8ByteSize⟩ := by
  obtain ⟨⟨n,w,before,_,_,same⟩,ready⟩ := readExpressionAccepts limit limit _ e after found
  obtain ⟨here,ahead,other⟩ := readyNoOperator.mp ready
  obtain ⟨items,stop⟩ := after
  obtain ⟨whole,size⟩ := Remaining.mk.inj same
  simp only at whole size
  rcases items with _ | ⟨⟨piece,span⟩,items⟩
  · exact Or.inl (by rw [size])
  cases piece with
  | stray c => cases ahead
  | token t =>
    cases ahead
    refine Or.inr ⟨t,span,items,?_,other,by rw [size]⟩
    intro ends
    subst ends
    exact itemsNoEnd (whole ▸ List.mem_append_right before List.mem_cons_self)

theorem parseFound {text : String} {extent : Extent} {e : Expr α} :
    parse limit extent text = .ok e ↔ ∃ after, readExpression limit extent (Remaining.ofText text) = .ok e after := by
  unfold parse
  cases (readExpression limit extent : Reading (Expr α)) (Remaining.ofText text) <;> simp

theorem parseFailed {text : String} {extent : Extent} {failure : Failure} :
    (parse limit extent text : Except Failure (Expr α)) = .error failure ↔
      ∃ after, (readExpression limit extent : Reading (Expr α)) (Remaining.ofText text) = .error failure after := by
  unfold parse
  cases (readExpression limit extent : Reading (Expr α)) (Remaining.ofText text) <;> simp

def SplitsAt (text : String) (w : List PlacedToken) (stop : PlacedToken) (rest : List (Except Failure PlacedToken)) :
    Prop :=
  tokenize text = w.map .ok ++ .ok stop :: rest ∧ stop.token.operator? = none

theorem wholeExact {text : String} {e : Expr α} (enough : tokenCount (Cursor.ofText text).items ≤ limit) :
    parse limit .whole text = .ok e ↔ ∃ w : List PlacedToken,
      tokenize text = w.map .ok ++ [.ok (endToken text.utf8ByteSize)] ∧ Derives (w.map PlacedToken.token) e := by
  rw [parseFound]
  constructor
  · intro parsed
    obtain ⟨after,found⟩ := parsed
    obtain ⟨first,mid,read,_⟩ := bindFound found
    rcases behindExpression read with rfl | ⟨t,span,items,more,_,rfl⟩
    · cases (wholeReads read).symm.trans found
      obtain ⟨placed,here,rest,split,_,derives,behind⟩ := expressionSplits read
      rw [← behind] at split
      exact ⟨placed,split,derives⟩
    · cases (wholeBehind read more).symm.trans found
  · intro derived
    obtain ⟨w,split,derives⟩ := derived
    obtain ⟨after,read,behind,_⟩ := splitReads (r := Remaining.ofText text) enough split rfl derives
    rcases behindExpression read with rfl | ⟨t,span,items,more,_,rfl⟩
    · exact ⟨_,wholeReads read⟩
    · simpa [Remaining.results] using congrArg List.length behind

end Grammar

open Grammar in
/-- With a level for each token, reading finds the expressions of the grammar and their trees. A whole text
is read when its tokens are an expression and nothing else is in it. The beginning of a text is read
when its items are an expression, a token that is no operator, and anything behind that; there is only
one way to cut a text so, just the expression is consumed, and the token is the next to be seen. -/
theorem readsGrammar {α : Type} [Numeral α] (text : String) (limit : Nat)
    (enough : tokenCount (Cursor.ofText text).items ≤ limit) :
    (∀ e : Expr α, parse limit .whole text = .ok e ↔ ∃ w : List PlacedToken,
      tokenize text = w.map .ok ++ [.ok (endToken text.utf8ByteSize)] ∧ Derives (w.map PlacedToken.token) e) ∧
    (∀ e : Expr α, parse limit .first text = .ok e ↔ ∃ w stop rest,
      SplitsAt text w stop rest ∧ Derives (w.map PlacedToken.token) e) ∧
    (∀ (e : Expr α) w stop rest, SplitsAt text w stop rest → Derives (w.map PlacedToken.token) e →
      ∃ after, readExpression limit .first (Remaining.ofText text) = .ok e after ∧
        after.results = .ok stop :: rest ∧ peek after = .ok stop after) ∧
    (∀ (e d : Expr α) w v stop halt rest more, SplitsAt text w stop rest → SplitsAt text v halt more →
      Derives (w.map PlacedToken.token) e → Derives (v.map PlacedToken.token) d → w = v ∧ e = d) := by
  have reads {e : Expr α} {w stop rest} (split : SplitsAt text w stop rest)
      (derives : Derives (w.map PlacedToken.token) e) :=
    splitReads (r := Remaining.ofText text) enough split.1 split.2 derives
  refine ⟨fun e => wholeExact enough,fun e => ?_,?_,?_⟩
  · rw [parseFound]
    constructor
    · intro parsed
      obtain ⟨after,found⟩ := parsed
      obtain ⟨w,stop,rest,split,other,derives,_⟩ := expressionSplits found
      exact ⟨w,stop,rest,⟨split,other⟩,derives⟩
    · intro derived
      obtain ⟨w,stop,rest,split,derives⟩ := derived
      obtain ⟨after,found,_⟩ := reads split derives
      exact ⟨after,found⟩
  · intro e w stop rest split derives
    obtain ⟨after,found,behind,ahead⟩ := reads split derives
    exact ⟨after,found,behind,peekAhead ahead⟩
  · intro e d w v stop halt rest more split other left right
    obtain ⟨after,found,behind,_⟩ := reads split left
    obtain ⟨_,again,beyond,_⟩ := reads other right
    cases found.symm.trans again
    have tokens := split.1.symm.trans other.1
    rw [← behind,← beyond] at tokens
    exact ⟨(List.map_inj_right fun _ _ => Except.ok.inj).mp (List.append_cancel_right tokens),rfl⟩

open Grammar in
theorem readsGrammarPower : tokenCount (Cursor.ofText "-x^2)y").items ≤ 6 ∧
    (parse 6 .first "-x^2)y" : Except Failure (Expr Float)) =
      .ok (.binary .pow (.unary .neg (.var "x")) (.const 2.0)) := by
  have enough : tokenCount (Cursor.ofText "-x^2)y").items ≤ 6 := by decide +kernel
  have items : (Cursor.ofText "-x^2)y").items =
      [⟨.token (.operator .sub),⟨0,1⟩⟩,⟨.token (.variable "x"),⟨1,2⟩⟩,⟨.token (.operator .pow),⟨2,3⟩⟩,
        ⟨.token (.number "2"),⟨3,4⟩⟩,⟨.token .rightParen,⟨4,5⟩⟩,⟨.token (.variable "y"),⟨5,6⟩⟩] := by decide +kernel
  have split : tokenize "-x^2)y" =
      [⟨.operator .sub,⟨0,1⟩⟩,⟨.variable "x",⟨1,2⟩⟩,⟨.operator .pow,⟨2,3⟩⟩,⟨.number "2",⟨3,4⟩⟩].map .ok ++
        .ok ⟨.rightParen,⟨4,5⟩⟩ :: [.ok ⟨.variable "y",⟨5,6⟩⟩,.ok (endToken 6)] := by
    rw [tokenizeResults,Remaining.results,Remaining.ofText,items]
    rfl
  have value : RealNumber.ofText? "2" = some 2.0 := by decide +kernel
  have two : Numeral.ofLiteral "2" = Except.ok (2.0 : Float) := by simp [Numeral.ofLiteral,value]
  have phrase := Phrase.alone (.single (.power (.minus (.named "x")) (.base (.number two))))
  exact ⟨enough,((readsGrammar _ 6 enough).2.1 _).mpr ⟨_,_,_,⟨split,rfl⟩,_,phrase⟩⟩

end SymbolicCalculus
