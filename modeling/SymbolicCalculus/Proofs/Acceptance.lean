import SymbolicCalculus.Proofs.Readings

/-! A reading that succeeds has read a phrase, and stops where no operator could go on with it. -/
namespace SymbolicCalculus.Grammar
variable {α : Type} [Numeral α] {limit : Nat} {nested : Nested → Reading (Expr α)}

def Spells (items : List Item) (w : List Token) : Prop := items.map Item.piece = w.map Piece.token

theorem spellsAppend {items more : List Item} {w v : List Token} (left : Spells items w) (right : Spells more v) :
    Spells (items ++ more) (w ++ v) := by
  unfold Spells at *
  rw [List.map_append,List.map_append,left,right]

theorem spellsCons {t : Token} {span : Span} {items : List Item} {w : List Token} (tail : Spells items w) :
    Spells (⟨.token t,span⟩ :: items) (t :: w) := by
  unfold Spells at *
  rw [List.map_cons,List.map_cons,tail]

theorem spellsNil : Spells [] [] := rfl

def Reads (k : Category) (e : Expr α) (r after : Remaining) : Prop :=
  ∃ n w items, Phrase k n w e ∧ Spells items w ∧ r = ⟨items ++ after.items,after.stop⟩

def Ready : Category → Remaining → Prop
  | .primary,_ => True
  | .factor,r => Stops raises r
  | .term,r => Stops (fun op => raises op || joinsFactors op) r
  | .expression,r => Stops (fun op => (raises op || joinsFactors op) || joinsTerms op) r

def Accepting (k : Category) (m : Reading (Expr α)) : Prop :=
  ∀ r e after, m r = .ok e after → Reads k e r after ∧ Ready k after

theorem readsRaise {k l : Category} {e : Expr α} {r after : Remaining}
    (raise : ∀ {n w}, Phrase k n w e → Phrase l n w e) (reads : Reads k e r after) : Reads l e r after := by
  obtain ⟨n,w,items,phrase,spells,same⟩ := reads
  exact ⟨n,w,items,raise phrase,spells,same⟩

theorem readsJoin {k l j : Category} {op : BinaryOp} {a b : Expr α} {r after : Remaining}
    {span : Span} {items : List Item} {stop : Nat} {depth : Nat → Nat → Nat}
    (join : ∀ {n m w v}, Phrase k n w a → Phrase l m v b →
      Phrase j (depth n m) (w ++ .operator op :: v) (.binary op a b))
    (left : Reads k a r ⟨⟨.token (.operator op),span⟩ :: items,stop⟩)
    (right : Reads l b ⟨items,stop⟩ after) : Reads j (.binary op a b) r after := by
  obtain ⟨n,w,before,first,spells,same⟩ := left
  obtain ⟨m,v,behind,second,spelled,rest⟩ := right
  cases rest
  refine ⟨_,_,before ++ ⟨.token (.operator op),span⟩ :: behind,join first second,
    spellsAppend spells (spellsCons spelled),?_⟩
  rw [same]
  simp

theorem closedReads {m : Reading (Expr α)} (accepting : Accepting .expression m) {opening : Span}
    {r after : Remaining} {e : Expr α}
    (found : (m >>= fun e => expectClose opening >>= fun _ => pure e) r = .ok e after) :
    ∃ n w items closing, Phrase .expression n w e ∧ Spells items w ∧
      r = ⟨items ++ ⟨.token .rightParen,closing⟩ :: after.items,after.stop⟩ := by
  obtain ⟨inner,mid,first,rest⟩ := bindFound found
  obtain ⟨⟨n,w,items,phrase,spells,same⟩,⟨here,ahead,_⟩⟩ := accepting r inner mid first
  obtain ⟨_,last,closed,kept⟩ := bindFound rest
  cases kept
  obtain ⟨middle,stop⟩ := mid
  rcases middle with _ | ⟨⟨piece,closing⟩,middle⟩
  · cases closed
  cases piece with
  | stray c => cases ahead
  | token t =>
    cases t with
    | rightParen =>
      cases closed
      exact ⟨n,w,items,closing,phrase,spells,same⟩
    | _ => cases closed

structure Sound (nested : Nested → Reading (Expr α)) : Prop where
  group : Accepting .expression (nested .group)
  argument : ∀ r e after, nested .argument r = .ok e after →
    ∃ n w items, Phrase .expression n w e ∧ Spells items (.leftParen :: w ++ [.rightParen]) ∧
      r = ⟨items ++ after.items,after.stop⟩
  exponent : Accepting .factor (nested .exponent)
  operand : Accepting .primary (nested .operand)

theorem knownFunction {name : String} {f : UnaryOp} (known : UnaryOp.ofName? name = some f) :
    f ∈ functions ∧ f.word = name := by
  refine ⟨List.mem_of_find?_eq_some known,?_⟩
  simpa using List.find?_some known

theorem primaryAccepts (sound : Sound nested) : Accepting .primary (primary nested) := by
  intro r e after found
  refine ⟨?_,trivial⟩
  obtain ⟨items,stop⟩ := r
  rcases items with _ | ⟨⟨piece,span⟩,items⟩
  · cases primaryEnd.symm.trans found
  cases piece with
  | stray c => cases primaryStray.symm.trans found
  | token t =>
    cases t with
    | number digits =>
      rw [primaryNumber] at found
      cases read : (Numeral.ofLiteral digits : Except LiteralFault α) with
      | ok value =>
        cases (numberRead read).symm.trans found
        exact ⟨0,_,_,.number read,spellsCons spellsNil,rfl⟩
      | error fault => cases (numberRefused read).symm.trans found
    | «variable» name =>
      cases primaryVariable.symm.trans found
      exact ⟨0,_,_,.named name,spellsCons spellsNil,rfl⟩
    | function name =>
      rw [primaryFunction] at found
      obtain ⟨operand,mid,first,called⟩ := bindFound found
      obtain ⟨n,w,inner,phrase,spells,same⟩ := sound.argument _ _ _ first
      cases known : UnaryOp.ofName? name with
      | some f =>
        cases (callKnown known).symm.trans called
        cases same
        obtain ⟨member,word⟩ := knownFunction known
        subst word
        exact ⟨n + 1,_,_,.call member phrase,spellsCons spells,rfl⟩
      | none => cases (callUnknown known).symm.trans called
    | operator op =>
      cases op with
      | sub =>
        rw [primaryMinus] at found
        obtain ⟨operand,mid,first,kept⟩ := bindFound found
        obtain ⟨⟨n,w,inner,phrase,spells,same⟩,_⟩ := sound.operand _ _ _ first
        cases kept
        cases same
        exact ⟨n + 1,_,_,.minus phrase,spellsCons spells,rfl⟩
      | _ => cases found
    | leftParen =>
      rw [primaryGroup] at found
      obtain ⟨n,w,inner,closing,phrase,spells,same⟩ := closedReads sound.group found
      cases same
      refine ⟨n + 1,_,⟨.token .leftParen,span⟩ :: inner ++ [⟨.token .rightParen,closing⟩],.group phrase,
        spellsAppend (spellsCons spells) (spellsCons spellsNil),?_⟩
      simp
    | rightParen => cases found
    | endOfInput => cases found

theorem factorAccepts (sound : Sound nested) : Accepting .factor (factor nested) := by
  intro r e after found
  rw [factorBase] at found
  obtain ⟨base,mid,first,rest⟩ := bindFound found
  obtain ⟨reads,_⟩ := primaryAccepts sound _ _ _ first
  rcases frontCases raises mid with ⟨c,span,items,shape⟩ | stops | ⟨op,span,items,power,shape⟩
  · rw [shape] at rest
    cases rest
  · cases (poweredStops stops).symm.trans rest
    exact ⟨readsRaise .base reads,stops⟩
  · cases op with
    | pow =>
      rw [shape] at reads rest
      obtain ⟨exponent,last,second,kept⟩ := bindFound (poweredRaises.symm.trans rest)
      obtain ⟨raised,ready⟩ := sound.exponent _ _ _ second
      cases kept
      exact ⟨readsJoin .power reads raised,ready⟩
    | _ => contradiction

theorem chainAccepts {joins : BinaryOp → Bool} {operand : Reading (Expr α)} {k l : Category}
    (join : ∀ {op n m w v} {a b : Expr α}, joins op = true → Phrase k n w a → Phrase l m v b →
      Phrase k (max n m) (w ++ .operator op :: v) (.binary op a b))
    (accepting : Accepting l operand) (left : Expr α) :
    ∀ {start r e after}, Reads k left start r → Ready l r → chain limit joins operand left r = .ok e after →
      Reads k e start after ∧ Ready l after ∧ Stops joins after := by
  induction left using chain.induct limit with
  | case1 left ih =>
    intro start r e after reads ready found
    rcases frontCases joins r with ⟨c,span,items,shape⟩ | stops | ⟨op,span,items,joined,shape⟩
    · rw [shape,chainStray] at found
      cases found
    · cases (chainStops stops).symm.trans found
      exact ⟨reads,ready,stops⟩
    · rw [shape] at reads found
      obtain ⟨right,mid,second,rest⟩ := bindFound ((chainJoins joined).symm.trans found)
      obtain ⟨taken,next⟩ := accepting _ _ _ second
      split at rest
      · cases rest
      · rename_i fits
        exact ih op right fits (readsJoin (join joined) reads taken) next rest

theorem termAccepts (sound : Sound nested) : Accepting .term (term limit nested) := by
  intro r e after found
  obtain ⟨first,mid,begun,rest⟩ := bindFound found
  obtain ⟨reads,ready⟩ := factorAccepts sound _ _ _ begun
  obtain ⟨whole,next,stops⟩ := chainAccepts .product (factorAccepts sound) first (readsRaise .single reads) ready rest
  exact ⟨whole,stopsEither.mpr ⟨next,stops⟩⟩

theorem expressionAccepts (sound : Sound nested) : Accepting .expression (expression limit nested) := by
  intro r e after found
  obtain ⟨first,mid,begun,rest⟩ := bindFound found
  obtain ⟨reads,ready⟩ := termAccepts sound _ _ _ begun
  obtain ⟨whole,next,stops⟩ := chainAccepts .sum (termAccepts sound) first (readsRaise .alone reads) ready rest
  exact ⟨whole,stopsEither.mpr ⟨next,stops⟩⟩

theorem argumentAccepts (sound : Sound nested) {r : Remaining} {e : Expr α} {after : Remaining}
    (found : argument limit nested r = .ok e after) :
    ∃ n w items, Phrase .expression n w e ∧ Spells items (.leftParen :: w ++ [.rightParen]) ∧
      r = ⟨items ++ after.items,after.stop⟩ := by
  obtain ⟨items,stop⟩ := r
  rcases items with _ | ⟨⟨piece,span⟩,items⟩
  · cases found
  cases piece with
  | stray c => cases found
  | token t =>
    cases t with
    | leftParen =>
      rw [argumentGroup] at found
      obtain ⟨n,w,inner,closing,phrase,spells,same⟩ := closedReads (expressionAccepts sound) found
      cases same
      refine ⟨n,w,⟨.token .leftParen,span⟩ :: inner ++ [⟨.token .rightParen,closing⟩],phrase,
        spellsAppend (spellsCons spells) (spellsCons spellsNil),?_⟩
      simp
    | _ => cases found

theorem noRoom {part : Nested} {r after : Remaining} {e : Expr α} :
    (inside limit 0 part : Reading (Expr α)) r ≠ .ok e after := by
  intro found
  obtain ⟨here,mid,_,refused⟩ := bindFound found
  cases refused

theorem insideSound (limit room : Nat) : Sound (inside limit room : Nested → Reading (Expr α)) := by
  induction room with
  | zero =>
    exact ⟨fun _ _ _ found => absurd found noRoom,fun _ _ _ found => absurd found noRoom,
      fun _ _ _ found => absurd found noRoom,fun _ _ _ found => absurd found noRoom⟩
  | succ room ih =>
    exact ⟨expressionAccepts ih,fun _ _ _ => argumentAccepts ih,factorAccepts ih,primaryAccepts ih⟩

theorem readExpressionAccepts (limit room : Nat) :
    Accepting .expression (expression limit (inside limit room) : Reading (Expr α)) :=
  expressionAccepts (insideSound limit room)

end SymbolicCalculus.Grammar
