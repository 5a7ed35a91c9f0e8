import SymbolicCalculus.Proofs.Depths
import SymbolicCalculus.Proofs.RealTexts

/-! A tree that has been read is rendered as a text of its own, which is nested more deeply than the text it
was read from where that had fewer parentheses. It is read back under a limit that admits what the tree
needs, and what it needs is bounded by the limit under which the tree was read first. -/
namespace SymbolicCalculus

namespace Expr
variable {α : Type}

def Constants (p : α → Prop) (t : Expr α) : Prop := ∀ c, const c ∈ t.parts → p c

theorem constantsConst {p : α → Prop} {c : α} : (const c).Constants p ↔ p c := by
  simp [Constants,parts]

theorem constantsUnary {p : α → Prop} {op : UnaryOp} {operand : Expr α} :
    (unary op operand).Constants p ↔ operand.Constants p := by
  simp [Constants,parts]

theorem constantsBinary {p : α → Prop} {op : BinaryOp} {left right : Expr α} :
    (binary op left right).Constants p ↔ left.Constants p ∧ right.Constants p := by
  simp [Constants,parts,or_imp,forall_and]

def Unsigned [Numeral α] : Expr α → Prop := Constants (fun c => signed c = false)

theorem normalUnsigned [Numeral α] [Scalar α] {t : Expr α} (unsigned : t.Unsigned) : t.normal = t := by
  induction t with
  | const c => simp [normal,constantsConst.mp unsigned]
  | var => rfl
  | binary op left right ihl ihr =>
    rw [normal,ihl (constantsBinary.mp unsigned).1,ihr (constantsBinary.mp unsigned).2]
  | unary op operand ih => rw [normal,ih (constantsUnary.mp unsigned)]

end Expr

section needs
open Grammar
variable {α : Type} [Numeral α]

theorem needConst {c : α} (unsigned : (Expr.const c).Unsigned) : (Expr.const c).need = 0 := by
  simp [Expr.need,Expr.constantsConst.mp unsigned]

theorem needDepth {k : Category} {n : Nat} {w : List Token} {e : Expr α} (phrase : Phrase k n w e)
    (unsigned : e.Unsigned) : e.need + 1 ≤ e.depth + 2 * n := by
  induction phrase with
  | number => simp [needConst unsigned,Expr.depth]
  | named => simp [Expr.need,Expr.depth]
  | @call f _ _ _ known _ ih =>
    have deep := ih (Expr.constantsUnary.mp unsigned)
    simp only [Expr.need,Expr.depth,if_neg (functionNoMinus known)]
    omega
  | group _ ih =>
    have deep := ih unsigned
    omega
  | minus _ ih =>
    -- Two levels more in the text, one of which the phrase opens as well.
    have deep := ih (Expr.constantsUnary.mp unsigned)
    simp only [Expr.need,Expr.depth,if_pos]
    omega
  | base _ ih | single _ ih | alone _ ih => exact ih unsigned
  | power _ _ ihl ihr =>
    have base := ihl (Expr.constantsBinary.mp unsigned).1
    have exponent := ihr (Expr.constantsBinary.mp unsigned).2
    simp only [Expr.need,Expr.depth,if_pos]
    omega
  | @product op _ _ _ _ _ _ joins _ _ ihl ihr | @sum op _ _ _ _ _ _ joins _ _ ihl ihr =>
    have left := ihl (Expr.constantsBinary.mp unsigned).1
    have right := ihr (Expr.constantsBinary.mp unsigned).2
    have chains : op.chains = true := by first | exact factorsChain joins | exact termsChain joins
    simp only [Expr.need,Expr.depth,if_neg (chainsNoPower chains)]
    omega

theorem needNested {limit : Nat} {k : Category} {n : Nat} {w : List Token} {e : Expr α} (phrase : Phrase k n w e)
    (unsigned : e.Unsigned) (low : e.tallest ≤ limit) :
    e.need + 1 ≤ max limit 2 + 2 * n ∧ (k = .primary → e.need = 0 ∨ e.need + 2 ≤ max limit 2 + 2 * n) := by
  have chained {op : BinaryOp} {a b : Expr α} {n : Nat} (chains : op.chains = true)
      (low : (Expr.binary op a b).tallest ≤ limit)
      (deep : (Expr.binary op a b).need + 1 ≤ (Expr.binary op a b).depth + 2 * n) :
      (Expr.binary op a b).need + 1 ≤ max limit 2 + 2 * n := by
    rw [Expr.tallest,chains,if_pos rfl] at low
    omega
  induction phrase with
  | number => exact ⟨by rw [needConst unsigned]; omega,fun _ => Or.inl (needConst unsigned)⟩
  | named => exact ⟨by simp only [Expr.need]; omega,fun _ => Or.inl rfl⟩
  | @call f _ _ _ known _ ih =>
    obtain ⟨argument,_⟩ := ih (Expr.constantsUnary.mp unsigned) low
    simp only [Expr.need,if_neg (functionNoMinus known)]
    exact ⟨by omega,fun _ => Or.inr (by omega)⟩
  | group _ ih =>
    obtain ⟨inner,_⟩ := ih unsigned low
    exact ⟨by omega,fun _ => Or.inr (by omega)⟩
  | minus _ ih =>
    -- Two levels at once, for a primary that needs none or one less than a chain may.
    have operand := (ih (Expr.constantsUnary.mp unsigned) low).2 rfl
    simp only [Expr.need,if_pos]
    exact ⟨by omega,fun _ => Or.inr (by omega)⟩
  | base _ ih | single _ ih | alone _ ih => exact ⟨(ih unsigned low).1,by simp⟩
  | power _ _ ihl ihr =>
    have lower := Nat.max_le.mp (Nat.max_le.mp low).2
    have base := (ihl (Expr.constantsBinary.mp unsigned).1 lower.1).2 rfl
    have exponent := (ihr (Expr.constantsBinary.mp unsigned).2 lower.2).1
    simp only [Expr.need,if_pos]
    exact ⟨by omega,by simp⟩
  | product joins left right =>
    exact ⟨chained (factorsChain joins) low (needDepth (.product joins left right) unsigned),by simp⟩
  | sum joins left right => exact ⟨chained (termsChain joins) low (needDepth (.sum joins left right) unsigned),by simp⟩

theorem needBounded {limit n : Nat} {w : List Token} {e : Expr α} (phrase : Phrase .expression n w e)
    (unsigned : e.Unsigned) (fits : Fits limit limit n e) : e.need ≤ 3 * limit := by
  obtain ⟨levels,low⟩ := fits
  cases limit with
  | zero =>
    have flat := phraseFlat phrase (by omega) (by omega)
    have deep := needDepth phrase unsigned
    omega
  | succ limit =>
    have nested := (needNested phrase unsigned low).1
    omega

end needs

section reals
open Grammar
open RealNumber (IsFinite unsignedWritten unsignedLiteral literalUnsignedReal)

theorem spellsMember {items : List Item} {w : List Token} {t : Token} (spells : Spells items w) (member : t ∈ w) :
    ∃ span, ⟨.token t,span⟩ ∈ items := by
  have piece : Piece.token t ∈ items.map Item.piece := by
    rw [spells]
    exact List.mem_map_of_mem member
  obtain ⟨⟨_,span⟩,here,same⟩ := List.mem_map.mp piece
  cases same
  exact ⟨span,here⟩

structure Sourced (w : List Token) : Prop where
  numbers : ∀ digits, .number digits ∈ w → Literal digits.toList
  names : ∀ name, .variable name ∈ w → IsName name

theorem sourcedItems {cursor : Cursor} {items : List Item} {w : List Token} (spells : Spells items w)
    (within : ∀ item ∈ items, item ∈ cursor.items) : Sourced w := by
  refine ⟨fun digits member => ?_,fun name member => ?_⟩
  · obtain ⟨span,here⟩ := spellsMember spells member
    exact itemsLiteral (within _ here)
  · obtain ⟨span,here⟩ := spellsMember spells member
    exact itemsName (within _ here)

theorem Sourced.part {w v : List Token} (sourced : Sourced w) (within : ∀ t ∈ v, t ∈ w) : Sourced v :=
  ⟨fun digits member => sourced.numbers digits (within _ member),fun name member => sourced.names name (within _ member)⟩

theorem phrasePresentable {k : Category} {n : Nat} {w : List Token} {t : Expr Float} (phrase : Phrase k n w t)
    (sourced : Sourced w) (finite : t.Constants IsFinite) : t.Presentable ∧ t.Unsigned := by
  induction phrase with
  | @number digits value read =>
    have unsigned := literalUnsignedReal (sourced.numbers digits List.mem_cons_self) read
    have proper := Expr.constantsConst.mp finite
    have plain : signed value = false := literalSigned (unsignedLiteral proper unsigned) rfl
    exact ⟨unsignedWritten proper unsigned,Expr.constantsConst.mpr plain⟩
  | named name => exact ⟨sourced.names name List.mem_cons_self,by simp [Expr.Unsigned,Expr.Constants,Expr.parts]⟩
  | call _ _ ih =>
    obtain ⟨presentable,unsigned⟩ := ih (sourced.part (by simp +contextual)) (Expr.constantsUnary.mp finite)
    exact ⟨presentable,Expr.constantsUnary.mpr unsigned⟩
  | group _ ih => exact ih (sourced.part (by simp +contextual)) finite
  | minus _ ih =>
    obtain ⟨presentable,unsigned⟩ := ih (sourced.part (by simp +contextual)) (Expr.constantsUnary.mp finite)
    exact ⟨presentable,Expr.constantsUnary.mpr unsigned⟩
  | base _ ih | single _ ih | alone _ ih => exact ih sourced finite
  | power _ _ ihl ihr | product _ _ _ ihl ihr | sum _ _ _ ihl ihr =>
    obtain ⟨inLeft,inRight⟩ := Expr.constantsBinary.mp finite
    obtain ⟨left,plain⟩ := ihl (sourced.part (by simp +contextual)) inLeft
    obtain ⟨right,others⟩ := ihr (sourced.part (by simp +contextual)) inRight
    exact ⟨⟨left,right⟩,Expr.constantsBinary.mpr ⟨plain,others⟩⟩

theorem rereadDecided {text : String} {limit : Nat} {t : Expr Float} (parsed : parse limit .whole text = .ok t)
    (finite : t.Constants IsFinite) : t.need ≤ 3 * limit ∧ t.tallest ≤ limit ∧
      ∀ other, Decided other (max t.need t.tallest ≤ other)
        (expression other (inside other other) (Remaining.ofText t.render)) (.ok t ⟨[],t.render.utf8ByteSize⟩) := by
  obtain ⟨after,found⟩ := parseFound.mp parsed
  obtain ⟨n,w,items,phrase,spells,same,fits⟩ := readFits found
  have whole : items ++ after.items = (Cursor.ofText text).items := (congrArg Remaining.items same).symm
  have sourced : Sourced w := sourcedItems spells (fun item member => whole ▸ List.mem_append_left _ member)
  obtain ⟨presentable,unsigned⟩ := phrasePresentable phrase sourced finite
  have normal := Expr.normalUnsigned unsigned
  have reach := t.normalTallest
  rw [normal] at reach
  refine ⟨needBounded phrase unsigned fits,fits.2,fun other => ?_⟩
  have decided := renderedDecided presentable other
  rwa [normal,← reach] at decided

/-- What has been read as a whole text over the reals, all constants finite, is rendered as a text that needs
parentheses where the first one had none. Under the same limit it is read back as the same tree exactly when
the limit admits what the tree needs, and is refused for the limit otherwise. The tree never needs more than
three times the limit, under which it is always read back. -/
theorem rereads (text : String) (limit : Nat) (t : Expr Float) (parsed : parse limit .whole text = .ok t)
    (finite : t.Constants IsFinite) :
    (t.need ≤ limit → parse limit .whole t.render = .ok t) ∧
    (limit < t.need →
      ∃ spans, (parse limit .whole t.render : Except Failure (Expr Float)) = .error ⟨.nestingLimit limit,spans⟩) ∧
    t.need ≤ 3 * limit ∧ parse (3 * limit) .whole t.render = .ok t := by
  obtain ⟨bounded,low,decided⟩ := rereadDecided parsed finite
  refine ⟨fun enough => ?_,fun short => ?_,bounded,?_⟩
  · exact Grammar.parseFound.mpr ⟨_,Grammar.wholeReads ((decided limit).read (by omega))⟩
  · obtain ⟨spans,after,refused⟩ := (decided limit).refused (by omega)
    exact ⟨spans,Grammar.parseFailed.mpr ⟨after,Grammar.wholeFails refused⟩⟩
  · exact Grammar.parseFound.mpr ⟨_,Grammar.wholeReads ((decided (3 * limit)).read (by omega))⟩

theorem rereadsPower : ∃ t : Expr Float, parse 1 .whole "-x^2.5" = .ok t ∧ t.Constants IsFinite ∧ t.need = 3 ∧
    (∃ spans, (parse 1 .whole t.render : Except Failure (Expr Float)) = .error ⟨.nestingLimit 1,spans⟩) ∧
    parse 3 .whole t.render = .ok t := by
  have value : RealNumber.ofText? "2.5" = some 2.5 := by decide +kernel
  have read : Numeral.ofLiteral "2.5" = Except.ok (2.5 : Float) := by simp only [Numeral.ofLiteral,value]
  have literal : Literal "2.5".toList :=
    ⟨by decide,['2'],List.all_eq_true.mp rfl,Or.inr ⟨['5'],List.all_eq_true.mp rfl,rfl⟩⟩
  have finite : IsFinite 2.5 := by decide +kernel
  have plain : signed (2.5 : Float) = false := by decide +kernel
  have apart : Apart ('^' :: ("2.5".toList ++ [])) := by
    intro c head
    cases head
    decide
  have power := lexesThen (lexesOperator .pow) (lexesNumber literal apartNone)
  have lexes := lexesThen (lexesOperator .sub) (lexesThen (lexesX apart) power)
  have phrase := Phrase.alone (.single (.power (.minus (.named "x")) (.base (.number read))))
  have parsed := lexedRead phrase lexes ⟨Nat.le_refl 1,by decide⟩ .whole
  have constants : (Expr.binary .pow (.unary .neg (.var "x")) (.const (2.5 : Float))).Constants IsFinite := by
    simpa [Expr.Constants,Expr.parts] using finite
  have needs : (Expr.binary .pow (.unary .neg (.var "x")) (.const (2.5 : Float))).need = 3 := by simp [Expr.need,plain]
  obtain ⟨_,refused,_,back⟩ := rereads "-x^2.5" 1 _ parsed constants
  exact ⟨_,parsed,constants,needs,refused (by rw [needs]; decide),back⟩

def minusText : Nat → List Char
  | 0 => ['x']
  | n+1 => '-' :: minusText n

def minusTree {α : Type} : Nat → Expr α
  | 0 => .var "x"
  | n+1 => .unary .neg (minusTree n)

theorem minusPhrase {α : Type} [Numeral α] (n : Nat) : ∃ w, Phrase .primary n w (minusTree n : Expr α) ∧
    ∀ rest, Apart rest → Lexes (minusText n ++ rest) rest w := by
  induction n with
  | zero => exact ⟨_,.named "x",fun rest apart => lexesX apart⟩
  | succ n ih =>
    obtain ⟨w,phrase,lexes⟩ := ih
    exact ⟨_,.minus phrase,fun rest apart => lexesThen (lexesOperator .sub) (lexes rest apart)⟩

theorem minusNeeds {α : Type} [Numeral α] (n : Nat) (p : α → Prop) :
    (minusTree n : Expr α).tallest = 0 ∧ (minusTree n : Expr α).need = 2 * n ∧ (minusTree n : Expr α).Constants p := by
  induction n with
  | zero => exact ⟨rfl,rfl,by simp [Expr.Constants,minusTree,Expr.parts]⟩
  | succ n ih =>
    obtain ⟨low,needs,constants⟩ := ih
    refine ⟨low,?_,Expr.constantsUnary.mpr constants⟩
    simp only [minusTree,Expr.need,if_pos,needs]
    omega

theorem minusRefused {limit : Nat} (some : 1 ≤ limit) : ∃ (text : String) (t : Expr Float),
    parse limit .whole text = .ok t ∧ t.Constants IsFinite ∧
      ∃ spans, (parse limit .whole t.render : Except Failure (Expr Float)) = .error ⟨.nestingLimit limit,spans⟩ := by
  obtain ⟨w,phrase,lexes⟩ := minusPhrase (α := Float) limit
  obtain ⟨low,needs,finite⟩ := minusNeeds limit IsFinite
  have spelled := lexes [] apartNone
  rw [List.append_nil] at spelled
  have parsed := lexedRead (.alone (.single (.base phrase))) spelled ⟨Nat.le_refl limit,by omega⟩ .whole
  obtain ⟨spans,after,refused⟩ := ((rereadDecided parsed finite).2.2 limit).refused (by omega)
  exact ⟨_,minusTree limit,parsed,finite,spans,parseFailed.mpr ⟨after,wholeFails refused⟩⟩

theorem minusNotReread :
    (¬ ∀ (text : String) (limit : Nat) (t : Expr Float), parse limit .whole text = .ok t → t.Constants IsFinite →
      parse limit .whole t.render = .ok t) ∧
    ¬ ∀ (text : String) (t : Expr Float), parse defaultLimit .whole text = .ok t → t.Constants IsFinite →
      parse defaultLimit .whole t.render = .ok t := by
  obtain ⟨text,t,parsed,finite,spans,refused⟩ := minusRefused (show 1 ≤ defaultLimit by decide)
  have lost : parse defaultLimit .whole t.render ≠ .ok t := fun back => by cases refused.symm.trans back
  exact ⟨fun always => lost (always text defaultLimit t parsed finite),fun always => lost (always text t parsed finite)⟩

end reals
end SymbolicCalculus
