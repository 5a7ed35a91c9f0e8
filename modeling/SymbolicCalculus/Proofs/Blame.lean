import SymbolicCalculus.Proofs.Diagnosis

/-! What a failure says is so, under every limit. Each of its places is that of an item it was found among, or
the end behind them, and what it tells of that item holds. -/
namespace SymbolicCalculus

def Remaining.Shows (r : Remaining) (here : PlacedToken) : Prop :=
  ⟨.token here.token,here.span⟩ ∈ r.items ∨ here = endToken r.stop

theorem aheadShown {r : Remaining} {here : PlacedToken} (ahead : r.ahead? = some here) : r.Shows here := by
  obtain ⟨items,stop⟩ := r
  rcases items with _ | ⟨⟨piece,span⟩,items⟩
  · exact Or.inr (Option.some.inj ahead).symm
  cases piece with
  | stray c => cases ahead
  | token t =>
    cases ahead
    exact Or.inl List.mem_cons_self

theorem showsBehind {before items : List Item} {stop : Nat} {here : PlacedToken}
    (shown : (Remaining.mk items stop).Shows here) : (Remaining.mk (before ++ items) stop).Shows here :=
  shown.imp_left (List.mem_append_right before)

namespace Grammar
variable {α : Type} [Numeral α] {limit : Nat} {nested : Nested → Reading (Expr α)}

inductive Blame (α : Type) [Numeral α] (limit : Nat) (r : Remaining) : Failure → Prop where
  | stray {c span} (member : ⟨.stray c,span⟩ ∈ r.items) : Blame α limit r ⟨.unexpectedCharacter c,[span]⟩
  | ended {span} (shown : r.Shows ⟨.endOfInput,span⟩) : Blame α limit r ⟨.unexpectedEnd,[span]⟩
  | misplaced {t span} (member : ⟨.token t,span⟩ ∈ r.items) (sign : t = .rightParen ∨ ∃ op, t = .operator op) :
      Blame α limit r ⟨.unexpectedToken "an expression" t.describe,[span]⟩
  | literal {digits span fault} (member : ⟨.token (.number digits),span⟩ ∈ r.items)
      (refused : (Numeral.ofLiteral digits : Except LiteralFault α) = .error fault) :
      Blame α limit r ⟨literalCause α digits fault,[span]⟩
  | unknown {name span} (member : ⟨.token (.function name),span⟩ ∈ r.items) (unknown : UnaryOp.ofName? name = none) :
      Blame α limit r ⟨.unknownFunction name (suggestions name),[span]⟩
  | unclosed {front opening behind here} (whole : r.items = front ++ ⟨.token .leftParen,opening⟩ :: behind)
      (shown : (Remaining.mk behind r.stop).Shows here) (other : here.token ≠ .rightParen) :
      Blame α limit r ⟨.expectedToken ")",[here.span,opening]⟩
  | unread {t span} (member : ⟨.token t,span⟩ ∈ r.items) : Blame α limit r ⟨.expectedEnd,[⟨span.start,r.stop⟩]⟩
  | nested {here} (shown : r.Shows here) : Blame α limit r ⟨.nestingLimit limit,[here.span]⟩

theorem blameBehind (before : List Item) {items : List Item} {stop : Nat} {failure : Failure}
    (blame : Blame α limit ⟨items,stop⟩ failure) : Blame α limit ⟨before ++ items,stop⟩ failure := by
  have among {item : Item} (member : item ∈ items) : item ∈ before ++ items := List.mem_append_right before member
  cases blame with
  | stray member => exact .stray (among member)
  | ended shown => exact .ended (showsBehind shown)
  | misplaced member sign => exact .misplaced (among member) sign
  | literal member refused => exact .literal (among member) refused
  | unknown member unknown => exact .unknown (among member) unknown
  | @unclosed front opening behind here whole shown other =>
    have further : before ++ items = (before ++ front) ++ ⟨.token .leftParen,opening⟩ :: behind := by
      rw [List.append_assoc]
      exact congrArg (before ++ ·) whole
    exact .unclosed further shown other
  | unread member => exact .unread (among member)
  | nested shown => exact .nested (showsBehind shown)

theorem blameTail {item : Item} {items : List Item} {stop : Nat} {failure : Failure}
    (blame : Blame α limit ⟨items,stop⟩ failure) : Blame α limit ⟨item :: items,stop⟩ failure :=
  blameBehind [item] blame

theorem blameReads {k : Category} {e : Expr α} {r mid : Remaining} {failure : Failure} (reads : Reads k e r mid)
    (blame : Blame α limit mid failure) : Blame α limit r failure := by
  obtain ⟨_,_,items,_,_,same⟩ := reads
  exact same ▸ blameBehind items blame

def Blamed (limit : Nat) (m : Reading (Expr α)) : Prop :=
  ∀ r failure after, WellCut r.items → m r = .error failure after → Blame α limit r failure

structure Blames (limit : Nat) (nested : Nested → Reading (Expr α)) : Prop where
  group : Blamed limit (nested .group)
  argument : ∀ opening items stop failure after, WellCut items →
    nested .argument ⟨⟨.token .leftParen,opening⟩ :: items,stop⟩ = .error failure after →
    Blame α limit ⟨⟨.token .leftParen,opening⟩ :: items,stop⟩ failure
  exponent : Blamed limit (nested .exponent)
  operand : Blamed limit (nested .operand)

theorem refuseBlamed : Blamed limit (refuse limit : Reading (Expr α)) := by
  intro r failure after _ failed
  cases ahead : r.ahead? with
  | some here =>
    cases (bindRuns (supplied ahead)).symm.trans failed
    exact .nested (aheadShown ahead)
  | none =>
    obtain ⟨items,stop⟩ := r
    rcases items with _ | ⟨⟨piece,span⟩,items⟩
    · cases ahead
    cases piece with
    | token t => cases ahead
    | stray c =>
      cases failed
      exact .stray List.mem_cons_self

theorem closeFails {opening : Span} {r after : Remaining} {here : PlacedToken} {failure : Failure}
    (ahead : r.ahead? = some here) (failed : expectClose opening r = .error failure after) :
    here.token ≠ .rightParen ∧ failure = ⟨.expectedToken ")",[here.span,opening]⟩ := by
  obtain ⟨t,span⟩ := here
  have closing := (bindRuns (supplied ahead)).symm.trans failed
  cases t with
  | rightParen => cases closing
  | _ =>
    cases closing
    exact ⟨by simp,rfl⟩

theorem closedBlamed {m : Reading (Expr α)} (accepting : Accepting .expression m) (blamed : Blamed limit m)
    {opening : Span} {items : List Item} {stop : Nat} {failure : Failure} {after : Remaining} (cut : WellCut items)
    (failed : (m >>= fun e => expectClose opening >>= fun _ => pure e) ⟨items,stop⟩ = .error failure after) :
    Blame α limit ⟨⟨.token .leftParen,opening⟩ :: items,stop⟩ failure := by
  rcases bindFailed failed with inner | ⟨e,mid,found,rest⟩
  · exact blameTail (blamed _ _ _ cut inner)
  obtain ⟨⟨_,_,before,_,_,same⟩,here,ahead,_⟩ := accepting _ e mid found
  have shown : (Remaining.mk items stop).Shows here := same ▸ showsBehind (aheadShown ahead)
  rcases bindFailed rest with unclosed | ⟨_,_,_,kept⟩
  · obtain ⟨other,rfl⟩ := closeFails ahead unclosed
    exact .unclosed (List.nil_append _).symm shown other
  · cases kept

theorem primaryBlamed (sound : Sound nested) (blames : Blames limit nested) : Blamed limit (primary nested) := by
  intro r failure after cut failed
  obtain ⟨items,stop⟩ := r
  rcases items with _ | ⟨⟨piece,span⟩,items⟩
  · cases primaryEnd.symm.trans failed
    exact .ended (Or.inr rfl)
  cases piece with
  | stray c =>
    cases primaryStray.symm.trans failed
    exact .stray List.mem_cons_self
  | token t =>
    have left : WellCut items := wellCutTail cut
    cases t with
    | number digits =>
      rw [primaryNumber] at failed
      cases read : (Numeral.ofLiteral digits : Except LiteralFault α) with
      | ok value => cases (numberRead read).symm.trans failed
      | error fault =>
        cases (numberRefused read).symm.trans failed
        exact .literal List.mem_cons_self read
    | «variable» name => cases failed
    | function name =>
      rw [primaryFunction] at failed
      obtain ⟨opening,tail,rfl⟩ := cut.opened [] name span items rfl
      rcases bindFailed failed with inner | ⟨e,mid,_,called⟩
      · exact blameTail (blames.argument opening tail stop failure after (wellCutTail left) inner)
      · cases known : UnaryOp.ofName? name with
        | some f => cases (callKnown known).symm.trans called
        | none =>
          cases (callUnknown known).symm.trans called
          exact .unknown List.mem_cons_self known
    | operator op =>
      cases op with
      | sub =>
        rw [primaryMinus] at failed
        rcases bindFailed failed with inner | ⟨_,_,_,kept⟩
        · exact blameTail (blames.operand _ _ _ left inner)
        · cases kept
      | _ =>
        cases failed
        exact .misplaced List.mem_cons_self (Or.inr ⟨_,rfl⟩)
    | leftParen =>
      rw [primaryGroup] at failed
      exact closedBlamed sound.group blames.group left failed
    | rightParen =>
      cases failed
      exact .misplaced List.mem_cons_self (Or.inl rfl)
    | endOfInput =>
      cases failed
      exact .ended (Or.inl List.mem_cons_self)

theorem factorBlamed (sound : Sound nested) (blames : Blames limit nested) : Blamed limit (factor nested) := by
  intro r failure after cut failed
  rw [factorBase] at failed
  rcases bindFailed failed with inner | ⟨base,mid,found,rest⟩
  · exact primaryBlamed sound blames r failure after cut inner
  obtain ⟨reads,_⟩ := primaryAccepts sound r base mid found
  obtain ⟨left,_,_⟩ := readsLeft reads cut
  refine blameReads reads ?_
  rcases frontCases raises mid with ⟨c,span,items,shape⟩ | stops | ⟨op,span,items,power,shape⟩
  · rw [shape] at rest ⊢
    cases rest
    exact .stray List.mem_cons_self
  · cases (poweredStops stops).symm.trans rest
  · cases op with
    | pow =>
      rw [shape] at rest left ⊢
      rcases bindFailed (poweredRaises.symm.trans rest) with inner | ⟨_,_,_,kept⟩
      · exact blameTail (blames.exponent _ _ _ (wellCutTail left) inner)
      · cases kept
    | _ => contradiction

theorem chainBlamed {joins : BinaryOp → Bool} {operand : Reading (Expr α)} {k : Category}
    (accepting : Accepting k operand) (blamed : Blamed limit operand) (left : Expr α) :
    Blamed limit (chain limit joins operand left) := by
  induction left using chain.induct limit with
  | case1 left ih =>
    intro r failure after cut failed
    rcases frontCases joins r with ⟨c,span,items,shape⟩ | stops | ⟨op,span,items,joined,shape⟩
    · rw [shape,chainStray] at failed
      rw [shape]
      cases failed
      exact .stray List.mem_cons_self
    · cases (chainStops stops).symm.trans failed
    · rw [shape] at failed cut ⊢
      have behind : WellCut items := wellCutTail cut
      rcases bindFailed ((chainJoins joined).symm.trans failed) with inner | ⟨right,mid,found,rest⟩
      · exact blameTail (blamed _ _ _ behind inner)
      obtain ⟨reads,_⟩ := accepting _ _ _ found
      obtain ⟨beyond,_,_⟩ := readsLeft reads behind
      split at rest
      · have shown : (Remaining.mk (⟨.token (.operator op),span⟩ :: items) r.stop).Shows ⟨.operator op,span⟩ :=
          Or.inl List.mem_cons_self
        cases rest
        exact .nested shown
      · rename_i fits
        exact blameTail (blameReads reads (ih op right fits mid failure after beyond rest))

theorem chainedBlamed {joins : BinaryOp → Bool} {operand : Reading (Expr α)} {k : Category}
    (accepting : Accepting k operand) (blamed : Blamed limit operand) :
    Blamed limit (operand >>= chain limit joins operand) := by
  intro r failure after cut failed
  rcases bindFailed failed with inner | ⟨first,mid,found,rest⟩
  · exact blamed r failure after cut inner
  · obtain ⟨reads,_⟩ := accepting r first mid found
    obtain ⟨beyond,_,_⟩ := readsLeft reads cut
    exact blameReads reads (chainBlamed accepting blamed first mid failure after beyond rest)

theorem termBlamed (sound : Sound nested) (blames : Blames limit nested) : Blamed limit (term limit nested) :=
  chainedBlamed (factorAccepts sound) (factorBlamed sound blames)

theorem expressionBlamed (sound : Sound nested) (blames : Blames limit nested) :
    Blamed limit (expression limit nested) :=
  chainedBlamed (termAccepts sound) (termBlamed sound blames)

theorem insideBlames (limit room : Nat) : Blames limit (inside limit room : Nested → Reading (Expr α)) := by
  induction room with
  | zero =>
    refine ⟨refuseBlamed,fun opening items stop failure after _ failed => ?_,refuseBlamed,refuseBlamed⟩
    cases failed
    have shown : (Remaining.mk (⟨.token .leftParen,opening⟩ :: items) stop).Shows ⟨.leftParen,opening⟩ :=
      Or.inl List.mem_cons_self
    exact .nested shown
  | succ room ih =>
    have sound := insideSound (α := α) limit room
    refine ⟨expressionBlamed sound ih,?_,factorBlamed sound ih,primaryBlamed sound ih⟩
    intro opening items stop failure after cut failed
    exact closedBlamed (expressionAccepts sound) (expressionBlamed sound ih) cut (argumentGroup.symm.trans failed)

theorem readBlamed (extent : Extent) : Blamed limit (readExpression limit extent : Reading (Expr α)) := by
  intro r failure after cut failed
  have blamed := expressionBlamed (insideSound (α := α) limit limit) (insideBlames limit limit)
  cases extent with
  | first => exact blamed r failure after cut failed
  | whole =>
    rcases bindFailed failed with inner | ⟨e,mid,found,rest⟩
    · exact blamed r failure after cut inner
    · obtain ⟨reads,⟨t,span⟩,ahead,_⟩ := readExpressionAccepts limit limit r e mid found
      refine blameReads reads ?_
      have behind := (bindRuns (supplied ahead)).symm.trans rest
      rcases aheadShown ahead with member | ends
      · cases t with
        | endOfInput => cases behind
        | _ =>
          cases behind
          exact .unread member
      · cases ends
        cases behind

theorem parseBlamed {text : String} {extent : Extent} {failure : Failure}
    (failed : (parse limit extent text : Except Failure (Expr α)) = .error failure) :
    Blame α limit (Remaining.ofText text) failure := by
  obtain ⟨after,failed⟩ := parseFailed.mp failed
  exact readBlamed extent _ _ _ (wellCutText text) failed

end Grammar
end SymbolicCalculus
