import SymbolicCalculus.Grammar

/-! A parser that goes through a text call by call. Items are cut from the text one at a time, when they are
looked at, and how deep reading is nested is counted; both outlast a call, whether it fails or not. -/
namespace SymbolicCalculus

structure Parser where
  cursor : Cursor
  buffered : Option PlacedToken
  depth : Nat
  deriving DecidableEq, Repr

namespace Parser

def ofText (text : String) : Parser := ⟨.ofText text,none,0⟩

/- A stray character is behind the parser when it is reported. Behind the last token only blanks are left,
and the end of the text is found behind these. -/
def peek : EStateM Failure Parser PlacedToken := fun p =>
  match p.buffered with
  | some here => .ok here p
  | none => match p.cursor.next with
    | none =>
        let here : PlacedToken := ⟨.endOfInput,⟨p.cursor.stop,p.cursor.stop⟩⟩
        .ok here { p with cursor := ⟨[],p.cursor.stop⟩, buffered := some here }
    | some (⟨.token t,span⟩,after) => .ok ⟨t,span⟩ { p with cursor := after, buffered := some ⟨t,span⟩ }
    | some (⟨.stray c,span⟩,after) => .error ⟨.unexpectedCharacter c,[span]⟩ { p with cursor := after }

def advance : EStateM Failure Parser Unit := fun p => .ok () { p with buffered := none }

instance : Supply Parser := ⟨peek,advance,fun p => p.cursor.stop⟩

def nested {α : Type} (limit : Nat) (m : EStateM Failure Parser (Expr α)) : EStateM Failure Parser (Expr α) := fun p =>
  if limit ≤ p.depth then Grammar.refuse limit p
  else match m { p with depth := p.depth + 1 } with
    | .ok e after => .ok e { after with depth := after.depth - 1 }
    | .error failure after => .error failure { after with depth := after.depth - 1 }

variable {α : Type} [Numeral α]

/- It is the depth that refuses a level; the rounds only bound the recursion. -/
def inside (limit : Nat) : Nat → Grammar.Nested → EStateM Failure Parser (Expr α)
  | 0,_ => Grammar.refuse limit
  | rounds+1,part => nested limit (Grammar.part limit (inside limit rounds) part)

/- One round more than there are levels, so that the last one is never entered. -/
def readExpression (limit : Nat) (extent : Extent) : EStateM Failure Parser (Expr α) :=
  extent.read (Grammar.expression limit (inside limit (limit + 1)))

end Parser
end SymbolicCalculus
