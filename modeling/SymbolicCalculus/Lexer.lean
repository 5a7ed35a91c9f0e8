import SymbolicCalculus.Failure
import SymbolicCalculus.Items

/-! A lexer that goes through a text item by item. The next token can be asked for, and then the end of the text
comes as a token again and again; or the items are iterated over, and there is none at the end. -/
namespace SymbolicCalculus

def Item.result : Item → Except Failure PlacedToken
  | ⟨.token t,span⟩ => .ok ⟨t,span⟩
  | ⟨.stray c,span⟩ => .error ⟨.unexpectedCharacter c,[span]⟩

def endToken (stop : Nat) : PlacedToken := ⟨.endOfInput,⟨stop,stop⟩⟩

structure Lexer where
  cursor : Cursor
  finished : Bool
  deriving DecidableEq, Repr

namespace Lexer

def ofText (text : String) : Lexer := ⟨.ofText text,false⟩

def nextToken (lexer : Lexer) : Except Failure PlacedToken × Lexer :=
  match lexer.cursor.next with
  | none => (.ok (endToken lexer.cursor.stop),lexer)
  | some (item,after) => (item.result,{ lexer with cursor := after })

def iterate (lexer : Lexer) : Option (Except Failure PlacedToken) × Lexer :=
  if lexer.finished then (none,lexer)
  else match lexer.nextToken with
    | (.ok ⟨.endOfInput,_⟩,after) => (none,{ after with finished := true })
    | (result,after) => (some result,after)

end Lexer
end SymbolicCalculus
