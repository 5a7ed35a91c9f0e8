import SymbolicCalculus.Lexer
import SymbolicCalculus.Parser

/-! One text read call by call. Where reading stands can be saved, and gone back to later; before
anything is saved, going back means back to the start. -/
namespace SymbolicCalculus

inductive Move (γ : Type) where
  | call (request : γ)
  | save
  | restore
  deriving DecidableEq, Repr

def replay {σ γ β : Type} (answer : γ → σ → β × σ) : List (Move γ) → (now saved : σ) → List (Option β)
  | [],_,_ => []
  | .call request :: rest,now,saved =>
      some (answer request now).1 :: replay answer rest (answer request now).2 saved
  | .save :: rest,now,_ => none :: replay answer rest now now
  | .restore :: rest,_,saved => none :: replay answer rest saved saved

def tokenize (text : String) : List (Except Failure PlacedToken) :=
  (Cursor.ofText text).items.map Item.result ++ [.ok (endToken text.utf8ByteSize)]

inductive LexerCall where
  | nextToken
  | iterate
  | source
  deriving DecidableEq, Repr

inductive LexerAnswer where
  | found (result : Except Failure PlacedToken)
  | exhausted
  | source (text : String)

def LexerAnswer.ofIteration : Option (Except Failure PlacedToken) → LexerAnswer
  | some result => .found result
  | none => .exhausted

def lexerAnswer (text : String) (request : LexerCall) (lexer : Lexer) : LexerAnswer × Lexer :=
  match request with
  | .nextToken => (.found lexer.nextToken.1,lexer.nextToken.2)
  | .iterate => (.ofIteration lexer.iterate.1,lexer.iterate.2)
  | .source => (.source text,lexer)

def lexerReplay (text : String) (moves : List (Move LexerCall)) : List (Option LexerAnswer) :=
  replay (lexerAnswer text) moves (Lexer.ofText text) (Lexer.ofText text)

inductive ParserCall where
  | peek
  | nextToken
  | parse (extent : Extent)
  | source
  deriving DecidableEq, Repr

inductive ParserAnswer (α : Type) where
  | token (found : PlacedToken)
  | tree (e : Expr α)
  | failed (failure : Failure)
  | source (text : String)

def answered {α β σ : Type} (wrap : β → ParserAnswer α) : EStateM.Result Failure σ β → ParserAnswer α × σ
  | .ok value after => (wrap value,after)
  | .error failure after => (.failed failure,after)

def parserAnswer {α : Type} [Numeral α] (limit : Nat) (text : String) (request : ParserCall) (p : Parser) :
    ParserAnswer α × Parser :=
  match request with
  | .peek => answered .token (Parser.peek p)
  | .nextToken => answered .token (Grammar.next p)
  | .parse extent => answered .tree (Parser.readExpression limit extent p)
  | .source => (.source text,p)

def parserReplay (α : Type) [Numeral α] (limit : Nat) (text : String) (moves : List (Move ParserCall)) :
    List (Option (ParserAnswer α)) :=
  replay (parserAnswer limit text) moves (Parser.ofText text) (Parser.ofText text)

end SymbolicCalculus
