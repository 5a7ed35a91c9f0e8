import SymbolicCalculus.Operator

/-! Which functions a misspelt name may have meant: those at most one edit away, an edit being
the insertion, the deletion or the replacement of one character. -/
namespace SymbolicCalculus

/- The first difference decides: behind an equal start one edit has to make the rests equal, and
an edit behind the difference would leave it standing. -/
def withinOneEdit : List Char → List Char → Bool
  | [],other => other.length ≤ 1
  | word,[] => word.length ≤ 1
  | a :: word,b :: other =>
      if a = b then withinOneEdit word other
      else word == other || word == b :: other || a :: word == other

def suggestions (name : String) : List String :=
  (functions.map UnaryOp.word).filter (fun f => withinOneEdit f.toList name.toList)

end SymbolicCalculus
