/-! Blank space around the words of a line. It is wider than what separates tokens: all characters
count that are white space in Unicode. -/
namespace SymbolicCalculus.Line

def isWhite (c : Char) : Bool :=
  let n := c.toNat
  (9 ≤ n && n ≤ 13) || n == 32 || n == 0x85 || n == 0xa0 || n == 0x1680 || (0x2000 ≤ n && n ≤ 0x200a)
    || n == 0x2028 || n == 0x2029 || n == 0x202f || n == 0x205f || n == 0x3000

def trimStart (cs : List Char) : List Char := cs.dropWhile isWhite

def trimEnd (cs : List Char) : List Char := (cs.reverse.dropWhile isWhite).reverse

def trim (cs : List Char) : List Char := trimEnd (trimStart cs)

def splitOnce? (separates : Char → Bool) (cs : List Char) : Option (List Char × List Char) :=
  match cs.dropWhile (fun c => !separates c) with
  | [] => none
  | _ :: rest => some (cs.takeWhile (fun c => !separates c),rest)

end SymbolicCalculus.Line
