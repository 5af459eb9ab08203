import Mathlib

namespace Sicada

inductive SplitCompositeError where
  | unmatchedCloseParenthesis (offset : ℕ)
  | unmatchedOpenParenthesis
deriving DecidableEq, Repr

/- The texts of the standard library's number errors are its own. -/
inductive ParseError where
  | splitComposite (error : SplitCompositeError)
  | invalidElementCount (expected found : ℕ)
  | parseFloat
  | parseInt
  | invalidFormat (message : String)
deriving DecidableEq, Repr

/- Texts are lists of characters. -/
namespace StringParse

section Trimming

/- The characters Unicode calls white space. -/
def isWhitespace (c : Char) : Bool :=
  let n := c.toNat
  (9 ≤ n && n ≤ 13) || n == 0x20 || n == 0x85 || n == 0xa0 || n == 0x1680 ||
    (0x2000 ≤ n && n ≤ 0x200a) || n == 0x2028 || n == 0x2029 || n == 0x202f || n == 0x205f ||
      n == 0x3000

def trimStart (s : List Char) : List Char := s.dropWhile isWhitespace

def trimEnd (s : List Char) : List Char := (s.reverse.dropWhile isWhitespace).reverse

def trim (s : List Char) : List Char := trimEnd (trimStart s)

end Trimming

section Splitting

variable (separator openParen closeParen : Char)

/- Whether the parenthesis at the front is closed by the last character and by none before it. -/
def isSingleGroup : ℤ → List Char → Bool
  | depth, [] => depth == 0
  | depth, c :: rest =>
    if c = openParen then isSingleGroup (depth + 1) rest
    else if c = closeParen then
      if depth - 1 = 0 ∧ rest ≠ [] then false else isSingleGroup (depth - 1) rest
    else isSingleGroup depth rest

def stripOuter (s : List Char) : List Char :=
  if s.head? = some openParen ∧ s.getLast? = some closeParen ∧
      isSingleGroup openParen closeParen 0 s then
    trim s.tail.dropLast
  else s

/- The parts, from a byte offset on; `part` is what has been read of the next one. -/
def splitParts : ℕ → ℕ → List Char → List Char → Except SplitCompositeError (List (List Char))
  | _, depth, part, [] => if depth ≠ 0 then .error .unmatchedOpenParenthesis else .ok [trim part]
  | offset, depth, part, c :: rest =>
    if c = openParen then splitParts (offset + c.utf8Size) (depth + 1) (part ++ [c]) rest
    else if c = closeParen then
      if depth = 0 then .error (.unmatchedCloseParenthesis offset)
      else splitParts (offset + c.utf8Size) (depth - 1) (part ++ [c]) rest
    else if c = separator ∧ depth = 0 then
      match splitParts (offset + c.utf8Size) 0 [] rest with
      | .ok parts => .ok (trim part :: parts)
      | .error error => .error error
    else splitParts (offset + c.utf8Size) depth (part ++ [c]) rest

def splitCompositeWeight (s : List Char) : Except SplitCompositeError (List (List Char)) :=
  splitParts separator openParen closeParen 0 0 [] (stripOuter openParen closeParen (trim s))

end Splitting

/- What every composite weight is split with. -/
def splitWeight (s : List Char) : Except ParseError (List (List Char)) :=
  match splitCompositeWeight ',' '(' ')' s with
  | .ok parts => .ok parts
  | .error error => .error (.splitComposite error)

end StringParse

end Sicada
