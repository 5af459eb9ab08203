import Sicada.Labels
import Sicada.SymbolTableText
import Sicada.VectorFst

namespace Sicada

/- A type of labels that are converted from bytes, and written out as the integers they are. -/
class StringLabel (L : Type) [ArcLabel L] [LabelCode L] [ToString L] where
  ofByte : UInt8 → L
  toI64_ofByte : ∀ byte, LabelCode.toI64 (ofByte byte) = byte.toNat
  key_eq : ∀ label : L, ArcLabel.toI64 label = some (LabelCode.toI64 label)
  text_eq : ∀ label : L, toString label = toString (LabelCode.toI64 label)

instance : StringLabel ℤ where
  ofByte byte := byte.toNat
  toI64_ofByte _ := rfl
  key_eq _ := rfl
  text_eq _ := rfl

inductive TokenType where
  | symbol
  | byte
  | utf8
deriving DecidableEq

/- What to do about a symbol the table does not have. -/
inductive UnknownSymbol (L : Type) where
  | refuse
  | map (label : L)

/- The errors strings meet; the text of `notUtf8` ends in where the bytes are wrong. -/
inductive StringError where
  | symbolTable (message : String)
  | invalidOperation (message : String)
  | notUtf8
  | labelString (error : LabelStringError)
  | noStartState
  | doesNotReachFinalState
  | multipleOutgoingArcs (state : ℕ)
  | finalStateHasOutgoingArcs (state : ℕ)
deriving DecidableEq

namespace StringFst

open Io SymbolTableText

variable {L W : Type} [ArcLabel L] [LabelCode L] [ToString L] [StringLabel L]

section Labels

variable (getHash : String → ℕ)

def outputSeparator (sep : String) : String := String.ofList sep.toList.getLast?.toList

def parseInt64 (s : List Char) : Option ℤ := if s.head? = some '+' then none else parseI64 s

def labelOfKey (key : ℤ) : Except StringError L :=
  match ArcLabel.fromI64 key with
  | some label => .ok label
  | none => .error (.invalidOperation
      ("label " ++ toString key ++ " does not fit the arc's label type"))

/- `none` is a probe of the table that never ends. -/
def symbolToLabel (syms : Option SymbolTableImpl) (unknown : UnknownSymbol L) (token : String) :
    Option (Except StringError L) :=
  match syms with
  | some syms => (syms.findKey getHash token).map fun key =>
    if key = kNoSymbol then
      match unknown with
      | .map label => .ok label
      | .refuse => .error (.symbolTable ("symbol \"" ++ token ++
          "\" is not mapped to any label in symbol table " ++ syms.name))
    else labelOfKey key
  | none => some (match parseInt64 token.toList with
    | some key => labelOfKey key
    | none => .error (.invalidOperation ("bad label integer \"" ++ token ++ "\"")))

def symbolsToLabels (syms : Option SymbolTableImpl) (unknown : UnknownSymbol L) :
    List String → Option (Except StringError (List L))
  | [] => some (.ok [])
  | token :: tokens => (symbolToLabel getHash syms unknown token).bind fun
    | .error error => some (.error error)
    | .ok label => (symbolsToLabels syms unknown tokens).map fun labels => labels.map (label :: ·)

/- A newline always separates symbols, and empty tokens are dropped. -/
def tokens (sep : String) (text : String) : List String :=
  (columns ('\n' :: sep.toList) text.toList).map String.ofList

def byteStringToLabels (bytes : List UInt8) : List L := bytes.map StringLabel.ofByte

def stringToLabels (text : List UInt8) (tokenType : TokenType) (syms : Option SymbolTableImpl)
    (unknown : UnknownSymbol L) (sep : String) : Option (Except StringError (List L)) :=
  match tokenType with
  | .byte => some (.ok (byteStringToLabels text))
  | .utf8 => some (match Labels.utf8StringToLabels text [] with
    | (.ok (), labels) => .ok labels
    | (.error error, _) => .error (.labelString error))
  | .symbol =>
    match fromUtf8 text with
    | .ok text => symbolsToLabels getHash syms unknown (tokens sep text)
    | .error _ => some (.error .notUtf8)

/- One byte per label; epsilons are skipped. -/
def writeBytes : ℕ → List L → Except StringError (List UInt8)
  | _, [] => .ok []
  | index, label :: labels =>
    let code := LabelCode.toI64 label
    if code = 0 then writeBytes (index + 1) labels
    else if code < 0 then .error (.labelString (.negativeLabel code index))
    else if 255 < code then .error (.labelString (.labelOutOfRange code index))
    else (writeBytes (index + 1) labels).map (UInt8.ofNat code.toNat :: ·)

def labelToSymbol (syms : Option SymbolTableImpl) (label : L) : Except StringError String :=
  match syms with
  | some syms =>
    match ArcLabel.toI64 label with
    | none => .error (.symbolTable
        ("label " ++ toString label ++ " does not fit a symbol table key"))
    | some key =>
      match syms.findSymbol key with
      | some symbol => .ok symbol
      | none => .error (.symbolTable ("label " ++ toString label ++
          " is not mapped onto any symbol in symbol table " ++ syms.name))
  | none => .ok (toString label)

/- `delim` stands before all symbols but the first. -/
def writeSymbols (syms : Option SymbolTableImpl) (sep : String) (omitEpsilon : Bool) :
    List L → String → Except StringError (List UInt8)
  | [], _ => .ok []
  | label :: labels, delim =>
    if omitEpsilon ∧ label = epsilon then writeSymbols syms sep omitEpsilon labels delim
    else
      match labelToSymbol syms label with
      | .error error => .error error
      | .ok symbol => (writeSymbols syms sep omitEpsilon labels sep).map
          ((asBytes delim ++ asBytes symbol) ++ ·)

def labelsToString (labels : List L) (tokenType : TokenType) (syms : Option SymbolTableImpl)
    (sep : String) (omitEpsilon : Bool) : Except StringError (List UInt8) :=
  match tokenType with
  | .byte => writeBytes 0 labels
  | .utf8 =>
    match Labels.labelsToUtf8String labels [] with
    | (.ok (), bytes) => .ok bytes
    | (.error error, _) => .error (.labelString error)
  | .symbol => writeSymbols syms (outputSeparator sep) omitEpsilon labels ""

end Labels

section Compiling

variable [Zero W] [One W] [DecidableEq W]

def kCompiledStringProperties : BitVec 64 :=
  kAcceptor ||| kString ||| kUnweighted ||| kIDeterministic ||| kODeterministic |||
    kILabelSorted ||| kOLabelSorted ||| kAcyclic ||| kInitialAcyclic ||| kUnweightedCycles |||
      kTopSorted ||| kAccessible ||| kCoAccessible

/- The FST with another arc at its end, and the state it leads to. -/
def addLabel (built : VectorFst L W × ℕ) (label : L) : VectorFst L W × ℕ :=
  let next := built.1.numStates
  (built.1.addState.addArc built.2 ⟨label, label, 1, next⟩, next)

def compileLabels (labels : List L) (fst : VectorFst L W) (weight : W) : VectorFst L W :=
  let fst := fst.deleteAllStates
  let state := fst.numStates
  let (fst, state) := labels.foldl addLabel (fst.addState.setStart (some state), state)
  (fst.setFinal state weight).setProperties kCompiledStringProperties kCompiledStringProperties

/- On an error the FST stays as it was. -/
def compileWeighted (getHash : String → ℕ) (tokenType : TokenType)
    (syms : Option SymbolTableImpl) (unknown : UnknownSymbol L) (sep : String)
    (text : List UInt8) (fst : VectorFst L W) (weight : W) :
    Option (Except StringError (VectorFst L W)) :=
  (stringToLabels getHash text tokenType syms unknown sep).map fun labels =>
    labels.map fun labels => compileLabels labels fst weight

end Compiling

section Reading

variable [Zero W] [One W] [Mul W] [DecidableEq W]

/- What is asked of an FST that is read; a delayed one may not know its number of states. -/
structure SourceFst (L W : Type) where
  start : Option ℕ
  finalWeight : ℕ → W
  arcs : ℕ → List (Arc L W)
  numStatesIfKnown : Option ℕ

def toSource (fst : VectorFst L W) : SourceFst L W :=
  ⟨fst.start, fst.finalWeight, fst.arcs, some fst.numStates⟩

/- The loop; `none` is a walk that has not come to an end yet. -/
def follow (fst : SourceFst L W) :
    ℕ → ℕ → List L → W → ℕ → Option (Except StringError (List L × W))
  | 0, _, _, _, _ => none
  | fuel + 1, state, labels, pathWeight, steps =>
    if fst.finalWeight state = 0 then
      match fst.arcs state with
      | [] => some (.error .doesNotReachFinalState)
      | [arc] =>
        if fst.numStatesIfKnown.any fun n => n < steps + 1 then
          some (.error (.invalidOperation
            "StringFstToOutputLabels: the FST is not a string; the path is cyclic"))
        else follow fst fuel arc.nextstate (labels ++ [arc.olabel]) (pathWeight * arc.weight)
          (steps + 1)
      | _ :: _ :: _ => some (.error (.multipleOutgoingArcs state))
    else if fst.arcs state ≠ [] then some (.error (.finalStateHasOutgoingArcs state))
    else some (.ok (labels, pathWeight * fst.finalWeight state))

def stringFstToOutputLabels (fuel : ℕ) (fst : SourceFst L W) :
    Option (Except StringError (List L × W)) :=
  match fst.start with
  | none => some (.error .noStartState)
  | some state => follow fst fuel state [] 1 0

def printWeighted (fuel : ℕ) (tokenType : TokenType) (syms : Option SymbolTableImpl) (sep : String)
    (omitEpsilon : Bool) (fst : SourceFst L W) : Option (Except StringError (List UInt8 × W)) :=
  (stringFstToOutputLabels fuel fst).map fun
    | .error error => .error error
    | .ok (labels, weight) => (labelsToString labels tokenType syms sep omitEpsilon).map (·, weight)

end Reading

end StringFst

end Sicada
