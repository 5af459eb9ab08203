import Sicada.ConstFst

namespace Sicada

open Codec Io

def propertyNames : List String :=
  ["expanded", "mutable", "error", "", "", "", "", "", "", "", "", "", "", "", "", "",
    "acceptor", "not acceptor", "input deterministic", "non input deterministic",
    "output deterministic", "non output deterministic", "input/output epsilons",
    "no input/output epsilons", "input epsilons", "no input epsilons", "output epsilons",
    "no output epsilons", "input label sorted", "not input label sorted", "output label sorted",
    "not output label sorted", "weighted", "unweighted", "cyclic", "acyclic",
    "cyclic at initial state", "acyclic at initial state", "top sorted", "not top sorted",
    "accessible", "not accessible", "coaccessible", "not coaccessible", "string", "not string",
    "weighted cycles", "unweighted cycles"]

def propertyName (bit : ℕ) : String := propertyNames.getD bit ""

def kCompiledStringProperties : BitVec 64 :=
  kAcceptor ||| kString ||| kUnweighted ||| kIDeterministic ||| kODeterministic |||
    kILabelSorted ||| kOLabelSorted ||| kAcyclic ||| kInitialAcyclic ||| kUnweightedCycles |||
    kTopSorted ||| kAccessible ||| kCoAccessible

/- How arcs and final weights are packed into elements; a final weight is packed as an arc with no
label that leads to no state. `size` is -1 where states have elements to any number. -/
structure ArcCompactor (L W E : Type) where
  compact : ℕ → RawArc L W → E
  expand : ℕ → E → RawArc L W
  size : ℤ
  properties : BitVec 64
  name : String

inductive CompactorKind where
  | string
  | weightedString
  | acceptor
  | unweightedAcceptor
  | unweighted
deriving DecidableEq

namespace CompactorKind

variable (L W : Type) [ArcLabel L] [One W]

/- What is kept of an arc. -/
abbrev Element : CompactorKind → Type
  | string => L
  | weightedString => L × W
  | acceptor => L × W × ℤ
  | unweightedAcceptor => L × ℤ
  | unweighted => L × L × ℤ

variable {L W}

/- The next state of a string, of which a final weight has none. -/
def stringNext (noState : ℤ) (s : ℕ) (label : L) : ℤ :=
  if label ≠ noLabel then ((s + 1 : ℕ) : ℤ) else noState

def compactor (noState : ℤ) : (kind : CompactorKind) → ArcCompactor L W (kind.Element L W)
  | string =>
    { compact := fun _ arc => arc.ilabel
      expand := fun s label => ⟨label, label, 1, stringNext noState s label⟩
      size := 1
      properties := kCompiledStringProperties
      name := "string" }
  | weightedString =>
    { compact := fun _ arc => (arc.ilabel, arc.weight)
      expand := fun s element => ⟨element.1, element.1, element.2, stringNext noState s element.1⟩
      size := 1
      properties := kString ||| kAcceptor
      name := "weighted_string" }
  | acceptor =>
    { compact := fun _ arc => (arc.ilabel, arc.weight, arc.nextstate)
      expand := fun _ element => ⟨element.1, element.1, element.2.1, element.2.2⟩
      size := -1
      properties := kAcceptor
      name := "acceptor" }
  | unweightedAcceptor =>
    { compact := fun _ arc => (arc.ilabel, arc.nextstate)
      expand := fun _ element => ⟨element.1, element.1, 1, element.2⟩
      size := -1
      properties := kAcceptor ||| kUnweighted
      name := "unweighted_acceptor" }
  | unweighted =>
    { compact := fun _ arc => (arc.ilabel, arc.olabel, arc.nextstate)
      expand := fun _ element => ⟨element.1, element.2.1, 1, element.2.2⟩
      size := -1
      properties := kUnweighted
      name := "unweighted" }

end CompactorKind

/- The elements of all states one after the other; `states` says where those of each begin, and
where the last ones end, unless each state has as many. -/
structure CompactArcStore (E : Type) (w : ℕ) where
  states : Option (List (BitVec w))
  compacts : List E
  nstates : ℕ
  narcs : ℕ
  start : Option ℕ
deriving DecidableEq

structure CompactFst (E : Type) (w : ℕ) where
  store : CompactArcStore E w
  properties : BitVec 64
deriving DecidableEq

/- How indices and elements lie in memory. -/
structure CompactIo (E : Type) (w : ℕ) where
  typeName : String
  indices : Layout (BitVec w)
  elements : Layout E

namespace CompactArcStore

variable {L W E : Type} [ArcLabel L] [Zero W] [One W] [DecidableEq W] {w : ℕ}
  (compactor : ArcCompactor L W E) (noState : ℤ)

def finalArc (weight : W) : RawArc L W := ⟨noLabel, noLabel, weight, noState⟩

/- The elements of a state, its final weight first. -/
def stateElements (state : ℕ) (s : VectorState L W) : List E :=
  (if s.finalWeight ≠ 0 then [compactor.compact state (finalArc noState s.finalWeight)] else []) ++
    s.arcs.map fun arc => compactor.compact state (.ofArc arc)

def allElements (states : List (VectorState L W)) : List (List E) :=
  states.mapIdx (stateElements compactor noState)

/- Where the elements of each state begin, and where the last ones end. -/
def positions (w : ℕ) : ℕ → List (List E) → List (BitVec w)
  | pos, [] => [.ofNat w pos]
  | pos, elements :: rest => .ofNat w pos :: positions w (pos + elements.length) rest

def incompatible : OpenFstError :=
  .invalidOperation "CompactArcStore: ArcCompactor incompatible with FST"

def nfinals (states : List (VectorState L W)) : ℕ := states.countP (·.finalWeight ≠ 0)

def numCompacts (fst : VectorFst L W) : ℕ :=
  if compactor.size = -1 then (ConstFst.allArcs fst.states).length + nfinals fst.states
  else fst.numStates * compactor.size.toNat

def new (fst : VectorFst L W) : Except OpenFstError (CompactArcStore E w) :=
  let narcs := (ConstFst.allArcs fst.states).length
  let elements := allElements compactor noState fst.states
  let ncompacts := numCompacts compactor fst
  if compactor.size ≠ -1 ∧ narcs + nfinals fst.states ≠ ncompacts then .error incompatible
  else if compactor.size ≠ -1 ∧ ∃ own ∈ elements, own.length ≠ compactor.size.toNat then
    .error incompatible
  else if elements.flatten.length ≠ ncompacts then .error incompatible
  else .ok
    { states := if compactor.size = -1 then some (positions w 0 elements) else none
      compacts := elements.flatten
      nstates := fst.numStates
      narcs := narcs
      start := fst.start }

section Expanding

variable (store : CompactArcStore E w) (state : ℕ)

/- One index less another, which wraps round below zero. -/
def lessUsize (b a : ℕ) : ℕ := (b + 2 ^ 64 - a) % 2 ^ 64

/- The first element of a state and how many there are; `none` is an index out of bounds. -/
def compactsRange : Option (ℕ × ℕ) :=
  if compactor.size = -1 then
    match store.states with
    | some states =>
      states[state]?.bind fun first => states[state + 1]?.map fun last =>
        (first.toNat, lessUsize last.toNat first.toNat)
    | none => none
  else some (state * compactor.size.toNat, compactor.size.toNat)

/- The elements from `first` up to `last`. -/
def slice (first last : ℕ) : Option (List E) :=
  if first ≤ last ∧ last ≤ store.compacts.length then
    some ((store.compacts.drop first).take (last - first))
  else none

def expandFinal : Option (Option W) := do
  let (first, len) ← store.compactsRange compactor state
  if 0 < len then do
    let element ← store.compacts[first]?
    let arc := compactor.expand state element
    some (if arc.ilabel = noLabel then some arc.weight else none)
  else some none

def expandArcs : Option (List (Arc L W)) := do
  let (first, len) ← store.compactsRange compactor state
  if len = 0 then some []
  else do
    let element ← store.compacts[first]?
    let offset := if (compactor.expand state element).ilabel = noLabel then first + 1 else first
    let elements ← store.slice offset ((first + len) % 2 ^ 64)
    some (elements.map fun element => (compactor.expand state element).arc)

end Expanding

end CompactArcStore

namespace CompactFst

open VectorFstIo CompactArcStore

variable {L W E : Type} [ArcLabel L] [Zero W] [One W] [DecidableEq W] {w : ℕ}
  (isMember : W → Bool) (compactor : ArcCompactor L W E)

def fstTypeName (w : ℕ) : String :=
  if w = 32 then "compact_" ++ compactor.name else "compact64_" ++ compactor.name

def isCompatible (fst : VectorFst L W) : Bool :=
  cachedProperties isMember fst compactor.properties = compactor.properties

/- The digits of a number to the base 16. -/
def hex (n : ℕ) : String := "0x" ++ String.ofList (Nat.toDigits 16 n)

def missingProperties (needed have' : BitVec 64) : String :=
  let missing := needed &&& ~~~have'
  let names := (((List.range 64).filter fun bit => missing.getLsbD bit).map propertyName).filter
    (· ≠ "")
  if names.isEmpty then "compatible with this compactor (missing " ++ hex missing.toNat ++ ")"
  else String.intercalate ", " names

def new (noState : ℤ) (fst : VectorFst L W) : Except OpenFstError (CompactFst E w) := do
  if !isCompatible isMember compactor fst then
    .error (.invalidOperation ("CompactFst: the FST is not " ++ missingProperties
      compactor.properties (cachedProperties isMember fst compactor.properties)))
  else do
    let store ← CompactArcStore.new compactor noState fst
    -- The bits that the test has settled are stored ones by now.
    let properties := settledCache isMember fst compactor.properties &&& kCopyProperties &&&
      (~~~kWeightedCycles &&& ~~~kUnweightedCycles)
    .ok ⟨store, properties ||| (compactor.properties ||| kExpanded)⟩

/- What is read of a state, by way of the cache; `none` is a panic. -/
def finalWeight (fst : CompactFst E w) (state : ℕ) : Option W :=
  (fst.store.expandFinal compactor state).map fun weight => weight.getD 0

def arcs (fst : CompactFst E w) (state : ℕ) : Option (List (Arc L W)) :=
  fst.store.expandArcs compactor state

variable (io : CompactIo E w)

def header (opts : FstWriteOptions) (fst : CompactFst E w) : FstHeader :=
  { fstType := fstTypeName compactor w
    arcType := io.typeName
    version := if opts.align then ConstFst.alignedFileVersion else ConstFst.fileVersion
    flags := 0
    properties := fst.properties ||| kExpanded
    start := startId fst.store.start
    numStates := fst.store.nstates
    numArcs := fst.store.narcs }

/- The compactors have nothing of their own to write. -/
def write (opts : FstWriteOptions) (fst : WithSymbols (CompactFst E w)) : IoWriter := do
  let (_, bytes) ← writeFstHeader opts (header compactor io opts fst.fst) fst.isymbols fst.osymbols
  let bytes := match fst.fst.store.states with
    | some states => ConstFst.alignOutput opts bytes ++ states.flatMap io.indices.bytes
    | none => bytes
  pure (ConstFst.alignOutput opts bytes ++ fst.fst.store.compacts.flatMap io.elements.bytes)

section Reading

variable (getHash : String → ℕ)

def readIndices (header : FstHeader) : IoReader (Option (List (BitVec w))) :=
  if compactor.size = -1 then do
    let n := header.numStates.toNat + 1
    let block ← ConstFst.region (ConstFst.isAligned header) (n * io.indices.size)
    pure (some (io.indices.values n block))
  else pure none

/- The last index is the total. -/
def elementCount (header : FstHeader) (states : Option (List (BitVec w))) : ℕ :=
  match states with
  | some states => (states.getD header.numStates.toNat 0).toNat
  | none => header.numStates.toNat * compactor.size.toNat

def checkElements (source : String) (ncompacts : ℕ) : Except OpenFstError Unit :=
  if ConstFst.maxArcs < ncompacts then
    .error (bad source ("invalid number of elements: " ++ toString ncompacts))
  else .ok ()

/- The first state whose elements reach past the end or end before they begin. -/
def strayRange (ncompacts : ℕ) : List (BitVec w) → ℕ → Option ℕ
  | first :: last :: states, n =>
    if ncompacts < first.toNat ∨ last.toNat < first.toNat then some n
    else strayRange ncompacts (last :: states) (n + 1)
  | _, _ => none

def checkRanges (source : String) (ncompacts : ℕ) (states : Option (List (BitVec w))) :
    Except OpenFstError Unit :=
  match states.bind fun states => strayRange ncompacts states 0 with
  | some s => .error (bad source ("state " ++ toString s ++ " element range out of bounds"))
  | none => .ok ()

def read (opts : FstReadOptions) : IoReader (WithSymbols (CompactFst E w)) := do
  let head ← readFstHeader getHash io.typeName opts (fstTypeName compactor w) ConstFst.minFileVersion
  let header := head.header
  let _ ← lift (some (ConstFst.checkCounts opts.source header))
  let start ← lift (some (ConstFst.readStart opts.source header))
  let states ← readIndices compactor io header
  let ncompacts := elementCount compactor header states
  let _ ← lift (some (checkElements opts.source ncompacts))
  let block ← ConstFst.region (ConstFst.isAligned header) (ncompacts * io.elements.size)
  let _ ← lift (some (checkRanges opts.source ncompacts states))
  pure ⟨⟨⟨states, io.elements.values ncompacts block, header.numStates.toNat,
    header.numArcs.toNat, start⟩, header.properties ||| kExpanded⟩, head.isymbols, head.osymbols⟩

end Reading

end CompactFst

end Sicada
