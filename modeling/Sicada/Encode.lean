import Sicada.ArcMapRuns
import Sicada.BiTable
import Sicada.RmFinalEpsilon

namespace Sicada

variable {L W : Type} [ArcLabel L]

/- What the encoder folds into a label besides the input label. -/
structure EncodeFlags where
  labels : Bool
  weights : Bool
deriving DecidableEq, Repr

/- What an encoded label stands for. -/
structure Triple (L W : Type) where
  ilabel : L
  olabel : L
  weight : W
deriving DecidableEq, Repr

structure EncodeTable (L W : Type) where
  flags : EncodeFlags
  triples : List (Triple L W)
deriving DecidableEq

def EncodeTable.new (flags : EncodeFlags) : EncodeTable L W := ⟨flags, []⟩

section Table

variable [One W]

def Triple.fromArc (arc : Arc L W) (flags : EncodeFlags) : Triple L W where
  ilabel := arc.ilabel
  olabel := if flags.labels then arc.olabel else epsilon
  weight := if flags.weights then arc.weight else 1

/- A final weight in the shape of an arc stands for a triple of its own, which no arc has. -/
def EncodeTable.entry (flags : EncodeFlags) (arc : Arc L W) : Triple L W :=
  if arc.nextstate = noState ∧ flags.weights = true then ⟨noLabel, noLabel, arc.weight⟩
  else Triple.fromArc arc flags

variable [DecidableEq W]

/- Labels count from 1. -/
def EncodeTable.encodeTriple (table : EncodeTable L W) (triple : Triple L W) :
    L × EncodeTable L W :=
  let (id, triples) := BiTable.findId table.triples triple
  ((ArcLabel.fromI64 (id + 1)).getD noLabel, { table with triples := triples })

def EncodeTable.encode (table : EncodeTable L W) (arc : Arc L W) : L × EncodeTable L W :=
  table.encodeTriple (entry table.flags arc)

def EncodeTable.decode (table : EncodeTable L W) (label : L) : Option (Triple L W) :=
  (ArcLabel.toI64 label).bind fun key =>
    if key - 1 < 0 then none else table.triples[(key - 1).toNat]?

end Table

namespace Encode

def isSuperfinal (arc : Arc L W) : Bool := arc.nextstate = noState

variable [Zero W] [One W] [DecidableEq W]

def encodeArc (arc : Arc L W) (table : EncodeTable L W) : Arc L W × EncodeTable L W :=
  if isSuperfinal arc && (!table.flags.weights || arc.weight = 0) then (arc, table)
  else
    let (label, table) := table.encode arc
    (⟨label, if table.flags.labels then label else arc.olabel,
      if table.flags.weights then 1 else arc.weight, arc.nextstate⟩, table)

/- The flag tells whether an arc that does not decode was met. -/
def decodeArc (noWeight : W) (table : EncodeTable L W) (arc : Arc L W) (error : Bool) :
    Arc L W × Bool :=
  if isSuperfinal arc || arc.ilabel = epsilon then (arc, error)
  else
    let error := error || (table.flags.labels && arc.ilabel ≠ arc.olabel) ||
      (table.flags.weights && arc.weight ≠ 1)
    match table.decode arc.ilabel with
    | none => (⟨noLabel, noLabel, noWeight, arc.nextstate⟩, true)
    | some triple =>
      if triple.ilabel = noLabel then (⟨epsilon, epsilon, triple.weight, arc.nextstate⟩, error)
      else (⟨triple.ilabel, if table.flags.labels then triple.olabel else arc.olabel,
        if table.flags.weights then triple.weight else arc.weight, arc.nextstate⟩, error)

/- The properties of what was encoded or decoded, given those of what it was made of. -/
def properties (flags : EncodeFlags) (encoding : Bool) (inprops : BitVec 64) : BitVec 64 :=
  let mask := kFstProperties
  let mask := if flags.labels then
    mask &&& (kILabelInvariantProperties &&& kOLabelInvariantProperties) else mask
  let mask := if flags.weights then
    mask &&& (kILabelInvariantProperties &&& kWeightInvariantProperties &&&
      if encoding then kAddSuperFinalProperties else kRmSuperFinalProperties) else mask
  let mask := if encoding then mask ||| kIDeterministic else mask
  let outprops := inprops &&& mask
  let outprops := if encoding && flags.labels then outprops ||| kAcceptor else outprops
  if encoding && flags.weights then outprops ||| kUnweighted ||| kUnweightedCycles else outprops

def encodeMapper (flags : EncodeFlags) : ArcMapper (EncodeTable L W) L W where
  map := encodeArc
  finalAction := if flags.weights then .requireSuperfinal else .noSuperfinal
  properties := properties flags true

/- Nothing `checkDecodable` lets through sets the flag, so the properties are those without it. -/
def decodeMapper (noWeight : W) (table : EncodeTable L W) : ArcMapper Bool L W where
  map := decodeArc noWeight table
  finalAction := .noSuperfinal
  properties := properties table.flags false

section Checking

variable [ToString L] [ToString W]

def differentMessage (state : ℕ) (arc : Arc L W) : String :=
  "Decode: label-encoded arc from state " ++ toString state ++
    " has different input and output labels: " ++ toString arc.ilabel ++ " and " ++
    toString arc.olabel

def weightedMessage (state : ℕ) (arc : Arc L W) : String :=
  "Decode: weight-encoded arc from state " ++ toString state ++ " has non-trivial weight " ++
    toString arc.weight

def unknownMessage (state : ℕ) (arc : Arc L W) : String :=
  "Decode: arc from state " ++ toString state ++ " carries label " ++ toString arc.ilabel ++
    ", which the encode table does not have"

def checkArc (table : EncodeTable L W) (state : ℕ) (arc : Arc L W) : Except OpenFstError Unit :=
  if arc.ilabel = epsilon then .ok ()
  else if table.flags.labels ∧ arc.ilabel ≠ arc.olabel then
    .error (.invalidOperation (differentMessage state arc))
  else if table.flags.weights ∧ arc.weight ≠ 1 then
    .error (.invalidOperation (weightedMessage state arc))
  else if table.decode arc.ilabel = none then
    .error (.invalidOperation (unknownMessage state arc))
  else .ok ()

/- The first arc that does not decode. -/
def checkDecodable (table : EncodeTable L W) (fst : VectorFst L W) : Except OpenFstError Unit :=
  (List.range fst.numStates).forM fun state => (fst.arcs state).forM (checkArc table state)

end Checking

end Encode

open Encode

section Operations

variable [Zero W] [One W] [DecidableEq W]

/- The FST is rewritten in place and the table, which is shared, filled in. -/
def VectorFst.encode (fst : VectorFst L W) (table : EncodeTable L W) :
    (VectorFst L W × Except OpenFstError Unit) × EncodeTable L W :=
  (fst.arcMap (encodeMapper table.flags) table, fst.arcMapMapper (encodeMapper table.flags) table)

/- FSTs encoded in turn with one table. -/
def encodeAll : List (VectorFst L W) → EncodeTable L W →
    List (VectorFst L W × Except OpenFstError Unit) × EncodeTable L W
  | [], table => ([], table)
  | fst :: fsts, table =>
    let (encoded, table) := fst.encode table
    let (rest, table) := encodeAll fsts table
    (encoded :: rest, table)

variable [Add W] [Mul W] [ToString L] [ToString W]

def VectorFst.decode (noWeight : W) (isMember : W → Bool) (leftDistributive : Bool)
    (fst : VectorFst L W) (table : EncodeTable L W) :
    Option (VectorFst L W × Except OpenFstError Unit) :=
  match checkDecodable table fst with
  | .error e => some (fst, .error e)
  | .ok () =>
    match fst.arcMap (decodeMapper noWeight table) false with
    | (fst, .error e) => some (fst, .error e)
    | (fst, .ok ()) => (fst.rmFinalEpsilon isMember leftDistributive).map fun fst => (fst, .ok ())

end Operations

end Sicada
