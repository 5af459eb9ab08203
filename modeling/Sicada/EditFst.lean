import Sicada.EpsilonCounts
import Sicada.PropertyBits

namespace Sicada

variable {L W : Type} [ArcLabel L] [Zero W] [One W] [DecidableEq W]

/- What a wrapped FST answers. -/
structure ExpandedFst (L W : Type) where
  start : Option ℕ
  numStates : ℕ
  finalWeight : ℕ → W
  arcs : ℕ → List (Arc L W)
  numArcs : ℕ → ℕ
  numInputEpsilons : ℕ → ℕ
  numOutputEpsilons : ℕ → ℕ
  properties : BitVec 64

def VectorFst.toExpanded (fst : VectorFst L W) : ExpandedFst L W :=
  ⟨fst.start, fst.numStates, fst.finalWeight, fst.arcs, fst.numArcs, fst.numInputEpsilons,
    fst.numOutputEpsilons, fst.properties⟩

namespace ExpandedFst

def copyState (fst : ExpandedFst L W) (out : VectorFst L W) (state : ℕ) : VectorFst L W :=
  (fst.arcs state).foldl (fun out arc => out.addArc state arc)
    (out.setFinal state (fst.finalWeight state))

/- A `VectorFst` holding what `fst` holds. -/
def copyOf (fst : ExpandedFst L W) : VectorFst L W :=
  let out := VectorFst.new.addStates fst.numStates
  let out := match fst.start with
    | some start => out.setStart (some start)
    | none => out
  let out := (List.range fst.numStates).foldl fst.copyState out
  out.setProperties (fst.properties &&& kFstProperties) kFstProperties

end ExpandedFst

structure EditFst (L W : Type) where
  wrapped : ExpandedFst L W
  edits : VectorFst L W
  externalToInternal : ℕ → Option ℕ
  editedFinalWeights : ℕ → Option W
  numNewStates : ℕ
  start : Option ℕ
  properties : BitVec 64

namespace EditFst

def new (fst : ExpandedFst L W) : EditFst L W :=
  ⟨fst, .new, fun _ => none, fun _ => none, 0, fst.start,
    (fst.properties &&& kFstProperties) ||| kMutable⟩

/- Where a state lives now, with the FST in which it has been copied out. -/
def makeEditable (e : EditFst L W) (state : ℕ) : ℕ × EditFst L W :=
  match e.externalToInternal state with
  | some internal => (internal, e)
  | none =>
    let internal := e.edits.numStates
    let edits := (e.wrapped.arcs state).foldl (fun fst arc => fst.addArc internal arc)
      e.edits.addState
    (internal, { e with
      edits := edits.setFinal internal
        ((e.editedFinalWeights state).getD (e.wrapped.finalWeight state))
      externalToInternal := Function.update e.externalToInternal state (some internal)
      editedFinalWeights := Function.update e.editedFinalWeights state none })

section Reading

variable (e : EditFst L W) (state : ℕ)

def numStates : ℕ := e.wrapped.numStates + e.numNewStates

def finalWeight : W :=
  match e.editedFinalWeights state with
  | some weight => weight
  | none =>
    match e.externalToInternal state with
    | some internal => e.edits.finalWeight internal
    | none => e.wrapped.finalWeight state

def arcs : List (Arc L W) :=
  match e.externalToInternal state with
  | some internal => e.edits.arcs internal
  | none => e.wrapped.arcs state

def numArcs : ℕ :=
  match e.externalToInternal state with
  | some internal => e.edits.numArcs internal
  | none => e.wrapped.numArcs state

def numInputEpsilons : ℕ :=
  match e.externalToInternal state with
  | some internal => e.edits.numInputEpsilons internal
  | none => e.wrapped.numInputEpsilons state

def numOutputEpsilons : ℕ :=
  match e.externalToInternal state with
  | some internal => e.edits.numOutputEpsilons internal
  | none => e.wrapped.numOutputEpsilons state

end Reading

def setStart (e : EditFst L W) (state : Option ℕ) : EditFst L W :=
  { e with start := state, properties := setStartProperties e.properties }

def setFinal (e : EditFst L W) (state : ℕ) (weight : W) : EditFst L W :=
  let props := setFinalProperties e.properties (e.finalWeight state) weight
  match e.externalToInternal state with
  | some internal => { e with edits := e.edits.setFinal internal weight, properties := props }
  | none => { e with
      editedFinalWeights := Function.update e.editedFinalWeights state (some weight)
      properties := props }

/- The number given to the new state, after every state there was. -/
def addState (e : EditFst L W) : ℕ × EditFst L W :=
  let external := e.numStates
  (external, { e with
    edits := e.edits.addState
    externalToInternal :=
      Function.update e.externalToInternal external (some e.edits.numStates)
    numNewStates := e.numNewStates + 1
    properties := addStateProperties e.properties })

def addArc (e : EditFst L W) (state : ℕ) (arc : Arc L W) : EditFst L W :=
  let (internal, e) := e.makeEditable state
  let prev := (e.edits.arcs internal).getLast?
  { e with
    edits := e.edits.addArc internal arc
    properties := addArcProperties e.properties state arc prev }

def deleteArcs (e : EditFst L W) (state : ℕ) : EditFst L W :=
  let (internal, e) := e.makeEditable state
  { e with
    edits := e.edits.deleteArcs internal
    properties := deleteArcsProperties e.properties }

def deleteArcsN (e : EditFst L W) (state n : ℕ) : EditFst L W :=
  let (internal, e) := e.makeEditable state
  { e with
    edits := e.edits.deleteArcsN internal n
    properties := deleteArcsProperties e.properties }

/- Of the bits only those are kept that the edited FST has as well. -/
def mutateArcs {σ : Type} (e : EditFst L W) (state : ℕ) (mutator : Arc L W → σ → Arc L W × σ)
    (m : σ) : EditFst L W :=
  let (internal, e) := e.makeEditable state
  let edits := (e.edits.mutateArcs internal mutator m).1
  { e with
    edits := edits
    properties := e.properties &&& (edits.properties &&& kFstProperties) }

end EditFst

inductive EditOp (L W : Type) : Type 1
  | setStart (state : Option ℕ)
  | setFinal (state : ℕ) (weight : W)
  | addState
  | addArc (state : ℕ) (arc : Arc L W)
  | mutateArcs (σ : Type) (state : ℕ) (mutator : Arc L W → σ → Arc L W × σ) (m : σ)
  | deleteArcs (state : ℕ)
  | deleteArcsN (state n : ℕ)

namespace EditOp

def apply : EditOp L W → EditFst L W → EditFst L W
  | setStart state, e => e.setStart state
  | setFinal state weight, e => e.setFinal state weight
  | addState, e => e.addState.2
  | addArc state arc, e => e.addArc state arc
  | mutateArcs _ state mutator m, e => e.mutateArcs state mutator m
  | deleteArcs state, e => e.deleteArcs state
  | deleteArcsN state n, e => e.deleteArcsN state n

/- The same operation on a `VectorFst`. -/
def applyVector : EditOp L W → VectorFst L W → VectorFst L W
  | setStart state, fst => fst.setStart state
  | setFinal state weight, fst => fst.setFinal state weight
  | addState, fst => fst.addState
  | addArc state arc, fst => fst.addArc state arc
  | mutateArcs _ state mutator m, fst => (fst.mutateArcs state mutator m).1
  | deleteArcs state, fst => fst.deleteArcs state
  | deleteArcsN state n, fst => fst.deleteArcsN state n

/- The state an operation edits is one of the `n` there are. -/
def Targets (n : ℕ) : EditOp L W → Prop
  | setStart _ => True
  | setFinal state _ => state < n
  | addState => True
  | addArc state _ => state < n
  | mutateArcs _ state _ _ => state < n
  | deleteArcs state => state < n
  | deleteArcsN state _ => state < n

def grows : EditOp L W → ℕ → ℕ
  | addState, n => n + 1
  | _, n => n

def EditsExisting : ℕ → List (EditOp L W) → Prop
  | _, [] => True
  | n, op :: ops => op.Targets n ∧ EditsExisting (op.grows n) ops

end EditOp

end Sicada
