import Sicada.VectorFst

namespace Sicada

variable {L W σ : Type} [ArcLabel L]

inductive MapFinalAction where
  | noSuperfinal
  | allowSuperfinal
  | requireSuperfinal
deriving DecidableEq, Repr

/- `map` may carry state `σ` from one call to the next. -/
structure ArcMapper (σ L W : Type) where
  map : Arc L W → σ → Arc L W × σ
  finalAction : MapFinalAction
  properties : BitVec 64 → BitVec 64

/- The destination of an arc that leads nowhere. -/
def noState : ℕ := 2 ^ 64 - 1

def finalAsArc (weight : W) : Arc L W := ⟨epsilon, epsilon, weight, noState⟩

def becameAnArc (arc : Arc L W) : Bool := arc.ilabel ≠ epsilon || arc.olabel ≠ epsilon

def labelledFinalMessage : String :=
  "ArcMap: the mapper produced a labelled arc from a final weight, but said it " ++
    "would not need a superfinal state"

variable [Zero W] [One W] [DecidableEq W]

/- What the loop of `arcMap` carries from state to state. -/
structure ArcMapLoop (σ L W : Type) where
  fst : VectorFst L W
  superfinal : Option ℕ
  mapper : σ

def mapFinal (finalAction : MapFinalAction) (l : ArcMapLoop σ L W) (state : ℕ)
    (mapped : Arc L W) : ArcMapLoop σ L W × Bool :=
  match finalAction with
  | .noSuperfinal =>
    if becameAnArc mapped then (l, true)
    else ({ l with fst := l.fst.setFinal state mapped.weight }, false)
  | .allowSuperfinal =>
    if becameAnArc mapped then
      let (fst, target) := match l.superfinal with
        | some s => (l.fst, s)
        | none => (l.fst.addState.setFinal l.fst.numStates 1, l.fst.numStates)
      let fst := fst.addArc state { mapped with nextstate := target }
      ({ l with fst := fst.setFinal state 0, superfinal := some target }, false)
    else ({ l with fst := l.fst.setFinal state mapped.weight }, false)
  | .requireSuperfinal =>
    let target := l.superfinal.getD 0
    let fst :=
      if becameAnArc mapped || mapped.weight ≠ 0 then
        l.fst.addArc state { mapped with nextstate := target }
      else l.fst
    ({ l with fst := fst.setFinal state 0 }, false)

def arcMapState (mapper : ArcMapper σ L W) (l : ArcMapLoop σ L W) (state : ℕ) :
    ArcMapLoop σ L W × Bool :=
  let (fst, m) := l.fst.mutateArcs state mapper.map l.mapper
  if l.superfinal = some state then (⟨fst, l.superfinal, m⟩, false)
  else
    let (mapped, m) := mapper.map (finalAsArc (fst.finalWeight state)) m
    mapFinal mapper.finalAction ⟨fst, l.superfinal, m⟩ state mapped

def arcMapStates (mapper : ArcMapper σ L W) : List ℕ → ArcMapLoop σ L W → ArcMapLoop σ L W × Bool
  | [], l => (l, false)
  | state :: states, l =>
    let (l, labelError) := arcMapState mapper l state
    if labelError then (l, true) else arcMapStates mapper states l

def arcMapStart (mapper : ArcMapper σ L W) (fst : VectorFst L W) (m : σ) : ArcMapLoop σ L W :=
  if mapper.finalAction = .requireSuperfinal then
    ⟨fst.addState.setFinal fst.numStates 1, some fst.numStates, m⟩
  else ⟨fst, none, m⟩

/- The FST is rewritten in place, so it is part of the result of a failed call too. -/
def VectorFst.arcMap (fst : VectorFst L W) (mapper : ArcMapper σ L W) (m : σ) :
    VectorFst L W × Except OpenFstError Unit :=
  if fst.start = none then (fst, .ok ())
  else
    let props := fst.properties &&& kFstProperties
    let l := arcMapStart mapper fst m
    let (l, labelError) := arcMapStates mapper (List.range l.fst.numStates) l
    if labelError then (l.fst, .error (.invalidOperation labelledFinalMessage))
    else (l.fst.setProperties (mapper.properties props) kFstProperties, .ok ())

def invertMapper : ArcMapper Unit L W where
  map arc m := (⟨arc.olabel, arc.ilabel, arc.weight, arc.nextstate⟩, m)
  finalAction := .noSuperfinal
  properties := invertProperties

def VectorFst.invert (fst : VectorFst L W) : VectorFst L W × Except OpenFstError Unit :=
  fst.arcMap invertMapper ()

inductive ProjectType where
  | input
  | output
deriving DecidableEq, Repr

def projectMapper (projectType : ProjectType) : ArcMapper Unit L W where
  map arc m :=
    let label := match projectType with
      | .input => arc.ilabel
      | .output => arc.olabel
    (⟨label, label, arc.weight, arc.nextstate⟩, m)
  finalAction := .noSuperfinal
  properties props := projectProperties props (projectType = .input)

def VectorFst.project (fst : VectorFst L W) (projectType : ProjectType) :
    VectorFst L W × Except OpenFstError Unit :=
  fst.arcMap (projectMapper projectType) ()

/- The map collected from `pairs`, in which a later pair replaces an earlier one. -/
def relabelMap (pairs : List (L × L)) (label : L) : Option L :=
  (pairs.reverse.find? (·.1 = label)).map (·.2)

/- A key of the map whose new name is the reserved label. -/
def missingKey (pairs : List (L × L)) : Option L :=
  (pairs.map (·.1)).find? (fun label => relabelMap pairs label = some noLabel)

def relabelArc (ipairs opairs : List (L × L)) (arc : Arc L W) : Arc L W :=
  let ilabel := (relabelMap ipairs arc.ilabel).getD arc.ilabel
  let olabel := (relabelMap opairs arc.olabel).getD arc.olabel
  if ilabel ≠ arc.ilabel ∨ olabel ≠ arc.olabel then ⟨ilabel, olabel, arc.weight, arc.nextstate⟩
  else arc

def missingMessage [ToString L] (side : String) (label : L) : String :=
  "Relabel: " ++ side ++ " symbol ID " ++ toString label ++ " missing from target vocabulary"

def relabelStates (ipairs opairs : List (L × L)) : List ℕ → VectorFst L W → VectorFst L W
  | [], fst => fst
  | state :: states, fst =>
    relabelStates ipairs opairs states
      (fst.mutateArcs state (fun arc m => (relabelArc ipairs opairs arc, m)) ()).1

def VectorFst.relabel [ToString L] (fst : VectorFst L W) (ipairs opairs : List (L × L)) :
    VectorFst L W × Except OpenFstError Unit :=
  let props := fst.properties &&& kFstProperties
  match missingKey ipairs, missingKey opairs with
  | some label, _ => (fst, .error (.invalidOperation (missingMessage "Input" label)))
  | none, some label => (fst, .error (.invalidOperation (missingMessage "Output" label)))
  | none, none =>
    let fst := relabelStates ipairs opairs (List.range fst.numStates) fst
    (fst.setProperties (relabelProperties props) kFstProperties, .ok ())

end Sicada
