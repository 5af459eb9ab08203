import Sicada.DfsVisit
import Sicada.Library.Container

namespace Sicada.Visit

open Container Loop DfsVisit

variable {L W σ Q : Type} [ArcLabel L] [Zero W]

/- A visitor reports to a state `σ` of its own; `false` asks the visit to stop. -/
structure Visitor (L W σ : Type) where
  initVisit : σ → σ
  initState : ℕ → ℕ → σ → Bool × σ
  whiteArc : ℕ → Arc L W → σ → Bool × σ
  greyArc : ℕ → Arc L W → σ → Bool × σ
  blackArc : ℕ → Arc L W → σ → Bool × σ
  finishState : ℕ → σ → σ
  finishVisit : σ → σ

/- What a visit asks of its queue. -/
structure StateQueue (Q : Type) where
  head : Q → Option ℕ
  enqueue : ℕ → Q → Q
  dequeue : Q → Q
  isEmpty : Q → Bool

/- The head of an empty queue is asked for. -/
inductive VisitPanic where
  | noHead
deriving DecidableEq

/- The flags of a state. -/
structure StateStatus where
  color : StateColor
  arcIterDone : Bool
deriving DecidableEq

def whiteState : StateStatus := ⟨.white, false⟩

def greyState : StateStatus := ⟨.grey, false⟩

def blackState : StateStatus := ⟨.black, false⟩

/- `arcIterator` holds the arcs still to come of each state that is under way, and `siter` the
states the state iterator still has. `root` is that of the tree being visited. -/
structure VisitSearch (L W σ Q : Type) where
  stateStatus : ℕ → StateStatus
  arcIterator : ℕ → Option (List (Arc L W))
  nstates : ℕ
  siter : List ℕ
  doVisit : Bool
  rootIdx : ℕ
  root : Option ℕ
  queue : Q
  visitor : σ

section Searching

/- `known` is what the FST says of the number of its states without counting them. -/
variable (fst : VectorFst L W) (known : Option ℕ) (expanded : Bool) (visitor : Visitor L W σ)
  (queue : StateQueue Q) (filter : Arc L W → Bool) (accessOnly : Bool) (start : ℕ)

def discover (s root : ℕ) (d : VisitSearch L W σ Q) : VisitSearch L W σ Q :=
  let (doVisit, v) := visitor.initState s root d.visitor
  { d with
    doVisit := doVisit
    visitor := v
    stateStatus := Function.update d.stateStatus s greyState
    queue := queue.enqueue s d.queue }

/- The next root, for which an FST that is not expanded is asked whether it has one more state
than is known of. -/
def nextRoot (d : VisitSearch L W σ Q) : VisitSearch L W σ Q :=
  let rootIdx := nextIn (fun s => d.stateStatus s = whiteState)
    (if d.rootIdx = start then 0 else d.rootIdx + 1) d.nstates
  if !expanded ∧ rootIdx = d.nstates then
    match d.siter.dropWhile (· ≠ d.nstates) with
    | [] => { d with rootIdx := rootIdx, siter := [] }
    | _ :: siter => { d with rootIdx := rootIdx, siter := siter, nstates := d.nstates + 1 }
  else { d with rootIdx := rootIdx }

/- With `accessOnly` there is no further root. -/
def endTree (d : VisitSearch L W σ Q) : VisitSearch L W σ Q :=
  let d := { d with root := none }
  if accessOnly then { d with rootIdx := d.nstates } else nextRoot expanded start d

def startTree (d : VisitSearch L W σ Q) : VisitSearch L W σ Q :=
  discover visitor queue d.rootIdx d.rootIdx { d with root := some d.rootIdx }

def walkArc (root s : ℕ) (arc : Arc L W) (d : VisitSearch L W σ Q) : VisitSearch L W σ Q :=
  let d := { d with nstates := max d.nstates (arc.nextstate + 1) }
  if filter arc then
    match (d.stateStatus arc.nextstate).color with
    | .white =>
      let (doVisit, v) := visitor.whiteArc s arc d.visitor
      let d := { d with doVisit := doVisit, visitor := v }
      if doVisit then discover visitor queue arc.nextstate root d else d
    | .black =>
      let (doVisit, v) := visitor.blackArc s arc d.visitor
      { d with doVisit := doVisit, visitor := v }
    | .grey =>
      let (doVisit, v) := visitor.greyArc s arc d.visitor
      { d with doVisit := doVisit, visitor := v }
  else d

/- The iterator is dropped. -/
def closeIterator (s : ℕ) (d : VisitSearch L W σ Q) : VisitSearch L W σ Q :=
  { d with
    arcIterator := Function.update d.arcIterator s none
    stateStatus := Function.update d.stateStatus s { d.stateStatus s with arcIterDone := true } }

def openIterator (s : ℕ) (d : VisitSearch L W σ Q) : VisitSearch L W σ Q :=
  if (d.arcIterator s).isNone ∧ !(d.stateStatus s).arcIterDone ∧ d.doVisit then
    { d with arcIterator := Function.update d.arcIterator s (some (fst.arcs s)) }
  else d

def advanceIterator (s : ℕ) (arcs : List (Arc L W)) (d : VisitSearch L W σ Q) :
    VisitSearch L W σ Q :=
  if arcs.isEmpty then closeIterator s d
  else { d with arcIterator := Function.update d.arcIterator s (some arcs) }

def finishState (s : ℕ) (d : VisitSearch L W σ Q) : VisitSearch L W σ Q :=
  { d with
    queue := queue.dequeue d.queue
    visitor := visitor.finishState s d.visitor
    stateStatus := Function.update d.stateStatus s blackState }

/- The state at the head is finished, or one more of its arcs is walked. -/
def visitState (root s : ℕ) (d : VisitSearch L W σ Q) : VisitSearch L W σ Q :=
  let d := openIterator fst s { d with nstates := max d.nstates (s + 1) }
  let isDone : Bool := ((d.arcIterator s).getD []).isEmpty
  let d := if isDone || !d.doVisit then closeIterator s d else d
  if (d.stateStatus s).arcIterDone then finishState visitor queue s d
  else
    match d.arcIterator s with
    | some (arc :: arcs) => advanceIterator s arcs (walkArc visitor queue filter root s arc d)
    | _ => d

def visitStep (d : VisitSearch L W σ Q) : Except VisitPanic (Option (VisitSearch L W σ Q)) :=
  match d.root with
  | none =>
    if d.doVisit ∧ d.rootIdx < d.nstates then .ok (some (startTree visitor queue d)) else .ok none
  | some root =>
    if queue.isEmpty d.queue then .ok (some (endTree expanded accessOnly start d))
    else
      match queue.head d.queue with
      | some s => .ok (some (visitState fst visitor queue filter root s d))
      | none => .error .noHead

def startVisit (q : Q) (v : σ) : VisitSearch L W σ Q :=
  { stateStatus := fun _ => whiteState
    arcIterator := fun _ => none
    nstates := known.getD (start + 1)
    siter := List.range fst.numStates
    doVisit := true
    rootIdx := start
    root := none
    queue := q
    visitor := v }

/- `none` is a visit cut off by the fuel. -/
def visit (fuel : ℕ) (q : Q) (v : σ) : Option (Except VisitPanic (σ × Q)) :=
  let v := visitor.initVisit v
  match fst.start with
  | none => some (.ok (visitor.finishVisit v, q))
  | some start =>
    (tryLoop (visitStep fst expanded visitor queue filter accessOnly start) fuel
        (startVisit fst known start q v)).map fun r =>
      r.map fun d => (visitor.finishVisit d.visitor, d.queue)

end Searching

section Copying

variable [One W] [DecidableEq W]

/- Copies an FST as it is visited. -/
def copyVisitor (ifst : VectorFst L W) : Visitor L W (VectorFst L W) where
  initVisit ofst :=
    let ofst := ofst.deleteAllStates
    match ifst.start with
    | some start => ofst.setStart (some start)
    | none => ofst
  initState state _ ofst := (true, ofst.growTo (state + 1))
  whiteArc state arc ofst := (true, ofst.addArc state arc)
  greyArc state arc ofst := (true, ofst.addArc state arc)
  blackArc state arc ofst := (true, ofst.addArc state arc)
  finishState state ofst := ofst.setFinal state (ifst.finalWeight state)
  finishVisit ofst := ofst

end Copying

end Sicada.Visit
