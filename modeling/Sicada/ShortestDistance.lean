import Sicada.Queue
import Sicada.SccRuns

namespace Sicada.ShortestDistance

open Relation Container SccRuns

variable {L W Q : Type} [ArcLabel L] [Zero W] [One W] [Add W] [Mul W] [DecidableEq W]

/- What a weight says of itself. -/
structure WeightKind (W : Type) where
  isMember : W → Bool
  rightSemiring : Bool
  path : Bool
  typeName : String

/- The order a queue keeps may be read off the distances it shares. -/
structure ShortestDistanceOptions (L W Q : Type) where
  queue : (ℕ → W) → Discipline ℕ Q
  arcFilter : Arc L W → Bool
  source : Option ℕ
  approxEqual : W → W → Bool
  firstPath : Bool

def noRun : ℕ := 2 ^ 64 - 1

/- The buffers and the distances. Past their length the vectors hold what a new entry holds. -/
structure ShortestDistanceState (W : Type) where
  distance : ℕ → W
  adder : ℕ → W
  residual : ℕ → W
  enqueued : ℕ → Bool
  sources : ℕ → ℕ
  run : ℕ
  retain : Bool

namespace ShortestDistanceState

def new : ShortestDistanceState W :=
  ⟨fun _ => 0, fun _ => 0, fun _ => 0, fun _ => false, fun _ => noRun, 0, false⟩

def retained : ShortestDistanceState W := { (new : ShortestDistanceState W) with retain := true }

def clear (st : ShortestDistanceState W) : ShortestDistanceState W :=
  { st with
    distance := fun _ => 0
    adder := fun _ => 0
    residual := fun _ => 0
    enqueued := fun _ => false }

/- Wipes an entry an earlier run left behind. -/
def claim (index : ℕ) (st : ShortestDistanceState W) : ShortestDistanceState W :=
  if !st.retain || decide (st.sources index = st.run) then st
  else
    { st with
      distance := Function.update st.distance index 0
      adder := Function.update st.adder index 0
      residual := Function.update st.residual index 0
      enqueued := Function.update st.enqueued index false
      sources := Function.update st.sources index st.run }

def startAt (source : ℕ) (st : ShortestDistanceState W) : ShortestDistanceState W :=
  { st with
    distance := Function.update st.distance source 1
    adder := Function.update st.adder source 1
    residual := Function.update st.residual source 1
    enqueued := Function.update st.enqueued source true }

/- The counter may come round to the mark that no run has. -/
def advance (st : ShortestDistanceState W) : ShortestDistanceState W :=
  if (st.run + 1) % 2 ^ 64 = noRun then { st with sources := fun _ => noRun, run := 0 }
  else { st with run := (st.run + 1) % 2 ^ 64 }

end ShortestDistanceState

section Running

open ShortestDistanceState

variable (kind : WeightKind W) (fst : VectorFst L W) (opts : ShortestDistanceOptions L W Q)

/- `false` is a relaxation that left the semiring, `none` a panic of the queue. -/
def relaxArc (r : W) (arc : Arc L W) (st : ShortestDistanceState W) (queue : Q) :
    Option (Bool × ShortestDistanceState W × Q) :=
  if opts.arcFilter arc then
    let next := arc.nextstate
    let st := st.claim next
    let weight := r * arc.weight
    let current := st.distance next
    if opts.approxEqual current (current + weight) then some (true, st, queue)
    else
      let updated := st.adder next + weight
      let gained := st.residual next + weight
      let st := { st with
        adder := Function.update st.adder next updated
        residual := Function.update st.residual next gained
        distance := Function.update st.distance next updated }
      if !kind.isMember updated || !kind.isMember gained then some (false, st, queue)
      else if st.enqueued next then
        ((opts.queue st.distance).update next queue).map fun queue => (true, st, queue)
      else
        ((opts.queue st.distance).enqueue next queue).map fun queue =>
          (true, { st with enqueued := Function.update st.enqueued next true }, queue)
  else some (true, st, queue)

def relaxArcs (r : W) : List (Arc L W) → ShortestDistanceState W → Q →
    Option (Bool × ShortestDistanceState W × Q)
  | [], st, queue => some (true, st, queue)
  | arc :: arcs, st, queue =>
    match relaxArc kind opts r arc st queue with
    | some (true, st, queue) => relaxArcs r arcs st queue
    | stopped => stopped

def expand (state : ℕ) (st : ShortestDistanceState W) (queue : Q) :
    Option (Bool × ShortestDistanceState W × Q) :=
  relaxArcs kind opts (st.residual state) (fst.arcs state)
    { st with
      enqueued := Function.update st.enqueued state false
      residual := Function.update st.residual state 0 } queue

/- `none` is a run that is not over when the fuel is. -/
def relaxAll : ℕ → ShortestDistanceState W → Q → Option (Bool × ShortestDistanceState W × Q)
  | 0, _, _ => none
  | fuel + 1, st, queue =>
    match (opts.queue st.distance).dequeue queue with
    | none => none
    | some (none, queue) => some (true, st, queue)
    | some (some state, queue) =>
      if opts.firstPath ∧ fst.finalWeight state ≠ 0 then some (true, st, queue)
      else
        match expand kind fst opts state st queue with
        | some (true, st, queue) => relaxAll fuel st queue
        | stopped => stopped

/- All of a run from `source` but the errors that stop it before it begins. -/
def runFrom (fuel source : ℕ) (st : ShortestDistanceState W) (queue : Q) :
    Option (Bool × ShortestDistanceState W × Q) :=
  let st := ((if st.retain then st else st.clear).claim source).startAt source
  match (opts.queue st.distance).enqueue source ((opts.queue st.distance).clear queue) with
  | none => none
  | some queue => relaxAll kind fst opts fuel st queue

def errorOf (message : String) : Except OpenFstError Unit :=
  .error (.invalidOperation message)

def inError : Except OpenFstError Unit := errorOf "ShortestDistance: the FST is marked as being in error"

def leftSemiring : Except OpenFstError Unit :=
  errorOf "ShortestDistance: the relaxation left the semiring"

def run (fuel : ℕ) (st : ShortestDistanceState W) (queue : Q) :
    Option (Except OpenFstError Unit × ShortestDistanceState W × Q) :=
  match fst.start with
  | none =>
    if fst.properties &&& kError ≠ 0 then some (inError, st, queue)
    else some (.ok (), if st.retain then st else { st with distance := fun _ => 0 }, queue)
  | some start =>
    if !kind.rightSemiring then
      some (errorOf ("ShortestDistance: the weight has to be right distributive: " ++
        kind.typeName), st, queue)
    else if opts.firstPath && !kind.path then
      some (errorOf ("ShortestDistance: first_path needs a weight with the path property: " ++
        kind.typeName), st, queue)
    else
      match runFrom kind fst opts fuel (opts.source.getD start) st queue with
      | none => none
      | some (false, st, queue) => some (leftSemiring, st, queue)
      | some (true, st, queue) =>
        some (if fst.properties &&& kError ≠ 0 then inError else .ok (), st.advance, queue)

end Running

end Sicada.ShortestDistance
