import Sicada.VectorFst

namespace Sicada.Accumulator

variable {L : Type} [ArcLabel L]

/- Log weights are read by the mass they stand for: infinity is 0, and what is less is lighter. -/
def logPlusRaw (f1 f2 : ℚ≥0) : ℚ≥0 := if f1 = 0 then f2 else f1 + f2

/- For `f2` lighter than `f1`. -/
def logMinusRaw (f1 f2 : ℚ≥0) : ℚ≥0 := if f2 = 0 then f1 else f1 - f2

def logPlus (w v : ℚ≥0) : ℚ≥0 := if w = 0 then v else logPlusRaw w v

/- One arc after another is added. -/
def walk (w : ℚ≥0) (arcs : List (Arc L ℚ≥0)) : ℚ≥0 :=
  arcs.foldl (fun sum arc => logPlus sum arc.weight) w

namespace LogAccumulator

def sumRange (w : ℚ≥0) (arcs : List (Arc L ℚ≥0)) (begin stop : ℕ) : ℚ≥0 :=
  walk w ((arcs.drop begin).take (stop - begin))

end LogAccumulator

/- A sum, the arcs that are left and how many are behind. -/
structure Place (L : Type) where
  sum : ℚ≥0
  arcs : List (Arc L ℚ≥0)
  position : ℕ

def Place.walkTo (place : Place L) (stop : ℕ) : Place L :=
  if place.position < stop then
    ⟨walk place.sum (place.arcs.take (stop - place.position)),
      place.arcs.drop (stop - place.position), stop⟩
  else place

structure FastLogAccumulator where
  arcLimit : ℕ
  arcPeriod : ℕ
  weights : List ℚ≥0
  positions : List (Option ℕ)
  current : Option ℕ

namespace FastLogAccumulator

variable (accumulator : FastLogAccumulator)

def new (arcLimit arcPeriod : ℕ) : Except OpenFstError FastLogAccumulator :=
  if arcPeriod = 0 ∨ arcLimit < arcPeriod then
    .error (.invalidOperation
      s!"FastLogAccumulator: arc_period {arcPeriod} must be positive and no larger than arc_limit {arcLimit}")
  else .ok ⟨arcLimit, arcPeriod, [], [], none⟩

/- The loop over the arcs of a state, `seen` of them behind it. -/
def storeSums (arcPeriod : ℕ) : List (Arc L ℚ≥0) → ℕ → ℚ≥0 → List ℚ≥0 → List ℚ≥0
  | [], _, _, weights => weights
  | arc :: arcs, seen, sum, weights =>
    let sum := logPlusRaw sum arc.weight
    storeSums arcPeriod arcs (seen + 1) sum
      (if (seen + 1) % arcPeriod = 0 then weights ++ [sum] else weights)

def resize (positions : List (Option ℕ)) (length : ℕ) : List (Option ℕ) :=
  positions ++ List.replicate (length - positions.length) none

def storeState (fst : VectorFst L ℚ≥0) (state : ℕ) : FastLogAccumulator :=
  if fst.numArcs state < accumulator.arcLimit then accumulator
  else { accumulator with
    positions := (resize accumulator.positions (state + 1)).set state
      (some accumulator.weights.length)
    weights := storeSums accumulator.arcPeriod (fst.arcs state) 0 0 (accumulator.weights ++ [0]) }

def init (fst : VectorFst L ℚ≥0) : FastLogAccumulator :=
  (List.range fst.numStates).foldl (fun accumulator state => accumulator.storeState fst state)
    { accumulator with weights := [], positions := [], current := none }

def setState (state : ℕ) : FastLogAccumulator :=
  { accumulator with current := accumulator.positions[state]?.join }

/- Which stored points lie inside the range: the first, the last, and where they stand. -/
def points (begin stop : ℕ) : ℕ × ℕ × ℕ × ℕ :=
  match accumulator.current with
  | some _ =>
    let indexBegin := if 0 < begin then (begin - 1) / accumulator.arcPeriod + 1 else 0
    let indexEnd := stop / accumulator.arcPeriod
    (indexBegin, indexEnd, indexBegin * accumulator.arcPeriod, indexEnd * accumulator.arcPeriod)
  | none => (0, 0, stop, stop)

/- Between the two stored points their difference is added, if the sums grow at all. -/
def jump (indexBegin indexEnd storedBegin storedEnd : ℕ) (place : Place L) : Option (Place L) :=
  match accumulator.current with
  | some base =>
    if storedBegin < storedEnd then do
      let f1 ← accumulator.weights[base + indexEnd]?
      let f2 ← accumulator.weights[base + indexBegin]?
      let sum := if f2 < f1 then logPlus place.sum (logMinusRaw f1 f2) else place.sum
      if place.position < storedEnd then
        return ⟨sum, place.arcs.drop (storedEnd - place.position), storedEnd⟩
      return { place with sum := sum }
    else some place
  | none => some place

/- A `none` is a panic. -/
def sumRange (w : ℚ≥0) (arcs : List (Arc L ℚ≥0)) (begin stop : ℕ) : Option ℚ≥0 :=
  if stop ≤ begin then some w
  else
    let (indexBegin, indexEnd, storedBegin, storedEnd) := accumulator.points begin stop
    let first : Place L := ⟨w, arcs.drop begin, begin⟩
    let place := if begin < storedBegin then first.walkTo (min storedBegin stop) else first
    (accumulator.jump indexBegin indexEnd storedBegin storedEnd place).map fun place =>
      (place.walkTo stop).sum

end FastLogAccumulator

/- `cached` holds the cumulative sums of the states seen so far. -/
structure CacheLogAccumulator where
  arcLimit : ℕ
  cached : ℕ → Option (List ℚ≥0)
  current : Option ℕ

namespace CacheLogAccumulator

variable (accumulator : CacheLogAccumulator)

def new (arcLimit : ℕ) : CacheLogAccumulator := ⟨arcLimit, fun _ => none, none⟩

/- That of the trait, which does nothing. -/
def init (_fst : VectorFst L ℚ≥0) : CacheLogAccumulator := accumulator

def setState (state : ℕ) : CacheLogAccumulator := { accumulator with current := some state }

/- Sums are pushed as arcs are added to the last. -/
def pushSums : List (Arc L ℚ≥0) → ℚ≥0 → List ℚ≥0 → List ℚ≥0
  | [], _, run => run
  | arc :: arcs, sum, run =>
    let sum := logPlusRaw sum arc.weight
    pushSums arcs sum (run ++ [sum])

/- The run of a state up to `stop` arcs, and the accumulator that holds it. -/
def extend (state : ℕ) (arcs : List (Arc L ℚ≥0)) (stop : ℕ) :
    Option (List ℚ≥0 × CacheLogAccumulator) :=
  let run := (accumulator.cached state).getD [0]
  (if stop < run.length then some run
    else run[run.length - 1]?.map fun sum =>
      pushSums ((arcs.drop (run.length - 1)).take (stop + 1 - run.length)) sum run).map fun run =>
    (run, { accumulator with cached := Function.update accumulator.cached state (some run) })

/- The first place at or after `lo` and before `hi` where the run reaches `target`. -/
def searchRun (run : List ℚ≥0) (target : ℚ≥0) (lo hi : ℕ) : Option ℕ :=
  if lo < hi then
    let mid := lo + (hi - lo) / 2
    match run[mid]? with
    | none => none
    | some sum =>
      if sum < target then searchRun run target (mid + 1) hi else searchRun run target lo mid
  else some lo
termination_by hi - lo

/- The walk of `lowerBound` where no state is set. -/
def walkBound (target : ℚ≥0) (start : ℕ) : List (Arc L ℚ≥0) → ℕ → ℚ≥0 → ℕ
  | [], n, _ => n
  | arc :: arcs, n, x =>
    let x := logPlusRaw x arc.weight
    if start ≤ n ∧ target ≤ x then n else walkBound target start arcs (n + 1) x

def lowerBound (w : ℚ≥0) (arcs : List (Arc L ℚ≥0)) (start narcs : ℕ) :
    Option (ℕ × CacheLogAccumulator) :=
  match accumulator.current with
  | some state => do
    let (run, accumulator) ← accumulator.extend state arcs narcs
    let lo ← searchRun run w (start + 1) run.length
    return (lo - 1, accumulator)
  | none => some (walkBound w start arcs 0 0, accumulator)

def sumRange (w : ℚ≥0) (arcs : List (Arc L ℚ≥0)) (begin stop : ℕ) :
    Option (ℚ≥0 × CacheLogAccumulator) :=
  match accumulator.current with
  | none => some (walk w ((arcs.drop begin).take (stop - begin)), accumulator)
  | some state =>
    if (accumulator.cached state).isNone ∧ stop < accumulator.arcLimit then
      some (walk w ((arcs.drop begin).take (stop - begin)), accumulator)
    else do
      let (run, accumulator) ← accumulator.extend state arcs stop
      let f1 ← run[min stop (run.length - 1)]?
      let f2 ← run[min begin (run.length - 1)]?
      return (if f2 < f1 then logPlus w (logMinusRaw f1 f2) else w, accumulator)

end CacheLogAccumulator

end Sicada.Accumulator
