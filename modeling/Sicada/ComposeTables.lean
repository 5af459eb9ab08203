import Sicada.Compose

namespace Sicada

/- How many numbers a `usize` holds. -/
def usizeModulus : ℕ := 2 ^ 64

def wrap (n : ℕ) : ℕ := n % usizeModulus

def CharFilterState.hashValue : CharFilterState → ℕ
  | .default => 0
  | .eps1 => 1
  | .eps2 => 2

/- Numbers a tuple as a digit string: the first state, the second past it, the filter state past
both. -/
structure ComposeFingerprint where
  mult1 : ℕ
  mult2 : ℕ

namespace ComposeFingerprint

def new (nstates1 nstates2 : ℕ) : ComposeFingerprint :=
  ⟨nstates1, min (nstates1 * nstates2) (usizeModulus - 1)⟩

def fingerprint (fp : ComposeFingerprint) (tuple : ComposeStateTuple) : ℕ :=
  wrap (wrap (tuple.s1 + wrap (tuple.s2 * fp.mult1)) + wrap (tuple.fs.hashValue * fp.mult2))

end ComposeFingerprint

def composeState1Fingerprint (tuple : ComposeStateTuple) : ℕ := tuple.s1

def composeState2Fingerprint (tuple : ComposeStateTuple) : ℕ := tuple.s2

/- A table that finds an entry at the place its fingerprint gives it. -/
structure VectorBiTable (T : Type) where
  fp2id : List (Option ℕ)
  id2entry : List T

namespace VectorBiTable

variable {T : Type}

def new : VectorBiTable T := ⟨[], []⟩

def findId (fingerprint : T → ℕ) (table : VectorBiTable T) (entry : T) : ℕ × VectorBiTable T :=
  let f := fingerprint entry
  let fp2id := table.fp2id ++ List.replicate (f + 1 - table.fp2id.length) none
  match fp2id.getD f none with
  | some id => (id, ⟨fp2id, table.id2entry⟩)
  | none =>
    let id := table.id2entry.length
    (id, ⟨fp2id.set f (some id), table.id2entry ++ [entry]⟩)

end VectorBiTable

/- What a composition asks of its state table. -/
structure ComposeStateTable where
  Table : Type
  new : Table
  findState : Table → ComposeStateTuple → ℕ × Table
  tuple : Table → ℕ → Option ComposeStateTuple
  size : Table → ℕ

def genericComposeStateTable : ComposeStateTable where
  Table := List ComposeStateTuple
  new := []
  findState := BiTable.findId
  tuple := fun table s => table[s]?
  size := List.length

def vectorStateTable (fingerprint : ComposeStateTuple → ℕ) : ComposeStateTable where
  Table := VectorBiTable ComposeStateTuple
  new := VectorBiTable.new
  findState := VectorBiTable.findId fingerprint
  tuple := fun table s => table.id2entry[s]?
  size := fun table => table.id2entry.length

variable {L W : Type} [ArcLabel L] [Zero W] [One W] [DecidableEq W]

def productComposeStateTable (fst1 fst2 : VectorFst L W) : ComposeStateTable :=
  vectorStateTable (ComposeFingerprint.new fst1.numStates fst2.numStates).fingerprint

def stringDetComposeStateTable : ComposeStateTable := vectorStateTable composeState1Fingerprint

def detStringComposeStateTable : ComposeStateTable := vectorStateTable composeState2Fingerprint

/- Whether `StringDetComposeStateTable::new` reports an error. -/
def stringDetError (isMember : W → Bool) (fst1 fst2 : VectorFst L W) : Bool :=
  let props2 := kIDeterministic ||| kNoIEpsilons
  if cachedProperties isMember fst1 kString ≠ kString then true
  else if cachedProperties isMember fst2 props2 ≠ props2 then true
  else false

/- Whether `DetStringComposeStateTable::new` does. -/
def detStringError (isMember : W → Bool) (fst1 fst2 : VectorFst L W) : Bool :=
  let props1 := kODeterministic ||| kNoOEpsilons
  if cachedProperties isMember fst1 props1 ≠ props1 then true
  else if cachedProperties isMember fst2 kString ≠ kString then true
  else false

variable [Mul W] (table : ComposeStateTable)

/- `match_arc`, its destinations numbered by any table. -/
def matchArcIn (matcher1 matcher2 : SortedMatcher L W)
    (filterArc : Arc L W → Arc L W → Option CharFilterState) (s1 s2 : ℕ) (matchInput : Bool)
    (acc : table.Table × List (Arc L W)) (arc : Arc L W) : table.Table × List (Arc L W) :=
  let label := if matchInput then arc.olabel else arc.ilabel
  let found := if matchInput then matcher2.find s2 label else matcher1.find s1 label
  found.foldl (fun (states, arcs) other =>
    let (arc1, arc2) := if matchInput then (arc, other) else (other, arc)
    match filterArc arc1 arc2 with
    | none => (states, arcs)
    | some fs =>
      let (next, states) := table.findState states ⟨arc1.nextstate, arc2.nextstate, fs⟩
      (states, arcs ++ [⟨arc1.ilabel, arc2.olabel, arc1.weight * arc2.weight, next⟩])) acc

structure TableLoop (T L W : Type) where
  states : T
  pending : List ℕ
  done : Finset ℕ
  ofst : VectorFst L W

def tableAddArc {T : Type} (state : ℕ) (l : TableLoop T L W) (arc : Arc L W) : TableLoop T L W :=
  let l :=
    if arc.nextstate ∈ l.done then l
    else { l with done := insert arc.nextstate l.done, pending := arc.nextstate :: l.pending }
  { l with ofst := l.ofst.addArc state arc }

def composeStepIn (filter : ArcFilter L W) (matcher1 matcher2 : SortedMatcher L W)
    (matchInput : ComposeStateTuple → Bool) (l : TableLoop table.Table L W) :
    Option (TableLoop table.Table L W) :=
  match l.pending with
  | [] => none
  | state :: pending =>
    let tuple := (table.tuple l.states state).getD ⟨0, 0, .default⟩
    let ofst := composeFinal matcher1.fst matcher2.fst tuple state l.ofst
    let side := matchInput tuple
    let (states, arcs) := (walkedArcs matcher1 matcher2 tuple.s1 tuple.s2 side).foldl
      (matchArcIn table matcher1 matcher2 (filter tuple) tuple.s1 tuple.s2 side) (l.states, [])
    let ofst := ofst.growTo (table.size states)
    some (arcs.foldl (tableAddArc state) ⟨states, pending, l.done, ofst⟩)

/- `compose_with`, with any table in the place of the generic one. -/
def composeIn (filter : ArcFilter L W) (fuel : ℕ) (matcher1 matcher2 : SortedMatcher L W)
    (matchInput : ComposeStateTuple → Bool) (ofst : VectorFst L W) : Option (VectorFst L W) :=
  let ofst := ofst.deleteAllStates
  let props := composeProperties (matcher1.fst.properties &&& kFstProperties)
    (matcher2.fst.properties &&& kFstProperties)
  match matcher1.fst.start, matcher2.fst.start with
  | some start1, some start2 =>
    let (start, states) := table.findState table.new ⟨start1, start2, .default⟩
    let ofst := ofst.addState.setStart (some start)
    (Loop.runLoop (composeStepIn table filter matcher1 matcher2 matchInput) fuel
      ⟨states, [start], {start}, ofst⟩).map fun l => l.ofst.setProperties props kFstProperties
  | _, _ => some (ofst.setProperties props kFstProperties)

end Sicada
