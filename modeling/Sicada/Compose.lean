import Sicada.ArcSort
import Sicada.BiTable

namespace Sicada

section Composing

variable {L W : Type} [ArcLabel L]

inductive CharFilterState where
  | default
  | eps1
  | eps2
deriving DecidableEq

structure ComposeStateTuple where
  s1 : ℕ
  s2 : ℕ
  fs : CharFilterState
deriving DecidableEq

/- A matcher over the input or the output side of an FST, its arcs sorted by that side. -/
structure SortedMatcher (L W : Type) where
  fst : VectorFst L W
  byOutput : Bool

namespace SortedMatcher

variable (matcher : SortedMatcher L W)

def extractLabel (arc : Arc L W) : L := if matcher.byOutput then arc.olabel else arc.ilabel

/- The arc that stands for taking nothing here. -/
def loopArc [One W] (state : ℕ) : Arc L W :=
  if matcher.byOutput then ⟨epsilon, noLabel, 1, state⟩ else ⟨noLabel, epsilon, 1, state⟩

def priority (state : ℕ) : ℕ := matcher.fst.numArcs state

def search (matchLabel : L) (arcs : List (Arc L W)) : ℕ × ℕ :=
  let start := (arcs.takeWhile fun arc => matcher.extractLabel arc < matchLabel).length
  let stop := start +
    ((arcs.drop start).takeWhile fun arc => matcher.extractLabel arc ≤ matchLabel).length
  (start, stop)

/- What `find` and the walk that follows it give: the loop first where epsilon was asked for,
then the arcs that carry the label. -/
def find [One W] (state : ℕ) (label : L) : List (Arc L W) :=
  let currentLoop : Bool := label = epsilon
  let matchLabel := if label = noLabel then epsilon else label
  let arcs := matcher.fst.arcs state
  let (pos, stop) := matcher.search matchLabel arcs
  let found := ((arcs.take stop).drop pos).takeWhile fun arc => matcher.extractLabel arc = matchLabel
  if currentLoop then matcher.loopArc state :: found else found

end SortedMatcher

variable [Zero W] [DecidableEq W]

/- The filter after `set_state`, which looks at the first FST alone. -/
structure SequenceComposeFilter where
  fs : CharFilterState
  alleps1 : Bool
  noeps1 : Bool

def SequenceComposeFilter.setState (fst1 : VectorFst L W) (s1 : ℕ) (fs : CharFilterState) :
    SequenceComposeFilter :=
  let na1 := fst1.numArcs s1
  let ne1 := fst1.numOutputEpsilons s1
  let fin1 : Bool := fst1.finalWeight s1 ≠ 0
  { fs := fs, alleps1 := na1 = ne1 && !fin1, noeps1 := ne1 = 0 }

def SequenceComposeFilter.filterArc (filter : SequenceComposeFilter) (arc1 arc2 : Arc L W) :
    Option CharFilterState :=
  if arc1.olabel = noLabel then
    if filter.alleps1 then none
    else if filter.noeps1 then some .default
    else some .eps1
  else if arc2.ilabel = noLabel then
    if filter.fs ≠ .default then none else some .default
  else if arc1.olabel = epsilon then none
  else some .default

variable [One W] [Mul W]

/- Matches one arc of the side being walked against the other side. -/
def matchArc (matcher1 matcher2 : SortedMatcher L W) (filter : SequenceComposeFilter)
    (s1 s2 : ℕ) (matchInput : Bool) (acc : List ComposeStateTuple × List (Arc L W))
    (arc : Arc L W) : List ComposeStateTuple × List (Arc L W) :=
  let label := if matchInput then arc.olabel else arc.ilabel
  let found := if matchInput then matcher2.find s2 label else matcher1.find s1 label
  found.foldl (fun (states, arcs) other =>
    let (arc1, arc2) := if matchInput then (arc, other) else (other, arc)
    match filter.filterArc arc1 arc2 with
    | none => (states, arcs)
    | some fs =>
      let (next, states) := BiTable.findId states ⟨arc1.nextstate, arc2.nextstate, fs⟩
      (states, arcs ++ [⟨arc1.ilabel, arc2.olabel, arc1.weight * arc2.weight, next⟩])) acc

/- The arcs walked at a state: those of one side, after one that takes nothing there. -/
def walkedArcs (matcher1 matcher2 : SortedMatcher L W) (s1 s2 : ℕ) (matchInput : Bool) :
    List (Arc L W) :=
  if matchInput then ⟨epsilon, noLabel, 1, s1⟩ :: matcher1.fst.arcs s1
  else ⟨noLabel, epsilon, 1, s2⟩ :: matcher2.fst.arcs s2

structure ComposeLoop (L W : Type) where
  states : List ComposeStateTuple
  pending : List ℕ
  done : Finset ℕ
  ofst : VectorFst L W

def composeAddArc (state : ℕ) (l : ComposeLoop L W) (arc : Arc L W) : ComposeLoop L W :=
  let l :=
    if arc.nextstate ∈ l.done then l
    else { l with done := insert arc.nextstate l.done, pending := arc.nextstate :: l.pending }
  { l with ofst := l.ofst.addArc state arc }

/- The final weight of a pair of states, where both are final. -/
def composeFinal (fst1 fst2 : VectorFst L W) (tuple : ComposeStateTuple) (state : ℕ)
    (ofst : VectorFst L W) : VectorFst L W :=
  let final1 := fst1.finalWeight tuple.s1
  let final2 := fst2.finalWeight tuple.s2
  if final1 ≠ 0 ∧ final2 ≠ 0 then
    let weight := final1 * final2
    if weight ≠ 0 then ofst.setFinal state weight else ofst
  else ofst

/- One round of the loop. Which side is matched is a parameter, asked at each state. -/
def composeStep (matcher1 matcher2 : SortedMatcher L W) (matchInput : ComposeStateTuple → Bool)
    (l : ComposeLoop L W) : Option (ComposeLoop L W) :=
  match l.pending with
  | [] => none
  | state :: pending =>
    let tuple := l.states.getD state ⟨0, 0, .default⟩
    let ofst := composeFinal matcher1.fst matcher2.fst tuple state l.ofst
    let filter := SequenceComposeFilter.setState matcher1.fst tuple.s1 tuple.fs
    let side := matchInput tuple
    let (states, arcs) := (walkedArcs matcher1 matcher2 tuple.s1 tuple.s2 side).foldl
      (matchArc matcher1 matcher2 filter tuple.s1 tuple.s2 side) (l.states, [])
    let ofst := ofst.growTo states.length
    some (arcs.foldl (composeAddArc state) ⟨states, pending, l.done, ofst⟩)

/- `none` is a run that the fuel has cut off. The two matchers can match on either side, so
`match_types` never fails here. -/
def composeWith (fuel : ℕ) (matcher1 matcher2 : SortedMatcher L W) (matchInput : ComposeStateTuple → Bool)
    (ofst : VectorFst L W) : Option (VectorFst L W) :=
  let ofst := ofst.deleteAllStates
  let props := composeProperties (matcher1.fst.properties &&& kFstProperties)
    (matcher2.fst.properties &&& kFstProperties)
  match matcher1.fst.start, matcher2.fst.start with
  | some start1, some start2 =>
    let (start, states) := BiTable.findId [] ⟨start1, start2, .default⟩
    let ofst := ofst.addState.setStart (some start)
    (Loop.runLoop (composeStep matcher1 matcher2 matchInput) fuel
      ⟨states, [start], {start}, ofst⟩).map fun l => l.ofst.setProperties props kFstProperties
  | _, _ => some (ofst.setProperties props kFstProperties)

/- The side with fewer arcs is the one walked. -/
def priorityMatchInput (matcher1 matcher2 : SortedMatcher L W) (tuple : ComposeStateTuple) : Bool :=
  matcher1.priority tuple.s1 ≤ matcher2.priority tuple.s2

def copyState (fst : VectorFst L W) (copy : VectorFst L W) (state : ℕ) : VectorFst L W :=
  (fst.arcs state).foldl (fun copy arc => copy.addArc state arc)
    (copy.setFinal state (fst.finalWeight state))

def sortedCopy (fst : VectorFst L W) (byOutput : Bool) : VectorFst L W :=
  let copy := VectorFst.new.addStates fst.numStates
  let copy := match fst.start with
    | some start => copy.setStart (some start)
    | none => copy
  let copy := (List.range fst.numStates).foldl (copyState fst) copy
  let copy := copy.setProperties (fst.properties &&& kFstProperties) kFstProperties
  let wanted := if byOutput then kOLabelSorted else kILabelSorted
  let (tested, copy) := copy.testedProperties wanted
  if tested &&& wanted = 0 then
    if byOutput then copy.arcSort oLabelCompare else copy.arcSort iLabelCompare
  else copy

/- `compose_options` without the trimming at its end. -/
def composeOptions (fuel : ℕ) (fst1 fst2 ofst : VectorFst L W) (matchInput : ComposeStateTuple → Bool) :
    Option (VectorFst L W) :=
  composeWith fuel ⟨sortedCopy fst1 true, true⟩ ⟨sortedCopy fst2 false, false⟩ matchInput ofst

end Composing

section Filters

variable {L W : Type} [ArcLabel L]

/- What a filter answers at a state of the composition: the filter state that a pair of arcs leads
to, if the filter lets the pair through. -/
abbrev ArcFilter (L W : Type) := ComposeStateTuple → Arc L W → Arc L W → Option CharFilterState

variable [Zero W] [DecidableEq W]

def sequenceFilter (fst1 : VectorFst L W) : ArcFilter L W := fun tuple =>
  (SequenceComposeFilter.setState fst1 tuple.s1 tuple.fs).filterArc

/- The filter after `set_state`, which looks at the second FST alone. -/
structure AltSequenceComposeFilter where
  fs : CharFilterState
  alleps2 : Bool
  noeps2 : Bool

namespace AltSequenceComposeFilter

def setState (fst2 : VectorFst L W) (s2 : ℕ) (fs : CharFilterState) : AltSequenceComposeFilter :=
  let na2 := fst2.numArcs s2
  let ne2 := fst2.numInputEpsilons s2
  let fin2 : Bool := fst2.finalWeight s2 ≠ 0
  { fs := fs, alleps2 := na2 = ne2 && !fin2, noeps2 := ne2 = 0 }

def filterArc (filter : AltSequenceComposeFilter) (arc1 arc2 : Arc L W) : Option CharFilterState :=
  if arc2.ilabel = noLabel then
    if filter.alleps2 then none
    else if filter.noeps2 then some .default
    else some .eps1
  else if arc1.olabel = noLabel then
    if filter.fs = .eps1 then none else some .default
  else if arc1.olabel = epsilon then none
  else some .default

end AltSequenceComposeFilter

def altSequenceFilter (fst2 : VectorFst L W) : ArcFilter L W := fun tuple =>
  (AltSequenceComposeFilter.setState fst2 tuple.s2 tuple.fs).filterArc

structure MatchComposeFilter where
  fs : CharFilterState
  alleps1 : Bool
  alleps2 : Bool
  noeps1 : Bool
  noeps2 : Bool

namespace MatchComposeFilter

def setState (fst1 fst2 : VectorFst L W) (s1 s2 : ℕ) (fs : CharFilterState) :
    MatchComposeFilter :=
  let na1 := fst1.numArcs s1
  let ne1 := fst1.numOutputEpsilons s1
  let f1 : Bool := fst1.finalWeight s1 ≠ 0
  let na2 := fst2.numArcs s2
  let ne2 := fst2.numInputEpsilons s2
  let f2 : Bool := fst2.finalWeight s2 ≠ 0
  { fs := fs
    alleps1 := na1 = ne1 && !f1
    alleps2 := na2 = ne2 && !f2
    noeps1 := ne1 = 0
    noeps2 := ne2 = 0 }

def filterArc (filter : MatchComposeFilter) (arc1 arc2 : Arc L W) : Option CharFilterState :=
  if arc2.ilabel = noLabel then
    -- An epsilon of the first FST.
    match filter.fs with
    | .default =>
      if filter.noeps2 then some .default
      else if filter.alleps2 then none
      else some .eps1
    | .eps1 => some .eps1
    | .eps2 => none
  else if arc1.olabel = noLabel then
    -- An epsilon of the second.
    match filter.fs with
    | .default =>
      if filter.noeps1 then some .default
      else if filter.alleps1 then none
      else some .eps2
    | .eps2 => some .eps2
    | .eps1 => none
  else if arc1.olabel = epsilon then
    if filter.fs = .default then some .default else none
  else some .default

end MatchComposeFilter

def matchFilter (fst1 fst2 : VectorFst L W) : ArcFilter L W := fun tuple =>
  (MatchComposeFilter.setState fst1 fst2 tuple.s1 tuple.s2 tuple.fs).filterArc

variable [One W] [Mul W]

/- `match_arc`, through any filter. -/
def matchArcThrough (matcher1 matcher2 : SortedMatcher L W)
    (filterArc : Arc L W → Arc L W → Option CharFilterState) (s1 s2 : ℕ) (matchInput : Bool)
    (acc : List ComposeStateTuple × List (Arc L W)) (arc : Arc L W) :
    List ComposeStateTuple × List (Arc L W) :=
  let label := if matchInput then arc.olabel else arc.ilabel
  let found := if matchInput then matcher2.find s2 label else matcher1.find s1 label
  found.foldl (fun (states, arcs) other =>
    let (arc1, arc2) := if matchInput then (arc, other) else (other, arc)
    match filterArc arc1 arc2 with
    | none => (states, arcs)
    | some fs =>
      let (next, states) := BiTable.findId states ⟨arc1.nextstate, arc2.nextstate, fs⟩
      (states, arcs ++ [⟨arc1.ilabel, arc2.olabel, arc1.weight * arc2.weight, next⟩])) acc

def composeStepThrough (filter : ArcFilter L W) (matcher1 matcher2 : SortedMatcher L W)
    (matchInput : ComposeStateTuple → Bool) (l : ComposeLoop L W) : Option (ComposeLoop L W) :=
  match l.pending with
  | [] => none
  | state :: pending =>
    let tuple := l.states.getD state ⟨0, 0, .default⟩
    let ofst := composeFinal matcher1.fst matcher2.fst tuple state l.ofst
    let side := matchInput tuple
    let (states, arcs) := (walkedArcs matcher1 matcher2 tuple.s1 tuple.s2 side).foldl
      (matchArcThrough matcher1 matcher2 (filter tuple) tuple.s1 tuple.s2 side) (l.states, [])
    let ofst := ofst.growTo states.length
    some (arcs.foldl (composeAddArc state) ⟨states, pending, l.done, ofst⟩)

/- `compose_with`, through any filter: all of them let every final state finish, and start at
`default`. -/
def composeThrough (filter : ArcFilter L W) (fuel : ℕ) (matcher1 matcher2 : SortedMatcher L W)
    (matchInput : ComposeStateTuple → Bool) (ofst : VectorFst L W) : Option (VectorFst L W) :=
  let ofst := ofst.deleteAllStates
  let props := composeProperties (matcher1.fst.properties &&& kFstProperties)
    (matcher2.fst.properties &&& kFstProperties)
  match matcher1.fst.start, matcher2.fst.start with
  | some start1, some start2 =>
    let (start, states) := BiTable.findId [] ⟨start1, start2, .default⟩
    let ofst := ofst.addState.setStart (some start)
    (Loop.runLoop (composeStepThrough filter matcher1 matcher2 matchInput) fuel
      ⟨states, [start], {start}, ofst⟩).map fun l => l.ofst.setProperties props kFstProperties
  | _, _ => some (ofst.setProperties props kFstProperties)

inductive ComposeFilterKind where
  | sequence
  | altSequence
  | matching
  deriving DecidableEq

def ComposeFilterKind.filter (fst1 fst2 : VectorFst L W) : ComposeFilterKind → ArcFilter L W
  | .sequence => sequenceFilter fst1
  | .altSequence => altSequenceFilter fst2
  | .matching => matchFilter fst1 fst2

/- `compose_with` through one of the three filters, on copies the matchers can search. -/
def composeBy (kind : ComposeFilterKind) (fuel : ℕ) (fst1 fst2 ofst : VectorFst L W)
    (matchInput : ComposeStateTuple → Bool) : Option (VectorFst L W) :=
  let left := sortedCopy fst1 true
  let right := sortedCopy fst2 false
  composeThrough (kind.filter left right) fuel ⟨left, true⟩ ⟨right, false⟩ matchInput ofst

/- The composition through the sequence filter is the one above. -/
theorem composeWith_eq (fuel : ℕ) (matcher1 matcher2 : SortedMatcher L W)
    (matchInput : ComposeStateTuple → Bool) (ofst : VectorFst L W) :
    composeWith fuel matcher1 matcher2 matchInput ofst =
      composeThrough (sequenceFilter matcher1.fst) fuel matcher1 matcher2 matchInput ofst := rfl

end Filters

end Sicada
