import Sicada.Library.Cursor
import Sicada.VectorFst

namespace Sicada.Matcher

open Cursor

variable {L W : Type} [ArcLabel L]

/- The label of an arc on the side that is matched. -/
def matchedLabel (matchType : MatchType) (arc : Arc L W) : L :=
  if matchType = .input then arc.ilabel else arc.olabel

/- The implicit self-loop of a state. -/
def loopArc [One W] (matchType : MatchType) (state : ℕ) : Arc L W :=
  if matchType = .input then ⟨noLabel, epsilon, 1, state⟩ else ⟨epsilon, noLabel, 1, state⟩

structure SortedMatcher (L W : Type) where
  fst : VectorFst L W
  matchType : MatchType
  state : Option ℕ
  arcs : List (Arc L W)
  pos : ℕ
  stop : ℕ
  loopArc : Arc L W
  currentLoop : Bool
  matchLabel : L
  exactMatch : Bool
  error : Bool

namespace SortedMatcher

section Calls

variable (matcher : SortedMatcher L W)

def new [One W] (fst : VectorFst L W) (matchType : MatchType) (noState : ℕ) :
    Except OpenFstError (SortedMatcher L W) :=
  if matchType ≠ .input ∧ matchType ≠ .output then
    .error (.matcherInvalidMatchType "SortedMatcher" matchType)
  else .ok ⟨fst, matchType, none, [], 0, 0, Matcher.loopArc matchType noState, false, noLabel, true,
    false⟩

def setState (state : ℕ) : SortedMatcher L W :=
  if matcher.state = some state then matcher
  else { matcher with
    state := some state
    arcs := matcher.fst.arcs state
    loopArc := { matcher.loopArc with nextstate := state } }

/- Where the arcs end of which `p` holds, which come first. -/
def partitionPoint (p : Arc L W → Bool) (arcs : List (Arc L W)) : ℕ := (arcs.takeWhile p).length

def search : SortedMatcher L W :=
  let start := partitionPoint
    (fun arc => matchedLabel matcher.matchType arc < matcher.matchLabel) matcher.arcs
  if matcher.exactMatch then
    { matcher with
      pos := start
      stop := start + partitionPoint
        (fun arc => matchedLabel matcher.matchType arc ≤ matcher.matchLabel)
        (matcher.arcs.drop start) }
  else { matcher with pos := start, stop := matcher.arcs.length }

def find (label : L) : Bool × SortedMatcher L W :=
  if matcher.error then
    (false, { matcher with exactMatch := true, currentLoop := false, matchLabel := noLabel })
  else
    let found := search { matcher with
      exactMatch := true
      currentLoop := label = epsilon
      matchLabel := if label = noLabel then epsilon else label }
    (found.pos < found.stop || found.currentLoop, found)

def done : Option Bool :=
  if matcher.currentLoop then some false
  else if matcher.stop ≤ matcher.pos then some true
  else if !matcher.exactMatch then some false
  else matcher.arcs[matcher.pos]?.map fun arc =>
    matchedLabel matcher.matchType arc ≠ matcher.matchLabel

def value : Option (Arc L W) :=
  if matcher.currentLoop then some matcher.loopArc else matcher.arcs[matcher.pos]?

def next : SortedMatcher L W :=
  if matcher.currentLoop then { matcher with currentLoop := false }
  else { matcher with pos := matcher.pos + 1 }

def priority (state : ℕ) : ℤ := matcher.fst.numArcs state

end Calls

/- A copy shares nothing but the FST. -/
def handle : Handle ℕ L (Arc L W) (SortedMatcher L W) where
  setState state matcher := matcher.setState state
  share _ matcher := matcher
  find label matcher := some (matcher.find label)
  done := done
  value := value
  next := next
  priority state matcher := matcher.priority state

end SortedMatcher

/- `stateTable` is shared between copies: by state, the arcs of each label. -/
structure HashMatcher (L W : Type) where
  fst : VectorFst L W
  matchType : MatchType
  state : Option ℕ
  stateTable : ℕ → Option (L → Option (List (Arc L W)))
  loopArc : Arc L W
  currentLoop : Bool
  currentMatches : Option (List (Arc L W))
  pos : ℕ

namespace HashMatcher

section Calls

variable (matcher : HashMatcher L W)

def new [One W] (fst : VectorFst L W) (matchType : MatchType) (noState : ℕ) :
    Except OpenFstError (HashMatcher L W) :=
  if matchType ≠ .input ∧ matchType ≠ .output then
    .error (.matcherInvalidMatchType "HashMatcher" matchType)
  else .ok ⟨fst, matchType, none, fun _ => none, Matcher.loopArc matchType noState, false, none, 0⟩

/- One arc more under its label. -/
def pushArc (matchType : MatchType) (table : L → Option (List (Arc L W))) (arc : Arc L W) :
    L → Option (List (Arc L W)) :=
  Function.update table (matchedLabel matchType arc)
    (some ((table (matchedLabel matchType arc)).getD [] ++ [arc]))

def labelTable (matchType : MatchType) (arcs : List (Arc L W)) : L → Option (List (Arc L W)) :=
  arcs.foldl (pushArc matchType) fun _ => none

/- The table with an entry for a state, which is made if there is none. -/
def fill (state : ℕ) : HashMatcher L W :=
  match matcher.stateTable state with
  | some _ => matcher
  | none => { matcher with
      stateTable := Function.update matcher.stateTable state
        (some (labelTable matcher.matchType (matcher.fst.arcs state))) }

def setState (state : ℕ) : HashMatcher L W :=
  if matcher.state = some state then matcher
  else fill { matcher with
      state := some state
      loopArc := { matcher.loopArc with nextstate := state } } state

def find (label : L) : Option (Bool × HashMatcher L W) :=
  let currentLoop : Bool := label = epsilon
  let matchLabel := if label = noLabel then epsilon else label
  matcher.state.map fun state =>
    match (matcher.stateTable state).bind fun table => table matchLabel with
    | some arcs =>
      (true, { matcher with currentLoop := currentLoop, currentMatches := some arcs, pos := 0 })
    | none =>
      (currentLoop, { matcher with currentLoop := currentLoop, currentMatches := none, pos := 0 })

def done : Bool :=
  if matcher.currentLoop then false
  else
    match matcher.currentMatches with
    | some arcs => arcs.length ≤ matcher.pos
    | none => true

def value : Option (Arc L W) :=
  if matcher.currentLoop then some matcher.loopArc
  else matcher.currentMatches.bind fun arcs => arcs[matcher.pos]?

def next : HashMatcher L W :=
  if matcher.currentLoop then { matcher with currentLoop := false }
  else { matcher with pos := matcher.pos + 1 }

def priority (state : ℕ) : ℤ := matcher.fst.numArcs state

end Calls

/- What a copy does to the table is seen. -/
def handle : Handle ℕ L (Arc L W) (HashMatcher L W) where
  setState state matcher := matcher.setState state
  share state matcher := matcher.fill state
  find label matcher := matcher.find label
  done matcher := some matcher.done
  value := value
  next := next
  priority state matcher := matcher.priority state

end HashMatcher

end Sicada.Matcher
