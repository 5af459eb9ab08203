import Sicada.ArcMap
import Sicada.Compose

namespace Sicada

/- A label type with room for a label that stands for every other. -/
class RhoLabel (L : Type) extends ArcLabel L where
  rhoLabel : L
  rhoLabel_ne_epsilon : rhoLabel ≠ epsilon
  rhoLabel_ne_noLabel : rhoLabel ≠ noLabel

export RhoLabel (rhoLabel)

instance : RhoLabel ℤ where
  rhoLabel := -2
  rhoLabel_ne_epsilon := by decide
  rhoLabel_ne_noLabel := by decide

def requirePriority : ℤ := -1

variable {L W : Type} [RhoLabel L]

/- A matcher that finds the arcs of a state by a table of their labels. -/
structure HashMatcher (L W : Type) where
  arcs : ℕ → List (Arc L W)
  byOutput : Bool

namespace HashMatcher

variable (matcher : HashMatcher L W)

def extractLabel (arc : Arc L W) : L := if matcher.byOutput then arc.olabel else arc.ilabel

def loopArc [One W] (state : ℕ) : Arc L W :=
  if matcher.byOutput then ⟨epsilon, noLabel, 1, state⟩ else ⟨noLabel, epsilon, 1, state⟩

def find [One W] (state : ℕ) (label : L) : List (Arc L W) :=
  let matchLabel := if label = noLabel then epsilon else label
  let found := (matcher.arcs state).filter fun arc => matcher.extractLabel arc = matchLabel
  if label = epsilon then matcher.loopArc state :: found else found

def priority (state : ℕ) : ℤ := (matcher.arcs state).length

end HashMatcher

def rewriteArc (arc : Arc L W) (implicitLabel matched : L) (rewriteBoth byOutput : Bool) :
    Arc L W :=
  if rewriteBoth then
    ⟨if arc.ilabel = implicitLabel then matched else arc.ilabel,
      if arc.olabel = implicitLabel then matched else arc.olabel, arc.weight, arc.nextstate⟩
  else if byOutput then { arc with olabel := matched }
  else { arc with ilabel := matched }

/- A matcher for which an arc labelled `rhoLabel` stands for every label the state has no arc of
its own for. -/
structure RhoMatcher (L W : Type) where
  matcher : HashMatcher L W
  rhoLabel : L
  rewriteBoth : Bool

namespace RhoMatcher

def newWithOptions (matcher : HashMatcher L W) (rhoLabel : L) (rewriteBoth : Bool) :
    Except OpenFstError (RhoMatcher L W) :=
  if rhoLabel = epsilon then
    .error (.matcherInvalidConfiguration "RhoMatcher"
      "epsilon cannot be used as the rho label")
  else .ok ⟨matcher, rhoLabel, rewriteBoth⟩

variable [One W] (matcher : RhoMatcher L W)

def find (state : ℕ) (label : L) : List (Arc L W) :=
  if label = matcher.rhoLabel ∧ matcher.rhoLabel ≠ noLabel then []
  else
    let found := matcher.matcher.find state label
    if ¬ found.isEmpty then found
    else if matcher.rhoLabel ≠ noLabel ∧ label ≠ epsilon ∧ label ≠ noLabel then
      (matcher.matcher.find state matcher.rhoLabel).map fun arc =>
        rewriteArc arc matcher.rhoLabel label matcher.rewriteBoth matcher.matcher.byOutput
    else []

def priority (state : ℕ) : ℤ :=
  if matcher.rhoLabel = noLabel then matcher.matcher.priority state
  else if ¬ (matcher.matcher.find state matcher.rhoLabel).isEmpty then requirePriority
  else matcher.matcher.priority state

end RhoMatcher

def requiredProperties : BitVec 64 := kAcceptor ||| kIDeterministic ||| kNoEpsilons ||| kUnweighted

/- State 0 is where everything goes that `fst` has no arc for; the states of `fst` come after. -/
structure ComplementFst (L W : Type) where
  fst : VectorFst L W
  properties : BitVec 64

namespace ComplementFst

section New

variable [Zero W] [One W] [DecidableEq W]

def new (fst : VectorFst L W) : Except OpenFstError (ComplementFst L W) :=
  let (actualProps, fst) := fst.testedProperties requiredProperties
  if actualProps &&& requiredProperties ≠ requiredProperties then
    .error (.invalidOperation
      "ComplementFst: Argument not an unweighted epsilon-free deterministic acceptor")
  else .ok ⟨fst, complementProperties (fst.properties &&& kILabelSorted)⟩

variable (complement : ComplementFst L W)

def isError : Bool :=
  complement.fst.properties &&& kError ≠ 0 || complement.properties &&& kError ≠ 0

def start : Option ℕ :=
  if complement.isError then none
  else some (match complement.fst.start with
    | some s => s + 1
    | none => 0)

def finalWeight (s : ℕ) : W := if s = 0 ∨ complement.fst.finalWeight (s - 1) = 0 then 1 else 0

def arcs (s : ℕ) : List (Arc L W) :=
  ⟨rhoLabel, rhoLabel, 1, 0⟩ ::
    if s = 0 then []
    else (complement.fst.arcs (s - 1)).map fun arc => { arc with nextstate := arc.nextstate + 1 }

end New

end ComplementFst

variable [Zero W] [One W] [Mul W] [DecidableEq W]

/- The side the match is made on at a pair of states: a matcher that requires it comes first. -/
def matchOnInput (matcher1 : SortedMatcher L W) (matcher2 : RhoMatcher L W)
    (tuple : ComposeStateTuple) : Except OpenFstError Bool :=
  let priority1 : ℤ := matcher1.priority tuple.s1
  let priority2 := matcher2.priority tuple.s2
  if priority1 = requirePriority ∧ priority2 = requirePriority then
    .error (.invalidOperation "Compose: both sides require the match to be made on them")
  else if priority1 = requirePriority then .ok false
  else if priority2 = requirePriority then .ok true
  else .ok (priority1 ≤ priority2)

namespace ComplementFst

variable (complement : ComplementFst L W) (matcher1 : SortedMatcher L W)
  (matcher2 : RhoMatcher L W)

/- `match_arc` with the complement on the second side. -/
def matchArc (filter : SequenceComposeFilter) (s1 s2 : ℕ) (matchInput : Bool)
    (acc : List ComposeStateTuple × List (Arc L W)) (arc : Arc L W) :
    List ComposeStateTuple × List (Arc L W) :=
  let label := if matchInput then arc.olabel else arc.ilabel
  let found := if matchInput then matcher2.find s2 label else matcher1.find s1 label
  found.foldl (fun (states, arcs) other =>
    let (arc1, arc2) := if matchInput then (arc, other) else (other, arc)
    match filter.filterArc arc1 arc2 with
    | none => (states, arcs)
    | some fs =>
      let (next, states) := BiTable.findId states ⟨arc1.nextstate, arc2.nextstate, fs⟩
      (states, arcs ++ [⟨arc1.ilabel, arc2.olabel, arc1.weight * arc2.weight, next⟩])) acc

def walkedArcs (s1 s2 : ℕ) (matchInput : Bool) : List (Arc L W) :=
  if matchInput then ⟨epsilon, noLabel, 1, s1⟩ :: matcher1.fst.arcs s1
  else ⟨noLabel, epsilon, 1, s2⟩ :: complement.arcs s2

def composeFinal (tuple : ComposeStateTuple) (state : ℕ) (ofst : VectorFst L W) :
    VectorFst L W :=
  let final1 := matcher1.fst.finalWeight tuple.s1
  let final2 := complement.finalWeight tuple.s2
  if final1 ≠ 0 ∧ final2 ≠ 0 then
    let weight := final1 * final2
    if weight ≠ 0 then ofst.setFinal state weight else ofst
  else ofst

def composeStep (l : ComposeLoop L W) : Except OpenFstError (Option (ComposeLoop L W)) :=
  match l.pending with
  | [] => .ok none
  | state :: pending =>
    let tuple := l.states.getD state ⟨0, 0, .default⟩
    let ofst := complement.composeFinal matcher1 tuple state l.ofst
    let filter := SequenceComposeFilter.setState matcher1.fst tuple.s1 tuple.fs
    match matchOnInput matcher1 matcher2 tuple with
    | .error e => .error e
    | .ok side =>
      let (states, arcs) := (complement.walkedArcs matcher1 tuple.s1 tuple.s2 side).foldl
        (matchArc matcher1 matcher2 filter tuple.s1 tuple.s2 side) (l.states, [])
      let ofst := ofst.growTo states.length
      .ok (some (arcs.foldl (composeAddArc state) ⟨states, pending, l.done, ofst⟩))

/- `compose_with` of an FST and the complement of another. -/
def composeWith (fuel : ℕ) (ofst : VectorFst L W) : Option (Except OpenFstError (VectorFst L W)) :=
  let ofst := ofst.deleteAllStates
  let props := composeProperties (matcher1.fst.properties &&& kFstProperties)
    (complement.properties &&& kFstProperties)
  match matcher1.fst.start, complement.start with
  | some start1, some start2 =>
    let (start, states) := BiTable.findId [] ⟨start1, start2, .default⟩
    let ofst := ofst.addState.setStart (some start)
    (Loop.tryLoop (complement.composeStep matcher1 matcher2) fuel
      ⟨states, [start], {start}, ofst⟩).map fun run =>
        run.map fun l => l.ofst.setProperties props kFstProperties
  | _, _ => some (.ok (ofst.setProperties props kFstProperties))

end ComplementFst

/- What `fst1` accepts and `fst2` does not. `none` is a run the fuel has cut off. -/
def difference (fuel : ℕ) (isMember : W → Bool) (fst1 fst2 ofst : VectorFst L W) :
    Option (Except OpenFstError (VectorFst L W)) :=
  let (tested1, fst1) := fst1.testedProperties kAcceptor
  if tested1 &&& kAcceptor = 0 then
    some (.error (.invalidOperation "Difference: the 1st argument is not an acceptor"))
  else
    let (tested2, fst2) := fst2.testedProperties requiredProperties
    if tested2 ≠ requiredProperties then
      some (.error (.invalidOperation ("Difference: the 2nd argument is not an unweighted " ++
        "epsilon-free deterministic acceptor, so it cannot be complemented")))
    else
      let left := sortedCopy fst1 true
      match ComplementFst.new fst2 with
      | .error e => some (.error e)
      | .ok complement =>
        match RhoMatcher.newWithOptions ⟨complement.arcs, false⟩ rhoLabel true with
        | .error e => some (.error e)
        | .ok matcher2 =>
          match complement.composeWith ⟨left, true⟩ matcher2 fuel ofst with
          | none => none
          | some (.error e) => some (.error e)
          | some (.ok ofst) => (ofst.connect isMember).map .ok

end Sicada
