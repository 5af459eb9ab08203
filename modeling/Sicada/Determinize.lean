import Sicada.BiTable
import Sicada.Library.Loop
import Sicada.VectorFst

namespace Sicada

variable {L K : Type} [ArcLabel L]

/- The members of a state of the result, each with what is left of its weight. -/
abbrev Subset (K : Type) := List (ℕ × Weight K)

structure Transition (L K : Type) where
  label : L
  member : ℕ
  weight : Weight K

structure DeterminizeLoop (L K : Type) where
  subsets : List (Subset K)
  pending : List ℕ
  ofst : VectorFst L (Weight K)

section Expanding

variable [Zero K] [Add K] [Mul K]

def subsetFinal (fst : VectorFst L (Weight K)) (subset : Subset K) : Weight K :=
  subset.foldl (fun finalWeight entry => finalWeight + entry.2 * fst.finalWeight entry.1) 0

/- Every arc out of every member. -/
def subsetTransitions (fst : VectorFst L (Weight K)) (subset : Subset K) :
    List (Transition L K) :=
  subset.flatMap fun entry => (fst.arcs entry.1).map fun arc =>
    ⟨arc.ilabel, arc.nextstate, entry.2 * arc.weight⟩

/- A stable sort by label and destination. -/
def sortTransitions (transitions : List (Transition L K)) : List (Transition L K) :=
  transitions.insertionSort fun a b =>
    a.label < b.label ∨ (a.label = b.label ∧ a.member ≤ b.member)

/- The runs of transitions that agree in their label. -/
def labelGroups : List (Transition L K) → List (L × List (Transition L K))
  | [] => []
  | t :: transitions =>
    match labelGroups transitions with
    | [] => [(t.label, [t])]
    | (label, destinations) :: groups =>
      if label = t.label then (label, t :: destinations) :: groups
      else (t.label, [t]) :: (label, destinations) :: groups

/- The divisor over every contribution, before duplicates are merged. -/
def arcWeight (divisor : Weight K → Weight K → Weight K) (destinations : List (Transition L K)) :
    Weight K :=
  destinations.foldl (fun weight t => divisor weight t.weight) 0

def mergeDestination (merged : Subset K) (t : Transition L K) : Except String (Subset K) :=
  match merged.getLast? with
  | some (last, weight) =>
    if last = t.member then
      if (weight + t.weight).isMember then .ok (merged.dropLast ++ [(last, weight + t.weight)])
      else .error "Determinize: a subset weight left the semiring"
    else .ok (merged ++ [(t.member, t.weight)])
  | none => .ok (merged ++ [(t.member, t.weight)])

/- What is left of each destination once the arc has taken its weight. Weights are exact, so
that `quantize` changes none. -/
def residualSubset [Divide K] (divisor : Weight K → Weight K → Weight K)
    (destinations : List (Transition L K)) : Except String (Subset K) :=
  (destinations.foldlM mergeDestination []).map fun merged =>
    merged.map fun entry => (entry.1, entry.2.divide (arcWeight divisor destinations))

end Expanding

variable [Zero K] [One K] [DecidableEq K]

def findState (subset : Subset K) (l : DeterminizeLoop L K) : ℕ × DeterminizeLoop L K :=
  let (id, subsets) := BiTable.findId l.subsets subset
  (id, { l with
    subsets := subsets
    pending := if id = l.subsets.length then id :: l.pending else l.pending })

variable [Add K] [Mul K] [Divide K]

def expandGroup (divisor : Weight K → Weight K → Weight K) (maxStates : Option ℕ) (state : ℕ)
    (l : DeterminizeLoop L K) (group : L × List (Transition L K)) :
    Except String (DeterminizeLoop L K) :=
  match residualSubset divisor group.2 with
  | .error e => .error e
  | .ok merged =>
    let (next, l) := findState merged l
    match maxStates.filter fun limit => limit < l.subsets.length with
    | some limit =>
      .error s!"Determinize: more than {limit} states; the FST may not be determinizable"
    | none =>
      let arc := ⟨group.1, group.1, arcWeight divisor group.2, next⟩
      .ok { l with ofst := (l.ofst.growTo l.subsets.length).addArc state arc }

/- One round of the loop: a subset is made final and its arcs are grouped by their label. -/
def determinizeStep (fst : VectorFst L (Weight K)) (divisor : Weight K → Weight K → Weight K)
    (maxStates : Option ℕ) (l : DeterminizeLoop L K) :
    Except String (Option (DeterminizeLoop L K)) :=
  match l.pending with
  | [] => .ok none
  | id :: pending =>
    let subset := l.subsets.getD id []
    let finalWeight := subsetFinal fst subset
    if finalWeight ≠ 0 ∧ ¬ finalWeight.isMember then
      .error "Determinize: a subset's final weight left the semiring"
    else
      let ofst := if finalWeight ≠ 0 then l.ofst.setFinal id finalWeight else l.ofst
      ((labelGroups (sortTransitions (subsetTransitions fst subset))).foldlM
        (expandGroup divisor maxStates id) ⟨l.subsets, pending, ofst⟩).map some

/- `none` is a run that the fuel has cut off. -/
def determinizeFsa (fuel : ℕ) (fst ofst : VectorFst L (Weight K))
    (divisor : Weight K → Weight K → Weight K) (maxStates : Option ℕ) :
    Option (Except String (VectorFst L (Weight K))) :=
  let ofst := ofst.deleteAllStates
  let props := determinizeProperties (fst.properties &&& kFstProperties) true false
  match fst.start with
  | none => some (.ok (ofst.setProperties props kFstProperties))
  | some istart =>
    let (start, l) := findState [(istart, 1)] ⟨[], [], ofst⟩
    let ofst := ofst.addState.setStart (some start)
    (Loop.tryLoop (determinizeStep fst divisor maxStates) fuel { l with ofst := ofst }).map
      fun result => result.map fun l => l.ofst.setProperties props kFstProperties

def defaultCommonDivisor (w1 w2 : Weight K) : Weight K := w1 + w2

end Sicada
