import Sicada.DfsVisit

namespace Sicada

namespace CcVisitors

open DfsVisit

variable {L W : Type} [ArcLabel L] [Zero W] [DecidableEq W]

/- `len` is how far the vectors and the bit sets have been grown; past it they hold what a new
entry holds. -/
structure SccVisitor where
  scc : ℕ → Option ℕ
  access : ℕ → Bool
  coaccess : ℕ → Bool
  len : ℕ
  building : BitVec 64
  nstates : ℕ
  nscc : ℕ
  dfnumber : ℕ → ℕ
  lowlink : ℕ → ℕ
  onstack : ℕ → Bool
  sccStack : List ℕ

namespace SccVisitor

def new (props : BitVec 64) : SccVisitor :=
  ⟨fun _ => none, fun _ => false, fun _ => false, 0, props, 0, 0, fun _ => 2 ^ 32 - 1,
    fun _ => 2 ^ 32 - 1, fun _ => false, []⟩

def initVisit (wantCoaccess : Bool) (v : SccVisitor) : SccVisitor :=
  let building := (v.building ||| (kAcyclic ||| kInitialAcyclic ||| kAccessible)) &&&
    ~~~(kCyclic ||| kInitialCyclic ||| kNotAccessible)
  new (if wantCoaccess then (building ||| kCoAccessible) &&& ~~~kNotCoAccessible else building)

def initState (start : Option ℕ) (s root : ℕ) (v : SccVisitor) : Bool × SccVisitor :=
  let accessed : Bool := some root = start
  (true, { v with
    sccStack := s :: v.sccStack
    len := max v.len (s + 1)
    dfnumber := Function.update v.dfnumber s v.nstates
    lowlink := Function.update v.lowlink s v.nstates
    onstack := Function.update v.onstack s true
    access := Function.update v.access s accessed
    building := if accessed then v.building
      else (v.building ||| kNotAccessible) &&& ~~~kAccessible
    nstates := v.nstates + 1 })

def lower (s low : ℕ) (v : SccVisitor) : SccVisitor :=
  { v with lowlink := Function.update v.lowlink s low }

/- A state one arc away from a state that can reach a final state can do so too. -/
def passCoaccess (wantCoaccess : Bool) (s t : ℕ) (v : SccVisitor) : SccVisitor :=
  if wantCoaccess ∧ v.coaccess t then { v with coaccess := Function.update v.coaccess s true }
  else v

def backArc (start : Option ℕ) (wantCoaccess : Bool) (s t : ℕ) (v : SccVisitor) :
    Bool × SccVisitor :=
  let v := if v.dfnumber t < v.lowlink s then v.lower s (v.dfnumber t) else v
  let v := v.passCoaccess wantCoaccess s t
  let building := (v.building ||| kCyclic) &&& ~~~kAcyclic
  (true, { v with
    building := if some t = start then (building ||| kInitialCyclic) &&& ~~~kInitialAcyclic
      else building })

def forwardOrCrossArc (wantCoaccess : Bool) (s t : ℕ) (v : SccVisitor) : Bool × SccVisitor :=
  let v := if v.dfnumber t < v.dfnumber s ∧ v.onstack t ∧ v.dfnumber t < v.lowlink s then
    v.lower s (v.dfnumber t) else v
  (true, v.passCoaccess wantCoaccess s t)

/- The states above `s` on the stack and `s` itself, and what lies below. -/
def splitStack (s : ℕ) : List ℕ → List ℕ × List ℕ
  | [] => ([], [])
  | t :: stack =>
    if s = t then ([t], stack)
    else (t :: (splitStack s stack).1, (splitStack s stack).2)

def closeComponent (wantCoaccess : Bool) (s : ℕ) (v : SccVisitor) : SccVisitor :=
  let component := (splitStack s v.sccStack).1
  let sccCoaccess := wantCoaccess && component.any v.coaccess
  { v with
    scc := fun t => if t ∈ component then some v.nscc else v.scc t
    coaccess := fun t => v.coaccess t || (sccCoaccess && decide (t ∈ component))
    onstack := fun t => v.onstack t && decide (t ∉ component)
    sccStack := (splitStack s v.sccStack).2
    building := if wantCoaccess && !sccCoaccess then
      (v.building ||| kNotCoAccessible) &&& ~~~kCoAccessible else v.building
    nscc := v.nscc + 1 }

def finalCoaccess (isMember : W → Bool) (wantCoaccess : Bool) (fst : VectorFst L W) (s : ℕ)
    (v : SccVisitor) : SccVisitor :=
  if wantCoaccess ∧ isMember (fst.finalWeight s) ∧ fst.finalWeight s ≠ 0 then
    { v with coaccess := Function.update v.coaccess s true }
  else v

def closeRoot (wantCoaccess : Bool) (s : ℕ) (v : SccVisitor) : SccVisitor :=
  if v.dfnumber s = v.lowlink s then v.closeComponent wantCoaccess s else v

def finishParent (wantCoaccess : Bool) (s p : ℕ) (v : SccVisitor) : SccVisitor :=
  let v := v.passCoaccess wantCoaccess p s
  if v.lowlink s < v.lowlink p then v.lower p (v.lowlink s) else v

def finishState (isMember : W → Bool) (wantCoaccess : Bool) (fst : VectorFst L W) (s : ℕ)
    (parent : Option (ℕ × Arc L W)) (v : SccVisitor) : SccVisitor :=
  let v := (v.finalCoaccess isMember wantCoaccess fst s).closeRoot wantCoaccess s
  match parent with
  | some (p, _) => v.finishParent wantCoaccess s p
  | none => v

/- Numbers the components in topological order. -/
def finishVisit (v : SccVisitor) : SccVisitor :=
  { v with scc := fun s => (v.scc s).map fun c => v.nscc - 1 - c }

end SccVisitor

/- Tarjan's components, and the states on the way from the start to a final state. -/
def sccVisitor (isMember : W → Bool) (wantCoaccess : Bool) (fst : VectorFst L W) :
    DfsVisitor L W SccVisitor where
  initVisit := SccVisitor.initVisit wantCoaccess
  initState := SccVisitor.initState fst.start
  treeArc _ _ v := (true, v)
  backArc s arc := SccVisitor.backArc fst.start wantCoaccess s arc.nextstate
  forwardOrCrossArc s arc := SccVisitor.forwardOrCrossArc wantCoaccess s arc.nextstate
  finishState := SccVisitor.finishState isMember wantCoaccess fst
  finishVisit := SccVisitor.finishVisit

end CcVisitors

end Sicada

namespace Sicada

open DfsVisit CcVisitors

variable {L W : Type} [ArcLabel L] [Zero W] [DecidableEq W]

namespace VectorFst

/- The start and the arcs lead to states there are. -/
structure InRange (fst : VectorFst L W) : Prop where
  start : ∀ s, fst.start = some s → s < fst.numStates
  arcs : ∀ s, ∀ arc ∈ fst.arcs s, arc.nextstate < fst.numStates

/- The states on no way from the start to a final state. -/
def uselessStates (isMember : W → Bool) (fst : VectorFst L W) : List ℕ :=
  let visitor := dfsVisitAny fst (sccVisitor isMember true fst) (SccVisitor.new 0)
  (List.range fst.numStates).filter fun s => !visitor.access s || !visitor.coaccess s

/- `none` is an arc or a start to a state there is not, an index out of bounds. -/
def connect (isMember : W → Bool) (fst : VectorFst L W) : Option (VectorFst L W) :=
  (fst.deleteStates (fst.uselessStates isMember)).map fun fst =>
    fst.setProperties (kAccessible ||| kCoAccessible) (kAccessible ||| kCoAccessible)

end VectorFst

end Sicada
