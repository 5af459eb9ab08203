import Sicada.Replace
import Sicada.Runs
import Sicada.TopSort

namespace Sicada

open DfsVisit CcVisitors

/- A map of counts, its entries in an order that is the map's own. -/
abbrev CountMap := List (ℕ × ℕ)

namespace CountMap

/- A count that is not there yet starts from zero. -/
def bump (key n : ℕ) : CountMap → CountMap
  | [] => [(key, n)]
  | (k, count) :: m => if k = key then (k, count + n) :: m else (k, count) :: bump key n m

def remove (m : CountMap) (key : ℕ) : CountMap := m.filter fun entry => entry.1 ≠ key

end CountMap

structure ReplaceStats where
  nstates : ℕ
  nfinal : ℕ
  narcs : ℕ
  nnonterms : ℕ
  nref : ℕ
  inref : CountMap
  outref : CountMap
deriving Inhabited, DecidableEq

/- The call graph has one state for each FST and one arc for each call. -/
structure Dependencies (L W : Type) where
  graph : VectorFst L W
  scc : List ℕ
  access : ℕ → Bool
  props : BitVec 64
  stats : Option (List ReplaceStats)
  sccProps : Option (List (BitVec 8))

/- The FSTs by index, each with the non-terminal naming it; `none` is one that was dropped. -/
structure ReplaceUtil (L W : Type) where
  fsts : List (L × Option (VectorFst L W))
  root : ℕ
  opts : ReplaceOptions L
  deps : Option (Dependencies L W)

variable {L W : Type} [ArcLabel L]

/- The map of the labels, in which a later FST takes the place of an earlier one. -/
def indexOf (labels : List L) (label : L) : Option ℕ :=
  labels.zipIdx.foldl (fun found entry => if entry.1 = label then some entry.2 else found) none

namespace ReplaceUtil

def new [ToString L] (pairs : List (L × VectorFst L W)) (opts : ReplaceOptions L) :
    Except OpenFstError (ReplaceUtil L W) :=
  match indexOf (pairs.map (·.1)) opts.root with
  | none => .error (.invalidOperation
      ("ReplaceUtil: no FST for the root label " ++ toString opts.root))
  | some root => .ok ⟨pairs.map fun pair => (pair.1, some pair.2), root, opts, none⟩

section Calls

variable (util : ReplaceUtil L W)

def labels : List L := util.fsts.map (·.1)

def labelAt (index : ℕ) : L := util.labels.getD index epsilon

def fstAt (index : ℕ) : Option (VectorFst L W) := util.fsts[index]?.bind (·.2)

def setFst (index : ℕ) (fst : VectorFst L W) : ReplaceUtil L W :=
  { util with fsts := util.fsts.modify index fun entry => (entry.1, some fst) }

/- The FST an output label calls. Epsilon is never a call. -/
def calledFst (olabel : L) : Option ℕ :=
  if olabel = epsilon then none else indexOf util.labels olabel

/- The calls of an FST in the order of its arcs, each with the FST it names. -/
def calls (fst : VectorFst L W) : List (L × ℕ) :=
  (fst.states.flatMap (·.arcs)).filterMap fun arc =>
    (util.calledFst arc.olabel).map fun callee => (arc.olabel, callee)

end Calls

section Graph

variable [Zero W] [One W] [DecidableEq W] (util : ReplaceUtil L W)

/- A state for each FST, each a place where the walk may stop. -/
def emptyGraph (n root : ℕ) : VectorFst L W :=
  ((List.range n).foldl (fun graph state => graph.addState.setFinal state 1)
    VectorFst.new).setStart (some root)

def addCalls (graph : VectorFst L W) (entry : (L × Option (VectorFst L W)) × ℕ) : VectorFst L W :=
  match entry.1.2 with
  | none => graph
  | some fst => (util.calls fst).foldl
      (fun graph call => graph.addArc entry.2 ⟨call.1, call.1, 1, call.2⟩) graph

def buildGraph : VectorFst L W :=
  util.fsts.zipIdx.foldl util.addCalls (emptyGraph util.fsts.length util.root)

def countCall (caller : ℕ) (stats : List ReplaceStats) (callee : ℕ) : List ReplaceStats :=
  let stats := stats.modify caller fun s => { s with nnonterms := s.nnonterms + 1 }
  let stats := stats.modify callee fun s =>
    { s with nref := s.nref + 1, inref := CountMap.bump caller 1 s.inref }
  stats.modify caller fun s => { s with outref := CountMap.bump callee 1 s.outref }

def countFst (stats : List ReplaceStats) (entry : (L × Option (VectorFst L W)) × ℕ) :
    List ReplaceStats :=
  match entry.1.2 with
  | none => stats
  | some fst => (util.calls fst).foldl (fun stats call => countCall entry.2 stats call.2)
      (stats.modify entry.2 fun s =>
        { s with
          nstates := s.nstates + fst.numStates
          nfinal := s.nfinal + fst.states.countP fun state => state.finalWeight ≠ 0
          narcs := s.narcs + (fst.states.map (·.arcs.length)).sum })

def buildStats : List ReplaceStats :=
  util.fsts.zipIdx.foldl util.countFst (List.replicate util.fsts.length default)

variable (isMember : W → Bool)

def buildDependencies (wantStats : Bool) : Dependencies L W :=
  let graph := util.buildGraph
  let visitor := dfsVisitAny graph (sccVisitor isMember false graph) (SccVisitor.new 0)
  { graph := graph
    scc := visitor.components
    access := visitor.access
    props := visitor.building
    stats := if wantStats then some util.buildStats else none
    sccProps := none }

/- The call graph, built if it is not already there. -/
def dependencies (stats : Bool) : Dependencies L W :=
  match util.deps with
  | some deps =>
    if stats && deps.stats.isNone then util.buildDependencies isMember stats else deps
  | none => util.buildDependencies isMember stats

def withDependencies (stats : Bool) : ReplaceUtil L W :=
  { util with deps := some (util.dependencies isMember stats) }

/- Whether the calls recurse. -/
def cyclicDependencies : Bool × ReplaceUtil L W :=
  let deps := util.dependencies isMember false
  (deps.props &&& kCyclic ≠ 0, { util with deps := some deps })

/- The component of the call graph a non-terminal belongs to. -/
def scc (label : L) : Option ℕ × ReplaceUtil L W :=
  match indexOf util.labels label with
  | none => (none, util)
  | some index =>
    let deps := util.dependencies isMember false
    (deps.scc[index]?, { util with deps := some deps })

def usefulProps : BitVec 64 := kAccessible ||| kCoAccessible

/- Whether every FST is reachable from the root and has no useless states. -/
def connected : Bool × ReplaceUtil L W :=
  let util' : ReplaceUtil L W :=
    { util with
      fsts := util.fsts.map fun entry => (entry.1, entry.2.map fun fst =>
        { fst with properties := settledCache isMember fst usefulProps }) }
  let deps := util'.dependencies isMember false
  (util.fsts.zipIdx.all fun entry => entry.1.2.all fun fst =>
      cachedProperties isMember fst usefulProps = usefulProps && deps.access entry.2,
    { util' with deps := some deps })

def connectFst (entry : L × Option (VectorFst L W)) : Option (L × Option (VectorFst L W)) :=
  match entry.2 with
  | none => some entry
  | some fst =>
    if fst.properties &&& usefulProps ≠ usefulProps then
      (fst.connect isMember).map fun fst => (entry.1, some fst)
    else some entry

/- Removes the states, arcs and whole FSTs that no path through the network can use. -/
def connect : Option (ReplaceUtil L W) :=
  (util.fsts.mapM (connectFst isMember)).map fun fsts =>
    let deps := dependencies { util with fsts := fsts } isMember false
    { util with
      fsts := fsts.zipIdx.map fun entry =>
        if deps.access entry.2 then entry.1 else (entry.1.1, none)
      deps := none }

end Graph

/- The states of `fst` in topological order, or the inner `none` if it is cyclic. -/
def topOrder [Zero W] (fst : VectorFst L W) : Option (Option (List ℕ)) :=
  (dfsVisitAny fst topOrderVisitor TopOrderVisitor.new).order.bind fun order =>
    match order with
    | none => some none
    | some order =>
      ((order.zipIdx.foldlM TopOrderVisitor.setPosition (List.replicate order.length 0)).map some)

section Expanding

variable [Zero W] [One W] [DecidableEq W] [ToString L] (isMember : W → Bool) (fuel : ℕ)

/- The calls that are to be expanded. -/
def restrict (wanted : List ℕ) (graph : VectorFst L W) : VectorFst L W :=
  let restricted : VectorFst L W :=
    (List.range graph.numStates).foldl (fun restricted _ => restricted.addState) VectorFst.new
  let restricted := match graph.start with
    | some start => restricted.setStart (some start)
    | none => restricted
  (List.range graph.numStates).foldl (fun restricted state =>
    ((graph.arcs state).filter fun arc => arc.nextstate ∈ wanted).foldl
      (fun restricted arc => restricted.addArc state arc) restricted) restricted

def network (util : ReplaceUtil L W) (callees : List ℕ) : List (L × VectorFst L W) :=
  callees.filterMap fun callee => (util.fstAt callee).map fun fst => (util.labelAt callee, fst)

/- One FST after the other, each with its callees expanded already; the outer `none` is a run that
the fuel has cut off. -/
def expandFsts (restricted : VectorFst L W) :
    List ℕ → ReplaceUtil L W → Option (Except OpenFstError Unit × ReplaceUtil L W)
  | [], util => some (.ok (), { util with deps := none })
  | index :: order, util =>
    let callees := ((restricted.arcs index).map (·.nextstate)).eraseDups
    if callees = [] then expandFsts restricted order util
    else
      match util.fstAt index with
      | none => expandFsts restricted order util
      | some fst =>
        (replace fuel (util.network callees ++ [(util.labelAt index, fst)]) VectorFst.new
          { util.opts with root := util.labelAt index }).bind fun expanded =>
            match expanded with
            | .error message => some (.error (.invalidOperation message), util)
            | .ok expanded => expandFsts restricted order (util.setFst index expanded)

/- Expands the named non-terminals wherever they are called. An error leaves the FSTs expanded so
far in place. -/
def replaceLabels (labels : List L) (util : ReplaceUtil L W) :
    Option (Except OpenFstError Unit × ReplaceUtil L W) :=
  let wanted := (labels.filter fun label => label ≠ util.opts.root).filterMap (indexOf util.labels)
  let deps := util.dependencies isMember false
  let util := { util with deps := some deps }
  let restricted := restrict wanted deps.graph
  (topOrder restricted).bind fun order =>
    match order with
    | none => some (.error (.invalidOperation
        ("ReplaceUtil: the non-terminals to expand call each other, so the expansion has " ++
          "no end")), util)
    | some order => expandFsts fuel restricted order.reverse util

/- A caller takes in a copy of `j` for each of its calls. -/
def absorb (j : ℕ) (target : ReplaceStats) (stats : List ReplaceStats) (call : ℕ × ℕ) :
    List ReplaceStats :=
  stats.modify call.1 fun s =>
    { s with
      nstates := s.nstates + target.nstates * call.2
      narcs := s.narcs + (target.narcs + 1) * call.2
      nnonterms := s.nnonterms + (target.nnonterms - 1) * call.2
      outref := target.outref.foldl (fun m out => CountMap.bump out.1 (call.2 * out.2) m)
        (CountMap.remove s.outref j) }

/- What `j` called is called by its callers instead. -/
def handOn (j : ℕ) (target : ReplaceStats) (stats : List ReplaceStats) (out : ℕ × ℕ) :
    List ReplaceStats :=
  stats.modify out.1 fun s =>
    target.inref.foldl
      (fun s call =>
        { s with
          inref := CountMap.bump call.1 (call.2 * out.2) s.inref
          nref := s.nref + call.2 * out.2 })
      { s with nref := s.nref - out.2, inref := CountMap.remove s.inref j }

/- Folds the effect of expanding FST `j` into the statistics of the FSTs around it. -/
def updateStats (root j : ℕ) (stats : List ReplaceStats) : List ReplaceStats :=
  if j = root then stats
  else
    let target := stats.getD j default
    target.outref.foldl (handOn j target) (target.inref.foldl (absorb j target) stats)

def choose (chosen : ReplaceStats → Bool) (util : ReplaceUtil L W)
    (acc : List L × List ReplaceStats) (index : ℕ) : List L × List ReplaceStats :=
  if chosen (acc.2.getD index default) then
    (acc.1 ++ [util.labelAt index], updateStats util.root index acc.2)
  else acc

/- Expands the FSTs that are chosen on what they will have become when their turn comes. -/
def replaceChosen (arrange : List ℕ → List ℕ) (chosen : ReplaceStats → Bool)
    (util : ReplaceUtil L W) : Option (Except OpenFstError Unit × ReplaceUtil L W) :=
  let deps := util.dependencies isMember true
  (topOrder deps.graph).bind fun order =>
    match order with
    | none => some (.error (.invalidOperation
        "ReplaceUtil: the calls recurse, so nothing can be expanded"),
        { util with deps := some deps })
    | some order =>
      let (labels, stats) := (arrange order).foldl (choose chosen util) ([], deps.stats.getD [])
      replaceLabels isMember fuel labels
        { util with deps := some { deps with stats := some stats } }

def replaceBySize (nstates narcs nnonterms : ℕ) (util : ReplaceUtil L W) :
    Option (Except OpenFstError Unit × ReplaceUtil L W) :=
  replaceChosen isMember fuel List.reverse
    (fun s => s.nstates ≤ nstates && s.narcs ≤ narcs && s.nnonterms ≤ nnonterms) util

def replaceTrivial (util : ReplaceUtil L W) :
    Option (Except OpenFstError Unit × ReplaceUtil L W) :=
  replaceBySize isMember fuel 2 1 1 util

def replaceByInstances (ninstances : ℕ) (util : ReplaceUtil L W) :
    Option (Except OpenFstError Unit × ReplaceUtil L W) :=
  replaceChosen isMember fuel id (fun s => s.nref ≤ ninstances) util

def replaceUnique (util : ReplaceUtil L W) :
    Option (Except OpenFstError Unit × ReplaceUtil L W) :=
  replaceByInstances isMember fuel 1 util

end Expanding

section Components

variable [Zero W] [One W] [DecidableEq W] (isMember : W → Bool) (util : ReplaceUtil L W)

def replaceSccLeftLinear : BitVec 8 := 1

def replaceSccRightLinear : BitVec 8 := 2

def replaceSccNonTrivial : BitVec 8 := 4

/- An FST that calls itself makes its component non-trivial. -/
def markSelfCall (scc : List ℕ) (state : ℕ) (sccProps : List (BitVec 8)) (arc : Arc L W) :
    List (BitVec 8) :=
  if arc.nextstate = state then
    sccProps.modify (scc.getD state 0) (· ||| replaceSccNonTrivial)
  else sccProps

/- A call within the component is at the front of its paths if it leaves the start, and at their
end if it leads to a final state, unless it is on a cycle. -/
def markCall (fst : VectorFst L W) (inner scc : List ℕ) (own state : ℕ)
    (sccProps : List (BitVec 8)) (arc : Arc L W) : List (BitVec 8) :=
  match util.calledFst arc.olabel with
  | none => sccProps
  | some callee =>
    if scc.getD callee 0 ≠ own then sccProps
    else
      let onACycle := match inner[state]?, inner[arc.nextstate]? with
        | some first, some last => decide (first = last)
        | _, _ => false
      let sccProps :=
        if fst.start ≠ some state || onACycle then
          sccProps.modify own (· &&& ~~~replaceSccLeftLinear)
        else sccProps
      if fst.finalWeight arc.nextstate = 0 || onACycle then
        sccProps.modify own (· &&& ~~~replaceSccRightLinear)
      else sccProps

/- A second FST in a component makes it non-trivial. -/
def markFst (scc : List ℕ) (acc : List Bool × List (BitVec 8))
    (entry : (L × Option (VectorFst L W)) × ℕ) : List Bool × List (BitVec 8) :=
  match entry.1.2 with
  | none => acc
  | some fst =>
    let own := scc.getD entry.2 0
    let sccProps :=
      if acc.1.getD own false then acc.2.modify own (· ||| replaceSccNonTrivial) else acc.2
    let inner := (dfsVisitAny fst (sccVisitor isMember false fst) (SccVisitor.new 0)).components
    (acc.1.set own true, (List.range fst.numStates).foldl (fun sccProps state =>
      (fst.arcs state).foldl (util.markCall fst inner scc own state) sccProps) sccProps)

def sccPropsOf (deps : Dependencies L W) : List (BitVec 8) :=
  let nscc := deps.scc.foldl max 0 + 1
  let sccProps := List.replicate nscc (replaceSccLeftLinear ||| replaceSccRightLinear)
  if deps.props &&& kCyclic = 0 then sccProps
  else
    let sccProps := (List.range deps.graph.numStates).foldl (fun sccProps state =>
      (deps.graph.arcs state).foldl (markSelfCall deps.scc state) sccProps) sccProps
    (util.fsts.zipIdx.foldl (util.markFst isMember deps.scc)
      (List.replicate nscc false, sccProps)).2

/- Works out the properties of the components, once. -/
def computeSccProperties : ReplaceUtil L W :=
  if util.deps.any (·.sccProps.isSome) then util
  else
    let deps := util.dependencies isMember false
    if deps.scc = [] then { util with deps := some deps }
    else { util with
      deps := some { deps with sccProps := some (util.sccPropsOf isMember deps) } }

/- What is known about a component of the call graph. -/
def sccProperties (scc : ℕ) : BitVec 8 × ReplaceUtil L W :=
  let util := util.computeSccProperties isMember
  (((util.deps.bind (·.sccProps)).bind (·[scc]?)).getD 0, util)

end Components

end ReplaceUtil

inductive ReplaceUtilOp (L : Type) where
  | cyclicDependencies
  | scc (label : L)
  | sccProperties (scc : ℕ)
  | connected
  | connect
  | replaceLabels (labels : List L)
  | replaceBySize (nstates narcs nnonterms : ℕ)
  | replaceTrivial
  | replaceByInstances (ninstances : ℕ)
  | replaceUnique

/- What an operation leaves; `none` is a panic, or a run that the fuel has cut off. -/
def ReplaceUtilOp.apply [Zero W] [One W] [DecidableEq W] [ToString L] (isMember : W → Bool)
    (fuel : ℕ) : ReplaceUtilOp L → ReplaceUtil L W → Option (ReplaceUtil L W)
  | .cyclicDependencies, util => some (util.cyclicDependencies isMember).2
  | .scc label, util => some (util.scc isMember label).2
  | .sccProperties component, util => some (util.sccProperties isMember component).2
  | .connected, util => some (util.connected isMember).2
  | .connect, util => util.connect isMember
  | .replaceLabels labels, util => (util.replaceLabels isMember fuel labels).map (·.2)
  | .replaceBySize nstates narcs nnonterms, util =>
    (util.replaceBySize isMember fuel nstates narcs nnonterms).map (·.2)
  | .replaceTrivial, util => (util.replaceTrivial isMember fuel).map (·.2)
  | .replaceByInstances ninstances, util =>
    (util.replaceByInstances isMember fuel ninstances).map (·.2)
  | .replaceUnique, util => (util.replaceUnique isMember fuel).map (·.2)

end Sicada
