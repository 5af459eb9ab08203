import Sicada.TrinaryProperties
import Sicada.CcVisitors

namespace Sicada

variable {L W : Type} [ArcLabel L] [Zero W] [One W] [DecidableEq W]

def kDfsProperties : BitVec 64 :=
  kCyclic ||| kAcyclic ||| kInitialCyclic ||| kInitialAcyclic ||| kAccessible |||
    kNotAccessible ||| kCoAccessible ||| kNotCoAccessible

def kCycleProperties : BitVec 64 := kDfsProperties ||| kWeightedCycles ||| kUnweightedCycles

def knownProperties (props : BitVec 64) : BitVec 64 :=
  kBinaryProperties ||| (props &&& kTrinaryProperties) |||
    ((props &&& kPosTrinaryProperties) <<< 1) ||| ((props &&& kNegTrinaryProperties) >>> 1)

/- What is recorded of a property once it is met or disproved. -/
def settle (c : Bool) (set clear props : BitVec 64) : BitVec 64 :=
  if c then (props ||| set) &&& ~~~clear else props

/- What the scan of the arcs of one state carries along. -/
structure ArcScan (L W : Type) where
  props : BitVec 64
  prev : Option (Arc L W)
  narcs : ℕ
  ilabels : List L
  olabels : List L

def scanArc (mask : BitVec 64) (scc : List ℕ) (s : ℕ) (scan : ArcScan L W) (arc : Arc L W) :
    ArcScan L W :=
  let checkI : Bool := mask &&& (kIDeterministic ||| kNonIDeterministic) ≠ 0
  let checkO : Bool := mask &&& (kODeterministic ||| kNonODeterministic) ≠ 0
  let props := scan.props
  let props := settle (checkI && arc.ilabel ∈ scan.ilabels) kNonIDeterministic kIDeterministic props
  let props := settle (checkO && arc.olabel ∈ scan.olabels) kNonODeterministic kODeterministic props
  let props := settle (arc.ilabel ≠ arc.olabel) kNotAcceptor kAcceptor props
  let props := settle (arc.ilabel = epsilon ∧ arc.olabel = epsilon) kEpsilons kNoEpsilons props
  let props := settle (arc.ilabel = epsilon) kIEpsilons kNoIEpsilons props
  let props := settle (arc.olabel = epsilon) kOEpsilons kNoOEpsilons props
  let props := settle (scan.prev.any fun prev => arc.ilabel < prev.ilabel) kNotILabelSorted
    kILabelSorted props
  let props := settle (scan.prev.any fun prev => arc.olabel < prev.olabel) kNotOLabelSorted
    kOLabelSorted props
  let weighted : Bool := arc.weight ≠ 1 ∧ arc.weight ≠ 0
  let props := settle weighted kWeighted kUnweighted props
  -- An arc within a component is an arc on a cycle.
  let props := settle (weighted && props &&& kUnweightedCycles ≠ 0 &&
    (scc[s]?.any fun start => scc[arc.nextstate]? = some start)) kWeightedCycles kUnweightedCycles props
  let props := settle (arc.nextstate ≤ s) kNotTopSorted kTopSorted props
  let props := settle (arc.nextstate ≠ s + 1) kNotString kString props
  { props := props
    prev := some arc
    narcs := scan.narcs + 1
    ilabels := if checkI then arc.ilabel :: scan.ilabels else scan.ilabels
    olabels := if checkO then arc.olabel :: scan.olabels else scan.olabels }

def scanState (fst : VectorFst L W) (mask : BitVec 64) (scc : List ℕ) (scan : BitVec 64 × ℕ)
    (s : ℕ) : BitVec 64 × ℕ :=
  let arcs := (fst.arcs s).foldl (scanArc mask scc s) ⟨scan.1, none, 0, [], []⟩
  let props := settle (0 < scan.2) kNotString kString arcs.props
  if fst.finalWeight s ≠ 0 then
    (settle (fst.finalWeight s ≠ 1) kWeighted kUnweighted props, scan.2 + 1)
  else (settle (arcs.narcs ≠ 1) kNotString kString props, scan.2)

/- The scan of all states, for a mask that asks for more than a search can tell. `scc` numbers
the components, and is empty where the mask asks for no property of the cycles. -/
def scanProperties (fst : VectorFst L W) (mask : BitVec 64) (scc : List ℕ) (props : BitVec 64) :
    BitVec 64 :=
  if mask &&& ~~~(kBinaryProperties ||| kDfsProperties) ≠ 0 then
    let props := props ||| (kAcceptor ||| kNoEpsilons ||| kNoIEpsilons ||| kNoOEpsilons |||
      kILabelSorted ||| kOLabelSorted ||| kUnweighted ||| kTopSorted ||| kString)
    let props :=
      if mask &&& (kIDeterministic ||| kNonIDeterministic) ≠ 0 then props ||| kIDeterministic
      else props
    let props :=
      if mask &&& (kODeterministic ||| kNonODeterministic) ≠ 0 then props ||| kODeterministic
      else props
    let props := if mask &&& kCycleProperties ≠ 0 then props ||| kUnweightedCycles else props
    let props := ((List.range fst.numStates).foldl (scanState fst mask scc) (props, 0)).1
    match fst.start with
    | some start => settle (start ≠ 0) kNotString kString props
    | none => props
  else props

def discover (cache props mask : BitVec 64) : BitVec 64 :=
  cache ||| (props &&& mask &&& ~~~knownProperties (cache &&& mask))

/- `properties(mask, true)` for a mask that asks nothing of the cycles: what the cache knows is
answered from it, and what a scan finds is written back. -/
def VectorFst.testedProperties (fst : VectorFst L W) (mask : BitVec 64) :
    BitVec 64 × VectorFst L W :=
  let stored := fst.properties &&& kFstProperties
  let props :=
    if knownProperties stored &&& mask = mask then stored
    else scanProperties fst mask [] (stored &&& kBinaryProperties)
  (props &&& mask,
    { fst with properties := discover fst.properties props (knownProperties props) })

namespace PropertyBits

theorem settle_and_of_disjoint {set clear bit : BitVec 64} (hset : set &&& bit = 0)
    (hclear : ~~~clear &&& bit = bit) (c : Bool) (props : BitVec 64) :
    settle c set clear props &&& bit = props &&& bit := by
  unfold settle
  split
  · rw [BitVec.and_assoc, hclear, BitVec.and_or_distrib_right, hset]
    exact BitVec.or_zero
  · rfl

theorem settle_and_of_clear {set clear bit : BitVec 64} (hclear : ~~~clear &&& bit = 0)
    (c : Bool) (props : BitVec 64) :
    settle c set clear props &&& bit = if c then 0 else props &&& bit := by
  unfold settle
  split
  · rw [BitVec.and_assoc, hclear]
    exact BitVec.and_zero
  · rfl

/- The label an arc is sorted by and the bit that says so, on either side. -/
def sideLabel (byOutput : Bool) (arc : Arc L W) : L := if byOutput then arc.olabel else arc.ilabel

def sortedBit (byOutput : Bool) : BitVec 64 := if byOutput then kOLabelSorted else kILabelSorted

variable {mask : BitVec 64} {scc : List ℕ} {byOutput : Bool} {fst : VectorFst L W}

theorem scanArc_prev (s : ℕ) (scan : ArcScan L W) (arc : Arc L W) :
    (scanArc mask scc s scan arc).prev = some arc := rfl

theorem scanArc_sorted {s : ℕ} {scan : ArcScan L W} {arc : Arc L W}
    (h : Held (scanArc mask scc s scan arc).props (sortedBit byOutput)) :
    Held scan.props (sortedBit byOutput) ∧
      ∀ prev ∈ scan.prev, sideLabel byOutput prev ≤ sideLabel byOutput arc := by
  have heq : (scanArc mask scc s scan arc).props &&& sortedBit byOutput =
      if scan.prev.any fun prev => sideLabel byOutput arc < sideLabel byOutput prev then 0
      else scan.props &&& sortedBit byOutput := by
    cases byOutput <;>
      simp (disch := decide) only [scanArc, sortedBit, sideLabel, settle_and_of_disjoint,
        settle_and_of_clear, Bool.false_eq_true, if_false, if_true]
  unfold Held at h
  rw [heq] at h
  split at h
  · exact absurd rfl h
  · next hnone =>
    refine ⟨h, ?_⟩
    intro prev hprev
    by_contra hlt
    apply hnone
    rw [Option.mem_def.mp hprev]
    simpa using hlt

theorem scanArcs_sorted {s : ℕ} {arcs : List (Arc L W)} {scan : ArcScan L W}
    (h : Held (arcs.foldl (scanArc mask scc s) scan).props (sortedBit byOutput)) :
    Held scan.props (sortedBit byOutput) ∧
      ((scan.prev.toList ++ arcs).map (sideLabel byOutput)).IsChain (· ≤ ·) := by
  induction arcs generalizing scan with
  | nil =>
    refine ⟨h, ?_⟩
    cases scan.prev <;> simp
  | cons arc arcs ih =>
    obtain ⟨hstep, hchain⟩ := ih h
    obtain ⟨hscan, hprev⟩ := scanArc_sorted hstep
    refine ⟨hscan, ?_⟩
    rw [scanArc_prev] at hchain
    cases hcase : scan.prev with
    | none => exact hchain
    | some prev => exact List.isChain_cons_cons.mpr ⟨hprev prev hcase, hchain⟩

theorem scanStates_sorted {states : List ℕ} {scan : BitVec 64 × ℕ}
    (h : Held (states.foldl (scanState fst mask scc) scan).1 (sortedBit byOutput)) :
    Held scan.1 (sortedBit byOutput) ∧
      ∀ s ∈ states, ((fst.arcs s).map (sideLabel byOutput)).IsChain (· ≤ ·) := by
  induction states generalizing scan with
  | nil => exact ⟨h, by simp⟩
  | cons s states ih =>
    obtain ⟨hstep, hrest⟩ := ih h
    have hkeep : ∀ c c' props, settle c kNotString kString props &&& sortedBit byOutput =
        props &&& sortedBit byOutput ∧
        settle c' kWeighted kUnweighted props &&& sortedBit byOutput =
          props &&& sortedBit byOutput := by
      intro c c' props
      cases byOutput <;>
        exact ⟨settle_and_of_disjoint (by decide) (by decide) _ _,
          settle_and_of_disjoint (by decide) (by decide) _ _⟩
    have harcs : Held ((fst.arcs s).foldl (scanArc mask scc s) ⟨scan.1, none, 0, [], []⟩).props
        (sortedBit byOutput) := by
      unfold Held scanState at hstep
      dsimp only at hstep
      split at hstep
      · rwa [(hkeep false _ _).2, (hkeep _ false _).1] at hstep
      · rwa [(hkeep _ false _).1, (hkeep _ false _).1] at hstep
    obtain ⟨hscan, hchain⟩ := scanArcs_sorted harcs
    refine ⟨hscan, ?_⟩
    intro t ht
    rcases List.mem_cons.mp ht with rfl | ht
    · exact hchain
    · exact hrest t ht

theorem scanProperties_sorted {props : BitVec 64}
    (hasks : mask &&& ~~~(kBinaryProperties ||| kDfsProperties) ≠ 0)
    (h : Held (scanProperties fst mask scc props) (sortedBit byOutput)) :
    SortedLabels (sideLabel byOutput) fst := by
  have hscan : ∃ props', Held ((List.range fst.numStates).foldl
      (scanState fst mask scc) (props', 0)).1 (sortedBit byOutput) := by
    unfold scanProperties at h
    rw [if_pos hasks] at h
    dsimp only at h
    split at h
    · unfold Held at h
      rw [settle_and_of_disjoint (by cases byOutput <;> decide) (by cases byOutput <;> decide)] at h
      exact ⟨_, h⟩
    · exact ⟨_, h⟩
  obtain ⟨props', hheld⟩ := hscan
  obtain ⟨-, hall⟩ := scanStates_sorted hheld
  intro s
  by_cases hs : s < fst.numStates
  · exact hall s (List.mem_range.mpr hs)
  · rw [VectorFst.arcs_of_le (Nat.le_of_not_lt hs)]
    exact List.isChain_nil

/- The answer to whether an FST is sorted is right when what the cache held before was. -/
theorem sorted_of_tested (hcache : Held fst.properties (sortedBit byOutput) →
      SortedLabels (sideLabel byOutput) fst)
    (h : Held (fst.testedProperties (sortedBit byOutput)).1 (sortedBit byOutput)) :
    SortedLabels (sideLabel byOutput) fst := by
  unfold VectorFst.testedProperties at h
  dsimp only at h
  obtain ⟨hprops, -⟩ := held_and h
  split at hprops
  · exact hcache (held_and hprops).1
  · exact scanProperties_sorted (by cases byOutput <;> decide) hprops

end PropertyBits

end Sicada

namespace Sicada

open DfsVisit CcVisitors

variable {L W : Type} [ArcLabel L] [Zero W] [One W] [DecidableEq W] (isMember : W → Bool)

/- The components as a vector; every state it has room for has been visited. -/
def CcVisitors.SccVisitor.components (v : SccVisitor) : List ℕ :=
  (List.range v.len).map fun s => (v.scc s).getD v.nscc

/- What a scan settles of the properties in the mask, and of some others on the way. -/
def computeProperties (fst : VectorFst L W) (mask : BitVec 64) : BitVec 64 :=
  let props := fst.properties &&& kFstProperties &&& kBinaryProperties
  if mask &&& kCycleProperties ≠ 0 then
    let visitor := dfsVisitAny fst (sccVisitor isMember true fst) (SccVisitor.new props)
    scanProperties fst mask visitor.components visitor.building
  else scanProperties fst mask [] props

def computeOrUseStoredProperties (fst : VectorFst L W) (mask : BitVec 64) : BitVec 64 :=
  let props := fst.properties &&& kFstProperties
  if knownProperties props &&& mask = mask then props else computeProperties isMember fst mask

/- What `properties(mask, true)` answers. -/
def cachedProperties (fst : VectorFst L W) (mask : BitVec 64) : BitVec 64 :=
  computeOrUseStoredProperties isMember fst mask &&& mask

/- The cache afterwards. -/
def settledCache (fst : VectorFst L W) (mask : BitVec 64) : BitVec 64 :=
  let computed := computeOrUseStoredProperties isMember fst mask
  discover fst.properties computed (knownProperties computed)

def checkProperties (fst : VectorFst L W) (checkMask testMask : BitVec 64) : BitVec 64 :=
  let props := fst.properties &&& kFstProperties
  let props :=
    if knownProperties props &&& checkMask ≠ checkMask then
      computeProperties isMember fst (checkMask ||| testMask)
    else props
  props &&& (checkMask ||| testMask)

end Sicada
