import Sicada.PropertyBits
import Sicada.TestProperties

namespace Sicada.ScanExact

open PropertyBits

variable {L W : Type} [ArcLabel L] [Zero W] [One W] [DecidableEq W] {fst : VectorFst L W}
  {mask bit : BitVec 64} {scc : List ℕ}

theorem held_of_eq {x y : BitVec 64} (h : x &&& bit = y &&& bit) : Held x bit ↔ Held y bit := by
  unfold Held
  rw [h]

theorem held_if {x y : BitVec 64} {c : Bool} (h : x &&& bit = if c then 0 else y &&& bit) :
    Held x bit ↔ Held y bit ∧ c = false := by
  unfold Held
  rw [h]
  cases c <;> simp

/- What the scan asserts before it has seen an arc. -/
def scanStart (mask props : BitVec 64) : BitVec 64 :=
  let props := props ||| (kAcceptor ||| kNoEpsilons ||| kNoIEpsilons ||| kNoOEpsilons |||
    kILabelSorted ||| kOLabelSorted ||| kUnweighted ||| kTopSorted ||| kString)
  let props :=
    if mask &&& (kIDeterministic ||| kNonIDeterministic) ≠ 0 then props ||| kIDeterministic
    else props
  let props :=
    if mask &&& (kODeterministic ||| kNonODeterministic) ≠ 0 then props ||| kODeterministic
    else props
  if mask &&& kCycleProperties ≠ 0 then props ||| kUnweightedCycles else props

section Scan

variable {okArcs : ℕ → List (Arc L W) → Prop} {okFinal : W → Prop}

/- A bit that each arc keeps or clears by itself is held at the end if every arc keeps it. -/
theorem held_scanArcs {s : ℕ} {ok : Arc L W → Prop} (hstep : ∀ (scan : ArcScan L W) arc,
      Held (scanArc mask scc s scan arc).props bit ↔ Held scan.props bit ∧ ok arc)
    (arcs : List (Arc L W)) (scan : ArcScan L W) :
    Held (arcs.foldl (scanArc mask scc s) scan).props bit ↔
      Held scan.props bit ∧ ∀ arc ∈ arcs, ok arc := by
  induction arcs generalizing scan with
  | nil => simp
  | cons arc arcs ih => rw [List.foldl_cons, ih, hstep, List.forall_mem_cons, and_assoc]

variable (harcs : ∀ s (arcs : List (Arc L W)) (props : BitVec 64),
    Held (arcs.foldl (scanArc mask scc s) ⟨props, none, 0, [], []⟩).props bit ↔
      Held props bit ∧ okArcs s arcs)
  (hstring : ∀ c props, Held (settle c kNotString kString props) bit ↔ Held props bit)
  (hfinal : ∀ (weight : W) props, Held (settle (weight ≠ 1) kWeighted kUnweighted props) bit ↔
    Held props bit ∧ okFinal weight)

include harcs hstring hfinal

theorem held_scanState (scan : BitVec 64 × ℕ) (s : ℕ) :
    Held (scanState fst mask scc scan s).1 bit ↔ Held scan.1 bit ∧
      okArcs s (fst.arcs s) ∧ (fst.finalWeight s ≠ 0 → okFinal (fst.finalWeight s)) := by
  unfold scanState
  dsimp only
  by_cases hzero : fst.finalWeight s = 0
  · rw [if_neg (not_not.mpr hzero), hstring, hstring, harcs]
    simp [hzero]
  · rw [if_pos hzero, hfinal, hstring, harcs, and_assoc]
    simp [hzero]

theorem held_scanStates (fst : VectorFst L W) (states : List ℕ) (scan : BitVec 64 × ℕ) :
    Held (states.foldl (scanState fst mask scc) scan).1 bit ↔
      Held scan.1 bit ∧ ∀ s ∈ states, okArcs s (fst.arcs s) ∧
        (fst.finalWeight s ≠ 0 → okFinal (fst.finalWeight s)) := by
  induction states generalizing scan with
  | nil => simp
  | cons s states ih =>
    rw [List.foldl_cons, ih, held_scanState harcs hstring hfinal, List.forall_mem_cons, and_assoc]

theorem held_scanProperties (hasks : mask &&& ~~~(kBinaryProperties ||| kDfsProperties) ≠ 0)
    (props : BitVec 64) : Held (scanProperties fst mask scc props) bit ↔
      Held (scanStart mask props) bit ∧ ∀ s < fst.numStates, okArcs s (fst.arcs s) ∧
        (fst.finalWeight s ≠ 0 → okFinal (fst.finalWeight s)) := by
  have hstates := held_scanStates harcs hstring hfinal fst (List.range fst.numStates)
    (scanStart mask props, 0)
  simp only [List.mem_range] at hstates
  rw [← hstates]
  unfold scanProperties
  rw [if_pos hasks]
  dsimp only
  split
  · exact hstring _ _
  · exact Iff.rfl

end Scan

section Bits

variable (hasks : mask &&& ~~~(kBinaryProperties ||| kDfsProperties) ≠ 0) (props : BitVec 64)

theorem held_or_left {x : BitVec 64} (h : Held x bit) (y : BitVec 64) : Held (x ||| y) bit := by
  intro hzero
  rw [BitVec.and_or_distrib_right] at hzero
  exact h (BitVec.or_eq_zero_iff.mp hzero).1

theorem held_or_right (x : BitVec 64) {y : BitVec 64} (h : Held y bit) : Held (x ||| y) bit := by
  intro hzero
  rw [BitVec.and_or_distrib_right] at hzero
  exact h (BitVec.or_eq_zero_iff.mp hzero).2

theorem held_keep {c : Prop} [Decidable c] {x : BitVec 64} (h : Held x bit) (y : BitVec 64) :
    Held (if c then x ||| y else x) bit := by
  split
  · exact held_or_left h y
  · exact h

theorem held_start (hbit : Held (kAcceptor ||| kNoEpsilons ||| kNoIEpsilons ||| kNoOEpsilons |||
    kILabelSorted ||| kOLabelSorted ||| kUnweighted ||| kTopSorted ||| kString) bit) :
    Held (scanStart mask props) bit :=
  held_keep (held_keep (held_keep (held_or_right props hbit) _) _) _

include hasks

/- A bit no state clears but through its arcs. -/
theorem held_through_arcs {okArcs : ℕ → List (Arc L W) → Prop} (hnil : ∀ s, okArcs s [])
    (harcs : ∀ s (arcs : List (Arc L W)) (props : BitVec 64),
      Held (arcs.foldl (scanArc mask scc s) ⟨props, none, 0, [], []⟩).props bit ↔
        Held props bit ∧ okArcs s arcs)
    (hstring : kNotString &&& bit = 0 ∧ ~~~kString &&& bit = bit)
    (hweighted : kWeighted &&& bit = 0 ∧ ~~~kUnweighted &&& bit = bit) :
    Held (scanProperties fst mask scc props) bit ↔
      Held (scanStart mask props) bit ∧ ∀ s, okArcs s (fst.arcs s) := by
  have hfinal : ∀ (weight : W) props, Held (settle (weight ≠ 1) kWeighted kUnweighted props) bit ↔
      Held props bit ∧ True := by
    intro weight props
    rw [and_true]
    exact held_of_eq (settle_and_of_disjoint hweighted.1 hweighted.2 _ props)
  rw [held_scanProperties harcs
    (fun c props => held_of_eq (settle_and_of_disjoint hstring.1 hstring.2 c props)) hfinal hasks
    props]
  refine and_congr_right fun _ => ⟨fun h s => ?_, fun h s _ => ⟨h s, fun _ => trivial⟩⟩
  by_cases hs : s < fst.numStates
  · exact (h s hs).1
  · rw [VectorFst.arcs_of_le (Nat.le_of_not_lt hs)]
    exact hnil s

theorem held_of_arcs {okArcs : List (Arc L W) → Prop} (hnil : okArcs [])
    (harcs : ∀ s (arcs : List (Arc L W)) (props : BitVec 64),
      Held (arcs.foldl (scanArc mask scc s) ⟨props, none, 0, [], []⟩).props bit ↔
        Held props bit ∧ okArcs arcs)
    (hstring : kNotString &&& bit = 0 ∧ ~~~kString &&& bit = bit)
    (hweighted : kWeighted &&& bit = 0 ∧ ~~~kUnweighted &&& bit = bit)
    (hstart : Held (scanStart mask props) bit) :
    Held (scanProperties fst mask scc props) bit ↔ ∀ s, okArcs (fst.arcs s) := by
  have hthrough : Held (scanProperties fst mask scc props) bit ↔
      Held (scanStart mask props) bit ∧ ∀ s, okArcs (fst.arcs s) :=
    held_through_arcs hasks props (fun _ => hnil) harcs hstring hweighted
  exact hthrough.trans (and_iff_right hstart)

theorem held_acceptor :
    Held (scanProperties fst mask scc props) kAcceptor ↔ Holds fst .acceptor := by
  have hstep : ∀ s (scan : ArcScan L W) arc, Held (scanArc mask scc s scan arc).props kAcceptor ↔
      Held scan.props kAcceptor ∧ arc.ilabel = arc.olabel := by
    intro s scan arc
    have heq : (scanArc mask scc s scan arc).props &&& kAcceptor =
        if (decide (arc.ilabel ≠ arc.olabel)) then 0 else scan.props &&& kAcceptor := by
      simp (disch := decide) only [scanArc, settle_and_of_disjoint, settle_and_of_clear]
    rw [held_if heq, decide_eq_false_iff_not, not_not]
  exact held_of_arcs hasks props (by simp) (fun s arcs props => held_scanArcs (hstep s) arcs _)
    (by decide) (by decide) (held_start props (by decide))

theorem held_noEpsilons :
    Held (scanProperties fst mask scc props) kNoEpsilons ↔ ¬ Holds fst .epsilons := by
  have hstep : ∀ s (scan : ArcScan L W) arc, Held (scanArc mask scc s scan arc).props kNoEpsilons ↔
      Held scan.props kNoEpsilons ∧ ¬ (arc.ilabel = epsilon ∧ arc.olabel = epsilon) := by
    intro s scan arc
    have heq : (scanArc mask scc s scan arc).props &&& kNoEpsilons =
        if (decide (arc.ilabel = epsilon ∧ arc.olabel = epsilon)) then 0
        else scan.props &&& kNoEpsilons := by
      simp (disch := decide) only [scanArc, settle_and_of_disjoint, settle_and_of_clear]
    rw [held_if heq, decide_eq_false_iff_not]
  have hscan : Held (scanProperties fst mask scc props) kNoEpsilons ↔
      ∀ s, ∀ arc ∈ fst.arcs s, ¬ (arc.ilabel = epsilon ∧ arc.olabel = epsilon) :=
    held_of_arcs hasks props (by simp) (fun s arcs props => held_scanArcs (hstep s) arcs _)
      (by decide) (by decide) (held_start props (by decide))
  rw [hscan]
  simp [Holds, SomeArc]

theorem held_unweighted :
    Held (scanProperties fst mask scc props) kUnweighted ↔ ¬ Holds fst .weighted := by
  have hstep : ∀ s (scan : ArcScan L W) arc, Held (scanArc mask scc s scan arc).props kUnweighted ↔
      Held scan.props kUnweighted ∧ ¬ PropertyBits.Nontrivial arc.weight := by
    intro s scan arc
    have heq : (scanArc mask scc s scan arc).props &&& kUnweighted =
        if (decide (arc.weight ≠ 1 ∧ arc.weight ≠ 0)) then 0 else scan.props &&& kUnweighted := by
      simp (disch := decide) only [scanArc, settle_and_of_disjoint, settle_and_of_clear]
    rw [held_if heq, decide_eq_false_iff_not]
    exact and_congr_right fun _ => not_congr and_comm
  have hfinal : ∀ (weight : W) props,
      Held (settle (weight ≠ 1) kWeighted kUnweighted props) kUnweighted ↔
        Held props kUnweighted ∧ weight = 1 := by
    intro weight props
    have heq : settle (weight ≠ 1) kWeighted kUnweighted props &&& kUnweighted =
        if (decide (weight ≠ 1)) then 0 else props &&& kUnweighted :=
      settle_and_of_clear (by decide) _ props
    rw [held_if heq, decide_eq_false_iff_not, not_not]
  rw [held_scanProperties (fun s arcs props => held_scanArcs (hstep s) arcs _)
    (fun c props => held_of_eq (settle_and_of_disjoint (by decide) (by decide) c props)) hfinal
    hasks props, and_iff_right (held_start props (by decide))]
  constructor
  · rintro h (⟨s, arc, harc, hw⟩ | ⟨s, hzero, hone⟩)
    · by_cases hs : s < fst.numStates
      · exact (h s hs).1 arc harc hw
      · rw [VectorFst.arcs_of_le (Nat.le_of_not_lt hs)] at harc
        exact absurd harc List.not_mem_nil
    · by_cases hs : s < fst.numStates
      · exact hone ((h s hs).2 hzero)
      · exact hzero (VectorFst.finalWeight_of_le (Nat.le_of_not_lt hs))
  · intro h s _
    refine ⟨fun arc harc hw => h (Or.inl ⟨s, arc, harc, hw⟩), fun hzero => ?_⟩
    by_contra hone
    exact h (Or.inr ⟨s, hzero, hone⟩)

/- The bits of one side. -/
def deterministicBit (byOutput : Bool) : BitVec 64 :=
  if byOutput then kODeterministic else kIDeterministic

def nonDeterministicBit (byOutput : Bool) : BitVec 64 :=
  if byOutput then kNonODeterministic else kNonIDeterministic

def noEpsilonsBit (byOutput : Bool) : BitVec 64 := if byOutput then kNoOEpsilons else kNoIEpsilons

theorem held_noEpsilonsBit (byOutput : Bool) :
    Held (scanProperties fst mask scc props) (noEpsilonsBit byOutput) ↔
      EveryArc (fun arc => sideLabel byOutput arc ≠ epsilon) fst := by
  have hstep : ∀ s (scan : ArcScan L W) arc,
      Held (scanArc mask scc s scan arc).props (noEpsilonsBit byOutput) ↔
        Held scan.props (noEpsilonsBit byOutput) ∧ sideLabel byOutput arc ≠ epsilon := by
    intro s scan arc
    have heq : (scanArc mask scc s scan arc).props &&& noEpsilonsBit byOutput =
        if (decide (sideLabel byOutput arc = epsilon)) then 0
        else scan.props &&& noEpsilonsBit byOutput := by
      cases byOutput
      · change _ &&& kNoIEpsilons = if decide (arc.ilabel = epsilon) then 0 else _ &&& kNoIEpsilons
        simp (disch := decide) only [scanArc, settle_and_of_disjoint, settle_and_of_clear]
      · change _ &&& kNoOEpsilons = if decide (arc.olabel = epsilon) then 0 else _ &&& kNoOEpsilons
        simp (disch := decide) only [scanArc, settle_and_of_disjoint, settle_and_of_clear]
    rw [held_if heq, decide_eq_false_iff_not]
  exact held_of_arcs hasks props (by simp) (fun s arcs props => held_scanArcs (hstep s) arcs _)
    (by cases byOutput <;> decide) (by cases byOutput <;> decide)
    (held_start props (by cases byOutput <;> decide))

omit hasks in
theorem chain_scanArcs_sorted {byOutput : Bool} {s : ℕ} {arcs : List (Arc L W)} {scan : ArcScan L W}
    (hscan : Held scan.props (sortedBit byOutput))
    (hchain : ((scan.prev.toList ++ arcs).map (sideLabel byOutput)).IsChain (· ≤ ·)) :
    Held (arcs.foldl (scanArc mask scc s) scan).props (sortedBit byOutput) := by
  induction arcs generalizing scan with
  | nil => exact hscan
  | cons arc arcs ih =>
    have hstep : (∀ prev ∈ scan.prev, sideLabel byOutput prev ≤ sideLabel byOutput arc) ∧
        ((arc :: arcs).map (sideLabel byOutput)).IsChain (· ≤ ·) := by
      cases hprev : scan.prev with
      | none =>
        rw [hprev] at hchain
        exact ⟨by simp, hchain⟩
      | some prev =>
        rw [hprev] at hchain
        obtain ⟨hle, hrest⟩ := List.isChain_cons_cons.mp hchain
        refine ⟨fun prev' hprev' => ?_, hrest⟩
        obtain rfl : prev = prev' := Option.mem_some_iff.mp hprev'
        exact hle
    refine ih ?_ ?_
    · have heq : (scanArc mask scc s scan arc).props &&& sortedBit byOutput =
          if scan.prev.any fun prev => sideLabel byOutput arc < sideLabel byOutput prev then 0
          else scan.props &&& sortedBit byOutput := by
        cases byOutput <;>
          simp (disch := decide) only [scanArc, sortedBit, sideLabel, settle_and_of_disjoint,
            settle_and_of_clear, Bool.false_eq_true, if_false, if_true]
      rw [held_if heq]
      refine ⟨hscan, ?_⟩
      cases hprev : scan.prev with
      | none => rfl
      | some prev => simpa using hstep.1 prev hprev
    · rw [scanArc_prev]
      exact hstep.2

theorem held_sortedBit (byOutput : Bool) :
    Held (scanProperties fst mask scc props) (sortedBit byOutput) ↔
      SortedLabels (sideLabel byOutput) fst := by
  have harcs : ∀ s (arcs : List (Arc L W)) (props : BitVec 64),
      Held (arcs.foldl (scanArc mask scc s) ⟨props, none, 0, [], []⟩).props (sortedBit byOutput) ↔
        Held props (sortedBit byOutput) ∧ (arcs.map (sideLabel byOutput)).IsChain (· ≤ ·) :=
    fun s arcs props => ⟨scanArcs_sorted, fun h => chain_scanArcs_sorted h.1 h.2⟩
  exact held_of_arcs hasks props (by simp) harcs (by cases byOutput <;> decide)
    (by cases byOutput <;> decide) (held_start props (by cases byOutput <;> decide))

theorem held_topSorted :
    Held (scanProperties fst mask scc props) kTopSorted ↔ Holds fst .topSorted := by
  have hstep : ∀ s (scan : ArcScan L W) arc, Held (scanArc mask scc s scan arc).props kTopSorted ↔
      Held scan.props kTopSorted ∧ s < arc.nextstate := by
    intro s scan arc
    have heq : (scanArc mask scc s scan arc).props &&& kTopSorted =
        if (decide (arc.nextstate ≤ s)) then 0 else scan.props &&& kTopSorted := by
      simp (disch := decide) only [scanArc, settle_and_of_disjoint, settle_and_of_clear]
    rw [held_if heq, decide_eq_false_iff_not, Nat.not_le]
  have hscan : Held (scanProperties fst mask scc props) kTopSorted ↔
      Held (scanStart mask props) kTopSorted ∧ ∀ s, ∀ arc ∈ fst.arcs s, s < arc.nextstate :=
    held_through_arcs hasks props (by simp) (fun s arcs props => held_scanArcs (hstep s) arcs _)
      (by decide) (by decide)
  exact hscan.trans (and_iff_right (held_start props (by decide)))

/- An arc within a component that is neither zero nor one. -/
def WeightedWithin (scc : List ℕ) (s : ℕ) (arc : Arc L W) : Prop :=
  PropertyBits.Nontrivial arc.weight ∧ ∃ c, scc[s]? = some c ∧ scc[arc.nextstate]? = some c

theorem held_unweightedCycles :
    Held (scanProperties fst mask scc props) kUnweightedCycles ↔
      Held (scanStart mask props) kUnweightedCycles ∧
        ∀ s, ∀ arc ∈ fst.arcs s, ¬ WeightedWithin scc s arc := by
  have hstep : ∀ s (scan : ArcScan L W) arc,
      Held (scanArc mask scc s scan arc).props kUnweightedCycles ↔
        Held scan.props kUnweightedCycles ∧ ¬ WeightedWithin scc s arc := by
    intro s scan arc
    have heq : (scanArc mask scc s scan arc).props &&& kUnweightedCycles =
        if (decide (arc.weight ≠ 1 ∧ arc.weight ≠ 0) &&
            decide (scan.props &&& kUnweightedCycles ≠ 0) &&
            (scc[s]?.any fun start => scc[arc.nextstate]? = some start)) then 0
        else scan.props &&& kUnweightedCycles := by
      simp (disch := decide) only [scanArc, settle_and_of_disjoint, settle_and_of_clear]
    rw [held_if heq]
    refine and_congr_right fun hheld => ?_
    have hwithin : (scc[s]?.any fun start => decide (scc[arc.nextstate]? = some start)) = true ↔
        ∃ c, scc[s]? = some c ∧ scc[arc.nextstate]? = some c := by
      simp [Option.any_eq_true]
    have hbit : decide (scan.props &&& kUnweightedCycles ≠ 0) = true := decide_eq_true hheld
    unfold WeightedWithin PropertyBits.Nontrivial
    rw [← hwithin, hbit, Bool.and_true, ← Bool.not_eq_true, Bool.and_eq_true, decide_eq_true_iff,
      and_comm (a := arc.weight ≠ 1)]
  exact held_through_arcs hasks props (by simp)
    (fun s arcs props => held_scanArcs (hstep s) arcs _) (by decide) (by decide)

section Deterministic

variable {byOutput : Bool}
  (hdet : mask &&& (deterministicBit byOutput ||| nonDeterministicBit byOutput) ≠ 0)

/- The labels of the side that the scan has seen at the state. -/
def seenLabels (byOutput : Bool) (scan : ArcScan L W) : List L :=
  if byOutput then scan.olabels else scan.ilabels

include hdet

theorem scanArc_seenLabels (s : ℕ) (scan : ArcScan L W) (arc : Arc L W) :
    seenLabels byOutput (scanArc mask scc s scan arc) =
        sideLabel byOutput arc :: seenLabels byOutput scan ∧
      (Held (scanArc mask scc s scan arc).props (deterministicBit byOutput) ↔
        Held scan.props (deterministicBit byOutput) ∧
          sideLabel byOutput arc ∉ seenLabels byOutput scan) := by
  cases byOutput
  · change mask &&& (kIDeterministic ||| kNonIDeterministic) ≠ 0 at hdet
    constructor
    · change (if (decide (mask &&& (kIDeterministic ||| kNonIDeterministic) ≠ 0)) = true then _
        else _) = _
      rw [if_pos (decide_eq_true hdet)]
      rfl
    · have heq : (scanArc mask scc s scan arc).props &&& kIDeterministic =
          if (decide (mask &&& (kIDeterministic ||| kNonIDeterministic) ≠ 0) &&
            decide (arc.ilabel ∈ scan.ilabels)) then 0 else scan.props &&& kIDeterministic := by
        simp (disch := decide) only [scanArc, settle_and_of_disjoint, settle_and_of_clear]
      change Held _ kIDeterministic ↔ Held _ kIDeterministic ∧ arc.ilabel ∉ scan.ilabels
      rw [held_if heq, decide_eq_true hdet, Bool.true_and, decide_eq_false_iff_not]
  · change mask &&& (kODeterministic ||| kNonODeterministic) ≠ 0 at hdet
    constructor
    · change (if (decide (mask &&& (kODeterministic ||| kNonODeterministic) ≠ 0)) = true then _
        else _) = _
      rw [if_pos (decide_eq_true hdet)]
      rfl
    · have heq : (scanArc mask scc s scan arc).props &&& kODeterministic =
          if (decide (mask &&& (kODeterministic ||| kNonODeterministic) ≠ 0) &&
            decide (arc.olabel ∈ scan.olabels)) then 0 else scan.props &&& kODeterministic := by
        simp (disch := decide) only [scanArc, settle_and_of_disjoint, settle_and_of_clear]
      change Held _ kODeterministic ↔ Held _ kODeterministic ∧ arc.olabel ∉ scan.olabels
      rw [held_if heq, decide_eq_true hdet, Bool.true_and, decide_eq_false_iff_not]

theorem held_scanArcs_seenLabels (s : ℕ) (arcs : List (Arc L W)) (scan : ArcScan L W) :
    Held (arcs.foldl (scanArc mask scc s) scan).props (deterministicBit byOutput) ↔
      Held scan.props (deterministicBit byOutput) ∧ (arcs.map (sideLabel byOutput)).Nodup ∧
        ∀ arc ∈ arcs, sideLabel byOutput arc ∉ seenLabels byOutput scan := by
  induction arcs generalizing scan with
  | nil => simp
  | cons arc arcs ih =>
    obtain ⟨hlabels, hheld⟩ := scanArc_seenLabels hasks hdet s scan arc
    rw [List.foldl_cons, ih, hheld, hlabels, List.map_cons, List.nodup_cons]
    rw [List.forall_mem_cons]
    simp only [List.mem_cons, not_or, List.mem_map]
    constructor
    · rintro ⟨⟨hprops, hnew⟩, hnodup, hrest⟩
      refine ⟨hprops, ⟨?_, hnodup⟩, hnew, fun a ha => (hrest a ha).2⟩
      rintro ⟨a, ha, heq⟩
      exact (hrest a ha).1 heq
    · rintro ⟨hprops, ⟨hnot, hnodup⟩, hnew, hrest⟩
      exact ⟨⟨hprops, hnew⟩, hnodup, fun a ha => ⟨fun heq => hnot ⟨a, ha, heq⟩, hrest a ha⟩⟩

theorem held_deterministicBit :
    Held (scanProperties fst mask scc props) (deterministicBit byOutput) ↔
      UniqueLabels (sideLabel byOutput) fst := by
  have hstart : Held (scanStart mask props) (deterministicBit byOutput) := by
    cases byOutput
    · change mask &&& (kIDeterministic ||| kNonIDeterministic) ≠ 0 at hdet
      refine held_keep (held_keep ?_ _) _
      rw [if_pos hdet]
      exact held_or_right _ (by decide)
    · change mask &&& (kODeterministic ||| kNonODeterministic) ≠ 0 at hdet
      refine held_keep ?_ _
      rw [if_pos hdet]
      exact held_or_right _ (by decide)
  have harcs : ∀ s (arcs : List (Arc L W)) (props : BitVec 64),
      Held (arcs.foldl (scanArc mask scc s) ⟨props, none, 0, [], []⟩).props
          (deterministicBit byOutput) ↔
        Held props (deterministicBit byOutput) ∧ (arcs.map (sideLabel byOutput)).Nodup := by
    intro s arcs props
    rw [held_scanArcs_seenLabels hasks hdet]
    cases byOutput <;> simp [seenLabels]
  exact held_of_arcs hasks props (by simp) harcs (by cases byOutput <;> decide)
    (by cases byOutput <;> decide) hstart

end Deterministic

theorem held_iDeterministic (hdet : mask &&& (kIDeterministic ||| kNonIDeterministic) ≠ 0) :
    Held (scanProperties fst mask scc props) kIDeterministic ↔ Holds fst .iDeterministic := by
  change Held _ (deterministicBit false) ↔ UniqueLabels (sideLabel false) fst
  exact held_deterministicBit hasks props hdet

end Bits

section Known

variable {props : BitVec 64}

theorem held_iff_getLsbD {i : ℕ} (hi : i < 64) (x : BitVec 64) :
    Held x (BitVec.twoPow 64 i) ↔ x.getLsbD i = true := by
  unfold Held
  rw [BitVec.and_twoPow]
  cases x.getLsbD i
  · simp
  · have hne : BitVec.twoPow 64 i ≠ 0 := by
      intro hzero
      have hbit := BitVec.getLsbD_twoPow (w := 64) i i
      rw [hzero] at hbit
      simp [hi] at hbit
    simpa using hne

/- Where the bits of a property stand: the positive one here and the negative one next to it. -/
def place : TrinaryProperty → ℕ
  | .acceptor => 16
  | .iDeterministic => 18
  | .oDeterministic => 20
  | .epsilons => 22
  | .iEpsilons => 24
  | .oEpsilons => 26
  | .iLabelSorted => 28
  | .oLabelSorted => 30
  | .weighted => 32
  | .cyclic => 34
  | .initialCyclic => 36
  | .topSorted => 38
  | .accessible => 40
  | .coAccessible => 42
  | .string => 44
  | .weightedCycles => 46

theorem held_positive (p : TrinaryProperty) : Held props p.positive ↔ props.getLsbD (place p) := by
  have hbit : p.positive = BitVec.twoPow 64 (place p) := by cases p <;> decide
  rw [hbit, held_iff_getLsbD (by cases p <;> decide)]

theorem held_negative (p : TrinaryProperty) :
    Held props p.negative ↔ props.getLsbD (place p + 1) := by
  have hbit : p.negative = BitVec.twoPow 64 (place p + 1) := by cases p <;> decide
  rw [hbit, held_iff_getLsbD (by cases p <;> decide)]

/- What is known of a property is known from either of its bits. -/
theorem getLsbD_known (props : BitVec 64) (p : TrinaryProperty) :
    (knownProperties props).getLsbD (place p) =
        (props.getLsbD (place p) || props.getLsbD (place p + 1)) ∧
      (knownProperties props).getLsbD (place p + 1) =
        (props.getLsbD (place p) || props.getLsbD (place p + 1)) := by
  cases p <;>
    simp [knownProperties, place, kBinaryProperties, kTrinaryProperties, kPosTrinaryProperties,
      kNegTrinaryProperties, Bool.or_comm]

theorem getLsbD_of_and_eq {x m : BitVec 64} (h : x &&& m = m) {i : ℕ} (hi : m.getLsbD i = true) :
    x.getLsbD i = true := by
  rw [← h, BitVec.getLsbD_and] at hi
  exact (Bool.and_eq_true_iff.mp hi).1

theorem and_eq_of_held {p : TrinaryProperty} :
    (Held props p.positive → props &&& p.positive = p.positive) ∧
      (Held props p.negative → props &&& p.negative = p.negative) := by
  have hsingle : ∀ i, props.getLsbD i = true →
      props &&& BitVec.twoPow 64 i = BitVec.twoPow 64 i := by
    intro i hi
    rw [BitVec.and_twoPow, hi, if_pos rfl]
  constructor
  · intro h
    have hbit : p.positive = BitVec.twoPow 64 (place p) := by cases p <;> decide
    rw [hbit]
    exact hsingle _ ((held_positive p).mp h)
  · intro h
    have hbit : p.negative = BitVec.twoPow 64 (place p + 1) := by cases p <;> decide
    rw [hbit]
    exact hsingle _ ((held_negative p).mp h)

/- Where the cache knows of a property, an honest one is right about it. -/
theorem stored_exact (h : Honest fst) {p : TrinaryProperty}
    (hknown : knownProperties (fst.properties &&& kFstProperties) &&& mask = mask) :
    (Held mask p.positive →
      (Held (fst.properties &&& kFstProperties) p.positive ↔ Holds fst p)) ∧
    (Held mask p.negative →
      (Held (fst.properties &&& kFstProperties) p.negative ↔ ¬ Holds fst p)) := by
  have hpos : Held (fst.properties &&& kFstProperties) p.positive → Holds fst p :=
    fun hheld => (h p).1 (held_and hheld).1
  have hneg : Held (fst.properties &&& kFstProperties) p.negative → ¬ Holds fst p :=
    fun hheld => (h p).2 (held_and hheld).1
  have heither : (fst.properties &&& kFstProperties).getLsbD (place p) = true ∨
      (fst.properties &&& kFstProperties).getLsbD (place p + 1) = true →
      Held (fst.properties &&& kFstProperties) p.positive ∨
        Held (fst.properties &&& kFstProperties) p.negative := by
    rw [held_positive, held_negative]
    exact id
  constructor
  · intro hmask
    have hbit := getLsbD_of_and_eq hknown ((held_positive p).mp hmask)
    rw [(getLsbD_known _ p).1, Bool.or_eq_true_iff] at hbit
    refine ⟨hpos, fun hholds => ?_⟩
    exact (heither hbit).resolve_right fun hheld => hneg hheld hholds
  · intro hmask
    have hbit := getLsbD_of_and_eq hknown ((held_negative p).mp hmask)
    rw [(getLsbD_known _ p).2, Bool.or_eq_true_iff] at hbit
    refine ⟨hneg, fun hholds => ?_⟩
    exact (heither hbit).resolve_left fun hheld => hholds (hpos hheld)

theorem tested_positive (h : Honest fst) (p : TrinaryProperty) (hmask : Held mask p.positive)
    (hscan : ∀ props, Held (scanProperties fst mask [] props) p.positive ↔ Holds fst p) :
    Held (fst.testedProperties mask).1 p.positive ↔ Holds fst p := by
  have hand : ∀ props : BitVec 64, Held (props &&& mask) p.positive ↔ Held props p.positive := by
    intro props
    rw [held_positive, held_positive, BitVec.getLsbD_and, (held_positive p).mp hmask, Bool.and_true]
  unfold VectorFst.testedProperties
  dsimp only
  rw [hand]
  split
  next hknown => exact (stored_exact h hknown).1 hmask
  next => exact hscan _

theorem tested_negative (h : Honest fst) (p : TrinaryProperty) (hmask : Held mask p.negative)
    (hscan : ∀ props, Held (scanProperties fst mask [] props) p.negative ↔ ¬ Holds fst p) :
    Held (fst.testedProperties mask).1 p.negative ↔ ¬ Holds fst p := by
  have hand : ∀ props : BitVec 64, Held (props &&& mask) p.negative ↔ Held props p.negative := by
    intro props
    rw [held_negative, held_negative, BitVec.getLsbD_and, (held_negative p).mp hmask, Bool.and_true]
  unfold VectorFst.testedProperties
  dsimp only
  rw [hand]
  split
  next hknown => exact (stored_exact h hknown).2 hmask
  next => exact hscan _

theorem tested_acceptor (h : Honest fst) :
    (fst.testedProperties kAcceptor).1 &&& kAcceptor ≠ 0 ↔ Holds fst .acceptor :=
  tested_positive h .acceptor (by decide) fun props => held_acceptor (by decide) props

end Known

end Sicada.ScanExact
