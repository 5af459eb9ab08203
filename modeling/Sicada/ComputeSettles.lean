import Sicada.ComputeExact
import Sicada.TarjanExact

namespace Sicada.ComputeSettles

open Relation DfsVisit CcVisitors SccVisitor SccRuns SccExact SccBits TarjanExact PropertyBits
  ScanExact ComputeExact

variable {L W : Type} [ArcLabel L] [Zero W] [One W] [DecidableEq W]

variable {p : TrinaryProperty}

section Bits

/- The bit of a property a scan starts from, and the one it puts in its place. -/
def assumed : TrinaryProperty → BitVec 64
  | .epsilons => kNoEpsilons
  | .iEpsilons => kNoIEpsilons
  | .oEpsilons => kNoOEpsilons
  | .weighted => kUnweighted
  | .cyclic => kAcyclic
  | .initialCyclic => kInitialAcyclic
  | .weightedCycles => kUnweightedCycles
  | p => p.positive

def denied : TrinaryProperty → BitVec 64
  | .epsilons => kEpsilons
  | .iEpsilons => kIEpsilons
  | .oEpsilons => kOEpsilons
  | .weighted => kWeighted
  | .cyclic => kCyclic
  | .initialCyclic => kInitialCyclic
  | .weightedCycles => kWeightedCycles
  | p => p.negative

/- What a search settles. -/
def searched : List TrinaryProperty := [.cyclic, .initialCyclic, .accessible, .coAccessible]

theorem bits_apart (p q : TrinaryProperty) (hne : p ≠ q) : denied q &&& assumed p = 0 ∧
    ~~~assumed q &&& assumed p = assumed p ∧ denied q &&& denied p = 0 ∧
      ~~~assumed q &&& denied p = denied p := by
  revert hne
  cases p <;> cases q <;> decide

theorem bits_own (p : TrinaryProperty) : ~~~assumed p &&& assumed p = 0 ∧
    ~~~assumed p &&& denied p = denied p ∧ denied p &&& denied p ≠ 0 := by
  cases p <;> decide

theorem held_settle_of_ne {q : TrinaryProperty} (hne : p ≠ q) (c : Bool) (props : BitVec 64) :
    (Held (settle c (denied q) (assumed q) props) (assumed p) ↔ Held props (assumed p)) ∧
      (Held (settle c (denied q) (assumed q) props) (denied p) ↔ Held props (denied p)) := by
  obtain ⟨h, h', hd, hd'⟩ := bits_apart p q hne
  exact ⟨held_of_eq (settle_and_of_disjoint h h' c props),
    held_of_eq (settle_and_of_disjoint hd hd' c props)⟩

theorem held_settle_self (p : TrinaryProperty) (c : Bool) (props : BitVec 64) :
    (Held (settle c (denied p) (assumed p) props) (assumed p) ↔
      Held props (assumed p) ∧ c = false) ∧
      (Held (settle c (denied p) (assumed p) props) (denied p) ↔
        Held props (denied p) ∨ c = true) := by
  obtain ⟨h, hd, hself⟩ := bits_own p
  refine ⟨held_if (settle_and_of_clear h c props), ?_⟩
  cases c with
  | false => simp [settle]
  | true =>
    refine iff_of_true ?_ (Or.inr rfl)
    have heq : settle true (denied p) (assumed p) props &&& denied p =
        (props &&& denied p) ||| (denied p &&& denied p) := by
      rw [settle, if_pos rfl, BitVec.and_assoc, hd, BitVec.and_or_distrib_right]
    unfold Held
    rw [heq]
    exact fun hzero => hself (BitVec.or_eq_zero_iff.mp hzero).2

end Bits

section Keeping

variable {mask : BitVec 64} {scc : List ℕ} {fst : VectorFst L W} {P : BitVec 64 → Prop}

/- Where evidence against what is assumed of a property is looked for. -/
def Due (mask props : BitVec 64) : TrinaryProperty → Prop
  | .iDeterministic => Held mask (kIDeterministic ||| kNonIDeterministic)
  | .oDeterministic => Held mask (kODeterministic ||| kNonODeterministic)
  | .weightedCycles => Held props kUnweightedCycles
  | .cyclic | .initialCyclic | .accessible | .coAccessible => False
  | _ => True

theorem held_of_check {m : BitVec 64} {c : Bool}
    (h : (decide (mask &&& m ≠ 0) && c) = true) : Held mask m :=
  of_decide_eq_true (Bool.and_eq_true_iff.mp h).1

/- What stays true wherever a property is denied on evidence. -/
def Kept (mask : BitVec 64) (P : BitVec 64 → Prop) : Prop :=
  ∀ p c props, (c = true → Due mask props p) → P props →
    P (settle c (denied p) (assumed p) props)

theorem kept_scanArc (hkept : Kept mask P) (s : ℕ) (scan : ArcScan L W) (arc : Arc L W)
    (h : P scan.props) : P (scanArc mask scc s scan arc).props := by
  have hidet := hkept .iDeterministic (decide (mask &&& (kIDeterministic ||| kNonIDeterministic) ≠ 0)
    && decide (arc.ilabel ∈ scan.ilabels)) scan.props
    (fun hc => held_of_check hc) h
  have hodet := hkept .oDeterministic (decide (mask &&& (kODeterministic ||| kNonODeterministic) ≠ 0)
    && decide (arc.olabel ∈ scan.olabels)) _
    (fun hc => held_of_check hc) hidet
  have hlabels := hkept .oEpsilons (arc.olabel = epsilon) _ (fun _ => trivial)
    (hkept .iEpsilons (arc.ilabel = epsilon) _ (fun _ => trivial)
      (hkept .epsilons (arc.ilabel = epsilon ∧ arc.olabel = epsilon) _ (fun _ => trivial)
        (hkept .acceptor (arc.ilabel ≠ arc.olabel) _ (fun _ => trivial) hodet)))
  have hsorted := hkept .oLabelSorted (scan.prev.any fun prev => arc.olabel < prev.olabel) _
    (fun _ => trivial)
    (hkept .iLabelSorted (scan.prev.any fun prev => arc.ilabel < prev.ilabel) _
      (fun _ => trivial) hlabels)
  have hweighted := hkept .weighted (arc.weight ≠ 1 ∧ arc.weight ≠ 0) _ (fun _ => trivial) hsorted
  refine hkept .string (arc.nextstate ≠ s + 1) _ (fun _ => trivial)
    (hkept .topSorted (arc.nextstate ≤ s) _ (fun _ => trivial)
      (hkept .weightedCycles _ _ (fun hc => ?_) hweighted))
  have hdue := (Bool.and_eq_true_iff.mp (Bool.and_eq_true_iff.mp hc).1).2
  rw [decide_eq_true_iff] at hdue
  exact hdue

theorem kept_scanArcs (hkept : Kept mask P) (s : ℕ) (arcs : List (Arc L W)) (scan : ArcScan L W)
    (h : P scan.props) : P (arcs.foldl (scanArc mask scc s) scan).props := by
  induction arcs generalizing scan with
  | nil => exact h
  | cons arc arcs ih => exact ih _ (kept_scanArc hkept s scan arc h)

theorem kept_scanState (hkept : Kept mask P) (scan : BitVec 64 × ℕ) (s : ℕ) (h : P scan.1) :
    P (scanState fst mask scc scan s).1 := by
  have harcs : P ((fst.arcs s).foldl (scanArc mask scc s) ⟨scan.1, none, 0, [], []⟩).props :=
    kept_scanArcs hkept s (fst.arcs s) _ h
  have hfirst := hkept .string (0 < scan.2) _ (fun _ => trivial) harcs
  unfold scanState
  dsimp only
  split
  · exact hkept .weighted (fst.finalWeight s ≠ 1) _ (fun _ => trivial) hfirst
  · exact hkept .string _ _ (fun _ => trivial) hfirst

theorem kept_scanStates (hkept : Kept mask P) (states : List ℕ) (scan : BitVec 64 × ℕ)
    (h : P scan.1) : P (states.foldl (scanState fst mask scc) scan).1 := by
  induction states generalizing scan with
  | nil => exact h
  | cons s states ih => exact ih _ (kept_scanState hkept scan s h)

theorem kept_scanProperties (hasks : mask &&& ~~~(kBinaryProperties ||| kDfsProperties) ≠ 0)
    (hkept : Kept mask P) (props : BitVec 64) (h : P (scanStart mask props)) :
    P (scanProperties fst mask scc props) := by
  have hstates : P ((List.range fst.numStates).foldl (scanState fst mask scc)
      (scanStart mask props, 0)).1 := kept_scanStates hkept _ _ h
  unfold scanProperties
  rw [if_pos hasks]
  dsimp only
  split
  · exact hkept .string _ _ (fun _ => trivial) hstates
  · exact hstates

end Keeping

section Starting

/- What is asserted before anything is seen. -/
def startBits (checkI checkO cycles : Bool) : BitVec 64 :=
  (kAcceptor ||| kNoEpsilons ||| kNoIEpsilons ||| kNoOEpsilons ||| kILabelSorted |||
    kOLabelSorted ||| kUnweighted ||| kTopSorted ||| kString) |||
  (if checkI then kIDeterministic else 0) ||| (if checkO then kODeterministic else 0) |||
  (if cycles then kUnweightedCycles else 0)

def asserts (checkI checkO cycles : Bool) : TrinaryProperty → Bool
  | .iDeterministic => checkI
  | .oDeterministic => checkO
  | .weightedCycles => cycles
  | .cyclic | .initialCyclic | .accessible | .coAccessible => false
  | _ => true

theorem held_startBits (checkI checkO cycles : Bool) (p : TrinaryProperty) :
    (startBits checkI checkO cycles &&& assumed p ≠ 0 ↔ asserts checkI checkO cycles p = true) ∧
      startBits checkI checkO cycles &&& denied p = 0 := by
  cases p <;> cases checkI <;> cases checkO <;> cases cycles <;> decide

theorem scanStart_eq (mask props : BitVec 64) : scanStart mask props = props |||
    startBits (mask &&& (kIDeterministic ||| kNonIDeterministic) ≠ 0)
      (mask &&& (kODeterministic ||| kNonODeterministic) ≠ 0) (mask &&& kCycleProperties ≠ 0) := by
  have hstart : ∀ (i o c : Prop) [Decidable i] [Decidable o] [Decidable c],
      (let props := props ||| (kAcceptor ||| kNoEpsilons ||| kNoIEpsilons ||| kNoOEpsilons |||
          kILabelSorted ||| kOLabelSorted ||| kUnweighted ||| kTopSorted ||| kString)
        let props := if i then props ||| kIDeterministic else props
        let props := if o then props ||| kODeterministic else props
        if c then props ||| kUnweightedCycles else props) = props ||| startBits i o c := by
    intro i o c _ _ _
    by_cases hi : i <;> by_cases ho : o <;> by_cases hc : c <;>
      simp [startBits, hi, ho, hc, BitVec.or_assoc]
  exact hstart _ _ _

theorem held_or_iff {x y bit : BitVec 64} : Held (x ||| y) bit ↔ Held x bit ∨ Held y bit :=
  ⟨held_or, fun h => h.elim (fun hx => held_or_left hx y) (held_or_right x)⟩

end Starting

section Outside

variable {set clear m bit : BitVec 64}

theorem settle_and_outside (hset : set &&& m = set) (hclear : clear &&& m = clear)
    (hbit : m &&& bit = 0) (c : Bool) (props : BitVec 64) :
    settle c set clear props &&& bit = props &&& bit := by
  refine settle_and_of_disjoint ?_ ?_ c props
  · rw [← hset, BitVec.and_assoc, hbit]
    exact BitVec.and_zero
  · have hnone : clear &&& bit = 0 := by
      rw [← hclear, BitVec.and_assoc, hbit]
      exact BitVec.and_zero
    apply BitVec.eq_of_getLsbD_eq
    intro i hi
    have hbits := congrArg (fun x => x.getLsbD i) hnone
    rw [BitVec.getLsbD_and, BitVec.getLsbD_not]
    simp only [BitVec.getLsbD_and] at hbits
    cases hc : clear.getLsbD i <;> cases hb : bit.getLsbD i <;> simp_all

theorem raise_and_outside {pair : BitPair} (hpair : pair ∈ pairs) (hbit : kDfsProperties &&& bit = 0)
    (props : BitVec 64) : raise pair props &&& bit = props &&& bit := by
  have hin : ∀ pair ∈ pairs, pair.1 &&& kDfsProperties = pair.1 ∧
      pair.2 &&& kDfsProperties = pair.2 := by
    intro pair hpair
    simp only [pairs, List.mem_cons, List.not_mem_nil, or_false] at hpair
    rcases hpair with rfl | rfl | rfl | rfl <;> decide
  obtain ⟨hset, hclear⟩ := hin pair hpair
  exact settle_and_outside hset hclear hbit true props

theorem initVisit_and_outside (hbit : kDfsProperties &&& bit = 0) (v : SccVisitor) :
    (SccVisitor.initVisit true v).building &&& bit = v.building &&& bit := by
  have hfirst : settle true (kAcyclic ||| kInitialAcyclic ||| kAccessible)
      (kCyclic ||| kInitialCyclic ||| kNotAccessible) v.building &&& bit = v.building &&& bit :=
    settle_and_outside (by decide) (by decide) hbit true _
  rw [← hfirst]
  have hsecond : settle true kCoAccessible kNotCoAccessible (settle true
      (kAcyclic ||| kInitialAcyclic ||| kAccessible)
      (kCyclic ||| kInitialCyclic ||| kNotAccessible) v.building) &&& bit = _ :=
    settle_and_outside (by decide) (by decide) hbit true _
  exact hsecond

/- The search leaves the bits it is not about. -/
theorem visited_and_outside (isMember : W → Bool) {fst : VectorFst L W} {start : ℕ}
    (hstart : fst.start = some start) (hbit : kDfsProperties &&& bit = 0) (props : BitVec 64) :
    (dfsVisitAny fst (sccVisitor isMember true fst) (SccVisitor.new props)).building &&& bit =
      props &&& bit := by
  have hkept : ∀ pair ∈ pairs, ∀ x, x &&& bit = props &&& bit →
      raise pair x &&& bit = props &&& bit := fun pair hpair x hx =>
    (raise_and_outside hpair hbit x).trans hx
  exact building_visited isMember (fun _ => true) hstart hkept (SccVisitor.new props)
    (initVisit_and_outside hbit _)

end Outside

section Meaning

variable {isMember : W → Bool} {fst : VectorFst L W} {start : ℕ}

/- The definition of each property; a final weight is a member other than zero where states are
asked to reach one. -/
def Is (isMember : W → Bool) (fst : VectorFst L W) : TrinaryProperty → Prop
  | .coAccessible => ∀ s < fst.numStates, CoAccessible isMember fst (fun _ => true) s
  | p => Holds fst p

/- What the denied bit of a property says. -/
def Denied (isMember : W → Bool) (fst : VectorFst L W) : TrinaryProperty → Prop
  | .epsilons => Is isMember fst .epsilons
  | .iEpsilons => Is isMember fst .iEpsilons
  | .oEpsilons => Is isMember fst .oEpsilons
  | .weighted => Is isMember fst .weighted
  | .cyclic => Is isMember fst .cyclic
  | .initialCyclic => Is isMember fst .initialCyclic
  | .weightedCycles => Is isMember fst .weightedCycles
  | p => ¬ Is isMember fst p

/- One of the two bits of a property is set, the one that is true. -/
def Settled (isMember : W → Bool) (fst : VectorFst L W) (props : BitVec 64)
    (p : TrinaryProperty) : Prop :=
  (Held props p.positive ↔ Is isMember fst p) ∧ (Held props p.negative ↔ ¬ Is isMember fst p)

variable {props : BitVec 64}

theorem settled_iff : Settled isMember fst props p ↔
    (Held props (assumed p) ↔ ¬ Denied isMember fst p) ∧
      (Held props (denied p) ↔ Denied isMember fst p) := by
  cases p <;> simp only [Settled, assumed, denied, Denied, TrinaryProperty.positive,
    TrinaryProperty.negative, not_not, and_comm]

/- Neither bit of a property is set. -/
def Unset (props : BitVec 64) (p : TrinaryProperty) : Prop :=
  ¬ Held props (assumed p) ∧ ¬ Held props (denied p)

variable (isMember) in
theorem searched_settled (h : fst.InRange) (hstart : fst.start = some start) {p : TrinaryProperty}
    (hp : p ∈ searched) (props : BitVec 64) : Settled isMember fst
      (dfsVisitAny fst (sccVisitor isMember true fst) (SccVisitor.new props)).building p := by
  obtain ⟨d, hvisit, hinv, htarjan, hfinished⟩ :=
    dfsVisit_finished isMember (fun _ => true) hstart (SccVisitor.new props)
  have hfound := found_of_finished h hstart hinv htarjan hfinished
  unfold dfsVisitAny
  rw [hvisit]
  have hpaired := hfound.denied
  rw [settled_iff]
  simp only [searched, List.mem_cons, List.not_mem_nil, or_false] at hp
  rcases hp with rfl | rfl | rfl | rfl
  · have hbit : Held d.visitor.finishVisit.building kCyclic ↔ Holds fst .cyclic := by
      rw [hfound.cyclic, follows_any]
      rfl
    exact ⟨(hpaired cyclicPair (by decide)).trans (not_congr hbit), hbit⟩
  · have hbit : Held d.visitor.finishVisit.building kInitialCyclic ↔ Holds fst .initialCyclic := by
      rw [hfound.initialCyclic, follows_any]
      simp [Holds, hstart]
    exact ⟨(hpaired initialPair (by decide)).trans (not_congr hbit), hbit⟩
  · have hbit : Held d.visitor.finishVisit.building kNotAccessible ↔ ¬ Holds fst .accessible := by
      rw [hfound.notAccessible]
      unfold Reaches
      rw [follows_any]
      simp [Holds, hstart]
    exact ⟨(hpaired accessPair (by decide)).trans (not_congr hbit), hbit⟩
  · have hbit : Held d.visitor.finishVisit.building kNotCoAccessible ↔
        ¬ Is isMember fst .coAccessible := by
      rw [hfound.notCoAccessible]
      simp [Is]
    exact ⟨(hpaired coaccessPair (by decide)).trans (not_congr hbit), hbit⟩

variable {mask : BitVec 64}

/- The components tell which arcs lie on a cycle. -/
theorem weightedWithin_iff (h : fst.InRange) (hstart : fst.start = some start)
    (props : BitVec 64) : (∀ s, ∀ arc ∈ fst.arcs s, ¬ WeightedWithin
        (dfsVisitAny fst (sccVisitor isMember true fst) (SccVisitor.new props)).components s arc) ↔
      ¬ Holds fst .weightedCycles := by
  obtain ⟨d, hvisit, hinv, htarjan, hfinished⟩ :=
    dfsVisit_finished isMember (fun _ => true) hstart (SccVisitor.new props)
  have hfound := found_of_finished h hstart hinv htarjan hfinished
  have hlen := len_finished h hstart hinv htarjan hfinished
  unfold dfsVisitAny
  rw [hvisit]
  have hget : ∀ s < fst.numStates, d.visitor.finishVisit.components[s]? =
      some ((d.visitor.finishVisit.scc s).getD d.visitor.finishVisit.nscc) := by
    intro s hs
    unfold CcVisitors.SccVisitor.components
    rw [hlen, List.getElem?_map, List.getElem?_range hs]
    rfl
  have hwithin : ∀ s, ∀ arc ∈ fst.arcs s,
      (WeightedWithin d.visitor.finishVisit.components s arc ↔
        PropertyBits.Nontrivial arc.weight ∧ ReflTransGen (Step fst) arc.nextstate s) := by
    intro s arc harc
    have hnext := h.arcs s arc harc
    have hs : s < fst.numStates := by
      by_contra hge
      rw [VectorFst.arcs_of_le (Nat.le_of_not_lt hge)] at harc
      cases harc
    obtain ⟨c, -, hc⟩ := hfound.numbered s hs
    obtain ⟨c', -, hc'⟩ := hfound.numbered arc.nextstate hnext
    have hcomponent := hfound.component arc.nextstate s hnext hs
    unfold Reaches at hcomponent
    rw [hc, hc', follows_any, Option.some.injEq] at hcomponent
    have hstep : ReflTransGen (Step fst) s arc.nextstate := ReflTransGen.single ⟨arc, harc, rfl⟩
    unfold WeightedWithin
    rw [hget s hs, hget _ hnext, hc, hc']
    refine and_congr_right fun _ => ?_
    simp only [Option.getD_some, Option.some.injEq, exists_eq_left']
    exact hcomponent.trans (and_iff_left hstep)
  constructor
  · rintro hnone ⟨s, arc, harc, hweight, hback⟩
    exact hnone s arc harc ((hwithin s arc harc).mpr ⟨hweight, hback⟩)
  · intro hnone s arc harc hweighted
    obtain ⟨hweight, hback⟩ := (hwithin s arc harc).mp hweighted
    exact hnone ⟨s, arc, harc, hweight, hback⟩

/- A scan that looks for the bits of a property. -/
def Asks (mask : BitVec 64) : TrinaryProperty → Prop
  | .iDeterministic => Held mask (kIDeterministic ||| kNonIDeterministic)
  | .oDeterministic => Held mask (kODeterministic ||| kNonODeterministic)
  | .weightedCycles => Held mask kCycleProperties
  | .cyclic | .initialCyclic | .accessible | .coAccessible => False
  | _ => True

theorem held_assumed (hasks : mask &&& ~~~(kBinaryProperties ||| kDfsProperties) ≠ 0) (scc : List ℕ)
    (props : BitVec 64) (hp : Asks mask p) (hcycles : p ≠ .weightedCycles) :
    Held (scanProperties fst mask scc props) (assumed p) ↔ ¬ Denied isMember fst p := by
  cases p with
  | acceptor => exact (held_acceptor hasks props).trans not_not.symm
  | iDeterministic => exact (held_iDeterministic hasks props hp).trans not_not.symm
  | oDeterministic =>
    have hdet : Held (scanProperties fst mask scc props) (deterministicBit true) ↔
        UniqueLabels (sideLabel true) fst := held_deterministicBit hasks props hp
    exact hdet.trans not_not.symm
  | epsilons => exact held_noEpsilons hasks props
  | iEpsilons =>
    have hnone : Held (scanProperties fst mask scc props) (noEpsilonsBit false) ↔ _ :=
      held_noEpsilonsBit hasks props false
    refine hnone.trans ?_
    simp [EveryArc, Denied, Is, Holds, SomeArc, sideLabel]
  | oEpsilons =>
    have hnone : Held (scanProperties fst mask scc props) (noEpsilonsBit true) ↔ _ :=
      held_noEpsilonsBit hasks props true
    refine hnone.trans ?_
    simp [EveryArc, Denied, Is, Holds, SomeArc, sideLabel]
  | iLabelSorted =>
    have hsorted : Held (scanProperties fst mask scc props) (sortedBit false) ↔ _ :=
      held_sortedBit hasks props false
    exact hsorted.trans not_not.symm
  | oLabelSorted =>
    have hsorted : Held (scanProperties fst mask scc props) (sortedBit true) ↔ _ :=
      held_sortedBit hasks props true
    exact hsorted.trans not_not.symm
  | weighted => exact held_unweighted hasks props
  | topSorted => exact (held_topSorted hasks props).trans not_not.symm
  | string => exact (string_scanProperties hasks).trans not_not.symm
  | weightedCycles => exact absurd rfl hcycles
  | cyclic => exact hp.elim
  | initialCyclic => exact hp.elim
  | accessible => exact hp.elim
  | coAccessible => exact hp.elim

/- Denying a property keeps its two bits apart. -/
theorem kept_toggled (p : TrinaryProperty) :
    Kept mask fun props => Held props (denied p) ↔ ¬ Held props (assumed p) := by
  intro q c props _ htoggled
  by_cases heq : p = q
  · subst heq
    rw [(held_settle_self p c props).1, (held_settle_self p c props).2, htoggled]
    cases c <;> simp
  · rw [(held_settle_of_ne heq c props).1, (held_settle_of_ne heq c props).2]
    exact htoggled

/- What a scan does not look for it leaves. -/
theorem kept_unasked (hp : ¬ Asks mask p) (x : BitVec 64)
    (hx : p = .weightedCycles → ¬ Held x kUnweightedCycles) :
    Kept mask fun props => (Held props (assumed p) ↔ Held x (assumed p)) ∧
      (Held props (denied p) ↔ Held x (denied p)) := by
  intro q c props hdue hsame
  by_cases heq : p = q
  · subst heq
    have hc : c = false := by
      rw [Bool.eq_false_iff]
      intro hc
      have hdue := hdue hc
      cases p <;> first
        | exact hp hdue
        | exact hx rfl (hsame.1.mp hdue)
    rw [hc]
    exact hsame
  · rw [(held_settle_of_ne heq c props).1, (held_settle_of_ne heq c props).2]
    exact hsame

theorem asserts_iff (mask : BitVec 64) (p : TrinaryProperty) :
    asserts (mask &&& (kIDeterministic ||| kNonIDeterministic) ≠ 0)
      (mask &&& (kODeterministic ||| kNonODeterministic) ≠ 0) (mask &&& kCycleProperties ≠ 0) p =
        true ↔ Asks mask p := by
  cases p <;> simp [asserts, Asks, Held]

theorem held_scanStart (mask props : BitVec 64) (p : TrinaryProperty) :
    (Held (scanStart mask props) (assumed p) ↔ Held props (assumed p) ∨ Asks mask p) ∧
      (Held (scanStart mask props) (denied p) ↔ Held props (denied p)) := by
  obtain ⟨hassumed, hdenied⟩ := held_startBits
    (mask &&& (kIDeterministic ||| kNonIDeterministic) ≠ 0)
    (mask &&& (kODeterministic ||| kNonODeterministic) ≠ 0) (mask &&& kCycleProperties ≠ 0) p
  rw [scanStart_eq, held_or_iff, held_or_iff]
  refine ⟨or_congr_right (hassumed.trans (asserts_iff mask p)), or_iff_left ?_⟩
  exact fun hheld => hheld hdenied

/- What a scan settles of a property it looks for, unless it was given bits of it. -/
theorem scan_settles (hasks : mask &&& ~~~(kBinaryProperties ||| kDfsProperties) ≠ 0) (scc : List ℕ)
    (hp : Asks mask p) (hunset : Unset props p) (hcycles : p = .weightedCycles →
      ((∀ s, ∀ arc ∈ fst.arcs s, ¬ WeightedWithin scc s arc) ↔ ¬ Holds fst .weightedCycles)) :
    Settled isMember fst (scanProperties fst mask scc props) p := by
  obtain ⟨hassumed, hdenied⟩ := held_scanStart mask props p
  have htoggled : Held (scanProperties fst mask scc props) (denied p) ↔
      ¬ Held (scanProperties fst mask scc props) (assumed p) := by
    refine kept_scanProperties hasks (kept_toggled p) props ?_
    rw [hassumed, hdenied]
    exact iff_of_false hunset.2 (not_not.mpr (Or.inr hp))
  have hkept : Held (scanProperties fst mask scc props) (assumed p) ↔ ¬ Denied isMember fst p := by
    by_cases heq : p = .weightedCycles
    · subst heq
      refine (held_unweightedCycles hasks props).trans (Iff.trans ?_ (hcycles rfl))
      exact and_iff_right (hassumed.mpr (Or.inr hp))
    · exact held_assumed hasks scc props hp heq
  exact settled_iff.mpr ⟨hkept, htoggled.trans (not_congr hkept |>.trans not_not)⟩

variable (fst) in
/- What it leaves of one it does not look for. -/
theorem scan_leaves (hasks : mask &&& ~~~(kBinaryProperties ||| kDfsProperties) ≠ 0) (scc : List ℕ)
    (hp : ¬ Asks mask p) (hunset : p = .weightedCycles → Unset props p) :
    (Held (scanProperties fst mask scc props) (assumed p) ↔ Held props (assumed p)) ∧
      (Held (scanProperties fst mask scc props) (denied p) ↔ Held props (denied p)) := by
  have hx : p = .weightedCycles → ¬ Held props kUnweightedCycles := by
    rintro rfl
    exact (hunset rfl).1
  obtain ⟨hassumed, hdenied⟩ := held_scanStart mask props p
  refine kept_scanProperties hasks (kept_unasked hp props hx) props ⟨?_, hdenied⟩
  exact hassumed.trans (or_iff_left hp)

theorem held_within {x bit m : BitVec 64} (hsub : bit &&& m = bit) (h : Held x bit) :
    Held x m := by
  intro hzero
  apply h
  rw [← hsub, BitVec.and_comm bit m, ← BitVec.and_assoc, hzero]
  exact BitVec.zero_and

/- A property that a mask names. -/
def Named (mask : BitVec 64) (p : TrinaryProperty) : Prop :=
  Held mask p.positive ∨ Held mask p.negative

theorem named_of_scan (hnamed : Named mask p) (hp : p ∉ searched) :
    Held mask (~~~(kBinaryProperties ||| kDfsProperties)) ∧ Asks mask p := by
  have hsub : (p.positive &&& ~~~(kBinaryProperties ||| kDfsProperties) = p.positive ∧
      p.negative &&& ~~~(kBinaryProperties ||| kDfsProperties) = p.negative) := by
    revert hp
    cases p <;> decide
  refine ⟨hnamed.elim (held_within hsub.1) (held_within hsub.2), ?_⟩
  cases p with
  | iDeterministic => exact hnamed.elim (held_within (by decide)) (held_within (by decide))
  | oDeterministic => exact hnamed.elim (held_within (by decide)) (held_within (by decide))
  | weightedCycles => exact hnamed.elim (held_within (by decide)) (held_within (by decide))
  | cyclic => exact hp (by decide)
  | initialCyclic => exact hp (by decide)
  | accessible => exact hp (by decide)
  | coAccessible => exact hp (by decide)
  | _ => trivial

theorem named_of_search (hnamed : Named mask p) (hp : p ∈ searched) :
    Held mask kCycleProperties := by
  have hsub : p.positive &&& kCycleProperties = p.positive ∧
      p.negative &&& kCycleProperties = p.negative := by
    revert hp
    cases p <;> decide
  exact hnamed.elim (held_within hsub.1) (held_within hsub.2)

theorem not_asks_of_searched (hp : p ∈ searched) : ¬ Asks mask p := by
  simp only [searched, List.mem_cons, List.not_mem_nil, or_false] at hp
  rcases hp with rfl | rfl | rfl | rfl <;> exact id

/- The stored bits a scan starts from say nothing of a trinary property. -/
theorem unset_binary (props : BitVec 64) (p : TrinaryProperty) :
    Unset (props &&& kBinaryProperties) p := by
  have hapart : kBinaryProperties &&& assumed p = 0 ∧ kBinaryProperties &&& denied p = 0 := by
    cases p <;> decide
  exact ⟨fun hheld => (held_and hheld).2 hapart.1, fun hheld => (held_and hheld).2 hapart.2⟩

theorem unset_searched (isMember : W → Bool) (hstart : fst.start = some start) (hp : p ∉ searched)
    (hunset : Unset props p) :
    Unset (dfsVisitAny fst (sccVisitor isMember true fst) (SccVisitor.new props)).building p := by
  have hapart : kDfsProperties &&& assumed p = 0 ∧ kDfsProperties &&& denied p = 0 := by
    revert hp
    cases p <;> decide
  exact ⟨fun hheld => hunset.1 ((held_of_eq
      (visited_and_outside isMember hstart hapart.1 props)).mp hheld),
    fun hheld => hunset.2 ((held_of_eq
      (visited_and_outside isMember hstart hapart.2 props)).mp hheld)⟩

theorem settled_of_iff {props' : BitVec 64}
    (h : (Held props' (assumed p) ↔ Held props (assumed p)) ∧
      (Held props' (denied p) ↔ Held props (denied p))) (hsettled : Settled isMember fst props p) :
    Settled isMember fst props' p := by
  rw [settled_iff] at hsettled ⊢
  exact ⟨h.1.trans hsettled.1, h.2.trans hsettled.2⟩

theorem unset_of_iff {props' : BitVec 64} (h : (Held props' (assumed p) ↔ Held props (assumed p)) ∧
      (Held props' (denied p) ↔ Held props (denied p))) (hunset : Unset props p) : Unset props' p :=
  ⟨fun hheld => hunset.1 (h.1.mp hheld), fun hheld => hunset.2 (h.2.mp hheld)⟩

/- What a scan makes of the bits the search has left, where it runs. -/
theorem scanned_settles (scc : List ℕ)
    (hsearched : p ∈ searched → Settled isMember fst props p ∨ ¬ Named mask p ∧ Unset props p)
    (hunset : p ∉ searched → Unset props p) (hcycles : p = .weightedCycles → Asks mask p →
      ((∀ s, ∀ arc ∈ fst.arcs s, ¬ WeightedWithin scc s arc) ↔ ¬ Holds fst .weightedCycles)) :
    Settled isMember fst (scanProperties fst mask scc props) p ∨
      ¬ Named mask p ∧ Unset (scanProperties fst mask scc props) p := by
  by_cases hasks : mask &&& ~~~(kBinaryProperties ||| kDfsProperties) ≠ 0
  · by_cases hp : Asks mask p
    · refine Or.inl (scan_settles hasks scc hp (hunset ?_) fun heq => hcycles heq hp)
      exact fun hmem => not_asks_of_searched hmem hp
    · have hleaves := scan_leaves fst hasks scc hp fun heq =>
        hunset (by subst heq; decide)
      by_cases hmem : p ∈ searched
      · rcases hsearched hmem with hsettled | ⟨hnamed, hnone⟩
        · exact Or.inl (settled_of_iff hleaves hsettled)
        · exact Or.inr ⟨hnamed, unset_of_iff hleaves hnone⟩
      · exact Or.inr ⟨fun hnamed => hp (named_of_scan hnamed hmem).2,
          unset_of_iff hleaves (hunset hmem)⟩
  · have hleaves : scanProperties fst mask scc props = props := by
      unfold scanProperties
      rw [if_neg hasks]
    rw [hleaves]
    by_cases hmem : p ∈ searched
    · exact hsearched hmem
    · exact Or.inr ⟨fun hnamed => hasks (named_of_scan hnamed hmem).1, hunset hmem⟩

theorem computed_settles (h : fst.InRange) (hstart : fst.start = some start) (mask : BitVec 64)
    (p : TrinaryProperty) : Settled isMember fst (computeProperties isMember fst mask) p ∨
      ¬ Named mask p ∧ Unset (computeProperties isMember fst mask) p := by
  have hbase := unset_binary (fst.properties &&& kFstProperties) p
  unfold computeProperties
  dsimp only
  split
  next hcycles =>
    have hdone := fun hmem : p ∈ searched => searched_settled isMember h hstart hmem
      (fst.properties &&& kFstProperties &&& kBinaryProperties)
    exact scanned_settles _ (fun hmem => Or.inl (hdone hmem))
      (fun hmem => unset_searched isMember hstart hmem hbase)
      fun _ _ => weightedWithin_iff h hstart _
  next hcycles =>
    refine scanned_settles _ (fun hmem => Or.inr ⟨fun hnamed => ?_, hbase⟩) (fun _ => hbase) ?_
    · exact hcycles (named_of_search hnamed hmem)
    rintro rfl hasks
    exact absurd hasks hcycles

theorem binary_scanned (scc : List ℕ) (props : BitVec 64) :
    scanProperties fst mask scc props &&& kBinaryProperties = props &&& kBinaryProperties := by
  by_cases hasks : mask &&& ~~~(kBinaryProperties ||| kDfsProperties) ≠ 0
  · refine kept_scanProperties (P := fun x => x &&& kBinaryProperties = props &&& kBinaryProperties)
      hasks ?_ props ?_
    · intro p c x _ hx
      have hapart : denied p &&& kBinaryProperties = 0 ∧
          ~~~assumed p &&& kBinaryProperties = kBinaryProperties := by
        cases p <;> decide
      exact (settle_and_of_disjoint hapart.1 hapart.2 c x).trans hx
    · have hnone : ∀ i o c, startBits i o c &&& kBinaryProperties = 0 := by decide
      rw [scanStart_eq, BitVec.and_or_distrib_right, hnone]
      exact BitVec.or_zero
  · unfold scanProperties
    rw [if_neg hasks]

theorem binary_computed (hstart : fst.start = some start) (mask : BitVec 64) :
    computeProperties isMember fst mask &&& kBinaryProperties =
      fst.properties &&& kBinaryProperties := by
  have hbase : fst.properties &&& kFstProperties &&& kBinaryProperties &&& kBinaryProperties =
      fst.properties &&& kBinaryProperties := by
    have hsub : kFstProperties &&& (kBinaryProperties &&& kBinaryProperties) =
      kBinaryProperties := by decide
    rw [BitVec.and_assoc, BitVec.and_assoc, hsub]
  unfold computeProperties
  dsimp only
  split
  · rw [binary_scanned, visited_and_outside isMember hstart (by decide), hbase]
  · rw [binary_scanned, hbase]

/- A property with one of its bits set has both known. -/
theorem named_known (hnamed : Named (knownProperties props) p) : ¬ Unset props p := by
  obtain ⟨hpos, hneg⟩ := getLsbD_known props p
  have hbits : Held props p.positive ∨ Held props p.negative := by
    rw [held_positive, held_negative, ← Bool.or_eq_true_iff]
    rcases hnamed with hheld | hheld
    · rw [← hpos]
      exact (held_positive p).mp hheld
    · rw [← hneg]
      exact (held_negative p).mp hheld
  rintro ⟨hassumed, hdenied⟩
  cases p <;> exact hbits.elim (by assumption) (by assumption)

/- A mask gets every property it names settled, and what else is reported as known is right too;
the stored bits are handed on. -/
theorem compute_settles (isMember : W → Bool) (h : fst.InRange) (hstart : fst.start = some start)
    (mask : BitVec 64) : (∀ p, Named mask p →
        Settled isMember fst (computeProperties isMember fst mask) p) ∧
      (∀ p, Named (knownProperties (computeProperties isMember fst mask)) p →
        Settled isMember fst (computeProperties isMember fst mask) p) ∧
      computeProperties isMember fst mask &&& kBinaryProperties =
        fst.properties &&& kBinaryProperties := by
  refine ⟨fun p hnamed => ?_, fun p hknown => ?_, binary_computed hstart mask⟩
  · exact (computed_settles h hstart mask p).resolve_right fun hnone => hnone.1 hnamed
  · exact (computed_settles h hstart mask p).resolve_right fun hnone => named_known hknown hnone.2

theorem compute_settles_cycle : cycleFst.InRange ∧ cycleFst.start = some 0 ∧
    (∀ p, Named kFstProperties p → Settled (fun _ => true) cycleFst
      (computeProperties (fun _ => true) cycleFst kFstProperties) p) :=
  ⟨cycleFst_inRange, rfl, (compute_settles (fun _ => true) cycleFst_inRange rfl kFstProperties).1⟩

end Meaning

end Sicada.ComputeSettles
