import Sicada.ScanExact

namespace Sicada.ComputeExact

open PropertyBits ScanExact

variable {L W : Type} [ArcLabel L] [Zero W] [One W] [DecidableEq W] {isMember : W → Bool}
  {fst : VectorFst L W} {mask : BitVec 64} {scc : List ℕ}

/- With or without the components, it is the scan that answers. -/
variable (isMember) in
theorem computeProperties_eq_scan (fst : VectorFst L W) (mask : BitVec 64) :
    ∃ scc props, computeProperties isMember fst mask = scanProperties fst mask scc props := by
  unfold computeProperties
  dsimp only
  split
  · exact ⟨_, _, rfl⟩
  · exact ⟨_, _, rfl⟩

theorem holds_of_cached (h : Honest fst) {p : TrinaryProperty}
    (hall : cachedProperties isMember fst mask = mask) (hmask : Held mask p.positive)
    (hscan : ∀ scc props, Held (scanProperties fst mask scc props) p.positive → Holds fst p) :
    Holds fst p := by
  have hheld : Held (computeOrUseStoredProperties isMember fst mask) p.positive :=
    (held_positive p).mpr (getLsbD_of_and_eq hall ((held_positive p).mp hmask))
  unfold computeOrUseStoredProperties at hheld
  dsimp only at hheld
  split at hheld
  · next hknown => exact ((stored_exact h hknown).1 hmask).mp hheld
  · obtain ⟨scc, props, heq⟩ := computeProperties_eq_scan isMember fst mask
    rw [heq] at hheld
    exact hscan scc props hheld

theorem not_holds_of_cached (h : Honest fst) {p : TrinaryProperty}
    (hall : cachedProperties isMember fst mask = mask) (hmask : Held mask p.negative)
    (hscan : ∀ scc props, Held (scanProperties fst mask scc props) p.negative → ¬ Holds fst p) :
    ¬ Holds fst p := by
  have hheld : Held (computeOrUseStoredProperties isMember fst mask) p.negative :=
    (held_negative p).mpr (getLsbD_of_and_eq hall ((held_negative p).mp hmask))
  unfold computeOrUseStoredProperties at hheld
  dsimp only at hheld
  split at hheld
  · next hknown => exact ((stored_exact h hknown).2 hmask).mp hheld
  · obtain ⟨scc, props, heq⟩ := computeProperties_eq_scan isMember fst mask
    rw [heq] at hheld
    exact hscan scc props hheld

/- Each state of the FST leads to the next one only. -/
def Chain (fst : VectorFst L W) : Prop := ∀ s, ∀ arc ∈ fst.arcs s, arc.nextstate = s + 1

theorem held_settle_string {c : Bool} {props : BitVec 64} :
    Held (settle c kNotString kString props) kString ↔ Held props kString ∧ c = false := by
  have heq : settle c kNotString kString props &&& kString =
      if c then 0 else props &&& kString := settle_and_of_clear (by decide) c props
  exact held_if heq

theorem chain_scanArcs {s : ℕ} {arcs : List (Arc L W)} {scan : ArcScan L W} :
    Held (arcs.foldl (scanArc mask scc s) scan).props kString ↔
      Held scan.props kString ∧ ∀ arc ∈ arcs, arc.nextstate = s + 1 := by
  refine held_scanArcs (fun scan arc => ?_) arcs scan
  have heq : (scanArc mask scc s scan arc).props &&& kString =
      if (decide (arc.nextstate ≠ s + 1)) then 0 else scan.props &&& kString := by
    simp (disch := decide) only [scanArc, settle_and_of_disjoint, settle_and_of_clear]
  rw [held_if heq, decide_eq_false_iff_not, not_not]

theorem narcs_scanArcs (s : ℕ) (arcs : List (Arc L W)) (scan : ArcScan L W) :
    (arcs.foldl (scanArc mask scc s) scan).narcs = scan.narcs + arcs.length := by
  induction arcs generalizing scan with
  | nil => rfl
  | cons arc arcs ih =>
    rw [List.foldl_cons, ih, List.length_cons]
    change scan.narcs + 1 + arcs.length = _
    omega

/- A state that keeps the bit leads to the next one only, comes after no final state, and has
one arc where it is not final. -/
theorem string_scanState {s : ℕ} {scan : BitVec 64 × ℕ} :
    Held (scanState fst mask scc scan s).1 kString ↔
      Held scan.1 kString ∧ scan.2 = 0 ∧ (∀ arc ∈ fst.arcs s, arc.nextstate = s + 1) ∧
        (fst.finalWeight s = 0 → fst.numArcs s = 1) := by
  have hfirst : Held (settle (0 < scan.2) kNotString kString
        ((fst.arcs s).foldl (scanArc mask scc s) ⟨scan.1, none, 0, [], []⟩).props) kString ↔
      Held scan.1 kString ∧ scan.2 = 0 ∧ ∀ arc ∈ fst.arcs s, arc.nextstate = s + 1 := by
    rw [held_settle_string, chain_scanArcs, decide_eq_false_iff_not, Nat.not_lt, Nat.le_zero,
      and_assoc, and_comm (a := ∀ arc ∈ fst.arcs s, arc.nextstate = s + 1)]
  unfold scanState
  dsimp only
  by_cases hfinal : fst.finalWeight s = 0
  · rw [if_neg (not_not.mpr hfinal), held_settle_string, hfirst, narcs_scanArcs, Nat.zero_add,
      decide_eq_false_iff_not, not_not, VectorFst.numArcs_eq]
    simp only [hfinal, true_implies, and_assoc]
  · rw [if_pos hfinal, held_of_eq (settle_and_of_disjoint (by decide) (by decide) _ _), hfirst]
    simp only [hfinal, false_implies, and_true]

theorem count_scanState (s : ℕ) (scan : BitVec 64 × ℕ) : (scanState fst mask scc scan s).2 =
    if fst.finalWeight s ≠ 0 then scan.2 + 1 else scan.2 := by
  unfold scanState
  dsimp only
  split <;> rfl

theorem string_scanStates {states : List ℕ} {scan : BitVec 64 × ℕ} :
    Held (states.foldl (scanState fst mask scc) scan).1 kString ↔
      Held scan.1 kString ∧ (states ≠ [] → scan.2 = 0) ∧
        states.Pairwise (fun s _ => fst.finalWeight s = 0) ∧
        ∀ s ∈ states, (∀ arc ∈ fst.arcs s, arc.nextstate = s + 1) ∧
          (fst.finalWeight s = 0 → fst.numArcs s = 1) := by
  induction states generalizing scan with
  | nil => simp
  | cons s states ih =>
    rw [List.foldl_cons, ih, string_scanState, count_scanState, List.pairwise_cons,
      List.forall_mem_cons]
    -- A final state counts, and the count is zero where the next one is scanned.
    constructor
    · rintro ⟨⟨hscan, hzero, hchain, hone⟩, hcount, hpairwise, hall⟩
      refine ⟨hscan, fun _ => hzero, ⟨fun t ht => ?_, hpairwise⟩, ⟨hchain, hone⟩, hall⟩
      have hnext := hcount (List.ne_nil_of_mem ht)
      by_contra hfinal
      rw [if_pos hfinal] at hnext
      omega
    · rintro ⟨hscan, hzero, ⟨hlast, hpairwise⟩, ⟨hchain, hone⟩, hall⟩
      have hfirst := hzero (List.cons_ne_nil s states)
      refine ⟨⟨hscan, hfirst, hchain, hone⟩, fun hne => ?_, hpairwise, hall⟩
      obtain ⟨t, ht⟩ := List.exists_mem_of_ne_nil states hne
      rw [if_neg (not_not.mpr (hlast t ht))]
      exact hfirst

/- Only the last of the states there are is final. -/
theorem pairwise_final : (List.range fst.numStates).Pairwise (fun s _ => fst.finalWeight s = 0) ↔
    ∀ s < fst.numStates, fst.finalWeight s ≠ 0 → s + 1 = fst.numStates := by
  rw [List.pairwise_iff_getElem]
  simp only [List.length_range, List.getElem_range]
  constructor
  · intro h s hs hfinal
    by_contra hlast
    exact hfinal (h s (s + 1) hs (by omega) (Nat.lt_succ_self s))
  · intro h s t hs ht hst
    by_contra hfinal
    have hlast := h s hs hfinal
    omega

theorem string_scanProperties {props : BitVec 64}
    (hasks : mask &&& ~~~(kBinaryProperties ||| kDfsProperties) ≠ 0) :
    Held (scanProperties fst mask scc props) kString ↔ Holds fst .string := by
  have hscan : Held (scanProperties fst mask scc props) kString ↔
      Held ((List.range fst.numStates).foldl (scanState fst mask scc)
        (scanStart mask props, 0)).1 kString ∧ ∀ start, fst.start = some start → start = 0 := by
    unfold scanProperties
    rw [if_pos hasks]
    dsimp only
    split
    · next start hstart =>
      rw [held_settle_string, decide_eq_false_iff_not, not_not]
      refine and_congr_right fun _ => ⟨fun hzero s hs => ?_, fun h => h start hstart⟩
      exact (Option.some.inj (hstart.symm.trans hs)).symm.trans hzero
    · next hstart =>
      refine (and_iff_left ?_).symm
      intro s hs
      rw [hstart] at hs
      cases hs
  rw [hscan, string_scanStates, pairwise_final, and_iff_right (held_start props (by decide))]
  simp only [List.mem_range, implies_true, true_and]
  constructor
  · rintro ⟨⟨hlast, hall⟩, hstart⟩
    exact ⟨hstart, fun s hs => ⟨(hall s hs).1, hlast s hs, (hall s hs).2⟩⟩
  · rintro ⟨hstart, hall⟩
    exact ⟨⟨fun s hs => (hall s hs).2.1, fun s hs => ⟨(hall s hs).1, (hall s hs).2.2⟩⟩, hstart⟩

variable (h : Honest fst) (hall : cachedProperties isMember fst mask = mask)
  (hasks : mask &&& ~~~(kBinaryProperties ||| kDfsProperties) ≠ 0)
include h hall hasks

theorem acceptor_of_cached (hmask : Held mask kAcceptor) : Holds fst .acceptor :=
  holds_of_cached h hall hmask fun _ props => (held_acceptor hasks props).mp

theorem unweighted_of_cached (hmask : Held mask kUnweighted) : ¬ Holds fst .weighted :=
  not_holds_of_cached h hall hmask fun _ props => (held_unweighted hasks props).mp

theorem string_of_cached (hmask : Held mask kString) : Holds fst .string :=
  holds_of_cached h hall hmask fun _ _ => (string_scanProperties hasks).mp

theorem chain_of_cached (hmask : Held mask kString) : Chain fst :=
  VectorFst.forall_arcs_of_lt fun s hs => ((string_of_cached h hall hasks hmask).2 s hs).1

theorem noEpsilonsBit_of_cached {byOutput : Bool} (hmask : Held mask (noEpsilonsBit byOutput)) :
    EveryArc (fun arc => sideLabel byOutput arc ≠ epsilon) fst := by
  cases byOutput
  · have hnone : ¬ Holds fst .iEpsilons := not_holds_of_cached h hall hmask fun _ props hheld => by
      rintro ⟨s, arc, harc, hlabel⟩
      exact (held_noEpsilonsBit hasks props false).mp hheld s arc harc hlabel
    exact fun s arc harc hlabel => hnone ⟨s, arc, harc, hlabel⟩
  · have hnone : ¬ Holds fst .oEpsilons := not_holds_of_cached h hall hmask fun _ props hheld => by
      rintro ⟨s, arc, harc, hlabel⟩
      exact (held_noEpsilonsBit hasks props true).mp hheld s arc harc hlabel
    exact fun s arc harc hlabel => hnone ⟨s, arc, harc, hlabel⟩

theorem deterministicBit_of_cached {byOutput : Bool}
    (hmask : Held mask (deterministicBit byOutput))
    (hdet : mask &&& (deterministicBit byOutput ||| nonDeterministicBit byOutput) ≠ 0) :
    UniqueLabels (sideLabel byOutput) fst := by
  cases byOutput
  · exact (holds_of_cached h hall hmask fun _ props hheld =>
      (held_deterministicBit hasks props hdet).mp hheld : Holds fst .iDeterministic)
  · exact (holds_of_cached h hall hmask fun _ props hheld =>
      (held_deterministicBit hasks props hdet).mp hheld : Holds fst .oDeterministic)

end Sicada.ComputeExact
