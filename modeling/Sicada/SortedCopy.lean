import Sicada.ComposeMoves
import Sicada.EpsilonCounts
import Sicada.PropertyBits

namespace Sicada.SortedCopy

open PropertyBits EpsilonCounts ArcSort

variable {L W : Type} [ArcLabel L] [Zero W] [One W] [DecidableEq W]

/- The FST with its first `k` states copied and the others still empty. -/
structure CopiedTo (fst copy : VectorFst L W) (k : ℕ) : Prop where
  numStates : copy.numStates = fst.numStates
  start : copy.start = fst.start
  arcs : ∀ s, copy.arcs s = if s < k then fst.arcs s else []
  finalWeight : ∀ s, copy.finalWeight s = if s < k then fst.finalWeight s else 0
  counts : CountsExact copy

variable {fst copy : VectorFst L W}

theorem countsExact_addArcs (h : CountsExact copy) (state : ℕ) (arcs : List (Arc L W)) :
    CountsExact (arcs.foldl (fun f arc => f.addArc state arc) copy) := by
  induction arcs generalizing copy with
  | nil => exact h
  | cons arc arcs ih => exact ih (countsExact_addArc h state arc)

theorem copiedTo_succ {k : ℕ} (h : CopiedTo fst copy k) (hk : k < fst.numStates) :
    CopiedTo fst (copyState fst copy k) (k + 1) := by
  have hlt : k < copy.numStates := h.numStates ▸ hk
  have hlt' : k < (copy.setFinal k (fst.finalWeight k)).numStates := by
    rwa [VectorFst.numStates_setFinal]
  have hempty : copy.arcs k = [] := by rw [h.arcs, if_neg (lt_irrefl k)]
  unfold copyState
  refine ⟨?_, ?_, ?_, ?_, ?_⟩
  · rw [VectorFst.numStates_addArcs, VectorFst.numStates_setFinal, h.numStates]
  · rw [VectorFst.start_addArcs, VectorFst.start_setFinal, h.start]
  · intro s
    rw [VectorFst.arcs_addArcs hlt', VectorFst.arcs_setFinal, hempty, List.nil_append]
    rcases eq_or_ne s k with rfl | hne
    · rw [Function.update_self, if_pos (Nat.lt_succ_self s)]
    · rw [Function.update_of_ne hne, h.arcs]
      exact if_congr (by omega) rfl rfl
  · intro s
    rw [VectorFst.finalWeight_addArcs, VectorFst.finalWeight_setFinal _ hlt]
    rcases eq_or_ne s k with rfl | hne
    · rw [Function.update_self, if_pos (Nat.lt_succ_self s)]
    · rw [Function.update_of_ne hne, h.finalWeight]
      exact if_congr (by omega) rfl rfl
  · exact countsExact_addArcs (countsExact_setFinal h.counts _ _) _ _

theorem copiedTo_range {k : ℕ} (h : CopiedTo fst copy 0) (hk : k ≤ fst.numStates) :
    CopiedTo fst ((List.range k).foldl (copyState fst) copy) k := by
  induction k with
  | zero => exact h
  | succ k ih =>
    rw [List.range_succ, List.foldl_append]
    exact copiedTo_succ (ih (by omega)) (by omega)

theorem copiedTo_zero (hnum : copy.numStates = fst.numStates) (hstart : copy.start = fst.start)
    (hstates : copy.states = List.replicate fst.numStates VectorState.new) :
    CopiedTo fst copy 0 := by
  have hcopy : copy.arcs = (VectorFst.new : VectorFst L W).arcs ∧
      copy.finalWeight = (VectorFst.new : VectorFst L W).finalWeight := by
    have harcs := VectorFst.arcs_addStates (VectorFst.new : VectorFst L W) fst.numStates
    have hfinal := VectorFst.finalWeight_addStates (VectorFst.new : VectorFst L W) fst.numStates
    constructor
    · rw [← harcs]
      funext s
      simp [VectorFst.arcs, hstates, VectorFst.addStates, VectorFst.new]
    · rw [← hfinal]
      funext s
      simp [VectorFst.finalWeight, hstates, VectorFst.addStates, VectorFst.new]
  refine ⟨hnum, hstart, ?_, ?_, ?_⟩
  · intro s
    rw [hcopy.1]
    simp [VectorFst.arcs, VectorFst.new]
  · intro s
    rw [hcopy.2]
    simp [VectorFst.finalWeight, VectorFst.new]
  · rw [countsExact_iff, hstates]
    intro s hs
    exact List.eq_of_mem_replicate hs ▸ exact_new

/- The copy before it is asked whether it is sorted. -/
def plainCopy (fst : VectorFst L W) : VectorFst L W :=
  let copy := VectorFst.new.addStates fst.numStates
  let copy := match fst.start with
    | some start => copy.setStart (some start)
    | none => copy
  (List.range fst.numStates).foldl (copyState fst) copy

theorem copiedTo_plainCopy (fst : VectorFst L W) :
    CopiedTo fst (plainCopy fst) fst.numStates := by
  unfold plainCopy
  apply copiedTo_range _ le_rfl
  cases hstart : fst.start with
  | none =>
    apply copiedTo_zero
    · simp [VectorFst.numStates, VectorFst.addStates, VectorFst.new]
    · exact hstart.symm
    · simp [VectorFst.addStates, VectorFst.new]
  | some start =>
    apply copiedTo_zero
    · simp [VectorFst.numStates, VectorFst.setStart, VectorFst.addStates, VectorFst.new]
    · exact hstart.symm
    · simp [VectorFst.setStart, VectorFst.addStates, VectorFst.new]

/- What a sorted copy has of the FST it is made from. -/
structure IsCopy (fst copy : VectorFst L W) : Prop where
  start : copy.start = fst.start
  arcs : ∀ s, (copy.arcs s).Perm (fst.arcs s)
  finalWeight : copy.finalWeight = fst.finalWeight
  icounts : ∀ s, copy.numInputEpsilons s = (copy.arcs s).countP (·.ilabel = epsilon)
  ocounts : ∀ s, copy.numOutputEpsilons s = (copy.arcs s).countP (·.olabel = epsilon)

theorem isCopy_of_copiedTo (h : CopiedTo fst copy fst.numStates) (props : BitVec 64) :
    IsCopy fst { copy with properties := props } := by
  refine ⟨h.start, ?_, ?_, fun s => (h.counts s).1, fun s => (h.counts s).2⟩
  · intro s
    have harcs : ({ copy with properties := props } : VectorFst L W).arcs s = copy.arcs s := rfl
    rw [harcs, h.arcs]
    split
    · exact List.Perm.refl _
    · rw [VectorFst.arcs_of_le (by omega)]
  · funext s
    have hfinal : ({ copy with properties := props } : VectorFst L W).finalWeight s =
        copy.finalWeight s := rfl
    rw [hfinal, h.finalWeight]
    split
    · rfl
    · rw [VectorFst.finalWeight_of_le (by omega)]

theorem isCopy_arcSort (h : IsCopy fst copy) (comp : ArcCompare L W) :
    IsCopy fst (copy.arcSort comp) := by
  have hperm : ∀ s, ((copy.arcSort comp).arcs s).Perm (copy.arcs s) := by
    intro s
    rw [arcs_arcSort]
    exact List.mergeSort_perm _ _
  refine ⟨h.start, fun s => (hperm s).trans (h.arcs s), ?_, ?_, ?_⟩
  · rw [← h.finalWeight]
    funext s
    exact finalWeight_arcSort copy comp s
  · intro s
    rw [numInputEpsilons_arcSort, h.icounts, (hperm s).countP_eq]
  · intro s
    rw [numOutputEpsilons_arcSort, h.ocounts, (hperm s).countP_eq]

/- The stored answer to whether an FST is sorted, where there is one, is right. -/
def SortedBitHonest (byOutput : Bool) (fst : VectorFst L W) : Prop :=
  Held fst.properties (sortedBit byOutput) → SortedLabels (sideLabel byOutput) fst

theorem sortedBitHonest_of_honest (h : Honest fst) (byOutput : Bool) :
    SortedBitHonest byOutput fst := by
  intro hheld
  cases byOutput
  · exact (h .iLabelSorted).1 hheld
  · exact (h .oLabelSorted).1 hheld

theorem sortedBitHonest_tested (h : Honest fst) {mask : BitVec 64}
    (hasks : mask &&& ~~~(kBinaryProperties ||| kDfsProperties) ≠ 0) (byOutput : Bool) :
    SortedBitHonest byOutput (fst.testedProperties mask).2 := by
  intro hheld
  have hcache := sortedBitHonest_of_honest h byOutput
  change SortedLabels (sideLabel byOutput) fst
  unfold VectorFst.testedProperties discover at hheld
  dsimp only at hheld
  rcases held_or hheld with hold | hnew
  · exact hcache hold
  · have hprops := (held_and (held_and hnew).1).1
    split at hprops
    · exact hcache (held_and hprops).1
    · exact scanProperties_sorted hasks hprops

theorem arcs_of_copiedTo (h : CopiedTo fst copy fst.numStates) : copy.arcs = fst.arcs := by
  funext s
  rw [h.arcs]
  split
  · rfl
  · rw [VectorFst.arcs_of_le (by omega)]

/- The copy takes over what is stored of the original, and of no other FST. -/
theorem sortedBitHonest_setProperties {byOutput : Bool} (h : SortedBitHonest byOutput fst)
    (harcs : copy.arcs = fst.arcs) :
    SortedBitHonest byOutput
      (copy.setProperties (fst.properties &&& kFstProperties) kFstProperties) := by
  intro hheld
  have hfst : Held fst.properties (sortedBit byOutput) := by
    rcases held_or hheld with hkept | hnew
    · have hmask := (held_and hkept).2
      cases byOutput <;> exact absurd hmask (by decide)
    · exact (held_and (held_and hnew).1).1
  intro s
  have hs := h hfst s
  rwa [← harcs] at hs

theorem sortedCopy_spec {byOutput : Bool} (h : SortedBitHonest byOutput fst) :
    IsCopy fst (sortedCopy fst byOutput) ∧
      SortedLabels (sideLabel byOutput) (sortedCopy fst byOutput) := by
  have hplain := copiedTo_plainCopy fst
  have hbit := sortedBitHonest_setProperties h (arcs_of_copiedTo hplain)
  have hcopy : sortedCopy fst byOutput =
      let copy := (plainCopy fst).setProperties (fst.properties &&& kFstProperties) kFstProperties
      if (copy.testedProperties (sortedBit byOutput)).1 &&& sortedBit byOutput = 0 then
        (copy.testedProperties (sortedBit byOutput)).2.arcSort (labelCompare byOutput)
      else (copy.testedProperties (sortedBit byOutput)).2 := by
    cases byOutput <;> rfl
  rw [hcopy]
  dsimp only
  split
  · exact ⟨isCopy_arcSort (isCopy_of_copiedTo hplain _) _, sorted_arcSort _ byOutput⟩
  next htested =>
    refine ⟨isCopy_of_copiedTo hplain _, ?_⟩
    have hsorted := sorted_of_tested hbit htested
    exact hsorted

end Sicada.SortedCopy
