import Sicada.ConnectTrims
import Sicada.RmFinalEpsilon

namespace Sicada.RmFinalEpsilonKeeps

open Paths Relations RmFinalEpsilon RmFinalEpsilonExact SccExact ConnectExact ConnectTrims

variable {L W : Type} [ArcLabel L] [PreSemiring W] [DecidableEq W]

/- A final state no arc of which leads to where a final state is reached. -/
def Candidate (isMember : W → Bool) (fst : VectorFst L W) (s : ℕ) : Prop :=
  fst.finalWeight s ≠ 0 ∧ ∀ arc ∈ fst.arcs s, ¬ CoAccessible isMember fst anyArc arc.nextstate

/- The arcs that go into a final weight, where any number of them may. -/
def folds (removable : ℕ → Bool) (arc : Arc L W) : Bool :=
  decide (removable arc.nextstate = true ∧ arc.ilabel = epsilon ∧ arc.olabel = epsilon)

section Loop

variable {removable : ℕ → Bool}

variable (removable) in
theorem foldArcs_kept (finalWeight : ℕ → W) (arcs : List (Arc L W)) (weight : W)
    (done : List (Arc L W)) : (foldArcs removable true finalWeight arcs weight done).2 =
      done ++ arcs.filter fun arc => !folds removable arc := by
  induction arcs generalizing weight done with
  | nil => simp [foldArcs]
  | cons arc arcs ih =>
    rw [foldArcs]
    by_cases hfolds : removable arc.nextstate = true ∧ arc.ilabel = epsilon ∧ arc.olabel = epsilon
    · have hkept : folds removable arc = true := decide_eq_true hfolds
      rw [if_pos ⟨hfolds.1, hfolds.2.1, hfolds.2.2, Or.inr rfl⟩, ih,
        List.filter_cons_of_neg (by simp [hkept])]
    · have hkept : folds removable arc = false := decide_eq_false hfolds
      have hnot : ¬ (removable arc.nextstate = true ∧ arc.ilabel = epsilon ∧
          arc.olabel = epsilon ∧ (weight = 0 ∨ true = true)) :=
        fun hall => hfolds ⟨hall.1, hall.2.1, hall.2.2.1⟩
      rw [if_neg hnot, ih, List.filter_cons_of_pos (by simp [hkept]), List.append_assoc]
      rfl

variable (removable) in
/- A turn of the loop takes the arcs that fold off its state and leaves the others alone. -/
theorem arcs_foldState {fst : VectorFst L W} {s : ℕ} (hs : s < fst.numStates) :
    (foldState removable true fst s).arcs =
      Function.update fst.arcs s ((fst.arcs s).filter fun arc => !folds removable arc) := by
  have hkept := foldArcs_kept removable fst.finalWeight (fst.arcs s)
    (fst.finalWeight s) []
  rw [List.nil_append] at hkept
  unfold foldState
  dsimp only
  rw [hkept]
  split
  next =>
    obtain ⟨harcs, -, hnum, -⟩ := VectorFst.deleteArcs_reads hs
    have hlt : s < ((fst.deleteArcs s).setFinal s (foldArcs removable true fst.finalWeight
        (fst.arcs s) (fst.finalWeight s) []).1).numStates := by
      rw [VectorFst.numStates_setFinal, hnum]
      exact hs
    rw [VectorFst.arcs_addArcs hlt, VectorFst.arcs_setFinal, harcs, Function.update_self,
      Function.update_idem, List.nil_append]
  next hall =>
    rw [VectorFst.numArcs_eq] at hall
    have hsame : (fst.arcs s).filter (fun arc => !folds removable arc) = fst.arcs s := by
      refine List.filter_eq_self.mpr ?_
      have hle := List.length_filter_le (fun arc => !folds removable arc) (fst.arcs s)
      exact List.length_filter_eq_length_iff.mp (by omega)
    rw [hsame, Function.update_eq_self]

theorem arcs_loop [LeftDistribClass W] {fst : VectorFst L W} {k : ℕ} (hk : k ≤ fst.numStates) :
    ((List.range k).foldl (foldState removable true) fst).numStates = fst.numStates ∧
      ∀ s, ((List.range k).foldl (foldState removable true) fst).arcs s =
        if s < k then (fst.arcs s).filter (fun arc => !folds removable arc) else fst.arcs s := by
  induction k with
  | zero => exact ⟨rfl, fun s => rfl⟩
  | succ k ih =>
    obtain ⟨hnum, harcs⟩ := ih (by omega)
    rw [List.range_succ, List.foldl_append]
    have hlt : k < ((List.range k).foldl (foldState removable true) fst).numStates := by omega
    have hturn : Turn removable _ (foldState removable true _ k) k :=
      foldState_turn (fun _ => mul_add) hlt
    refine ⟨hturn.numStates.trans hnum, fun s => ?_⟩
    have hstep := congrFun (arcs_foldState removable hlt) s
    refine Eq.trans hstep ?_
    by_cases hs : s = k
    · subst hs
      rw [Function.update_self, harcs, if_neg (lt_irrefl _), if_pos (Nat.lt_succ_self _)]
    · rw [Function.update_of_ne hs, harcs]
      have hiff : s < k ↔ s < k + 1 := by omega
      simp only [hiff]

end Loop

variable [LeftDistribClass W] [TopologicalSpace W] [ContinuousAdd W] [RegularSpace W]
  {isMember : W → Bool}

/- Folding keeps every weight, and what is left is states of the FST with arcs of theirs, none of
them an epsilon to a state that was a candidate. -/
theorem rmFinalEpsilon_keeps (hmember : ∀ w, isMember w = true) {fst : VectorFst L W}
    (h : fst.InRange) {start : ℕ} (hstart : fst.start = some start) :
    ∃ (fst' : VectorFst L W) (old : ℕ → ℕ), fst.rmFinalEpsilon isMember true = some fst' ∧
      (∀ i o w, Gives fst i o w → Gives fst' i o w) ∧
      (∀ j k, j < k → k < fst'.numStates → old j < old k ∧ old k < fst.numStates) ∧
      (∀ k, fst'.start = some k → old k = start) ∧
      ∀ k, ∀ arc ∈ fst'.arcs k, { arc with nextstate := old arc.nextstate } ∈ fst.arcs (old k) ∧
        (arc.ilabel = epsilon → arc.olabel = epsilon →
          ¬ Candidate isMember fst (old arc.nextstate)) := by
  have hdist : true = true → ∀ a b c : W, a * (b + c) = a * b + a * c := fun _ => mul_add
  obtain ⟨fst', hrun, hgives⟩ := rmFinalEpsilon_gives h hmember hstart hdist
  have hfolded : RmFinalEpsilonExact.Folded (removable isMember fst) fst
      ((List.range fst.numStates).foldl (foldState (removable isMember fst) true) fst)
        fst.numStates :=
    folded_loop hdist (fun t ht => removable_next h hmember hstart ht) le_rfl
  obtain ⟨trimmed, old, hconnect, htrims, -, -⟩ :=
    trims_connect isMember (hfolded.inRange h)
  obtain rfl : fst' = trimmed := Option.some.inj (hrun.symm.trans hconnect)
  have hrange : ∀ k < fst'.numStates, old k < fst.numStates := fun k hk => by
    rw [← hfolded.numStates]
    exact ((htrims.range (old k)).mp ⟨k, hk, rfl⟩).1
  have hold : ∀ k, fst'.start = some k → old k = start := fun k hk => by
    have hfirst := ((htrims.start k).mp hk).2
    rw [hfolded.start, hstart] at hfirst
    exact (Option.some.inj hfirst).symm
  refine ⟨fst', old, hrun, hgives, fun j k hjk hk => ⟨htrims.order j k hjk hk, hrange k hk⟩, hold,
    ?_⟩
  refine VectorFst.forall_arcs_of_lt fun k hk arc harc => ?_
  have hmem : { arc with nextstate := old arc.nextstate } ∈
      (fst'.arcs k).map fun arc => { arc with nextstate := old arc.nextstate } :=
    List.mem_map.mpr ⟨arc, harc, rfl⟩
  rw [htrims.arcs k hk, (arcs_loop le_rfl).2, if_pos (hrange k hk), List.mem_filter,
    List.mem_filter] at hmem
  obtain ⟨⟨hold, hfolds⟩, -⟩ := hmem
  refine ⟨hold, fun hi ho hcandidate => ?_⟩
  have hremovable : removable isMember fst (old arc.nextstate) = true :=
    (removable_iff h hstart).mpr hcandidate
  simp [folds, hremovable, hi, ho] at hfolds

/- A chain of two epsilon arcs to a final state. -/
def epsilonChain : VectorFst ℤ ℕ :=
  ⟨[⟨0, [⟨0, 0, 1, 1⟩], 1, 1⟩, ⟨0, [⟨0, 0, 1, 2⟩], 1, 1⟩, ⟨1, [], 0, 0⟩], some 0, 0⟩

theorem epsilonChain_inRange : epsilonChain.InRange := by
  constructor
  · intro s hs
    obtain rfl : 0 = s := Option.some.inj hs
    decide
  · refine VectorFst.forall_arcs_of_lt fun s hs => ?_
    change s < 3 at hs
    interval_cases s <;> decide

theorem rmFinalEpsilon_keeps_chain : ∃ (fst' : VectorFst ℤ ℕ) (old : ℕ → ℕ),
    epsilonChain.rmFinalEpsilon (fun _ => true) true = some fst' ∧
      (∀ i o w, Gives epsilonChain i o w → Gives fst' i o w) ∧
      (∀ j k, j < k → k < fst'.numStates → old j < old k ∧ old k < epsilonChain.numStates) ∧
      (∀ k, fst'.start = some k → old k = 0) ∧
      ∀ k, ∀ arc ∈ fst'.arcs k,
        { arc with nextstate := old arc.nextstate } ∈ epsilonChain.arcs (old k) ∧
        (arc.ilabel = epsilon → arc.olabel = epsilon →
          ¬ Candidate (fun _ => true) epsilonChain (old arc.nextstate)) :=
  rmFinalEpsilon_keeps (fun _ => rfl) epsilonChain_inRange rfl

theorem epsilonChain_still_ends : ¬ ∀ fst : VectorFst ℤ ℕ, fst.InRange → fst.start ≠ none →
    ∃ fst', fst.rmFinalEpsilon (fun _ => true) true = some fst' ∧
      ∀ s, ∀ arc ∈ fst'.arcs s, arc.ilabel = epsilon → arc.olabel = epsilon →
        ¬ (fst'.finalWeight arc.nextstate ≠ 0 ∧ fst'.arcs arc.nextstate = []) := by
  intro h
  obtain ⟨fst', hrun, hnone⟩ := h epsilonChain epsilonChain_inRange (by decide)
  have hresult : (epsilonChain.rmFinalEpsilon (fun _ => true) true).map (fun fst' =>
      (fst'.arcs 0, fst'.arcs 1, fst'.finalWeight 1)) = some ([⟨0, 0, 1, 1⟩], [], 1) := by
    decide +kernel
  rw [hrun, Option.map_some, Option.some.injEq, Prod.mk.injEq, Prod.mk.injEq] at hresult
  obtain ⟨harcs, hends, hfinal⟩ := hresult
  refine hnone 0 ⟨0, 0, 1, 1⟩ (harcs ▸ List.mem_cons_self) rfl rfl ⟨?_, hends⟩
  rw [hfinal]
  exact one_ne_zero

end Sicada.RmFinalEpsilonKeeps
