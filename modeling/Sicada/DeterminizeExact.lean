import Sicada.DeterminizeGroups
import Sicada.Paths
import Sicada.TrinaryProperties

set_option linter.unusedSectionVars false

namespace Sicada.DeterminizeExact

open DeterminizeRuns DeterminizeGroups StringWeights PropertyBits ListLemmas

variable {L K : Type} [ArcLabel L] [Semiring K] [DecidableEq K] [Divide K]

/- A sum gives back each of its summands. -/
def LeftDivisible (K : Type) [Semiring K] [Divide K] : Prop :=
  ∀ w rest : K, w + rest ≠ 0 →
    ∃ q, Divide.divide w (w + rest) = .member q ∧ (w + rest) * q = w

def ZeroSumFree (K : Type) [Semiring K] : Prop := ∀ a b : K, a + b = 0 → a = 0

theorem eq_zero_of_sum {l : List K} (h : ZeroSumFree K) (hl : l.sum = 0) : ∀ a ∈ l, a = 0 := by
  induction l with
  | nil => simp
  | cons b l ih =>
    rw [List.sum_cons] at hl
    intro a ha
    rcases List.mem_cons.mp ha with rfl | ha
    · exact h _ _ hl
    · exact ih (h _ _ ((add_comm _ _).trans hl)) a ha

theorem exists_rest {l : List K} {a : K} (ha : a ∈ l) : ∃ rest, a + rest = l.sum := by
  obtain ⟨l1, l2, rfl⟩ := List.append_of_mem ha
  refine ⟨l1.sum + l2.sum, ?_⟩
  rw [List.sum_append, List.sum_cons, add_left_comm]

def Members (subset : Subset K) : Prop := ∀ entry ∈ subset, entry.2.isMember

/- What a subset is worth when its members are. -/
def total (h : ℕ → K) (subset : Subset K) : K :=
  (subset.map fun entry => entry.2.value * h entry.1).sum

theorem total_append (h : ℕ → K) (s t : Subset K) : total h (s ++ t) = total h s + total h t := by
  simp [total]

theorem total_singleton (h : ℕ → K) (entry : ℕ × Weight K) :
    total h [entry] = entry.2.value * h entry.1 := by
  simp [total]

theorem mergeDestination_spec {merged : Subset K} {t : Transition L K} (hmem : Members merged)
    (ht : t.weight.isMember) :
    ∃ merged', mergeDestination merged t = .ok merged' ∧ Members merged' ∧
      (∀ h, total h merged' = total h merged + t.weight.value * h t.member) ∧
      ∀ P : K → Prop, (∀ a b, P a → P b → P (a + b)) → (∀ entry ∈ merged, P entry.2.value) →
        P t.weight.value → ∀ entry ∈ merged', P entry.2.value := by
  have hpush : Members (merged ++ [(t.member, t.weight)]) ∧
      (∀ h, total h (merged ++ [(t.member, t.weight)]) =
        total h merged + t.weight.value * h t.member) ∧
      ∀ P : K → Prop, (∀ a b, P a → P b → P (a + b)) → (∀ entry ∈ merged, P entry.2.value) →
        P t.weight.value → ∀ entry ∈ merged ++ [(t.member, t.weight)], P entry.2.value := by
    refine ⟨?_, ?_, ?_⟩
    · intro entry hentry
      rcases List.mem_append.mp hentry with hentry | hentry
      · exact hmem entry hentry
      · obtain rfl := List.mem_singleton.mp hentry
        exact ht
    · intro h
      rw [total_append, total_singleton]
    · intro P _ hP hPt entry hentry
      rcases List.mem_append.mp hentry with hentry | hentry
      · exact hP entry hentry
      · obtain rfl := List.mem_singleton.mp hentry
        exact hPt
  unfold mergeDestination
  split
  next last weight hlast =>
    split
    next heq =>
      obtain ⟨init, rfl⟩ : ∃ init, merged = init ++ [(last, weight)] :=
        ⟨_, (List.dropLast_append_getLast? _ hlast).symm⟩
      have hweight : weight.isMember := hmem (last, weight) (by simp)
      have hsum : (weight + t.weight).isMember := by simp [hweight, ht]
      rw [if_pos hsum, List.dropLast_concat]
      refine ⟨_, rfl, ?_, ?_, ?_⟩
      · intro entry hentry
        rcases List.mem_append.mp hentry with hentry | hentry
        · exact hmem entry (List.mem_append_left _ hentry)
        · obtain rfl := List.mem_singleton.mp hentry
          exact hsum
      · intro h
        rw [total_append, total_append, total_singleton, total_singleton, heq,
          Weight.value_add hweight ht, add_mul, add_assoc]
      · intro P hadd hP hPt entry hentry
        rcases List.mem_append.mp hentry with hentry | hentry
        · exact hP entry (List.mem_append_left _ hentry)
        · obtain rfl := List.mem_singleton.mp hentry
          dsimp only
          rw [Weight.value_add hweight ht]
          exact hadd _ _ (hP (last, weight) (by simp)) hPt
    next => exact ⟨_, rfl, hpush⟩
  next => exact ⟨_, rfl, hpush⟩

variable {destinations : List (Transition L K)} {subset : Subset K}

theorem mergeDestinations_spec {merged : Subset K} (hmem : Members merged)
    (hall : ∀ t ∈ destinations, t.weight.isMember) :
    ∃ merged', destinations.foldlM mergeDestination merged = .ok merged' ∧ Members merged' ∧
      (∀ h, total h merged' =
        total h merged + (destinations.map fun t => t.weight.value * h t.member).sum) ∧
      ∀ P : K → Prop, (∀ a b, P a → P b → P (a + b)) → (∀ entry ∈ merged, P entry.2.value) →
        (∀ t ∈ destinations, P t.weight.value) → ∀ entry ∈ merged', P entry.2.value := by
  induction destinations generalizing merged with
  | nil => exact ⟨merged, rfl, hmem, by simp, fun P _ hP _ => hP⟩
  | cons t destinations ih =>
    obtain ⟨k, hk, hkmem, hktotal, hkP⟩ := mergeDestination_spec hmem (hall t List.mem_cons_self)
    obtain ⟨merged', hok, hmem', htotal, hP'⟩ :=
      ih hkmem fun u hu => hall u (List.mem_cons_of_mem t hu)
    refine ⟨merged', ?_, hmem', ?_, ?_⟩
    · rw [List.foldlM_cons, hk]
      exact hok
    · intro h
      rw [htotal, hktotal, List.map_cons, List.sum_cons, add_assoc]
    · intro P hadd hP hPt
      exact hP' P hadd (hkP P hadd hP (hPt t List.mem_cons_self))
        fun u hu => hPt u (List.mem_cons_of_mem t hu)

theorem arcWeight_spec (hall : ∀ t ∈ destinations, t.weight.isMember) :
    (arcWeight defaultCommonDivisor destinations).isMember ∧
      (arcWeight defaultCommonDivisor destinations).value =
        (destinations.map fun t => t.weight.value).sum := by
  constructor
  · have hfold := Weight.isMember_foldl_add (fun t : Transition L K => t.weight) destinations 0
    refine hfold.trans ?_
    simpa using hall
  · have hfold := Weight.value_foldl_add (fun t : Transition L K => t.weight)
      (a := 0) rfl hall
    refine hfold.trans ?_
    rw [Weight.value_zero, zero_add]

/- The arc and what it leaves to the members come to what the members had. -/
theorem residual_balance (hdivide : LeftDivisible K) (hsum : ZeroSumFree K)
    (hall : ∀ t ∈ destinations, t.weight.isMember)
    (hok : residualSubset defaultCommonDivisor destinations = .ok subset) (h : ℕ → K) :
    (arcWeight defaultCommonDivisor destinations).value * total h subset =
      (destinations.map fun t => t.weight.value * h t.member).sum := by
  obtain ⟨hSmem, hS⟩ := arcWeight_spec hall
  have hnil : Members ([] : Subset K) := fun entry hentry => absurd hentry List.not_mem_nil
  obtain ⟨merged, hmerged, hmem, htotal, -⟩ := mergeDestinations_spec hnil hall
  obtain rfl : subset = merged.map fun entry =>
      (entry.1, entry.2.divide (arcWeight defaultCommonDivisor destinations)) := by
    unfold residualSubset at hok
    rw [hmerged] at hok
    exact (Except.ok.inj hok).symm
  have hmass : (merged.map fun entry => entry.2.value).sum =
      (arcWeight defaultCommonDivisor destinations).value := by
    have hone := htotal fun _ => 1
    simpa [total, hS] using hone
  by_cases hzero : (arcWeight defaultCommonDivisor destinations).value = 0
  · rw [hzero, zero_mul]
    rw [hS] at hzero
    symm
    apply List.sum_eq_zero
    intro x hx
    obtain ⟨t, ht, rfl⟩ := List.mem_map.mp hx
    rw [eq_zero_of_sum hsum hzero _ (List.mem_map_of_mem ht), zero_mul]
  · have hentry : ∀ entry ∈ merged, (arcWeight defaultCommonDivisor destinations).value *
        (entry.2.divide (arcWeight defaultCommonDivisor destinations)).value = entry.2.value := by
      intro entry hentry
      obtain ⟨rest, hrest⟩ := exists_rest (List.mem_map_of_mem (f := fun e : ℕ × Weight K => e.2.value)
        hentry)
      rw [hmass] at hrest
      obtain ⟨q, hq, hmul⟩ := hdivide _ rest (hrest ▸ hzero)
      rw [hrest] at hq hmul
      rw [Weight.divide_of_members (hmem entry hentry) hSmem, hq]
      exact hmul
    have htotal' := htotal h
    rw [show total h ([] : Subset K) = 0 from rfl, zero_add] at htotal'
    rw [← htotal', total, total, List.map_map, ← List.sum_map_mul_left]
    congr 1
    apply List.map_congr_left
    intro entry he
    rw [Function.comp_apply, ← mul_assoc, hentry entry he]

/- The weights an FST has, where all of them are members. -/
def valueArc (arc : Arc L (Weight K)) : Arc L K :=
  ⟨arc.ilabel, arc.olabel, arc.weight.value, arc.nextstate⟩

def values (fst : VectorFst L (Weight K)) : VectorFst L K where
  states := fst.states.map fun s =>
    ⟨s.finalWeight.value, s.arcs.map valueArc, s.niepsilons, s.noepsilons⟩
  start := fst.start
  properties := fst.properties

theorem arcs_values (fst : VectorFst L (Weight K)) (s : ℕ) :
    (values fst).arcs s = (fst.arcs s).map valueArc := by
  simp only [VectorFst.arcs, values, List.getElem?_map]
  cases fst.states[s]? <;> rfl

theorem finalWeight_values (fst : VectorFst L (Weight K)) (s : ℕ) :
    (values fst).finalWeight s = (fst.finalWeight s).value := by
  simp only [VectorFst.finalWeight, values, List.getElem?_map]
  cases fst.states[s]? <;> rfl

structure AllMembers (fst : VectorFst L (Weight K)) : Prop where
  arcs : EveryArc (fun arc => arc.weight.isMember) fst
  finalWeight : ∀ s, (fst.finalWeight s).isMember

variable {fst : VectorFst L (Weight K)}

theorem weightFromState_values (s : ℕ) (l : L) (u : List L) :
    weightFromState (values fst) s (l :: u) = (((fst.arcs s).filter fun arc => arc.ilabel = l).map
      fun arc => arc.weight.value * weightFromState (values fst) arc.nextstate u).sum := by
  rw [weightFromState, arcs_values, List.filter_map, List.map_map]
  rfl

theorem members_transitions (hfst : AllMembers fst) (hmem : Members subset) :
    ∀ t ∈ subsetTransitions fst subset, t.weight.isMember := by
  intro t ht
  obtain ⟨entry, hentry, ht⟩ := List.mem_flatMap.mp ht
  obtain ⟨arc, harc, rfl⟩ := List.mem_map.mp ht
  simp [hmem entry hentry, hfst.arcs entry.1 arc harc]

theorem members_group (hfst : AllMembers fst) (hmem : Members subset)
    {group : L × List (Transition L K)} (hgroup : group ∈ groupsOf fst subset) :
    ∀ t ∈ group.2, t.weight.isMember := by
  intro t ht
  have hflat : t ∈ (groupsOf fst subset).flatMap (·.2) := List.mem_flatMap.mpr ⟨group, hgroup, ht⟩
  rw [groupsOf, flatMap_labelGroups] at hflat
  exact members_transitions hfst hmem t ((perm_sortTransitions _).mem_iff.mp hflat)

/- The transitions with one label carry on what the members have under that label. -/
theorem sum_transitions (hfst : AllMembers fst) (hmem : Members subset) (l : L) (u : List L) :
    (((subsetTransitions fst subset).filter fun t => t.label = l).map
        fun t => t.weight.value * weightFromState (values fst) t.member u).sum =
      total (fun m => weightFromState (values fst) m (l :: u)) subset := by
  have hentry : ∀ entry ∈ subset, ((((fst.arcs entry.1).map fun arc : Arc L (Weight K) =>
      (⟨arc.ilabel, arc.nextstate, entry.2 * arc.weight⟩ : Transition L K)).filter
        fun t => t.label = l).map
          fun t => t.weight.value * weightFromState (values fst) t.member u).sum =
      entry.2.value * weightFromState (values fst) entry.1 (l :: u) := by
    intro entry he
    rw [List.filter_map, List.map_map, weightFromState_values, ← List.sum_map_mul_left]
    congr 1
    apply List.map_congr_left
    intro arc harc
    have harc' := hfst.arcs entry.1 arc (List.mem_filter.mp harc).1
    rw [Function.comp_apply, Weight.value_mul (hmem entry he) harc', mul_assoc]
  rw [subsetTransitions, List.filter_flatMap, List.map_flatMap, List.flatMap_def, List.sum_flatten,
    List.map_map, total]
  congr 1
  apply List.map_congr_left
  intro entry he
  exact hentry entry he

theorem members_of_final (h : (subsetFinal fst subset).isMember) :
    Members subset := by
  unfold subsetFinal at h
  rw [Weight.isMember_foldl_add (fun entry : ℕ × Weight K => entry.2 * fst.finalWeight entry.1)] at h
  intro entry hentry
  rw [Bool.and_eq_true, List.all_eq_true] at h
  have hprod := h.2 entry hentry
  rw [Weight.isMember_mul, Bool.and_eq_true] at hprod
  exact hprod.1

theorem isMember_subsetFinal (hfst : AllMembers fst) (hmem : Members subset) :
    (subsetFinal fst subset).isMember := by
  unfold subsetFinal
  rw [Weight.isMember_foldl_add (fun entry : ℕ × Weight K => entry.2 * fst.finalWeight entry.1)]
  rw [Bool.and_eq_true, List.all_eq_true]
  refine ⟨rfl, ?_⟩
  intro entry hentry
  simp [hmem entry hentry, hfst.finalWeight entry.1]

theorem value_subsetFinal (hfst : AllMembers fst) (hmem : Members subset) :
    (subsetFinal fst subset).value = total (fun m => (fst.finalWeight m).value) subset := by
  have hall : ∀ entry ∈ subset, (entry.2 * fst.finalWeight entry.1).isMember := by
    intro entry hentry
    simp [hmem entry hentry, hfst.finalWeight entry.1]
  have hfold := Weight.value_foldl_add
    (fun entry : ℕ × Weight K => entry.2 * fst.finalWeight entry.1) (a := 0) rfl hall
  refine hfold.trans ?_
  rw [Weight.value_zero, zero_add, total]
  congr 1
  apply List.map_congr_left
  intro entry hentry
  exact Weight.value_mul (hmem entry hentry) (hfst.finalWeight entry.1)

section Finished

variable {Known : Subset K → Prop} {first : Subset K} {l : DeterminizeLoop L K}
  (hinv : DeterminizeInv fst defaultCommonDivisor Known first l) (hpending : l.pending = [])
include hinv hpending

theorem expanded_of_finished {q : ℕ} (hq : l.subsets[q]? = some subset) :
    Expanded fst defaultCommonDivisor l q subset :=
  hinv.expanded q subset hq (by simp [hpending])

/- A state of the result gives a string what its members give it, each by what is left of its
weight. -/
theorem weight_of_finished (hdivide : LeftDivisible K) (hsum : ZeroSumFree K)
    (hfst : AllMembers fst) (u : List L) {q : ℕ} (hq : l.subsets[q]? = some subset) :
    weightFromState (values l.ofst) q u =
      total (fun m => weightFromState (values fst) m u) subset := by
  induction u generalizing q subset with
  | nil =>
    obtain ⟨hmember, hfinal, -⟩ := expanded_of_finished hinv hpending hq
    have hmem := members_of_final hmember
    have hvalue := value_subsetFinal hfst hmem
    rw [weightFromState, finalWeight_values, hfinal, hvalue]
    congr 1
    funext m
    rw [weightFromState, finalWeight_values]
  | cons label u ih =>
    obtain ⟨hmember, -, harcs⟩ := expanded_of_finished hinv hpending hq
    have hmem := members_of_final hmember
    have hstep : ∀ group arc, group ∈ groupsOf fst subset →
        Stands defaultCommonDivisor l.subsets group arc →
          arc.weight.value * weightFromState (values l.ofst) arc.nextstate u =
            (group.2.map fun t => t.weight.value * weightFromState (values fst) t.member u).sum := by
      rintro group arc hgroup ⟨-, -, hweight, next, hres, hnext⟩
      rw [hweight, ih hnext]
      exact residual_balance hdivide hsum (members_group hfst hmem hgroup) hres _
    have hlabels : ∀ group ∈ groupsOf fst subset, ∀ t ∈ group.2, t.label = group.1 :=
      fun group hgroup t ht => label_of_mem_group hgroup ht
    have hperm := ((perm_sortTransitions (subsetTransitions fst subset)).filter
      fun t => t.label = label).map
        fun t => t.weight.value * weightFromState (values fst) t.member u
    rw [weightFromState_values, ← sum_transitions hfst hmem, ← hperm.sum_eq,
      ← flatMap_labelGroups (sortTransitions _)]
    have hgroups := sum_groups
      (fun t => t.weight.value * weightFromState (values fst) t.member u) label hlabels
    refine Eq.trans ?_ hgroups
    congr 1
    symm
    apply forall₂_filter_map (forall₂_mem harcs)
    rintro group arc ⟨hgroup, hstands⟩
    refine ⟨?_, fun _ => (hstep group arc hgroup hstands).symm⟩
    rw [hstands.1]

theorem labels_of_finished {q : ℕ} : ((l.ofst.arcs q).map (·.ilabel)).Nodup := by
  by_cases hq : q < l.subsets.length
  · obtain ⟨-, -, harcs⟩ := expanded_of_finished hinv hpending (List.getElem?_eq_getElem hq)
    have hlabels : ((groupsOf fst l.subsets[q]).map Prod.fst).Pairwise (· < ·) :=
      labelGroups_sorted (sorted_sortTransitions _)
    have heq : (l.ofst.arcs q).map (·.ilabel) = (groupsOf fst l.subsets[q]).map Prod.fst := by
      symm
      have hmap := forall₂_filter_map (P := fun _ => true) (Q := fun _ => true) (f := Prod.fst)
        (g := fun arc => arc.ilabel) harcs fun group arc hstands => ⟨rfl, fun _ => hstands.1.symm⟩
      simpa using hmap
    rw [heq]
    exact hlabels.imp fun h => h.ne
  · have hle : l.ofst.numStates ≤ q := by
      rw [hinv.numStates]
      omega
    rw [VectorFst.arcs_of_le hle]
    exact List.nodup_nil

theorem allMembers_of_finished (hfst : AllMembers fst) : AllMembers l.ofst := by
  constructor
  · intro q arc harc
    by_cases hq : q < l.subsets.length
    · obtain ⟨hmember, -, harcs⟩ := expanded_of_finished hinv hpending (List.getElem?_eq_getElem hq)
      obtain ⟨group, hgroup, -, -, hweight, -⟩ := forall₂_mem_right harcs harc
      rw [hweight]
      exact (arcWeight_spec (members_group hfst (members_of_final hmember) hgroup)).1
    · have hle : l.ofst.numStates ≤ q := by
        rw [hinv.numStates]
        omega
      rw [VectorFst.arcs_of_le hle] at harc
      cases harc
  · intro q
    by_cases hq : q < l.subsets.length
    · obtain ⟨hmember, hfinal, -⟩ :=
        expanded_of_finished hinv hpending (List.getElem?_eq_getElem hq)
      rw [hfinal]
      exact hmember
    · have hle : l.ofst.numStates ≤ q := by
        rw [hinv.numStates]
        omega
      rw [VectorFst.finalWeight_of_le hle]
      rfl

end Finished

end Sicada.DeterminizeExact
