import Sicada.DeterminizeExact
import Sicada.Runs

namespace Sicada.DeterminizeAcyclic

open DeterminizeRuns DeterminizeGroups DeterminizeExact StringWeights PropertyBits ListLemmas Relation

variable {L K : Type} [ArcLabel L] [Semiring K] [DecidableEq K] [Divide K]

theorem mergeDestination_members {merged merged' : Subset K} {t : Transition L K}
    (hok : mergeDestination merged t = .ok merged') :
    ∀ entry ∈ merged', entry.1 = t.member ∨ ∃ e ∈ merged, e.1 = entry.1 := by
  have hpush : ∀ entry ∈ merged ++ [(t.member, t.weight)],
      entry.1 = t.member ∨ ∃ e ∈ merged, e.1 = entry.1 := by
    intro entry hentry
    rcases List.mem_append.mp hentry with hentry | hentry
    · exact Or.inr ⟨entry, hentry, rfl⟩
    · obtain rfl := List.mem_singleton.mp hentry
      exact Or.inl rfl
  unfold mergeDestination at hok
  split at hok
  next last weight hlast =>
    split at hok
    next heq =>
      split at hok
      · cases hok
        intro entry hentry
        rcases List.mem_append.mp hentry with hentry | hentry
        · exact Or.inr ⟨entry, List.dropLast_subset _ hentry, rfl⟩
        · obtain rfl := List.mem_singleton.mp hentry
          exact Or.inl heq
      · cases hok
    next => cases hok; exact hpush
  next => cases hok; exact hpush

theorem mergeDestinations_members {destinations : List (Transition L K)} {merged merged' : Subset K}
    (hok : destinations.foldlM mergeDestination merged = .ok merged') :
    ∀ entry ∈ merged', (∃ t ∈ destinations, t.member = entry.1) ∨ ∃ e ∈ merged, e.1 = entry.1 := by
  induction destinations generalizing merged with
  | nil =>
    cases hok
    exact fun entry hentry => Or.inr ⟨entry, hentry, rfl⟩
  | cons t destinations ih =>
    rw [List.foldlM_cons] at hok
    cases hk : mergeDestination merged t with
    | error e =>
      rw [hk] at hok
      cases hok
    | ok k =>
      rw [hk] at hok
      intro entry hentry
      rcases ih hok entry hentry with ⟨u, hu, hmember⟩ | ⟨e, he, hmember⟩
      · exact Or.inl ⟨u, List.mem_cons_of_mem t hu, hmember⟩
      · rcases mergeDestination_members hk e he with heq | ⟨e', he', heq⟩
        · exact Or.inl ⟨t, List.mem_cons_self, heq.symm.trans hmember⟩
        · exact Or.inr ⟨e', he', heq.trans hmember⟩

variable {fst : VectorFst L (Weight K)} {divisor : Weight K → Weight K → Weight K}

/- The members of a successor are the destinations of arcs that leave the members. -/
theorem members_of_successor {s t : Subset K} (h : Successor fst divisor s t) :
    ∀ entry ∈ t, ∃ e ∈ s, Step fst e.1 entry.1 := by
  obtain ⟨group, hgroup, hres⟩ := h
  intro entry hentry
  unfold residualSubset at hres
  cases hmerged : group.2.foldlM mergeDestination ([] : Subset K) with
  | error e =>
    rw [hmerged] at hres
    cases hres
  | ok merged =>
    rw [hmerged] at hres
    cases hres
    obtain ⟨e, he, rfl⟩ := List.mem_map.mp hentry
    rcases mergeDestinations_members hmerged e he with ⟨d, hd, hmember⟩ | ⟨e', he', -⟩
    · have hflat : d ∈ (groupsOf fst s).flatMap (·.2) := List.mem_flatMap.mpr ⟨group, hgroup, hd⟩
      rw [groupsOf, flatMap_labelGroups, (perm_sortTransitions _).mem_iff] at hflat
      obtain ⟨source, hsource, hd'⟩ := List.mem_flatMap.mp hflat
      obtain ⟨arc, harc, rfl⟩ := List.mem_map.mp hd'
      exact ⟨source, hsource, arc, harc, hmember⟩
    · cases he'

theorem successors_finite (s : Subset K) : {t | Successor fst divisor s t}.Finite := by
  have hsub : {t | Successor fst divisor s t} ⊆
      {t | t ∈ (groupsOf fst s).filterMap fun group =>
        (residualSubset divisor group.2).toOption} := by
    rintro t ⟨group, hgroup, hres⟩
    exact List.mem_filterMap.mpr ⟨group, hgroup, by rw [hres]; rfl⟩
  exact (List.finite_toSet _).subset hsub

theorem states_of_step {s t : ℕ} (h : Step fst s t) : s ∈ Finset.range fst.numStates := by
  obtain ⟨arc, harc, -⟩ := h
  rw [Finset.mem_range]
  by_contra hge
  rw [VectorFst.arcs_of_le (Nat.le_of_not_lt hge)] at harc
  cases harc

/- Over an acyclic FST the subsets get lower and lower. -/
theorem reachable_subsets_finite (hacyclic : ¬ Holds fst .cyclic) (s : Subset K) :
    {t | ReflTransGen (Successor fst divisor) s t}.Finite := by
  obtain ⟨rank, hrank⟩ := Acyclic.exists_rank (fun _ _ h => states_of_step h)
    fun q hq => hacyclic ⟨q, hq⟩
  have hlower : ∀ s t : Subset K, Successor fst divisor s t →
      (t.toFinset.sup fun entry => rank entry.1 + 1) <
        s.toFinset.sup fun entry => rank entry.1 + 1 := by
    intro s t hst
    have hle : ∀ e ∈ s, rank e.1 + 1 ≤ s.toFinset.sup fun entry => rank entry.1 + 1 := fun e he =>
      Finset.le_sup (f := fun entry : ℕ × Weight K => rank entry.1 + 1) (List.mem_toFinset.mpr he)
    have hpos : 0 < s.toFinset.sup fun entry => rank entry.1 + 1 := by
      cases s with
      | nil =>
        obtain ⟨group, hgroup, -⟩ := hst
        cases hgroup
      | cons e s => exact (Nat.succ_pos _).trans_le (hle e List.mem_cons_self)
    rw [Finset.sup_lt_iff hpos]
    intro entry hentry
    obtain ⟨e, he, hstep⟩ := members_of_successor hst entry (List.mem_toFinset.mp hentry)
    exact (Nat.succ_lt_succ (hrank e.1 entry.1 hstep)).trans_le (hle e he)
  exact Acyclic.reachable_finite hlower successors_finite s

section Regular

variable (hdivide : LeftDivisible K) (hsum : ZeroSumFree K)
include hdivide hsum

/- Nonzero contributions leave nonzero weights. -/
theorem residual_regular {destinations : List (Transition L K)}
    (hall : ∀ t ∈ destinations, t.weight.isMember ∧ t.weight.value ≠ 0) :
    ∃ subset, residualSubset defaultCommonDivisor destinations = .ok subset ∧
      ∀ entry ∈ subset, entry.2.isMember ∧ entry.2.value ≠ 0 := by
  have hmembers : ∀ t ∈ destinations, t.weight.isMember := fun t ht => (hall t ht).1
  obtain ⟨hSmem, hS⟩ := arcWeight_spec hmembers
  have hnil : Members ([] : Subset K) := fun entry hentry => absurd hentry List.not_mem_nil
  obtain ⟨merged, hmerged, hmem, htotal, hP⟩ := mergeDestinations_spec hnil hmembers
  have hne : ∀ entry ∈ merged, entry.2.value ≠ 0 := by
    apply hP (· ≠ 0)
    · intro a b ha _ hab
      exact ha (hsum a b hab)
    · exact fun entry hentry => absurd hentry List.not_mem_nil
    · exact fun t ht => (hall t ht).2
  have hmass : (merged.map fun entry => entry.2.value).sum =
      (arcWeight defaultCommonDivisor destinations).value := by
    have hone := htotal fun _ => 1
    simpa [total, hS] using hone
  refine ⟨_, by unfold residualSubset; rw [hmerged]; rfl, ?_⟩
  intro entry hentry
  obtain ⟨e, he, rfl⟩ := List.mem_map.mp hentry
  obtain ⟨rest, hrest⟩ := exists_rest (List.mem_map_of_mem (f := fun e : ℕ × Weight K => e.2.value) he)
  rw [hmass] at hrest
  have hSne : e.2.value + rest ≠ 0 := fun hzero => hne e he (hsum _ _ hzero)
  obtain ⟨q, hq, hmul⟩ := hdivide _ rest hSne
  rw [hrest] at hq hmul
  dsimp only
  rw [Weight.divide_of_members (hmem e he) hSmem, hq]
  refine ⟨rfl, ?_⟩
  rintro rfl
  apply hne e he
  rw [← hmul, mul_zero]

/- No weight of the subset is lost: it is a member and, but for the trivial semiring, not zero. -/
def Regular (subset : Subset K) : Prop :=
  ∀ entry ∈ subset, entry.2.isMember ∧ ((1 : K) ≠ 0 → entry.2.value ≠ 0)

variable [NoZeroDivisors K] (hfst : AllMembers fst) (harcs : EveryArc (fun arc => arc.weight ≠ 0) fst)
include hfst harcs

theorem regular_group {subset : Subset K} (hregular : Regular subset)
    {group : L × List (Transition L K)} (hgroup : group ∈ groupsOf fst subset) :
    ∀ t ∈ group.2, t.weight.isMember ∧ t.weight.value ≠ 0 := by
  intro t ht
  have hflat : t ∈ (groupsOf fst subset).flatMap (·.2) := List.mem_flatMap.mpr ⟨group, hgroup, ht⟩
  rw [groupsOf, flatMap_labelGroups, (perm_sortTransitions _).mem_iff] at hflat
  obtain ⟨entry, hentry, ht'⟩ := List.mem_flatMap.mp hflat
  obtain ⟨arc, harc, rfl⟩ := List.mem_map.mp ht'
  have hmember := hfst.arcs entry.1 arc harc
  have hvalue : arc.weight.value ≠ 0 := by
    intro hzero
    apply harcs entry.1 arc harc
    rw [Weight.eq_member hmember, hzero]
    rfl
  have hone : (1 : K) ≠ 0 := by
    intro hone
    apply hvalue
    rw [← mul_one arc.weight.value, hone, mul_zero]
  obtain ⟨hemember, hevalue⟩ := hregular entry hentry
  refine ⟨by simp [hemember, hmember], ?_⟩
  rw [Weight.value_mul hemember hmember]
  exact mul_ne_zero (hevalue hone) hvalue

theorem regular_of_reachable {s t : Subset K} (hs : Regular s)
    (hst : ReflTransGen (Successor fst defaultCommonDivisor) s t) : Regular t := by
  induction hst with
  | refl => exact hs
  | tail _ hstep ih =>
    obtain ⟨group, hgroup, hres⟩ := hstep
    obtain ⟨subset, hok, hall⟩ := residual_regular hdivide hsum
      (regular_group hdivide hsum hfst harcs ih hgroup)
    rw [hok] at hres
    cases hres
    exact fun entry hentry => ⟨(hall entry hentry).1, fun _ => (hall entry hentry).2⟩

end Regular

theorem values_of_ok (hdivide : LeftDivisible K) (hsum : ZeroSumFree K) (hfst : AllMembers fst)
    {fuel : ℕ} {maxStates : Option ℕ} {ofst result : VectorFst L (Weight K)}
    (hrun : determinizeFsa fuel fst ofst defaultCommonDivisor maxStates = some (.ok result)) :
    AllMembers result ∧ UniqueLabels (·.ilabel) result ∧
      ∀ u, stringWeight (values result) u = stringWeight (values fst) u := by
  cases hstart : fst.start with
  | none =>
    have hresult : result.states = [] ∧ result.start = none := by
      unfold determinizeFsa at hrun
      rw [hstart] at hrun
      cases hrun
      exact ⟨rfl, rfl⟩
    have harcs : ∀ s, result.arcs s = [] := fun s => by simp [VectorFst.arcs, hresult.1]
    refine ⟨⟨fun s arc harc => ?_, fun s => ?_⟩, fun s => ?_, fun u => ?_⟩
    · rw [harcs] at harc
      cases harc
    · have hzero : result.finalWeight s = 0 := by simp [VectorFst.finalWeight, hresult.1]
      rw [hzero]
      rfl
    · rw [harcs]
      exact List.nodup_nil
    · have hnone : (values result).start = none := hresult.2
      have hnone' : (values fst).start = none := hstart
      rw [stringWeight_of_none hnone, stringWeight_of_none hnone']
  | some istart =>
    rw [determinizeFsa_of_start hstart] at hrun
    obtain ⟨r, hloop, hmap⟩ := Option.map_eq_some_iff.mp hrun
    cases r with
    | error e => cases hmap
    | ok l =>
      cases hmap
      have hfirst : DeterminizeInv fst defaultCommonDivisor (fun _ => True) (startSubset istart)
          (startLoop istart ofst) := startLoop_inv trivial ofst
      obtain ⟨hinv, hstop⟩ := Loop.tryLoop_invariant
        (fun l l' hl hs => (determinizeStep_inv (fun _ _ _ _ => trivial) hl hs).1) hfirst hloop
      have hpending := pending_of_stopped hstop
      obtain ⟨harcs, hfinal⟩ := allMembers_of_finished hinv hpending hfst
      refine ⟨⟨harcs, hfinal⟩, fun q => labels_of_finished hinv hpending, fun u => ?_⟩
      have hweight := weight_of_finished hinv hpending hdivide hsum hfst u hinv.first
      have hstart0 : (values (l.ofst.setProperties (determinizeProperties
        (fst.properties &&& kFstProperties) true false) kFstProperties)).start = some 0 := hinv.start
      have hstart1 : (values fst).start = some istart := hstart
      have hsame : weightFromState (values (l.ofst.setProperties (determinizeProperties
        (fst.properties &&& kFstProperties) true false) kFstProperties)) 0 u =
          weightFromState (values l.ofst) 0 u := by
        apply weightFromState_congr <;> rfl
      rw [stringWeight_eq hstart0, stringWeight_eq hstart1, hsame, hweight, startSubset,
        total_singleton, Weight.value_one, one_mul]

/- On an acyclic FST the loop ends, and fails only where weights may vanish. -/
theorem determinizeFsa_returns (hacyclic : ¬ Holds fst .cyclic) (ofst : VectorFst L (Weight K)) :
    ∃ fuel r, (∀ fuel', fuel ≤ fuel' →
        determinizeFsa fuel' fst ofst defaultCommonDivisor none = some r) ∧
      (LeftDivisible K → ZeroSumFree K → NoZeroDivisors K → AllMembers fst →
        EveryArc (fun arc => arc.weight ≠ 0) fst → ∃ result, r = .ok result) := by
  cases hstart : fst.start with
  | none =>
    refine ⟨0, .ok (ofst.deleteAllStates.setProperties
      (determinizeProperties (fst.properties &&& kFstProperties) true false) kFstProperties), ?_,
        fun _ _ _ _ _ => ⟨_, rfl⟩⟩
    intro fuel' _
    unfold determinizeFsa
    rw [hstart]
  | some istart =>
    have hfin : {t | ReflTransGen (Successor fst defaultCommonDivisor) (startSubset istart) t}.Finite :=
      reachable_subsets_finite hacyclic _
    have hclosed : ∀ s t, s ∈ hfin.toFinset → Successor fst defaultCommonDivisor s t →
        t ∈ hfin.toFinset := by
      intro s t hs hst
      rw [Set.Finite.mem_toFinset] at hs ⊢
      exact hs.tail hst
    have hfirst : startSubset istart ∈ hfin.toFinset := by
      rw [Set.Finite.mem_toFinset]
      exact ReflTransGen.refl
    obtain ⟨fuel, r, hrun, herror⟩ := determinizeLoop_terminates none hclosed hfirst ofst
    refine ⟨fuel, r.map fun l => l.ofst.setProperties
      (determinizeProperties (fst.properties &&& kFstProperties) true false) kFstProperties, ?_, ?_⟩
    · intro fuel' hfuel
      have hrun' := Loop.runLoop_mono hfuel hrun
      rw [determinizeFsa_of_start hstart]
      exact congrArg (Option.map _) hrun'
    · intro hdivide hsum hzero hfst harcs
      cases r with
      | ok l => exact ⟨_, rfl⟩
      | error e =>
        exfalso
        obtain ⟨l, hinv, hstep⟩ := herror e rfl
        obtain ⟨s, hs, hbad⟩ := determinizeStep_error hinv hstep
        rw [Set.Finite.mem_toFinset] at hs
        have hstartRegular : Regular (startSubset istart : Subset K) := by
          intro entry hentry
          obtain rfl := List.mem_singleton.mp hentry
          exact ⟨rfl, fun hone => hone⟩
        have hregular := regular_of_reachable hdivide hsum hfst harcs hstartRegular hs
        rcases hbad with hfinal | ⟨group, hgroup, e', herror'⟩
        · exact hfinal (isMember_subsetFinal hfst fun entry hentry => (hregular entry hentry).1)
        · obtain ⟨subset, hok, -⟩ := residual_regular hdivide hsum
            (regular_group hdivide hsum hfst harcs hregular hgroup)
          rw [hok] at herror'
          cases herror'

/- Where no weights but zeros sum to zero, the result has one arc a label and gives every string
the weight it had, and on an acyclic FST there is one. -/
theorem determinizeFsa_correct (hdivide : LeftDivisible K) (hsum : ZeroSumFree K)
    (hfst : AllMembers fst) (ofst : VectorFst L (Weight K)) :
    (∀ fuel maxStates result,
      determinizeFsa fuel fst ofst defaultCommonDivisor maxStates = some (.ok result) →
        AllMembers result ∧ UniqueLabels (·.ilabel) result ∧
          ∀ u, stringWeight (values result) u = stringWeight (values fst) u) ∧
    (¬ Holds fst .cyclic → ∃ fuel r,
      (∀ fuel', fuel ≤ fuel' → determinizeFsa fuel' fst ofst defaultCommonDivisor none = some r) ∧
        (NoZeroDivisors K → EveryArc (fun arc => arc.weight ≠ 0) fst → ∃ result, r = .ok result)) := by
  refine ⟨fun fuel maxStates result hrun => values_of_ok hdivide hsum hfst hrun, ?_⟩
  intro hacyclic
  obtain ⟨fuel, r, hrun, hok⟩ := determinizeFsa_returns hacyclic ofst
  exact ⟨fuel, r, hrun, fun hzero harcs => hok hdivide hsum hzero hfst harcs⟩

section Branching

/- Division of costs is their difference, undefined by the infinite cost. -/
instance : Divide (Tropical (WithTop ℕ)) :=
  ⟨fun a b => if b = 0 then .noWeight else .member (Tropical.trop (a.untrop - b.untrop))⟩

theorem leftDivisible_tropical : LeftDivisible (Tropical (WithTop ℕ)) := by
  intro w rest hne
  refine ⟨Tropical.trop (w.untrop - (w + rest).untrop), ?_, ?_⟩
  · simp [Divide.divide, hne]
  · apply Tropical.untrop_injective
    rw [Tropical.untrop_mul, Tropical.untrop_trop]
    apply add_tsub_cancel_of_le
    rw [Tropical.untrop_add]
    exact min_le_left _ _

theorem zeroSumFree_tropical : ZeroSumFree (Tropical (WithTop ℕ)) := by
  intro a b hab
  have hmin : min a.untrop b.untrop = ⊤ := congrArg Tropical.untrop hab
  exact Tropical.untrop_injective (min_eq_top.mp hmin).1

/- Two ways to read the first label, of which the cheaper one is the dearer one in the end. -/
def branchingFst : VectorFst ℤ (Weight (Tropical (WithTop ℕ))) :=
  ((((((VectorFst.new.addStates 4).setStart (some 0)).addArc 0
    ⟨1, 1, .member (Tropical.trop 1), 1⟩).addArc 0 ⟨1, 1, .member (Tropical.trop (2 : ℕ)), 2⟩).addArc 1
      ⟨2, 2, .member (Tropical.trop (5 : ℕ)), 3⟩).addArc 2 ⟨2, 2, .member (Tropical.trop 1), 3⟩).setFinal 3 1

theorem determinizeFsa_correct_branching : ∃ fuel result,
    determinizeFsa fuel branchingFst VectorFst.new defaultCommonDivisor none = some (.ok result) ∧
      UniqueLabels (·.ilabel) result ∧
        stringWeight (values result) [1, 2] = stringWeight (values branchingFst) [1, 2] := by
  have hmembers : AllMembers branchingFst :=
    ⟨VectorFst.forall_arcs_of_lt (by decide +kernel), VectorFst.forall_finalWeight_of_lt
      (P := fun w : Weight (Tropical (WithTop ℕ)) => w.isMember = true) rfl (by decide +kernel)⟩
  have hsorted : Holds branchingFst .topSorted := VectorFst.forall_arcs_of_lt (by decide +kernel)
  obtain ⟨hcorrect, hreturns⟩ := determinizeFsa_correct leftDivisible_tropical zeroSumFree_tropical
    hmembers VectorFst.new
  obtain ⟨fuel, r, hrun, hok⟩ := hreturns (acyclic_of_topSorted hsorted)
  obtain ⟨result, rfl⟩ := hok inferInstance (VectorFst.forall_arcs_of_lt (by decide +kernel))
  obtain ⟨-, hlabels, hweights⟩ := hcorrect fuel none result (hrun fuel le_rfl)
  exact ⟨fuel, result, hrun fuel le_rfl, hlabels, hweights [1, 2]⟩

end Branching

theorem determinizeFsa_mono {fuel fuel' : ℕ} (hle : fuel ≤ fuel') {maxStates : Option ℕ}
    {ofst : VectorFst L (Weight K)} {r : Except String (VectorFst L (Weight K))}
    (hrun : determinizeFsa fuel fst ofst divisor maxStates = some r) :
    determinizeFsa fuel' fst ofst divisor maxStates = some r := by
  cases hstart : fst.start with
  | none =>
    unfold determinizeFsa at hrun ⊢
    rw [hstart] at hrun ⊢
    exact hrun
  | some istart =>
    rw [determinizeFsa_of_start hstart] at hrun ⊢
    obtain ⟨x, hloop, rfl⟩ := Option.map_eq_some_iff.mp hrun
    have hloop' := Loop.runLoop_mono hle hloop
    exact congrArg (Option.map _) hloop'

section Cancelling

/- Division of exact rationals, undefined by zero. -/
instance : Divide ℚ := ⟨fun a b => if b = 0 then .noWeight else .member (a / b)⟩

/- Division that makes a member even of a quotient by zero. -/
instance : Divide (ZMod 3) := ⟨fun a b => .member (a / b)⟩

theorem leftDivisible_rat : LeftDivisible ℚ := by
  intro w rest hne
  refine ⟨w / (w + rest), ?_, mul_div_cancel₀ w hne⟩
  simp [Divide.divide, hne]

theorem leftDivisible_zmod : LeftDivisible (ZMod 3) :=
  fun w rest hne => ⟨w / (w + rest), rfl, mul_div_cancel₀ w hne⟩

/- Two arcs with one label, of which one takes back what the other gives. -/
def cancellingFst (K : Type) [Ring K] [DecidableEq K] : VectorFst ℤ (Weight K) :=
  ((((VectorFst.new.addStates 3).setStart (some 0)).addArc 0 ⟨1, 1, .member 1, 1⟩).addArc 0
    ⟨1, 1, .member (-1), 2⟩).setFinal 1 1

/- What the weights of an acceptor are to be for it to be determinized. -/
structure Proper (fst : VectorFst L (Weight K)) : Prop where
  members : AllMembers fst
  acceptor : EveryArc (fun arc => arc.ilabel = arc.olabel) fst
  nonzero : EveryArc (fun arc => arc.weight ≠ 0) fst

theorem proper_cancelling_rat : Proper (cancellingFst ℚ) :=
  ⟨⟨VectorFst.forall_arcs_of_lt (by decide +kernel),
    VectorFst.forall_finalWeight_of_lt (P := fun w : Weight ℚ => w.isMember = true) rfl (by decide +kernel)⟩,
    VectorFst.forall_arcs_of_lt (by decide +kernel), VectorFst.forall_arcs_of_lt (by decide +kernel)⟩

theorem proper_cancelling_zmod : Proper (cancellingFst (ZMod 3)) :=
  ⟨⟨VectorFst.forall_arcs_of_lt (by decide +kernel),
    VectorFst.forall_finalWeight_of_lt (P := fun w : Weight (ZMod 3) => w.isMember = true) rfl (by decide +kernel)⟩,
    VectorFst.forall_arcs_of_lt (by decide +kernel), VectorFst.forall_arcs_of_lt (by decide +kernel)⟩

/- Weights that cancel keep an acyclic acceptor from being determinized where division by zero is
undefined, and lose a string where it is not. -/
theorem cancelling_not_determinized :
    (¬ ∀ (K : Type) [CommSemiring K] [DecidableEq K] [Divide K], LeftDivisible K →
      ∀ fst : VectorFst ℤ (Weight K), Proper fst → ¬ Holds fst .cyclic → ∃ fuel result,
        determinizeFsa fuel fst VectorFst.new defaultCommonDivisor none = some (.ok result)) ∧
    ¬ ∀ (K : Type) [CommSemiring K] [DecidableEq K] [Divide K], LeftDivisible K →
      ∀ fst : VectorFst ℤ (Weight K), Proper fst → ∀ fuel maxStates result,
        determinizeFsa fuel fst VectorFst.new defaultCommonDivisor maxStates = some (.ok result) →
          ∀ u, stringWeight (values result) u = stringWeight (values fst) u := by
  constructor
  · intro h
    have hsorted : Holds (cancellingFst ℚ) .topSorted :=
      VectorFst.forall_arcs_of_lt (by decide +kernel)
    obtain ⟨fuel, result, hok⟩ := h ℚ leftDivisible_rat (cancellingFst ℚ) proper_cancelling_rat
      (acyclic_of_topSorted hsorted)
    have hfails : (determinizeFsa 4 (cancellingFst ℚ) VectorFst.new defaultCommonDivisor none).map
        Except.toBool = some false := by decide +kernel
    obtain ⟨r, hr, hfalse⟩ := Option.map_eq_some_iff.mp hfails
    have hok' := determinizeFsa_mono (Nat.le_max_left fuel 4) hok
    have hr' := determinizeFsa_mono (Nat.le_max_right fuel 4) hr
    rw [hok'] at hr'
    cases hr'
    cases hfalse
  · intro h
    have hloses : (determinizeFsa 4 (cancellingFst (ZMod 3)) VectorFst.new defaultCommonDivisor
        none).bind (fun r => r.toOption.map fun f => (f.start, weightFromState (values f) 0 [1])) =
          some (some 0, 0) := by decide +kernel
    obtain ⟨r, hr, hmap⟩ := Option.bind_eq_some_iff.mp hloses
    cases r with
    | error e => cases hmap
    | ok result =>
      obtain ⟨hstart, hweight⟩ := Prod.mk.inj (Option.some.inj hmap)
      have heq := h (ZMod 3) leftDivisible_zmod (cancellingFst (ZMod 3)) proper_cancelling_zmod 4 none
        result hr [1]
      have hstart' : (values result).start = some 0 := hstart
      have hstart0 : (values (cancellingFst (ZMod 3))).start = some 0 := rfl
      rw [stringWeight_eq hstart', hweight, stringWeight_eq hstart0] at heq
      revert heq
      decide +kernel

end Cancelling

end Sicada.DeterminizeAcyclic
