import Sicada.Accumulator

set_option linter.unusedSectionVars false

namespace Sicada.AccumulatorExact

open Accumulator

variable {L : Type} [ArcLabel L] {arcs : List (Arc L ℚ≥0)} {fst : VectorFst L ℚ≥0}

section Sums

/- What the arcs from one place up to another weigh together. -/
def rangeSum (arcs : List (Arc L ℚ≥0)) (begin stop : ℕ) : ℚ≥0 :=
  (((arcs.drop begin).take (stop - begin)).map Arc.weight).sum

theorem logPlusRaw_eq (f1 f2 : ℚ≥0) : logPlusRaw f1 f2 = f1 + f2 := by
  unfold logPlusRaw
  split
  · next h => rw [h, zero_add]
  · rfl

theorem logPlus_eq (w v : ℚ≥0) : logPlus w v = w + v := by
  unfold logPlus
  split
  · next h => rw [h, zero_add]
  · exact logPlusRaw_eq w v

theorem logMinusRaw_eq (f1 f2 : ℚ≥0) : logMinusRaw f1 f2 = f1 - f2 := by
  unfold logMinusRaw
  split
  · next h => rw [h, tsub_zero]
  · rfl

theorem walk_eq (w : ℚ≥0) (arcs : List (Arc L ℚ≥0)) :
    walk w arcs = w + (arcs.map Arc.weight).sum := by
  induction arcs generalizing w with
  | nil => simp [walk]
  | cons arc arcs ih =>
    have hstep : walk w (arc :: arcs) = walk (logPlus w arc.weight) arcs := rfl
    rw [hstep, ih, logPlus_eq, List.map_cons, List.sum_cons, add_assoc]

theorem walk_range (w : ℚ≥0) (arcs : List (Arc L ℚ≥0)) (begin stop : ℕ) :
    walk w ((arcs.drop begin).take (stop - begin)) = w + rangeSum arcs begin stop := walk_eq _ _

theorem rangeSum_self (arcs : List (Arc L ℚ≥0)) (begin : ℕ) : rangeSum arcs begin begin = 0 := by
  simp [rangeSum]

variable (arcs) in
theorem rangeSum_add {begin mid stop : ℕ} (hbegin : begin ≤ mid) (hstop : mid ≤ stop) :
    rangeSum arcs begin mid + rangeSum arcs mid stop = rangeSum arcs begin stop := by
  have hsplit : (arcs.drop begin).take (stop - begin) =
      (arcs.drop begin).take (mid - begin) ++ (arcs.drop mid).take (stop - mid) := by
    have hlength : stop - begin = (mid - begin) + (stop - mid) := by omega
    have hdrop : begin + (mid - begin) = mid := by omega
    rw [hlength, List.take_add, List.drop_drop, hdrop]
  unfold rangeSum
  rw [hsplit, List.map_append, List.sum_append]

variable (arcs) in
theorem rangeSum_mono {stop stop' : ℕ} (h : stop ≤ stop') :
    rangeSum arcs 0 stop ≤ rangeSum arcs 0 stop' := by
  rw [← rangeSum_add _ (Nat.zero_le stop) h]
  exact le_self_add

theorem rangeSum_succ {n : ℕ} {arc : Arc L ℚ≥0} (h : arcs[n]? = some arc) :
    rangeSum arcs 0 (n + 1) = rangeSum arcs 0 n + arc.weight := by
  rw [← rangeSum_add _ (Nat.zero_le n) (Nat.le_succ n)]
  unfold rangeSum
  obtain ⟨hlt, rfl⟩ := List.getElem?_eq_some_iff.mp h
  rw [Nat.succ_sub (Nat.le_refl n), Nat.sub_self, List.drop_eq_getElem_cons hlt, List.take_succ_cons,
    List.take_zero]
  simp

/- What is left of the first sum by the second. -/
variable (arcs) in
theorem logPlus_sub {f1 f2 : ℚ≥0} {begin stop : ℕ} (hbegin : begin ≤ stop)
    (h1 : f1 = rangeSum arcs 0 stop) (h2 : f2 = rangeSum arcs 0 begin) (w : ℚ≥0) :
    (if f2 < f1 then logPlus w (logMinusRaw f1 f2) else w) = w + rangeSum arcs begin stop := by
  have hadd := rangeSum_add arcs (Nat.zero_le begin) hbegin
  rw [← h1, ← h2] at hadd
  split
  · rw [logPlus_eq, logMinusRaw_eq, ← hadd, add_tsub_cancel_left]
  · next hnot =>
    have hle : rangeSum arcs begin stop ≤ 0 := by
      apply le_of_add_le_add_left (a := f2)
      rw [hadd, add_zero]
      exact le_of_not_gt hnot
    rw [le_antisymm hle zero_le, add_zero]

end Sums

section Fast

variable {accumulator : FastLogAccumulator} {arcPeriod base : ℕ} {weights : List ℚ≥0}

/- From `base` on stand the sums of every `arcPeriod` arcs, as far as `seen`. -/
def Run (arcs : List (Arc L ℚ≥0)) (arcPeriod base seen : ℕ) (weights : List ℚ≥0) : Prop :=
  ∀ i, i * arcPeriod ≤ seen → weights[base + i]? = some (rangeSum arcs 0 (i * arcPeriod))

theorem Run.append {seen : ℕ} (h : Run arcs arcPeriod base seen weights) (more : List ℚ≥0) :
    Run arcs arcPeriod base seen (weights ++ more) := by
  intro i hi
  have hget := h i hi
  rw [List.getElem?_append_left (List.getElem?_eq_some_iff.mp hget).1]
  exact hget

/- A stored point for every full period, and no other. -/
theorem storeSums_run {seen : ℕ} {sum : ℚ≥0} {rest : List (Arc L ℚ≥0)} (hperiod : 0 < arcPeriod)
    (hrest : rest = arcs.drop seen) (hseen : seen ≤ arcs.length) (hsum : sum = rangeSum arcs 0 seen)
    (hlength : weights.length = base + seen / arcPeriod + 1)
    (hrun : Run arcs arcPeriod base seen weights) :
    Run arcs arcPeriod base arcs.length
      (FastLogAccumulator.storeSums arcPeriod rest seen sum weights) := by
  induction rest generalizing seen sum weights with
  | nil =>
    have hlast : seen = arcs.length :=
      Nat.le_antisymm hseen (List.drop_eq_nil_iff.mp hrest.symm)
    rw [← hlast]
    exact hrun
  | cons arc rest ih =>
    have hget : arcs[seen]? = some arc := by
      rw [← List.head?_drop, ← hrest]
      rfl
    have hlt := (List.getElem?_eq_some_iff.mp hget).1
    have htail : rest = arcs.drop (seen + 1) := by
      rw [← List.tail_drop, ← hrest]
      rfl
    have hsum' : logPlusRaw sum arc.weight = rangeSum arcs 0 (seen + 1) := by
      rw [logPlusRaw_eq, hsum, rangeSum_succ hget]
    have hdiv := Nat.succ_div (a := seen) (b := arcPeriod)
    unfold FastLogAccumulator.storeSums
    apply ih htail hlt hsum'
    · split
      · next hmod =>
        rw [if_pos (Nat.dvd_of_mod_eq_zero hmod)] at hdiv
        rw [List.length_append, List.length_singleton, hlength]
        omega
      · next hmod =>
        rw [if_neg (fun hdvd => hmod (Nat.mod_eq_zero_of_dvd hdvd))] at hdiv
        rw [hlength]
        omega
    · intro i hi
      by_cases hold : i * arcPeriod ≤ seen
      · split
        · exact (hrun.append _) i hold
        · exact hrun i hold
      · -- the point that is stored for the arc itself
        have heq : i * arcPeriod = seen + 1 := by omega
        have hmod : (seen + 1) % arcPeriod = 0 := by rw [← heq, Nat.mul_mod_left]
        rw [if_pos hmod, hsum', heq]
        have hi' : i = seen / arcPeriod + 1 := by
          rw [if_pos (Nat.dvd_of_mod_eq_zero hmod), ← heq, Nat.mul_div_cancel _ hperiod] at hdiv
          exact hdiv
        have hindex : base + i = weights.length := by omega
        rw [hindex, List.getElem?_append_right (Nat.le_refl _), Nat.sub_self]
        rfl

variable (arcPeriod) in
theorem storeSums_append (rest : List (Arc L ℚ≥0)) (seen : ℕ) (sum : ℚ≥0) (weights : List ℚ≥0) :
    ∃ more, FastLogAccumulator.storeSums arcPeriod rest seen sum weights = weights ++ more := by
  induction rest generalizing seen sum weights with
  | nil => exact ⟨[], (List.append_nil _).symm⟩
  | cons arc rest ih =>
    obtain ⟨more, hmore⟩ := ih (seen + 1) (logPlusRaw sum arc.weight)
      (if (seen + 1) % arcPeriod = 0 then weights ++ [logPlusRaw sum arc.weight] else weights)
    refine ⟨(if (seen + 1) % arcPeriod = 0 then [logPlusRaw sum arc.weight] else []) ++ more, ?_⟩
    unfold FastLogAccumulator.storeSums
    rw [hmore]
    split <;> simp

/- The run of every state that has one. -/
def Stored (fst : VectorFst L ℚ≥0) (accumulator : FastLogAccumulator) : Prop :=
  ∀ s base, accumulator.positions[s]? = some (some base) →
    Run (fst.arcs s) accumulator.arcPeriod base (fst.arcs s).length accumulator.weights

theorem stored_storeState (hperiod : 0 < accumulator.arcPeriod) (h : Stored fst accumulator)
    (state : ℕ) : Stored fst (accumulator.storeState fst state) ∧
      (accumulator.storeState fst state).arcPeriod = accumulator.arcPeriod ∧
      (accumulator.storeState fst state).current = accumulator.current := by
  unfold FastLogAccumulator.storeState
  split
  · exact ⟨h, rfl, rfl⟩
  refine ⟨?_, rfl, rfl⟩
  intro s base hbase
  dsimp only at hbase ⊢
  by_cases hs : s = state
  · subst hs
    have hlt : s < (FastLogAccumulator.resize accumulator.positions (s + 1)).length := by
      unfold FastLogAccumulator.resize
      rw [List.length_append, List.length_replicate]
      omega
    rw [List.getElem?_set_self hlt] at hbase
    cases hbase
    apply storeSums_run hperiod rfl (Nat.zero_le _) (rangeSum_self _ 0).symm
    · simp
    · intro i hi
      have hi0 : i = 0 := by
        rcases Nat.mul_eq_zero.mp (Nat.le_zero.mp hi) with h0 | h0
        · exact h0
        · omega
      rw [hi0, Nat.add_zero, Nat.zero_mul, rangeSum_self, List.getElem?_append_right (Nat.le_refl _),
        Nat.sub_self]
      rfl
  · rw [List.getElem?_set_ne (fun heq => hs heq.symm)] at hbase
    have hold : accumulator.positions[s]? = some (some base) := by
      unfold FastLogAccumulator.resize at hbase
      by_cases hlt : s < accumulator.positions.length
      · rwa [List.getElem?_append_left hlt] at hbase
      · rw [List.getElem?_append_right (Nat.le_of_not_lt hlt), List.getElem?_replicate] at hbase
        split at hbase <;> cases hbase
    obtain ⟨more, hmore⟩ := storeSums_append accumulator.arcPeriod (fst.arcs state) 0 0
      (accumulator.weights ++ [0])
    rw [hmore]
    exact ((h s base hold).append _).append _

theorem stored_init (hperiod : 0 < accumulator.arcPeriod) (fst : VectorFst L ℚ≥0) :
    Stored fst (accumulator.init fst) ∧
      (accumulator.init fst).arcPeriod = accumulator.arcPeriod ∧
      (accumulator.init fst).current = none := by
  have hfold : ∀ (states : List ℕ) (start : FastLogAccumulator), Stored fst start → 0 < start.arcPeriod →
      Stored fst (states.foldl (fun accumulator state => accumulator.storeState fst state) start) ∧
        (states.foldl (fun accumulator state => accumulator.storeState fst state) start).arcPeriod =
          start.arcPeriod ∧
        (states.foldl (fun accumulator state => accumulator.storeState fst state) start).current =
          start.current := by
    intro states
    induction states with
    | nil => exact fun start hstart _ => ⟨hstart, rfl, rfl⟩
    | cons state states ih =>
      intro start hstart hperiod
      obtain ⟨hstored, hsame, hcurrent⟩ := stored_storeState hperiod hstart state
      obtain ⟨hall, hsame', hcurrent'⟩ := ih _ hstored (by rw [hsame]; exact hperiod)
      exact ⟨hall, hsame'.trans hsame, hcurrent'.trans hcurrent⟩
  exact hfold _ _ (fun s base hbase => by simp at hbase) hperiod

/- At a place stands what was summed up to it. -/
structure PlaceAt (arcs : List (Arc L ℚ≥0)) (w : ℚ≥0) (begin : ℕ) (place : Place L) : Prop where
  sum : place.sum = w + rangeSum arcs begin place.position
  arcs : place.arcs = arcs.drop place.position
  le : begin ≤ place.position

theorem PlaceAt.walkTo {w : ℚ≥0} {begin : ℕ} {place : Place L} (h : PlaceAt arcs w begin place)
    (stop : ℕ) : PlaceAt arcs w begin (place.walkTo stop) ∧
      (place.walkTo stop).position = max place.position stop := by
  unfold Place.walkTo
  split
  · next hlt =>
    refine ⟨⟨?_, ?_, le_trans h.le hlt.le⟩, (max_eq_right hlt.le).symm⟩
    · dsimp only
      rw [h.arcs, walk_range, h.sum, add_assoc, rangeSum_add _ h.le hlt.le]
    · dsimp only
      rw [h.arcs, List.drop_drop, Nat.add_sub_cancel' hlt.le]
  · next hnot => exact ⟨h, (max_eq_left (Nat.le_of_not_lt hnot)).symm⟩

theorem PlaceAt.jump {w : ℚ≥0} {begin : ℕ} {place : Place L} (h : PlaceAt arcs w begin place)
    (indexBegin indexEnd : ℕ) (hbase : accumulator.current = some base)
    (hrun : Run arcs accumulator.arcPeriod base arcs.length accumulator.weights)
    (hbegin : indexBegin * accumulator.arcPeriod < indexEnd * accumulator.arcPeriod →
      place.position = indexBegin * accumulator.arcPeriod)
    (hend : indexEnd * accumulator.arcPeriod ≤ arcs.length) :
    ∃ place', accumulator.jump indexBegin indexEnd (indexBegin * accumulator.arcPeriod)
        (indexEnd * accumulator.arcPeriod) place = some place' ∧ PlaceAt arcs w begin place' ∧
      place'.position ≤ max place.position (indexEnd * accumulator.arcPeriod) := by
  unfold FastLogAccumulator.jump
  rw [hbase]
  dsimp only
  split
  · next hlt =>
    have hposition := hbegin hlt
    have hsum := logPlus_sub arcs hlt.le rfl rfl place.sum
    rw [hrun indexEnd hend, hrun indexBegin (le_trans hlt.le hend)]
    simp only [Option.bind_eq_bind, Option.bind_some, hposition, if_pos hlt, hsum]
    refine ⟨_, rfl, ⟨?_, ?_, ?_⟩, le_max_right _ _⟩
    · dsimp only
      rw [h.sum, hposition, add_assoc, rangeSum_add _ (hposition ▸ h.le) hlt.le]
    · dsimp only
      rw [h.arcs, hposition, List.drop_drop, Nat.add_sub_cancel' hlt.le]
    · exact le_trans (hposition ▸ h.le) hlt.le
  · exact ⟨place, rfl, h, le_max_left _ _⟩

/- The walk up to the first stored point, if that is not past the end. -/
variable (arcs) in
theorem placeAt_first (w : ℚ≥0) {begin stop storedBegin : ℕ} (hbegin : begin ≤ stop)
    (hstored : begin ≤ storedBegin) {place : Place L}
    (hplace : place = if begin < storedBegin then
      Place.walkTo ⟨w, arcs.drop begin, begin⟩ (min storedBegin stop)
      else ⟨w, arcs.drop begin, begin⟩) :
    PlaceAt arcs w begin place ∧ place.position = min storedBegin stop := by
  have hstart : PlaceAt arcs w begin (⟨w, arcs.drop begin, begin⟩ : Place L) :=
    ⟨by rw [rangeSum_self, add_zero], rfl, Nat.le_refl _⟩
  subst hplace
  split
  · obtain ⟨hat, hposition⟩ := hstart.walkTo (min storedBegin stop)
    refine ⟨hat, hposition.trans ?_⟩
    dsimp only
    omega
  · refine ⟨hstart, ?_⟩
    dsimp only
    omega

theorem fast_sumRange (hcurrent : ∀ base, accumulator.current = some base →
      Run arcs accumulator.arcPeriod base arcs.length accumulator.weights)
    (hperiod : 0 < accumulator.arcPeriod) (w : ℚ≥0) {begin stop : ℕ} (hbegin : begin ≤ stop)
    (hstop : stop ≤ arcs.length) :
    accumulator.sumRange w arcs begin stop =
      some (LogAccumulator.sumRange w arcs begin stop) := by
  have hwalk : LogAccumulator.sumRange w arcs begin stop = w + rangeSum arcs begin stop :=
    walk_range w arcs begin stop
  have hlast : ∀ place : Place L, PlaceAt arcs w begin place → place.position ≤ stop →
      (place.walkTo stop).sum = w + rangeSum arcs begin stop := by
    intro place hplace hle
    obtain ⟨hat, hposition⟩ := hplace.walkTo stop
    rw [hat.sum, hposition, max_eq_right hle]
  rw [hwalk]
  unfold FastLogAccumulator.sumRange
  split
  · next hle => rw [Nat.le_antisymm hbegin hle, rangeSum_self, add_zero]
  cases hbase : accumulator.current with
  | none =>
    have hpoints : accumulator.points begin stop = (0, 0, stop, stop) := by
      unfold FastLogAccumulator.points
      rw [hbase]
    obtain ⟨hat, hposition⟩ := placeAt_first arcs w hbegin hbegin rfl
    rw [hpoints]
    simp only [FastLogAccumulator.jump, hbase, Option.map_some]
    rw [hlast _ hat (by rw [hposition]; exact min_le_right _ _)]
  | some base =>
    let indexBegin := if 0 < begin then (begin - 1) / accumulator.arcPeriod + 1 else 0
    let indexEnd := stop / accumulator.arcPeriod
    have hpoints : accumulator.points begin stop = (indexBegin, indexEnd,
        indexBegin * accumulator.arcPeriod, indexEnd * accumulator.arcPeriod) := by
      unfold FastLogAccumulator.points
      rw [hbase]
    have hfirst : begin ≤ indexBegin * accumulator.arcPeriod := by
      by_cases hzero : 0 < begin
      · have hlt := Nat.lt_mul_div_succ (begin - 1) hperiod
        rw [Nat.mul_comm] at hlt
        have hindex : indexBegin = (begin - 1) / accumulator.arcPeriod + 1 := if_pos hzero
        rw [hindex]
        omega
      · omega
    have hsecond : indexEnd * accumulator.arcPeriod ≤ stop := Nat.div_mul_le_self _ _
    obtain ⟨hat, hposition⟩ := placeAt_first arcs w hbegin hfirst rfl
    obtain ⟨place', hjump, hat', hle⟩ := hat.jump indexBegin indexEnd hbase (hcurrent base hbase)
      (fun hlt => by rw [hposition]; exact min_eq_left (le_trans hlt.le hsecond))
      (le_trans hsecond hstop)
    rw [hposition] at hle
    rw [hpoints]
    simp only [hjump, Option.map_some]
    rw [hlast place' hat' (le_trans hle (max_le (min_le_right _ _) hsecond))]

end Fast

section Cache

variable {accumulator : CacheLogAccumulator} {run : List ℚ≥0} {state : ℕ}

/- The sums of no arc, of one and so on, up to `n`. -/
def runSums (arcs : List (Arc L ℚ≥0)) (n : ℕ) : List ℚ≥0 :=
  (List.range (n + 1)).map (rangeSum arcs 0)

theorem length_runSums (arcs : List (Arc L ℚ≥0)) (n : ℕ) : (runSums arcs n).length = n + 1 := by
  simp [runSums]

theorem getElem?_runSums {n i : ℕ} (hi : i ≤ n) :
    (runSums arcs n)[i]? = some (rangeSum arcs 0 i) := by
  unfold runSums
  rw [List.getElem?_map, List.getElem?_range (Nat.lt_succ_of_le hi)]
  rfl

theorem runSums_succ (arcs : List (Arc L ℚ≥0)) (n : ℕ) :
    runSums arcs (n + 1) = runSums arcs n ++ [rangeSum arcs 0 (n + 1)] := by
  unfold runSums
  rw [List.range_succ, List.map_append]
  rfl

variable (arcs) in
theorem pushSums_eq (n : ℕ) {rest : List (Arc L ℚ≥0)} (hrest : rest <+: arcs.drop n) :
    CacheLogAccumulator.pushSums rest (rangeSum arcs 0 n) (runSums arcs n) =
      runSums arcs (n + rest.length) := by
  induction rest generalizing n with
  | nil => rfl
  | cons arc rest ih =>
    obtain ⟨more, hmore⟩ := hrest
    have hget : arcs[n]? = some arc := by
      rw [← List.head?_drop, ← hmore]
      rfl
    have htail : rest <+: arcs.drop (n + 1) := by
      refine ⟨more, ?_⟩
      rw [← List.tail_drop, ← hmore]
      rfl
    unfold CacheLogAccumulator.pushSums
    dsimp only
    rw [logPlusRaw_eq, ← rangeSum_succ hget, ← runSums_succ, ih (n + 1) htail, List.length_cons,
      Nat.add_right_comm, Nat.add_assoc]

/- Every run that is stored is that of the FST, as far as it goes. -/
def Fresh (accumulator : CacheLogAccumulator) (fst : VectorFst L ℚ≥0) : Prop :=
  ∀ s run, accumulator.cached s = some run →
    ∃ n ≤ (fst.arcs s).length, run = runSums (fst.arcs s) n

variable (state) in
theorem extend_eq (hfresh : Fresh accumulator fst) {stop : ℕ}
    (hstop : stop ≤ (fst.arcs state).length) :
    ∃ n accumulator', stop ≤ n ∧ n ≤ (fst.arcs state).length ∧
      accumulator.extend state (fst.arcs state) stop =
        some (runSums (fst.arcs state) n, accumulator') ∧ Fresh accumulator' fst ∧
      accumulator'.current = accumulator.current := by
  have hrun : ∃ n ≤ (fst.arcs state).length,
      (accumulator.cached state).getD [0] = runSums (fst.arcs state) n := by
    cases hcached : accumulator.cached state with
    | none =>
      refine ⟨0, Nat.zero_le _, ?_⟩
      rw [Option.getD_none]
      unfold runSums
      rw [List.range_one, List.map_singleton, rangeSum_self]
    | some run => exact hfresh state run hcached
  obtain ⟨n, hn, hrun⟩ := hrun
  have hkept : ∀ m ≤ (fst.arcs state).length, Fresh { accumulator with
      cached := Function.update accumulator.cached state (some (runSums (fst.arcs state) m)) }
      fst := by
    intro m hm s run hcached
    dsimp only at hcached
    rw [Function.update_apply] at hcached
    split at hcached
    · next hs =>
      cases hcached
      rw [hs]
      exact ⟨m, hm, rfl⟩
    · exact hfresh s run hcached
  unfold CacheLogAccumulator.extend
  rw [hrun]
  dsimp only
  rw [length_runSums, Nat.add_sub_cancel]
  by_cases hlt : stop < n + 1
  · rw [if_pos hlt]
    exact ⟨n, _, Nat.le_of_lt_succ hlt, hn, rfl, hkept n hn, rfl⟩
  · rw [if_neg hlt, getElem?_runSums (Nat.le_refl n)]
    have hpush := pushSums_eq (fst.arcs state) n
      (List.take_prefix (stop + 1 - (n + 1)) ((fst.arcs state).drop n))
    have hlength : n + (((fst.arcs state).drop n).take (stop + 1 - (n + 1))).length = stop := by
      rw [List.length_take, List.length_drop]
      omega
    rw [hlength] at hpush
    refine ⟨stop, _, Nat.le_refl _, hstop, ?_, hkept stop hstop, rfl⟩
    rw [Option.map_some, hpush]
    rfl

theorem cache_sumRange (hfresh : Fresh accumulator fst) (hcurrent : accumulator.current = some state)
    (w : ℚ≥0) {begin stop : ℕ} (hbegin : begin ≤ stop) (hstop : stop ≤ (fst.arcs state).length) :
    ∃ accumulator', accumulator.sumRange w (fst.arcs state) begin stop =
        some (LogAccumulator.sumRange w (fst.arcs state) begin stop, accumulator') ∧
      Fresh accumulator' fst ∧ accumulator'.current = some state := by
  unfold CacheLogAccumulator.sumRange
  rw [hcurrent]
  dsimp only
  split
  · exact ⟨accumulator, rfl, hfresh, hcurrent⟩
  · obtain ⟨n, accumulator', hn, hle, hextend, hfresh', hcurrent'⟩ := extend_eq _ hfresh hstop
    refine ⟨accumulator', ?_, hfresh', hcurrent'.trans hcurrent⟩
    have hsum := logPlus_sub (fst.arcs state) hbegin rfl rfl w
    have hwalk : LogAccumulator.sumRange w (fst.arcs state) begin stop =
        w + rangeSum (fst.arcs state) begin stop := walk_range w _ begin stop
    simp only [hextend, Option.bind_eq_bind, Option.bind_some, length_runSums, Nat.add_sub_cancel,
      min_eq_left hn, min_eq_left (le_trans hbegin hn), getElem?_runSums hn,
      getElem?_runSums (le_trans hbegin hn), hsum, hwalk]
    rfl

section Bounds

/- The first place from `start` on whose arc brings the sum to the target, or the end. -/
structure IsBound (arcs : List (Arc L ℚ≥0)) (target : ℚ≥0) (start n : ℕ) : Prop where
  start_le : start ≤ n
  le_length : n ≤ arcs.length
  reached : n < arcs.length → target ≤ rangeSum arcs 0 (n + 1)
  before : ∀ i, start ≤ i → i < n → rangeSum arcs 0 (i + 1) < target

variable {target : ℚ≥0} {start : ℕ}

theorem IsBound.unique {n m : ℕ} (hn : IsBound arcs target start n)
    (hm : IsBound arcs target start m) : n = m := by
  have hnot : ∀ {i j : ℕ}, IsBound arcs target start i → IsBound arcs target start j → ¬ i < j := by
    intro i j hi hj hlt
    exact absurd (hi.reached (lt_of_lt_of_le hlt hj.le_length))
      (not_le_of_gt (hj.before i hi.start_le hlt))
  exact Nat.le_antisymm (Nat.le_of_not_lt (hnot hm hn)) (Nat.le_of_not_lt (hnot hn hm))

variable (arcs target start) in
theorem walkBound_isBound {rest : List (Arc L ℚ≥0)} (n : ℕ) {x : ℚ≥0} (hrest : rest = arcs.drop n)
    (hn : n ≤ arcs.length) (hstart : start ≤ arcs.length) (hx : x = rangeSum arcs 0 n)
    (hbefore : ∀ i, start ≤ i → i < n → rangeSum arcs 0 (i + 1) < target) :
    IsBound arcs target start (CacheLogAccumulator.walkBound target start rest n x) := by
  induction rest generalizing n x with
  | nil =>
    have hlast : n = arcs.length := Nat.le_antisymm hn (List.drop_eq_nil_iff.mp hrest.symm)
    unfold CacheLogAccumulator.walkBound
    exact ⟨hlast ▸ hstart, hn, fun hlt => absurd hlt (by omega), hbefore⟩
  | cons arc rest ih =>
    have hget : arcs[n]? = some arc := by
      rw [← List.head?_drop, ← hrest]
      rfl
    have hlt := (List.getElem?_eq_some_iff.mp hget).1
    have hsum : logPlusRaw x arc.weight = rangeSum arcs 0 (n + 1) := by
      rw [logPlusRaw_eq, hx, rangeSum_succ hget]
    unfold CacheLogAccumulator.walkBound
    dsimp only
    split
    · next hfound => exact ⟨hfound.1, hn, fun _ => hsum ▸ hfound.2, hbefore⟩
    · next hnot =>
      apply ih (n + 1) _ hlt hsum
      · intro i hi hin
        rcases Nat.lt_succ_iff_lt_or_eq.mp hin with hold | rfl
        · exact hbefore i hi hold
        · rw [← hsum]
          exact lt_of_not_ge fun hle => hnot ⟨hi, hle⟩
      · rw [← List.tail_drop, ← hrest]
        rfl

/- The search keeps the bound between `lo` and `hi`. -/
variable (arcs target start) in
theorem searchRun_isBound (lo hi : ℕ) (hlo : start + 1 ≤ lo) (hle : lo ≤ hi)
    (hhi : hi ≤ arcs.length + 1)
    (hbefore : ∀ i, start ≤ i → i + 1 < lo → rangeSum arcs 0 (i + 1) < target)
    (hafter : ∀ i, hi ≤ i + 1 → i < arcs.length → target ≤ rangeSum arcs 0 (i + 1)) :
    ∃ n, CacheLogAccumulator.searchRun (runSums arcs arcs.length) target lo hi = some (n + 1) ∧
      IsBound arcs target start n := by
  induction hk : hi - lo using Nat.strong_induction_on generalizing lo hi with
  | _ k ih =>
    subst hk
    unfold CacheLogAccumulator.searchRun
    split
    · next hlt =>
      obtain ⟨mid, hmid⟩ : ∃ mid, lo + (hi - lo) / 2 = mid + 1 :=
        ⟨lo + (hi - lo) / 2 - 1, by omega⟩
      have hin : mid < arcs.length := by omega
      dsimp only
      rw [hmid, getElem?_runSums (Nat.succ_le_of_lt hin)]
      dsimp only
      split
      · next hless =>
        apply ih _ (by omega) _ _ (by omega) (by omega) hhi _ hafter rfl
        intro i _ hi'
        exact lt_of_le_of_lt (rangeSum_mono _ (by omega)) hless
      · next hmore =>
        apply ih _ (by omega) _ _ hlo (by omega) (by omega) hbefore _ rfl
        intro i hi' _
        exact le_trans (le_of_not_gt hmore) (rangeSum_mono _ (by omega))
    · next hnot =>
      have heq : lo = hi := by omega
      refine ⟨lo - 1, by rw [Nat.sub_add_cancel (by omega)], by omega, by omega, ?_, ?_⟩
      · exact fun hlt => hafter (lo - 1) (by omega) hlt
      · exact fun i hi' hlt => hbefore i hi' (by omega)

theorem cache_lowerBound (hfresh : Fresh accumulator fst)
    (hcurrent : accumulator.current = some state) (w : ℚ≥0)
    (hstart : start ≤ (fst.arcs state).length) :
    ∃ accumulator', accumulator.lowerBound w (fst.arcs state) start (fst.arcs state).length =
        some (CacheLogAccumulator.walkBound w start (fst.arcs state) 0 0, accumulator') ∧
      Fresh accumulator' fst ∧ accumulator'.current = some state := by
  obtain ⟨n, accumulator', hn, hle, hextend, hfresh', hcurrent'⟩ :=
    extend_eq state hfresh (Nat.le_refl _)
  obtain rfl := Nat.le_antisymm hle hn
  obtain ⟨bound, hsearch, hbound⟩ := searchRun_isBound (fst.arcs state) w start
    (start + 1) ((fst.arcs state).length + 1) (Nat.le_refl _)
    (by omega) (Nat.le_refl _) (fun i hi hlt => by omega) (fun i hi hlt => by omega)
  have hwalk := walkBound_isBound (fst.arcs state) w start 0
    rfl (Nat.zero_le _) hstart (rangeSum_self _ 0).symm (fun i _ hlt => absurd hlt (Nat.not_lt_zero i))
  refine ⟨accumulator', ?_, hfresh', hcurrent'.trans hcurrent⟩
  unfold CacheLogAccumulator.lowerBound
  rw [hcurrent]
  simp only [hextend, Option.bind_eq_bind, Option.bind_some, length_runSums, hsearch,
    Nat.add_sub_cancel, hbound.unique hwalk]
  rfl

end Bounds

end Cache

section Runs

variable {arcLimit arcPeriod cacheLimit : ℕ} {cur : Option ℕ} {fast : FastLogAccumulator}
  {cache : CacheLogAccumulator}

/- The accumulators there are after some calls, the FST that `init` was last given and the state that
was set last. Every FST that is given agrees with what the cache holds. -/
inductive Reached (arcLimit arcPeriod cacheLimit : ℕ) :
    VectorFst L ℚ≥0 → Option ℕ → FastLogAccumulator → CacheLogAccumulator → Prop
  | new {fst : VectorFst L ℚ≥0} {fast : FastLogAccumulator}
      (hnew : FastLogAccumulator.new arcLimit arcPeriod = .ok fast) :
      Reached arcLimit arcPeriod cacheLimit fst none fast (.new cacheLimit)
  | init {fst : VectorFst L ℚ≥0} {cur : Option ℕ} {fast : FastLogAccumulator}
      {cache : CacheLogAccumulator} (next : VectorFst L ℚ≥0)
      (h : Reached arcLimit arcPeriod cacheLimit fst cur fast cache) (hfresh : Fresh cache next) :
      Reached arcLimit arcPeriod cacheLimit next cur (fast.init next) (cache.init next)
  | setState {fst : VectorFst L ℚ≥0} {cur : Option ℕ} {fast : FastLogAccumulator}
      {cache : CacheLogAccumulator} (state : ℕ)
      (h : Reached arcLimit arcPeriod cacheLimit fst cur fast cache) :
      Reached arcLimit arcPeriod cacheLimit fst (some state) (fast.setState state)
        (cache.setState state)
  | sumRange {fst : VectorFst L ℚ≥0} {state : ℕ} {fast : FastLogAccumulator}
      {cache cache' : CacheLogAccumulator} {w sum : ℚ≥0} {begin stop : ℕ}
      (h : Reached arcLimit arcPeriod cacheLimit fst (some state) fast cache)
      (hbegin : begin ≤ stop) (hstop : stop ≤ (fst.arcs state).length)
      (hsum : cache.sumRange w (fst.arcs state) begin stop = some (sum, cache')) :
      Reached arcLimit arcPeriod cacheLimit fst (some state) fast cache'
  | lowerBound {fst : VectorFst L ℚ≥0} {state : ℕ} {fast : FastLogAccumulator}
      {cache cache' : CacheLogAccumulator} {w : ℚ≥0} {start n : ℕ}
      (h : Reached arcLimit arcPeriod cacheLimit fst (some state) fast cache)
      (hstart : start ≤ (fst.arcs state).length)
      (hbound : cache.lowerBound w (fst.arcs state) start (fst.arcs state).length =
        some (n, cache')) :
      Reached arcLimit arcPeriod cacheLimit fst (some state) fast cache'

/- The sums are those of the plain walk, and the bound is that of the walk without a cache. -/
structure Agree (fst : VectorFst L ℚ≥0) (state : ℕ) (fast : FastLogAccumulator)
    (cache : CacheLogAccumulator) : Prop where
  fastSum : ∀ w begin stop, begin ≤ stop → stop ≤ (fst.arcs state).length →
    fast.sumRange w (fst.arcs state) begin stop =
      some (LogAccumulator.sumRange w (fst.arcs state) begin stop)
  cacheSum : ∀ w begin stop, begin ≤ stop → stop ≤ (fst.arcs state).length →
    ∃ cache', cache.sumRange w (fst.arcs state) begin stop =
      some (LogAccumulator.sumRange w (fst.arcs state) begin stop, cache')
  lowerBound : ∀ w start, start ≤ (fst.arcs state).length →
    ∃ cache', cache.lowerBound w (fst.arcs state) start (fst.arcs state).length =
      some (CacheLogAccumulator.walkBound w start (fst.arcs state) 0 0, cache')

structure Kept (fst : VectorFst L ℚ≥0) (cur : Option ℕ) (fast : FastLogAccumulator)
    (cache : CacheLogAccumulator) : Prop where
  period : 0 < fast.arcPeriod
  stored : Stored fst fast
  fastCurrent : ∀ base, fast.current = some base →
    ∃ s, cur = some s ∧ fast.positions[s]? = some (some base)
  fresh : Fresh cache fst
  cacheCurrent : cache.current = cur

theorem kept_init {next : VectorFst L ℚ≥0} (h : Kept fst cur fast cache)
    (hfresh : Fresh cache next) : Kept next cur (fast.init next) (cache.init next) := by
  obtain ⟨hstored, hperiod, hcurrent⟩ := stored_init h.period next
  refine ⟨by rw [hperiod]; exact h.period, hstored, ?_, hfresh, h.cacheCurrent⟩
  intro base hbase
  rw [hcurrent] at hbase
  cases hbase

theorem kept_setState (h : Kept fst cur fast cache) (state : ℕ) :
    Kept fst (some state) (fast.setState state) (cache.setState state) := by
  refine ⟨h.period, h.stored, fun base hbase => ⟨state, rfl, ?_⟩, h.fresh, rfl⟩
  exact Option.join_eq_some_iff.mp hbase

theorem kept_of_reached (h : Reached arcLimit arcPeriod cacheLimit fst cur fast cache) :
    Kept fst cur fast cache := by
  induction h with
  | @new fst fast hnew =>
    unfold FastLogAccumulator.new at hnew
    split at hnew
    · cases hnew
    · cases hnew
      refine ⟨by dsimp only; omega, ?_, fun base hbase => (by cases hbase), ?_, rfl⟩
      · intro s base hbase
        simp at hbase
      · intro s run hcached
        cases hcached
  | init next h hfresh ih => exact kept_init ih hfresh
  | setState state h ih => exact kept_setState ih state
  | sumRange h hbegin hstop hsum ih =>
    obtain ⟨cache', hsum', hfresh, hcurrent⟩ :=
      cache_sumRange ih.fresh ih.cacheCurrent _ hbegin hstop
    rw [hsum'] at hsum
    cases hsum
    exact ⟨ih.period, ih.stored, ih.fastCurrent, hfresh, hcurrent⟩
  | lowerBound h hstart hbound ih =>
    obtain ⟨cache', hbound', hfresh, hcurrent⟩ :=
      cache_lowerBound ih.fresh ih.cacheCurrent _ hstart
    rw [hbound'] at hbound
    cases hbound
    exact ⟨ih.period, ih.stored, ih.fastCurrent, hfresh, hcurrent⟩

theorem agree_of_kept {state : ℕ} (h : Kept fst (some state) fast cache) :
    Agree fst state fast cache := by
  constructor
  · intro w begin stop hbegin hstop
    apply fast_sumRange _ h.period w hbegin hstop
    intro base hbase
    obtain ⟨s, hs, hposition⟩ := h.fastCurrent base hbase
    cases hs
    exact h.stored state base hposition
  · intro w begin stop hbegin hstop
    obtain ⟨cache', hsum, -⟩ := cache_sumRange h.fresh h.cacheCurrent w hbegin hstop
    exact ⟨cache', hsum⟩
  · intro w start hstart
    obtain ⟨cache', hbound, -⟩ := cache_lowerBound h.fresh h.cacheCurrent w hstart
    exact ⟨cache', hbound⟩

/- A run that goes past the end of the arcs is found out by a bound. -/
variable (cache) in
theorem length_of_agree {state n : ℕ} {old : List (Arc L ℚ≥0)} (hn : n ≤ old.length)
    (hcached : cache.cached state = some (runSums old n)) (hcurrent : cache.current = some state)
    (h : Agree fst state fast cache) : n ≤ (fst.arcs state).length := by
  apply Nat.le_of_not_lt
  intro hlt
  let w := rangeSum old 0 n + 1
  have hlength : (old.take n).length = n := by
    rw [List.length_take]
    exact min_eq_left hn
  have hsame : ∀ i ≤ n, rangeSum (old.take n) 0 i = rangeSum old 0 i := by
    intro i hi
    unfold rangeSum
    rw [List.drop_zero, List.drop_zero, List.take_take, Nat.sub_zero, min_eq_left hi]
  have hrun : runSums (old.take n) (old.take n).length = runSums old n := by
    unfold runSums
    rw [hlength]
    apply List.map_congr_left
    intro i hi
    exact hsame i (Nat.le_of_lt_succ (List.mem_range.mp hi))
  obtain ⟨bound, hsearch, hbound⟩ := searchRun_isBound (old.take n) w (fst.arcs state).length
    ((fst.arcs state).length + 1) (n + 1)
    (Nat.le_refl _) (by omega) (by rw [hlength]) (fun i hi hi' => by omega)
    (fun i hi hi' => by omega)
  rw [hrun] at hsearch
  have hend : bound = n := by
    have hle := hbound.le_length
    rw [hlength] at hle
    apply Nat.le_antisymm hle
    apply Nat.le_of_not_lt
    intro hbefore
    have hreached := hbound.reached (by rw [hlength]; exact hbefore)
    rw [hsame _ (Nat.succ_le_of_lt hbefore)] at hreached
    have hmono := rangeSum_mono old (Nat.succ_le_of_lt hbefore)
    exact absurd (lt_of_lt_of_le (lt_add_one _) (le_trans hreached hmono)) (lt_irrefl _)
  obtain ⟨cache', hlower⟩ := h.lowerBound w (fst.arcs state).length (Nat.le_refl _)
  have hwalk := walkBound_isBound (fst.arcs state) w (fst.arcs state).length 0 rfl
    (Nat.zero_le _) (Nat.le_refl _)
    (rangeSum_self _ 0).symm (fun i _ hi => absurd hi (Nat.not_lt_zero i))
  rw [List.drop_zero] at hwalk
  have hlast := Nat.le_antisymm hwalk.le_length hwalk.start_le
  unfold CacheLogAccumulator.lowerBound CacheLogAccumulator.extend at hlower
  rw [hcurrent] at hlower
  simp only [hcached, Option.getD_some, length_runSums, if_pos (Nat.lt_succ_of_lt hlt),
    Option.map_some, Option.bind_eq_bind, Option.bind_some, hsearch, hend, Nat.add_sub_cancel,
    hlast] at hlower
  have heq := congrArg Prod.fst (Option.some.inj hlower)
  dsimp only at heq
  omega

/- And one that differs from the arcs by a sum from the first arc on. -/
variable (cache) in
theorem sums_of_agree {state n : ℕ} {old : List (Arc L ℚ≥0)}
    (hcached : cache.cached state = some (runSums old n)) (hcurrent : cache.current = some state)
    (h : Agree fst state fast cache) (hn : n ≤ (fst.arcs state).length) {i : ℕ} (hi : i ≤ n) :
    rangeSum old 0 i = rangeSum (fst.arcs state) 0 i := by
  obtain ⟨cache', hsum⟩ := h.cacheSum 0 0 i (Nat.zero_le i) (le_trans hi hn)
  have hsub := logPlus_sub old (Nat.zero_le i) rfl rfl 0
  have hwalk : LogAccumulator.sumRange 0 (fst.arcs state) 0 i =
      0 + rangeSum (fst.arcs state) 0 i := walk_range 0 _ 0 i
  unfold CacheLogAccumulator.sumRange CacheLogAccumulator.extend at hsum
  rw [hcurrent] at hsum
  simp only [hcached, Option.isNone_some, Bool.false_eq_true, false_and, if_false, Option.getD_some,
    length_runSums, if_pos (Nat.lt_succ_of_le hi), Option.map_some, Option.bind_eq_bind,
    Option.bind_some, Nat.add_sub_cancel, min_eq_left hi, min_eq_left (Nat.zero_le n),
    getElem?_runSums hi, getElem?_runSums (Nat.zero_le n), hsub, hwalk] at hsum
  have heq := congrArg Prod.fst (Option.some.inj hsum)
  simpa only [zero_add] using heq

theorem fresh_of_agree {next : VectorFst L ℚ≥0} (hfresh : Fresh cache fst)
    (h : ∀ state, Agree next state ((fast.init next).setState state)
      ((cache.init next).setState state)) : Fresh cache next := by
  intro s run hcached
  obtain ⟨n, hn, rfl⟩ := hfresh s run hcached
  have hlength := length_of_agree ((cache.init next).setState s) hn hcached rfl (h s)
  refine ⟨n, hlength, ?_⟩
  unfold runSums
  apply List.map_congr_left
  intro i hi
  exact sums_of_agree ((cache.init next).setState s) hcached rfl (h s) hlength
    (Nat.le_of_lt_succ (List.mem_range.mp hi))

/- The accumulators agree as long as no FST is given that differs from what the cache holds, and
after one that does they do not. -/
theorem accumulators_agree
    (h : Reached arcLimit arcPeriod cacheLimit fst cur fast cache) :
    (∀ state, cur = some state → Agree fst state fast cache) ∧
      ∀ next : VectorFst L ℚ≥0, (∀ state, Agree next state ((fast.init next).setState state)
        ((cache.init next).setState state)) ↔ Fresh cache next := by
  have hkept := kept_of_reached h
  constructor
  · intro state hcur
    rw [hcur] at hkept
    exact agree_of_kept hkept
  · intro next
    constructor
    · exact fresh_of_agree hkept.fresh
    · exact fun hfresh state => agree_of_kept (kept_setState (kept_init hkept hfresh) state)

end Runs

section Stale

/- A state with one arc of the given weight. -/
def fanFst (w : ℚ≥0) : VectorFst ℤ ℚ≥0 := ⟨[⟨0, [⟨1, 1, w, 0⟩], 0, 0⟩], some 0, 0⟩

theorem accumulators_agree_fan :
    ∃ fast, FastLogAccumulator.new 1 1 = .ok fast ∧
      ∀ state, Agree (fanFst 1) state ((fast.init (fanFst 1)).setState state)
        (((CacheLogAccumulator.new 1).init (fanFst 1)).setState state) := by
  have hnew : FastLogAccumulator.new 1 1 = .ok ⟨1, 1, [], [], none⟩ := rfl
  refine ⟨_, hnew, ?_⟩
  have hreached : Reached 1 1 1 (fanFst 1) none ⟨1, 1, [], [], none⟩ (.new 1) := .new hnew
  exact ((accumulators_agree hreached).2 (fanFst 1)).mpr fun s run hcached => by cases hcached

/- The sum that is stored for a state outlives the FST it was summed in. -/
theorem cache_stale :
    ∃ sum sum' cache cache' : _,
      (((CacheLogAccumulator.new 1).init (fanFst 1)).setState 0).sumRange 0 ((fanFst 1).arcs 0) 0 1 =
        some (sum, cache) ∧
      ((cache.init (fanFst 2)).setState 0).sumRange 0 ((fanFst 2).arcs 0) 0 1 =
        some (sum', cache') ∧
      sum' = 1 ∧ LogAccumulator.sumRange 0 ((fanFst 2).arcs 0) 0 1 = 2 :=
  ⟨_, _, _, _, rfl, rfl, by decide, by decide⟩

end Stale

end Sicada.AccumulatorExact
