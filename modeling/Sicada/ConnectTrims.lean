import Sicada.ConnectExact
import Sicada.EpsilonCounts

namespace Sicada.ConnectTrims

open Relation PropertyBits Paths Walk Deletion CcVisitors SccExact SccRuns SccMarks Relations
  ConnectExact EpsilonCounts

variable {L W : Type} [ArcLabel L] [Zero W] [One W] [DecidableEq W]

/- On a way from the start to a final weight that is a member and not zero. -/
def Useful (isMember : W → Bool) (fst : VectorFst L W) (s : ℕ) : Prop :=
  ∃ start, fst.start = some start ∧ Reaches fst anyArc start s ∧
    CoAccessible isMember fst anyArc s

/- What ends a path. -/
def MemberFinal (isMember : W → Bool) (w : W) : Prop := isMember w = true ∧ w ≠ 0

open Classical in
/- `fst'` is the FST on its useful states and on them only; `old` takes its numbers back. -/
structure Trims (isMember : W → Bool) (fst fst' : VectorFst L W) (old : ℕ → ℕ) : Prop where
  order : ∀ j k, j < k → k < fst'.numStates → old j < old k
  range : ∀ s, (∃ k < fst'.numStates, old k = s) ↔ s < fst.numStates ∧ Useful isMember fst s
  start : ∀ k, fst'.start = some k ↔ k < fst'.numStates ∧ fst.start = some (old k)
  arcs : ∀ k < fst'.numStates,
    (fst'.arcs k).map (fun arc => { arc with nextstate := old arc.nextstate }) =
      (fst.arcs (old k)).filter fun arc => Useful isMember fst arc.nextstate
  finalWeight : ∀ k < fst'.numStates, fst'.finalWeight k = fst.finalWeight (old k)
  inRange : fst'.InRange

variable {fst fst' : VectorFst L W} {isMember : W → Bool}

theorem useful_iff (h : fst.InRange) {s : ℕ} (hs : s < fst.numStates) :
    s ∉ fst.uselessStates isMember ↔ Useful isMember fst s := by
  cases hstart : fst.start with
  | none =>
    have hmarks : (DfsVisit.dfsVisitAny fst (sccVisitor isMember true fst)
        (SccVisitor.new 0)).access s = false ∧ _ := marks_none hstart (SccVisitor.new 0) s
    constructor
    · intro hnot
      refine absurd ?_ hnot
      unfold VectorFst.uselessStates
      rw [List.mem_filter, List.mem_range, Bool.or_eq_true]
      refine ⟨hs, Or.inl ?_⟩
      rw [hmarks.1]
      rfl
    · rintro ⟨start, hsome, -⟩
      rw [hstart] at hsome
      cases hsome
  | some start =>
    rw [mem_useless hstart (h.start start hstart) hs]
    constructor
    · exact fun huseful => ⟨start, hstart, huseful⟩
    · rintro ⟨start', hstart', huseful⟩
      obtain rfl := Option.some.inj (hstart.symm.trans hstart')
      exact huseful

theorem newId_isSome_iff (h : fst.InRange) {s : ℕ} (hs : s < fst.numStates) :
    (newId fst (fst.uselessStates isMember) s).isSome = true ↔ Useful isMember fst s := by
  rw [newId_isSome, useful_iff h hs]
  exact and_iff_right hs

theorem oldId_lt {dstates : List ℕ} {j k : ℕ} (hk : k < (kept fst dstates).length) (hjk : j < k) :
    oldId fst dstates j < oldId fst dstates k := by
  have hsorted := keptIds_sorted dstates fst.numStates 0
  obtain ⟨hj', hj⟩ := List.getElem?_eq_some_iff.mp
    (kept_oldId (hjk.trans hk) : (kept fst dstates)[j]? = _)
  obtain ⟨hk', hk⟩ := List.getElem?_eq_some_iff.mp (kept_oldId hk)
  rw [← hj, ← hk]
  exact List.pairwise_iff_getElem.mp hsorted j k hj' hk' hjk

open Classical in
theorem arcs_trimmed (h : fst.InRange) {s : ℕ} :
    ((fst.arcs s).filterMap fun arc =>
        (newId fst (fst.uselessStates isMember) arc.nextstate).map fun t =>
          ({ arc with nextstate := t } : Arc L W)).map
        (fun arc => { arc with nextstate := oldId fst (fst.uselessStates isMember) arc.nextstate }) =
      (fst.arcs s).filter fun arc => Useful isMember fst arc.nextstate := by
  rw [List.map_filterMap, ← List.filterMap_eq_filter]
  apply List.filterMap_congr
  intro arc harc
  have hin := h.arcs s arc harc
  cases hid : newId fst (fst.uselessStates isMember) arc.nextstate with
  | none =>
    have huseless : ¬ Useful isMember fst arc.nextstate := by
      rw [← newId_isSome_iff h hin, hid]
      exact Bool.false_ne_true
    simp [Option.guard, huseless]
  | some t =>
    have huseful : Useful isMember fst arc.nextstate := by
      rw [← newId_isSome_iff h hin, hid]
      rfl
    simp [Option.guard, huseful, (oldId_of_newId hid).2]

theorem trims_restrict (h : fst.InRange)
    (hrestrict : Restricts fst fst' (fst.uselessStates isMember)) :
    Trims isMember fst fst' (oldId fst (fst.uselessStates isMember)) := by
  have hnum := hrestrict.numStates
  have hkept : ∀ k < fst'.numStates, (kept fst (fst.uselessStates isMember))[k]? =
      some (oldId fst (fst.uselessStates isMember) k) := fun k hk => kept_oldId (hnum ▸ hk)
  have hmem : ∀ s, (∃ k < fst'.numStates, oldId fst (fst.uselessStates isMember) k = s) ↔
      s ∈ kept fst (fst.uselessStates isMember) := by
    intro s
    rw [List.mem_iff_getElem?]
    constructor
    · rintro ⟨k, hk, rfl⟩
      exact ⟨k, hkept k hk⟩
    · rintro ⟨k, hk⟩
      have hlt : k < fst'.numStates := hnum ▸ (List.getElem?_eq_some_iff.mp hk).1
      exact ⟨k, hlt, Option.some.inj ((hkept k hlt).symm.trans hk)⟩
  refine ⟨?_, ?_, ?_, ?_, ?_, inRange_restrict hrestrict⟩
  · intro j k hjk hk
    exact oldId_lt (hnum ▸ hk) hjk
  · intro s
    rw [hmem, mem_kept]
    exact and_congr_right fun hs => useful_iff h hs
  · intro k
    rw [hrestrict.start, Option.bind_eq_some_iff]
    constructor
    · rintro ⟨s, hs, hid⟩
      obtain ⟨hlt, hold⟩ := oldId_of_newId hid
      exact ⟨hnum ▸ hlt, hold ▸ hs⟩
    · rintro ⟨hk, hs⟩
      exact ⟨_, hs, newId_eq_some.mpr (hkept k hk)⟩
  · intro k hk
    rw [hrestrict.arcs k _ (hkept k hk)]
    exact arcs_trimmed h
  · intro k hk
    exact hrestrict.finalWeight k _ (hkept k hk)

theorem useful_of_follows {s t : ℕ} (huseful : Useful isMember fst s)
    (hreach : Reaches fst anyArc s t) (hco : CoAccessible isMember fst anyArc t) :
    Useful isMember fst t := by
  obtain ⟨start, hstart, hfirst, -⟩ := huseful
  exact ⟨start, hstart, hfirst.trans hreach, hco⟩

/- A way between useful states is one of the FST that is left. -/
theorem reaches_trimmed {old : ℕ → ℕ} (h : Trims isMember fst fst' old) {k t : ℕ}
    (hk : k < fst'.numStates) (hreach : Reaches fst anyArc (old k) t)
    (hco : CoAccessible isMember fst anyArc t) :
    ∃ j < fst'.numStates, old j = t ∧ Reaches fst' anyArc k j := by
  have huseful : Useful isMember fst (old k) := ((h.range (old k)).mp ⟨k, hk, rfl⟩).2
  induction hreach with
  | refl => exact ⟨k, hk, rfl, .refl⟩
  | @tail s t hreach hfollows ih =>
    have hcos : CoAccessible isMember fst anyArc s := by
      obtain ⟨u, hu, hfinal⟩ := hco
      exact ⟨u, .head hfollows hu, hfinal⟩
    obtain ⟨j, hj, rfl, hway⟩ := ih hcos
    obtain ⟨arc, harc, hany, rfl⟩ := hfollows
    have hnext : Useful isMember fst arc.nextstate :=
      useful_of_follows huseful (hreach.tail ⟨arc, harc, hany, rfl⟩) hco
    have hmem : arc ∈ (fst'.arcs j).map fun arc => { arc with nextstate := old arc.nextstate } := by
      rw [h.arcs j hj, List.mem_filter]
      exact ⟨harc, by simpa using hnext⟩
    obtain ⟨arc', harc', rfl⟩ := List.mem_map.mp hmem
    exact ⟨arc'.nextstate, h.inRange.arcs j arc' harc', rfl, hway.tail ⟨arc', harc', rfl, rfl⟩⟩

/- What is left is all of use. -/
theorem useful_trimmed {old : ℕ → ℕ} (h : Trims isMember fst fst' old) {k : ℕ}
    (hk : k < fst'.numStates) : Useful isMember fst' k := by
  have hinj : ∀ i j, i < fst'.numStates → j < fst'.numStates → old i = old j → i = j := by
    intro i j hi hj heq
    rcases lt_trichotomy i j with hlt | rfl | hlt
    · exact absurd heq (h.order i j hlt hj).ne
    · rfl
    · exact absurd heq.symm (h.order j i hlt hi).ne
  obtain ⟨-, start, hstart, hreach, t, hend, hfinal⟩ := (h.range (old k)).mp ⟨k, hk, rfl⟩
  have hcok : CoAccessible isMember fst anyArc (old k) := ⟨t, hend, hfinal⟩
  have hcot : CoAccessible isMember fst anyArc t := ⟨t, .refl, hfinal⟩
  have hcostart : CoAccessible isMember fst anyArc start := ⟨t, hreach.trans hend, hfinal⟩
  have hlt : start < fst.numStates ∧ Useful isMember fst start := by
    refine ⟨?_, start, hstart, .refl, hcostart⟩
    rcases ReflTransGen.cases_head (hreach.trans hend) with rfl | ⟨s, ⟨arc, harc, -, -⟩, -⟩
    · by_contra hge
      exact hfinal.2 (VectorFst.finalWeight_of_le (Nat.le_of_not_lt hge))
    · by_contra hge
      rw [VectorFst.arcs_of_le (Nat.le_of_not_lt hge)] at harc
      cases harc
  obtain ⟨first, hfirst, rfl⟩ := (h.range start).mpr hlt
  obtain ⟨k', hk', heq, hway⟩ := reaches_trimmed h hfirst hreach hcok
  obtain rfl := hinj k' k hk' hk heq
  obtain ⟨last, hlast, rfl, hrest⟩ := reaches_trimmed h hk hend hcot
  refine ⟨first, (h.start first).mpr ⟨hfirst, hstart⟩, hway, last, hrest, ?_⟩
  rw [FinalState, h.finalWeight last hlast]
  exact hfinal

/- The counts are taken anew only where a state goes. -/
theorem counts_deleteStates {dstates : List ℕ} (hdelete : fst.deleteStates dstates = some fst') :
    CountsExact fst' ↔ CountsExact fst ∨ dstates ≠ [] := by
  by_cases hnil : dstates = []
  · subst hnil
    obtain rfl := Option.some.inj hdelete
    simp
  · refine iff_of_true ?_ (Or.inr hnil)
    rw [VectorFst.deleteStates, if_neg hnil] at hdelete
    obtain ⟨states, hstates, hdelete⟩ := Option.bind_eq_some_iff.mp hdelete
    obtain ⟨start, -, rfl⟩ := Option.map_eq_some_iff.mp hdelete
    exact (countsExact_iff _).mpr (exact_remapStates hstates)

theorem useless_nonempty (h : fst.InRange) :
    fst.uselessStates isMember ≠ [] ↔ ∃ s < fst.numStates, ¬ Useful isMember fst s := by
  rw [List.ne_nil_iff_exists_cons]
  constructor
  · rintro ⟨s, rest, hlist⟩
    have hmem : s ∈ fst.uselessStates isMember := hlist ▸ List.mem_cons_self
    have hs : s < fst.numStates := List.mem_range.mp (List.mem_filter.mp hmem).1
    exact ⟨s, hs, fun huseful => (useful_iff h hs).mpr huseful hmem⟩
  · rintro ⟨s, hs, hnot⟩
    have hmem : s ∈ fst.uselessStates isMember := by
      by_contra hkeep
      exact hnot ((useful_iff h hs).mp hkeep)
    exact List.exists_cons_of_ne_nil (List.ne_nil_of_mem hmem)

theorem empty_of_no_start {old : ℕ → ℕ} (h : Trims isMember fst fst' old)
    (hstart : fst.start = none) : fst'.numStates = 0 ∧ fst'.start = none := by
  have hno : ∀ k, ¬ k < fst'.numStates := by
    intro k hk
    obtain ⟨-, start, hsome, -⟩ := (h.range (old k)).mp ⟨k, hk, rfl⟩
    rw [hstart] at hsome
    cases hsome
  refine ⟨Nat.eq_zero_of_not_pos (hno 0), ?_⟩
  cases hk : fst'.start with
  | none => rfl
  | some k => exact absurd (h.inRange.start k hk) (hno k)

/- Trimming leaves the FST on its useful states, path by path, and its epsilon counts right as
soon as it drops a state. -/
theorem trims_connect (isMember : W → Bool) {fst : VectorFst L W} (h : fst.InRange) :
    ∃ fst' old, fst.connect isMember = some fst' ∧ Trims isMember fst fst' old ∧
      SamePathsTo (MemberFinal isMember) fst fst' ∧
      (CountsExact fst' ↔ CountsExact fst ∨ ∃ s < fst.numStates, ¬ Useful isMember fst s) := by
  obtain ⟨fst', hdelete, hrestrict⟩ := deleteStates_restricts h (fst.uselessStates isMember)
  have htrims := trims_restrict h hrestrict
  have hpaths : SamePathsTo (MemberFinal isMember) fst fst' :=
    samePathsTo_restrict h (fun _ hs => hs) hrestrict
  have hcounts := counts_deleteStates hdelete
  rw [useless_nonempty h] at hcounts
  exact ⟨_, oldId fst (fst.uselessStates isMember), congrArg (Option.map _) hdelete,
    ⟨htrims.order, htrims.range, htrims.start, htrims.arcs, htrims.finalWeight,
      htrims.inRange.start, htrims.inRange.arcs⟩, hpaths, hcounts⟩

theorem connect_trims (isMember : W → Bool) {fst : VectorFst L W} (h : fst.InRange) :
    ∃ fst' old, fst.connect isMember = some fst' ∧ Trims isMember fst fst' old ∧
      (fst.start = none → fst'.numStates = 0 ∧ fst'.start = none) ∧
      SamePathsTo (MemberFinal isMember) fst fst' ∧
      (CountsExact fst' ↔ CountsExact fst ∨ ∃ s < fst.numStates, ¬ Useful isMember fst s) := by
  obtain ⟨fst', old, hconnect, htrims, hpaths, hcounts⟩ := trims_connect isMember h
  exact ⟨fst', old, hconnect, htrims, empty_of_no_start htrims, hpaths, hcounts⟩

/- A state that leads nowhere between two that are kept. -/
def gap : VectorFst ℤ ℕ :=
  ⟨[⟨0, [⟨1, 1, 1, 1⟩, ⟨0, 0, 1, 2⟩], 1, 1⟩, ⟨0, [], 0, 0⟩, ⟨1, [], 0, 0⟩], some 0, 0⟩

theorem gap_inRange : gap.InRange := by
  constructor
  · intro s hs
    obtain rfl : 0 = s := Option.some.inj hs
    decide
  · refine VectorFst.forall_arcs_of_lt fun s hs => ?_
    change s < 3 at hs
    interval_cases s <;> decide

theorem connect_trims_gap : ∃ fst' old,
    VectorFst.connect (fun _ => true) gap = some fst' ∧ Trims (fun _ => true) gap fst' old ∧
      (gap.start = none → fst'.numStates = 0 ∧ fst'.start = none) ∧
      SamePathsTo (MemberFinal fun _ => true) gap fst' ∧
      (CountsExact fst' ↔ CountsExact gap ∨
        ∃ s < gap.numStates, ¬ Useful (fun _ => true) gap s) :=
  connect_trims (fun _ => true) gap_inRange

/- A final state whose only arc, back to it, is renamed from `1:1` to `0:0`. -/
def renamedLoop : List (MutableOp ℤ ℕ) :=
  [.addState, .setStart (some 0), .setFinal 0 1, .addArc 0 ⟨1, 1, 1, 0⟩,
    .mutateArcs Unit 0 (fun arc m => ({ arc with ilabel := 0, olabel := 0 }, m)) ()]

def staleLoop : VectorFst ℤ ℕ :=
  (runOps MutableOp.apply renamedLoop VectorFst.new).getD VectorFst.new

theorem staleLoop_inRange : staleLoop.InRange := by
  constructor
  · intro s hs
    obtain rfl : 0 = s := Option.some.inj hs
    decide
  · refine VectorFst.forall_arcs_of_lt fun s hs => ?_
    obtain rfl : s = 0 := Nat.lt_one_iff.mp hs
    decide

theorem connect_leaves_stale : ¬ ∀ (ops : List (MutableOp ℤ ℕ)) (fst : VectorFst ℤ ℕ),
    runOps MutableOp.apply ops VectorFst.new = some fst → fst.InRange →
      ∃ fst', fst.connect (fun _ => true) = some fst' ∧ CountsExact fst' := by
  intro h
  obtain ⟨fst', hconnect, hcounts⟩ := h renamedLoop staleLoop rfl staleLoop_inRange
  have hstale : (staleLoop.connect fun _ => true).map (fun fst' =>
      decide (fst'.numInputEpsilons 0 = iepsilons (fst'.arcs 0))) = some false := by
    decide +kernel
  rw [hconnect, Option.map_some, Option.some.injEq, decide_eq_false_iff_not] at hstale
  exact hstale (hcounts 0).1

end Sicada.ConnectTrims
