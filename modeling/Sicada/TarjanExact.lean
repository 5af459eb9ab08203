import Sicada.SccBits

namespace Sicada.TarjanExact

open Relation DfsVisit DfsRuns CcVisitors SccVisitor SccRuns SccExact SccMarks SccNumbers SccBits
  PropertyBits

variable {L W : Type} [ArcLabel L] [Zero W] [DecidableEq W]

section Searches

variable {fst : VectorFst L W} {filter : Arc L W → Bool} {isMember : W → Bool}
  {accessOnly : Bool} {start : ℕ} {d d' : DfsSearch L W SccVisitor}

/- States of one number can reach each other. -/
def Mutual (fst : VectorFst L W) (filter : Arc L W → Bool) (v : SccVisitor) : Prop :=
  ∀ s t c, v.scc s = some c → v.scc t = some c → Reaches fst filter s t

theorem mutual_finish (hscc : SccInv fst filter d)
    (hnum : Numbered fst filter d.stateColor d.visitor) (h : Mutual fst filter d.visitor)
    {frame : DfsFrame L W} {stack : List (DfsFrame L W)} (hstack : d.stack = frame :: stack) :
    Mutual fst filter
      (popState (sccVisitor isMember true fst) accessOnly start frame stack d).visitor := by
  have htarjan := hscc.tarjan
  have htrail : trailOf d.stack = _ :: trailOf stack := congrArg trailOf hstack
  rw [htrail] at htarjan
  have hnumbers : SameNumbers d.visitor
      (d.visitor.finalCoaccess isMember true fst frame.stateId) :=
    sameNumbers_finalCoaccess frame.stateId
  obtain ⟨hfscc, -⟩ := finishState_fields fst isMember (v := d.visitor) frame.stateId
    frame.enteredBy
  intro s t c hs ht
  rw [visitor_popState] at hs ht
  change (d.visitor.finishState isMember true fst _ _).scc s = some c at hs
  change (d.visitor.finishState isMember true fst _ _).scc t = some c at ht
  rw [hfscc] at hs ht
  unfold closeRoot at hs ht
  by_cases hroot : (d.visitor.finalCoaccess isMember true fst frame.stateId).dfnumber
      frame.stateId = (d.visitor.finalCoaccess isMember true fst frame.stateId).lowlink
        frame.stateId
  · rw [if_pos hroot, scc_closeComponent, hnumbers.1, hnumbers.2.1, hnumbers.2.2.1] at hs ht
    split at hs
    · next hmem =>
      have hins : s ∈ d.visitor.sccStack := mem_stack_iff.mpr (.inl hmem)
      split at ht
      · next hmem' =>
        have hint : t ∈ d.visitor.sccStack := mem_stack_iff.mpr (.inl hmem')
        have hdown := htarjan.descends frame.stateId List.mem_cons_self t hint
          ((mem_splitStack htarjan hint).1.mp hmem')
        exact (reaches_top htarjan hins).trans hdown
      · rw [← Option.some.inj hs] at ht
        exact absurd (hnum.bound t _ ht) (lt_irrefl _)
    · split at ht
      · rw [← Option.some.inj ht] at hs
        exact absurd (hnum.bound s _ hs) (lt_irrefl _)
      · exact h s t c hs ht
  · rw [if_neg hroot, hnumbers.1] at hs ht
    exact h s t c hs ht

theorem mutual_move (hscc : SccInv fst filter d)
    (hnum : Numbered fst filter d.stateColor d.visitor) (h : Mutual fst filter d.visitor)
    (hmove : DfsMove fst (sccVisitor isMember true fst) filter accessOnly start d d') :
    Mutual fst filter d'.visitor := by
  cases hmove with
  | newTree => exact h
  | finish hstack harcs => exact mutual_finish hscc hnum h hstack
  | skip => exact h
  | descend => exact h
  | refuse hstack harcs hdfs hfilter hwhite htree => cases htree
  | @back frame stack arc =>
    have hsame : SameNumbers d.visitor
        (d.visitor.backArc fst.start true frame.stateId arc.nextstate).2 :=
      sameNumbers_backArc _ _ _
    intro s t c hs ht
    exact h s t c (hsame.1 ▸ hs) (hsame.1 ▸ ht)
  | @cross frame stack arc =>
    have hsame : SameNumbers d.visitor
        (d.visitor.forwardOrCrossArc true frame.stateId arc.nextstate).2 :=
      sameNumbers_forwardOrCrossArc _ _
    intro s t c hs ht
    exact h s t c (hsame.1 ▸ hs) (hsame.1 ▸ ht)

/- Before the numbers are turned round an arc leads to no larger one. -/
def Ordered (fst : VectorFst L W) (filter : Arc L W → Bool) (v : SccVisitor) : Prop :=
  ∀ s t c, v.scc s = some c → Follows fst filter s t → ∃ c', v.scc t = some c' ∧ c' ≤ c

theorem ordered_move (hnum : Numbered fst filter d.stateColor d.visitor)
    (h : Ordered fst filter d.visitor)
    (hnum' : Numbered fst filter d'.stateColor d'.visitor) (hscc' : SccInv fst filter d')
    (hnumbers : Numbers d.visitor d'.visitor) : Ordered fst filter d'.visitor := by
  intro s t c hs hfollows
  rcases hnumbers s with hold | ⟨-, hnew⟩
  · rw [hold] at hs
    obtain ⟨c', ht, hle⟩ := h s t c hs hfollows
    rcases hnumbers t with hold' | ⟨hnone, -⟩
    · exact ⟨c', hold'.trans ht, hle⟩
    · rw [hnone] at ht
      cases ht
  · obtain ⟨hcolor, hout⟩ := (hnum'.closed s).mp ⟨c, hs⟩
    obtain ⟨c', ht⟩ := (hnum'.closed t).mpr (hscc'.tarjan.closed s hcolor hout t hfollows)
    obtain rfl : d.visitor.nscc = c := Option.some.inj (hnew.symm.trans hs)
    refine ⟨c', ht, ?_⟩
    rcases hnumbers t with hold' | ⟨-, hnew'⟩
    · exact (hnum.bound t c' (hold'.symm.trans ht)).le
    · exact (Option.some.inj (hnew'.symm.trans ht)).ge

/- All that is kept while the components are looked for. -/
structure TarjanInv (isMember : W → Bool) (fst : VectorFst L W) (filter : Arc L W → Bool)
    (start : ℕ) (d : DfsSearch L W SccVisitor) : Prop where
  scc : SccInv fst filter d
  numbered : Numbered fst filter d.stateColor d.visitor
  strong : Strong fst filter d.visitor
  together : Mutual fst filter d.visitor
  ordered : Ordered fst filter d.visitor
  coaccess : CoaccessInv isMember fst filter d
  access : AccessInv fst filter start d
  known : fst.numStates ≤ d.nstates
  paired : Paired d.visitor.building
  cyclicBit : CyclicBit fst filter d
  initialBit : InitialBit fst filter start d
  accessBit : AccessBit d
  coaccessBit : CoaccessBit isMember fst filter d

theorem tarjanInv_move (hstart : fst.start = some start)
    (hinv : DfsInv fst filter accessOnly start d) (h : TarjanInv isMember fst filter start d)
    (hmove : DfsMove fst (sccVisitor isMember true fst) filter accessOnly start d d') :
    TarjanInv isMember fst filter start d' := by
  have hinv' := dfsInv_move hinv hmove
  have hscc' := sccInv_move hinv h.scc hmove
  have hnum' := numbered_move hinv h.scc h.numbered hmove
  have hnumbers := numbers_move h.numbered hmove
  have hco' := coaccessInv_move hinv h.scc h.coaccess hmove
  exact {
    scc := hscc'
    numbered := hnum'
    strong := strong_move hnum' hscc' h.strong hnumbers
    together := mutual_move h.scc h.numbered h.together hmove
    ordered := ordered_move h.numbered h.ordered hnum' hscc' hnumbers
    coaccess := hco'
    access := accessInv_move hstart hinv h.scc.going h.access hmove
    known := h.known.trans (nstates_le_move hmove)
    paired := paired_move h.paired hmove
    cyclicBit := cyclicBit_move hinv h.scc h.numbered h.cyclicBit hmove
    initialBit := initialBit_move hstart hinv h.scc h.access h.initialBit hmove
    accessBit := accessBit_move hstart hinv h.accessBit hmove
    coaccessBit := coaccessBit_move hinv h.scc h.coaccessBit hmove hinv' hscc' hco' }

theorem bits_start (v : SccVisitor) : ∀ pair ∈ pairs,
    ¬ Held (SccVisitor.initVisit true v).building pair.1 ∧
      Held (SccVisitor.initVisit true v).building pair.2 := by
  let first : BitPair := (kAcyclic ||| kInitialAcyclic ||| kAccessible,
    kCyclic ||| kInitialCyclic ||| kNotAccessible)
  let second : BitPair := (kCoAccessible, kNotCoAccessible)
  have hbuilding : (SccVisitor.initVisit true v).building =
      raise second (raise first v.building) := rfl
  have hbits : ∀ pair ∈ pairs, ~~~first.2 &&& (~~~second.2 &&& pair.1) = 0 ∧
      second.1 &&& (~~~second.2 &&& pair.1) = 0 ∧
      ((first.1 &&& (~~~first.2 &&& (~~~second.2 &&& pair.2))) |||
        (second.1 &&& (~~~second.2 &&& pair.2)) ≠ 0) := by
    intro pair hpair
    simp only [pairs, List.mem_cons, List.not_mem_nil, or_false] at hpair
    rcases hpair with rfl | rfl | rfl | rfl <;> decide
  intro pair hpair
  obtain ⟨hclear, hclear', hset⟩ := hbits pair hpair
  rw [hbuilding]
  unfold Held
  rw [raise_and, raise_and, raise_and, raise_and, hclear, hclear']
  refine ⟨by simp, fun hzero => hset ?_⟩
  rw [BitVec.or_assoc] at hzero
  exact (BitVec.or_eq_zero_iff.mp hzero).2

theorem tarjanInv_start (v : SccVisitor) : TarjanInv isMember fst filter start
    (startSearch fst start (SccVisitor.initVisit true v)) := by
  have hbits := bits_start v
  have hnone : ∀ s, (SccVisitor.initVisit true v).scc s = none := fun s => rfl
  have hwalked : ∀ u arc, ¬ Walked fst filter
      (startSearch fst start (SccVisitor.initVisit true v)) u arc := by
    simp [Walked, startSearch]
  exact {
    scc := sccInv_start v
    numbered := numbered_start v
    strong := fun s t c _ _ hs => by cases hs
    together := fun s t c hs => by cases hs
    ordered := fun s t c hs => by cases hs
    coaccess := coaccessed_start v
    access := accessed_start true v
    known := le_rfl
    paired := fun pair hpair => iff_of_true (hbits pair hpair).2 (hbits pair hpair).1
    cyclicBit := {
      cyclic := fun hheld => absurd hheld (hbits cyclicPair (by decide)).1
      straight := fun _ => {
        level := fun s hs => by cases hs
        single := fun s t c hs => by cases hs
        loopless := fun u arc harc => absurd harc (hwalked u arc) } }
    initialBit := {
      cyclic := fun hheld => absurd hheld (hbits initialPair (by decide)).1
      unmarked := fun _ u arc harc => absurd harc (hwalked u arc) }
    accessBit := by
      refine iff_of_false (hbits accessPair (by decide)).1 ?_
      rintro ⟨s, hs, -⟩
      exact hs rfl
    coaccessBit := {
      dead := fun hheld => absurd hheld (hbits coaccessPair (by decide)).1
      alive := fun _ s c hs => by cases hs } }

end Searches

section Finished

variable {fst : VectorFst L W} {filter : Arc L W → Bool} {isMember : W → Bool} {start : ℕ}
  {d : DfsSearch L W SccVisitor}

/- What the search is asked for: the components in topological order, the states on the way from
the start, the states on the way to a final state, and the bits that say so. -/
structure Found (isMember : W → Bool) (fst : VectorFst L W) (filter : Arc L W → Bool)
    (start : ℕ) (v : SccVisitor) : Prop where
  component : ∀ s t, s < fst.numStates → t < fst.numStates →
    (v.scc s = v.scc t ↔ Reaches fst filter s t ∧ Reaches fst filter t s)
  numbered : ∀ s < fst.numStates, ∃ c < v.nscc, v.scc s = some c
  used : ∀ c < v.nscc, ∃ s < fst.numStates, v.scc s = some c
  topological : ∀ s, ∀ arc ∈ fst.arcs s, filter arc = true →
    ∃ c c', v.scc s = some c ∧ v.scc arc.nextstate = some c' ∧ c ≤ c'
  access : ∀ s, v.access s = true ↔ Reaches fst filter start s
  coaccess : ∀ s < fst.numStates,
    (v.coaccess s = true ↔ CoAccessible isMember fst filter s)
  cyclic : Held v.building kCyclic ↔ ∃ s, TransGen (Follows fst filter) s s
  initialCyclic : Held v.building kInitialCyclic ↔ TransGen (Follows fst filter) start start
  notAccessible : Held v.building kNotAccessible ↔
    ∃ s < fst.numStates, ¬ Reaches fst filter start s
  notCoAccessible : Held v.building kNotCoAccessible ↔
    ∃ s < fst.numStates, ¬ CoAccessible isMember fst filter s
  denied : Paired v.building

omit [Zero W] [DecidableEq W] in
theorem follows_any : Follows fst (fun _ => true) = Step fst := by
  funext s t
  simp [Follows, Step]

omit [DecidableEq W] in
theorem lt_of_follows {s t : ℕ} (hfollows : Follows fst filter s t) : s < fst.numStates := by
  obtain ⟨arc, harc, -, -⟩ := hfollows
  by_contra hge
  rw [VectorFst.arcs_of_le (Nat.le_of_not_lt hge)] at harc
  cases harc

theorem foldl_max_le {l : List ℕ} {n m : ℕ} (hn : n ≤ m) (hl : ∀ k ∈ l, k ≤ m) :
    l.foldl max n ≤ m := by
  induction l generalizing n with
  | nil => exact hn
  | cons k l ih =>
    exact ih (max_le hn (hl k List.mem_cons_self)) fun j hj => hl j (List.mem_cons_of_mem _ hj)

omit [DecidableEq W] in
theorem stateBound_le (hrange : fst.InRange) : stateBound fst ≤ fst.numStates := by
  refine foldl_max_le le_rfl fun n hn => ?_
  obtain ⟨arc, harc, rfl⟩ := List.mem_map.mp hn
  obtain ⟨state, hstate, harc⟩ := List.mem_flatMap.mp harc
  obtain ⟨s, hs⟩ := List.mem_iff_getElem?.mp hstate
  exact hrange.arcs s arc (by rwa [VectorFst.arcs_of_getElem? hs])

omit [DecidableEq W] in
theorem black_iff {σ : Type} {d : DfsSearch L W σ} (hrange : fst.InRange)
    (hstart : fst.start = some start) (hinv : DfsInv fst filter false start d) (hgoing : d.dfs = true)
    (hknown : fst.numStates ≤ d.nstates) (hfinished : Finished d) {s : ℕ} :
    d.stateColor s = .black ↔ s < fst.numStates := by
  constructor
  · intro hblack
    have hlt := hinv.known s (by simp [hblack])
    exact hlt.trans_le (hinv.bound.trans (stateBound_le hrange))
  · intro hs
    exact all_black hinv hfinished hgoing (hrange.start start hstart) hknown
      (hs.trans_le hknown)

theorem numbers_finished (hrange : fst.InRange) (hstart : fst.start = some start)
    (hinv : DfsInv fst filter false start d) (h : TarjanInv isMember fst filter start d)
    (hfinished : Finished d) (s : ℕ) :
    (∃ c, d.visitor.scc s = some c) ↔ s < fst.numStates := by
  rw [h.numbered.closed, sccStack_of_finished h.scc hfinished,
    ← black_iff hrange hstart hinv h.scc.going h.known hfinished]
  refine ⟨fun hs => black_of_finished hinv hfinished hs.1, fun hblack => ⟨?_, List.not_mem_nil⟩⟩
  simp [hblack]

/- A cycle makes a component of several states, or of a state with an arc to itself. -/
theorem not_straight (hrange : fst.InRange) (hstart : fst.start = some start)
    (hinv : DfsInv fst filter false start d) (h : TarjanInv isMember fst filter start d)
    (hfinished : Finished d) {s : ℕ} (hcycle : TransGen (Follows fst filter) s s) :
    ¬ Straight fst filter d := by
  intro hstraight
  obtain ⟨t, hfollows, hback⟩ := TransGen.head'_iff.mp hcycle
  have hs := lt_of_follows hfollows
  obtain ⟨c, hc⟩ := (numbers_finished hrange hstart hinv h hfinished s).mpr hs
  have ht := h.strong s t c (ReflTransGen.single hfollows) hback hc
  obtain rfl := hstraight.single s t c hc ht
  obtain ⟨arc, harc, hfilter, hnext⟩ := hfollows
  have hblack := (black_iff hrange hstart hinv h.scc.going h.known hfinished).mpr hs
  exact hstraight.loopless s arc (walked_of_black hblack harc hfilter) hnext

theorem found_of_finished (hrange : fst.InRange) (hstart : fst.start = some start)
    (hinv : DfsInv fst filter false start d) (h : TarjanInv isMember fst filter start d)
    (hfinished : Finished d) : Found isMember fst filter start d.visitor.finishVisit := by
  have hnumber := numbers_finished hrange hstart hinv h hfinished
  have hblack := fun s => @black_iff _ _ _ _ fst filter start _ d hrange hstart hinv h.scc.going
    h.known hfinished s
  have hmarks := marks_of_finished hinv h.scc h.coaccess h.access h.known hfinished
    (hrange.start start hstart)
  have hscc : ∀ s, d.visitor.finishVisit.scc s =
      (d.visitor.scc s).map fun c => d.visitor.nscc - 1 - c := fun s => rfl
  have hsame : ∀ s t c, s < fst.numStates → t < fst.numStates →
      d.visitor.finishVisit.scc s = d.visitor.finishVisit.scc t → d.visitor.scc s = some c →
        d.visitor.scc t = some c := by
    intro s t c hs ht heq hc
    obtain ⟨c', hc'⟩ := (hnumber t).mpr ht
    rw [hscc, hscc, hc, hc'] at heq
    have hturned : d.visitor.nscc - 1 - c = d.visitor.nscc - 1 - c' := Option.some.inj heq
    have hlt := h.numbered.bound s c hc
    have hlt' := h.numbered.bound t c' hc'
    rw [hc', Option.some.injEq]
    omega
  exact {
    component := by
      intro s t hs ht
      obtain ⟨c, hc⟩ := (hnumber s).mpr hs
      constructor
      · intro heq
        have hc' := hsame s t c hs ht heq hc
        exact ⟨h.together s t c hc hc', h.together t s c hc' hc⟩
      · rintro ⟨hst, hts⟩
        rw [hscc, hscc, hc, h.strong s t c hst hts hc]
    numbered := by
      intro s hs
      obtain ⟨c, hc⟩ := (hnumber s).mpr hs
      have hlt := h.numbered.bound s c hc
      refine ⟨d.visitor.nscc - 1 - c, ?_, by rw [hscc, hc]; rfl⟩
      change d.visitor.nscc - 1 - c < d.visitor.nscc
      omega
    used := by
      intro c hlt
      change c < d.visitor.nscc at hlt
      obtain ⟨s, hs⟩ := h.numbered.used (d.visitor.nscc - 1 - c) (by omega)
      refine ⟨s, (hnumber s).mp ⟨_, hs⟩, ?_⟩
      rw [hscc, hs, Option.map_some, Option.some.injEq]
      omega
    topological := by
      intro s arc harc hfilter
      have hfollows : Follows fst filter s arc.nextstate := ⟨arc, harc, hfilter, rfl⟩
      obtain ⟨c, hc⟩ := (hnumber s).mpr (lt_of_follows hfollows)
      obtain ⟨c', hc', hle⟩ := h.ordered s arc.nextstate c hc hfollows
      refine ⟨d.visitor.nscc - 1 - c, d.visitor.nscc - 1 - c', ?_, ?_, by omega⟩
      · rw [hscc, hc]
        rfl
      · rw [hscc, hc']
        rfl
    access := fun s => (hmarks s).1
    coaccess := fun s hs => (hmarks s).2 hs
    cyclic := by
      refine ⟨h.cyclicBit.cyclic, fun ⟨s, hcycle⟩ => ?_⟩
      by_contra hnot
      exact not_straight hrange hstart hinv h hfinished hcycle (h.cyclicBit.straight hnot)
    initialCyclic := by
      refine ⟨h.initialBit.cyclic, fun hcycle => ?_⟩
      by_contra hnot
      obtain ⟨u, hreach, hfollows⟩ := TransGen.tail'_iff.mp hcycle
      have hu := (hblack u).mpr (lt_of_follows hfollows)
      obtain ⟨arc, harc, hfilter, hnext⟩ := hfollows
      have hunmarked := h.initialBit.unmarked hnot u arc (walked_of_black hu harc hfilter) hnext
      rw [(hmarks u).1.mpr hreach] at hunmarked
      cases hunmarked
    notAccessible := by
      refine h.accessBit.trans (exists_congr fun s => ?_)
      rw [← hblack, ← (hmarks s).1, Bool.not_eq_true]
      refine and_congr ⟨black_of_finished hinv hfinished, fun hs => ?_⟩ Iff.rfl
      simp [hs]
    notCoAccessible := by
      constructor
      · intro hheld
        obtain ⟨s, hs, hdead⟩ := h.coaccessBit.dead hheld
        exact ⟨s, (hblack s).mp (black_of_finished hinv hfinished hs), hdead⟩
      · rintro ⟨s, hs, hdead⟩
        by_contra hnot
        obtain ⟨c, hc⟩ := (hnumber s).mpr hs
        exact hdead (((hmarks s).2 hs).mp (h.coaccessBit.alive hnot s c hc))
    denied := h.paired }

/- The search comes to an end with everything it keeps. -/
theorem dfsVisit_finished (isMember : W → Bool) (filter : Arc L W → Bool)
    (hstart : fst.start = some start) (v : SccVisitor) :
    ∃ d, dfsVisit fst (sccVisitor isMember true fst) filter false v = d.visitor.finishVisit ∧
      DfsInv fst filter false start d ∧ TarjanInv isMember fst filter start d ∧ Finished d :=
  dfsVisit_spec hstart (tarjanInv_start _) fun d d' hinv hd hmove =>
    tarjanInv_move hstart hinv hd hmove

/- What raising the bits of the search keeps holds of those it ends with. -/
theorem building_visited (isMember : W → Bool) (filter : Arc L W → Bool)
    (hstart : fst.start = some start) {P : BitVec 64 → Prop}
    (hraise : ∀ pair ∈ pairs, ∀ props, P props → P (raise pair props)) (v : SccVisitor)
    (hfirst : P (SccVisitor.initVisit true v).building) :
    P (dfsVisit fst (sccVisitor isMember true fst) filter false v).building := by
  have hkept : P (startSearch fst start (SccVisitor.initVisit true v)).visitor.building := hfirst
  obtain ⟨d, hrun, -, h, -⟩ := dfsVisit_spec hstart hkept
    fun d d' (_ : DfsInv fst filter false start d) hd hmove => building_move hraise hd hmove
  have hvisit : dfsVisit fst (sccVisitor isMember true fst) filter false v =
      d.visitor.finishVisit := hrun
  rw [hvisit]
  exact h

/- The vectors are grown to the number of states. -/
theorem len_finished (hrange : fst.InRange) (hstart : fst.start = some start)
    (hinv : DfsInv fst filter false start d) (h : TarjanInv isMember fst filter start d)
    (hfinished : Finished d) : d.visitor.finishVisit.len = fst.numStates := by
  have hblack := fun s => @black_iff _ _ _ _ fst filter start _ d hrange hstart hinv h.scc.going
    h.known hfinished s
  have hlen : d.visitor.finishVisit.len = d.visitor.len := rfl
  rw [hlen]
  refine Nat.le_antisymm ?_ ?_
  · by_contra hlt
    obtain ⟨t, hle, ht⟩ := h.numbered.grown fst.numStates (by omega)
    have hin := (hblack t).mp (black_of_finished hinv hfinished ht)
    omega
  · by_contra hlt
    have hin := h.numbered.len d.visitor.len (by rw [(hblack _).mpr (by omega)]; simp)
    omega

theorem tarjan_exact (hrange : fst.InRange) (hstart : fst.start = some start)
    (isMember : W → Bool) (filter : Arc L W → Bool) (v : SccVisitor) :
    Found isMember fst filter start
      (dfsVisit fst (sccVisitor isMember true fst) filter false v) := by
  obtain ⟨d, hvisit, hinv, h, hfinished⟩ := dfsVisit_finished isMember filter hstart v
  rw [hvisit]
  exact found_of_finished hrange hstart hinv h hfinished

/- A cycle of two states, a final state behind an arc that is filtered out, and a state that
nothing leads to. -/
def cycleFst : VectorFst ℤ ℕ :=
  ⟨[⟨0, [⟨1, 1, 1, 1⟩], 0, 0⟩, ⟨0, [⟨1, 1, 1, 0⟩, ⟨0, 0, 1, 2⟩], 1, 1⟩, ⟨1, [], 0, 0⟩,
    ⟨0, [⟨1, 1, 1, 2⟩], 0, 0⟩], some 0, 0⟩

theorem cycleFst_inRange : cycleFst.InRange := by
  constructor
  · intro s hs
    obtain rfl : 0 = s := Option.some.inj hs
    decide
  · refine VectorFst.forall_arcs_of_lt fun s hs => ?_
    change s < 4 at hs
    interval_cases s <;> decide

theorem tarjan_exact_cycle : cycleFst.InRange ∧ Found (fun _ => true) cycleFst
    (fun arc => decide (arc.ilabel ≠ 0)) 0
    (dfsVisit cycleFst (sccVisitor (fun _ => true) true cycleFst)
      (fun arc => decide (arc.ilabel ≠ 0)) false (SccVisitor.new 0)) :=
  ⟨cycleFst_inRange, tarjan_exact cycleFst_inRange rfl (fun _ => true) _ (SccVisitor.new 0)⟩

end Finished

end Sicada.TarjanExact
