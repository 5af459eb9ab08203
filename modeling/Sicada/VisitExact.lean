import Sicada.Queue
import Sicada.VisitRuns

namespace Sicada.VisitExact

open Container Loop Visit VisitRuns

open DfsVisit (StateColor)

variable {L W σ Q : Type} [ArcLabel L] [Zero W]

/- What an FST says of its states before they are visited: as many as are known of so far, the
start state among them, and all of them when it is expanded. -/
structure KnownStates (fst : VectorFst L W) (known : Option ℕ) (expanded : Bool) (start : ℕ) :
    Prop where
  part : ∀ n, known = some n → start < n ∧ n ≤ fst.numStates
  whole : expanded = true → known = some fst.numStates

/- Every state is initialised and finished once, and every arc the filter lets through is reported
once, in the order the arcs of its state are in. -/
structure Exact (fst : VectorFst L W) (filter : Arc L W → Bool) (log : List (VisitEvent L W)) :
    Prop where
  initialised : (initialised log).Perm (List.range fst.numStates)
  finished : (finished log).Perm (List.range fst.numStates)
  reported : ∀ s, reported s log = (fst.arcs s).filter filter

section Visiting

variable {fst : VectorFst L W} {known : Option ℕ} {expanded : Bool} {visitor : Visitor L W σ}
  {queue : StateQueue Q} {filter : Arc L W → Bool} {accessOnly : Bool} {start : ℕ}
  {Holds : Q → Finset ℕ → Prop} {d : VisitSearch L W σ Q} {q : Q} {v : σ}
  {log : List (VisitEvent L W)}

theorem inv_startVisit (hrange : fst.InRange) (hstart : fst.start = some start)
    (hknown : KnownStates fst known expanded start) (hq : Holds q ∅) :
    VisitInv fst visitor filter Holds expanded accessOnly start v []
      (startVisit fst known start q v) := by
  have hlt : start < fst.numStates := hrange.start start hstart
  have hnstates : start < known.getD (start + 1) ∧ known.getD (start + 1) ≤ fst.numStates := by
    cases hcase : known with
    | none => exact ⟨Nat.lt_succ_self start, hlt⟩
    | some n => exact hknown.part n hcase
  have hrest : ∀ s, rest fst (startVisit fst known start q v : VisitSearch L W σ Q) s =
      fst.arcs s := fun s => rfl
  refine ⟨⟨rfl, rfl, trivial⟩, ⟨fun s _ => ⟨rfl, rfl⟩, fun s _ => rfl, ∅, hq, fun s => ?_⟩,
    ⟨fun s => List.nil_prefix, fun _ s => rfl, fun s => List.suffix_rfl⟩, ?_, fun _ => rfl⟩
  · exact iff_of_false (Finset.notMem_empty s) nofun
  · refine ⟨fun s hs => absurd rfl hs, hnstates.2, hnstates.1, ⟨0, Nat.zero_le _, ?_⟩,
      fun hexpanded => ?_, fun _ => Or.inl rfl, fun hroot => absurd rfl hroot, fun _ => ⟨?_, ?_, ?_⟩⟩
    · exact List.range_eq_range'
    · have hall := hknown.whole hexpanded
      change known.getD (start + 1) = fst.numStates
      rw [hall, Option.getD_some]
    · exact fun s => nofun
    · exact fun _ => rfl
    · exact fun hle => absurd hnstates.1 (not_lt.mpr hle)

theorem finished_perm (htimed : Timed filter log) (hgrey : ∀ s, statusAfter log s ≠ .grey) :
    (finished log).Perm (initialised log) := by
  have hcounted := counted_of_timed htimed
  rw [List.perm_ext_iff_of_nodup hcounted.finished_nodup hcounted.initialised_nodup]
  intro s
  rw [hcounted.mem_finished, hcounted.mem_initialised]
  have hs := hgrey s
  cases hcolor : statusAfter log s with
  | white => simp
  | grey => exact absurd hcolor hs
  | black => simp

/- A visit that has ended has finished what it began, and has begun all there is if it was not
stopped. -/
theorem inv_stopped (h : VisitInv fst visitor filter Holds expanded accessOnly start v log d)
    (hstop : visitStep fst expanded visitor queue filter accessOnly start d = .ok none) :
    (finished log).Perm (initialised log) ∧
      (Willing visitor → accessOnly = false → Exact fst filter log) := by
  have hended : d.root = none ∧ ¬ (d.doVisit = true ∧ d.rootIdx < d.nstates) := by
    unfold visitStep at hstop
    split at hstop
    next hroot =>
      split at hstop
      next => cases hstop
      next hgo => exact ⟨hroot, hgo⟩
    next =>
      split at hstop
      · cases hstop
      · split at hstop <;> cases hstop
  obtain ⟨hroot, hgo⟩ := hended
  obtain ⟨hgrey, -, hlast⟩ := h.rooted.idle hroot
  have hperm := finished_perm h.told.timed fun s => h.told.colored ▸ hgrey s
  refine ⟨hperm, fun hwilling haccess => ?_⟩
  have hdo := h.willing hwilling
  have hge : d.nstates ≤ d.rootIdx := Nat.le_of_not_lt fun hlt => hgo ⟨hdo, hlt⟩
  have hall := hlast hge haccess
  have hswept : ∀ s < d.rootIdx, color d s ≠ .white := by
    refine (h.rooted.swept haccess).resolve_left fun heq => ?_
    have := h.rooted.begun
    omega
  have hinit : (initialised log).Perm (List.range fst.numStates) := by
    have hcounted := counted_of_timed h.told.timed
    rw [List.perm_ext_iff_of_nodup hcounted.initialised_nodup List.nodup_range]
    intro s
    rw [hcounted.mem_initialised, ← h.told.colored, List.mem_range, ← hall]
    exact ⟨h.rooted.known s, fun hs => hswept s (hs.trans_le hge)⟩
  refine ⟨hinit, hperm.trans hinit, fun s => ?_⟩
  have hwhole := h.reported.whole hdo s
  have hrest : rest fst d s = [] := by
    by_cases hs : s < fst.numStates
    · have hblack : color d s = .black := by
        have hwhite := hswept s ((hall ▸ hs).trans_le hge)
        have hnot := hgrey s
        cases hcolor : color d s with
        | white => exact absurd hcolor hwhite
        | grey => exact absurd hcolor hnot
        | black => rfl
      exact if_pos (Or.inl hblack)
    · have hsuffix := h.reported.suffix s
      rw [VectorFst.arcs_of_le (Nat.le_of_not_lt hs)] at hsuffix
      exact List.suffix_nil.mp hsuffix
  rwa [hrest, List.filter_nil, List.append_nil] at hwhole

/- A visit comes to an end, with any queue; what its visitor has been told by then does not depend
on how much fuel is left. -/
theorem visit_ends (hrange : fst.InRange) (hstart : fst.start = some start)
    (hknown : KnownStates fst known expanded start) (hlaws : Lawful queue Holds)
    (hq : Holds q ∅) (visitor : Visitor L W σ) (filter : Arc L W → Bool) (accessOnly : Bool)
    (v : σ) : ∃ log q' bound, (∀ fuel ≥ bound,
        visit fst known expanded visitor queue filter accessOnly fuel q v =
          some (.ok (visitor.finishVisit (log.foldl (report visitor) (visitor.initVisit v)), q'))) ∧
      Timed filter log ∧ (∀ s, reported s log <+: (fst.arcs s).filter filter) ∧
        (finished log).Perm (initialised log) ∧
          (Willing visitor → accessOnly = false → Exact fst filter log) := by
  have hbegun : Kept fst visitor filter Holds expanded accessOnly start (visitor.initVisit v)
      (startVisit fst known start q (visitor.initVisit v)) :=
    ⟨[], inv_startVisit hrange hstart hknown hq⟩
  have hstep : ∀ x y, Kept fst visitor filter Holds expanded accessOnly start (visitor.initVisit v) x →
      visitStep fst expanded visitor queue filter accessOnly start x = .ok (some y) →
        Kept fst visitor filter Holds expanded accessOnly start (visitor.initVisit v) y ∧
          remaining fst y < remaining fst x := by
    intro x y hx hxy
    have hcases := visitStep_kept hrange hlaws hx
    rcases hcases with hnone | ⟨y', hy, hkept, hlt⟩
    · rw [hnone] at hxy
      cases hxy
    · rw [hy] at hxy
      cases hxy
      exact ⟨hkept, hlt⟩
  obtain ⟨r, hrun, herror⟩ := tryLoop_terminates (fun x y hx hxy => (hstep x y hx hxy).1)
    (fun x y hx hxy => (hstep x y hx hxy).2) hbegun (Nat.lt_succ_self _)
  cases r with
  | error e =>
    obtain ⟨t, ht, hpanic⟩ := herror e rfl
    have hcases := visitStep_kept hrange hlaws ht
    rcases hcases with hnone | ⟨y, hy, -⟩
    · rw [hnone] at hpanic
      cases hpanic
    · rw [hy] at hpanic
      cases hpanic
  | ok d =>
    obtain ⟨⟨log, hinv⟩, hstop⟩ := tryLoop_invariant (fun x y hx hxy => (hstep x y hx hxy).1)
      hbegun hrun
    obtain ⟨hperm, hexact⟩ := inv_stopped hinv hstop
    refine ⟨log, d.queue, remaining fst (startVisit fst known start q (visitor.initVisit v)) + 2,
      fun fuel hfuel => ?_, hinv.told.timed, hinv.reported.within, hperm, hexact⟩
    have hrun' : tryLoop (visitStep fst expanded visitor queue filter accessOnly start) fuel
        (startVisit fst known start q (visitor.initVisit v)) = some (.ok d) := runLoop_mono hfuel hrun
    unfold visit
    rw [hstart]
    dsimp only
    rw [hrun', Option.map_some, ← hinv.told.heard]
    rfl

end Visiting

section Copying

variable [One W] [DecidableEq W] {fst : VectorFst L W} {ofst : VectorFst L W}
  {log : List (VisitEvent L W)} {filter : Arc L W → Bool}

/- The copy after the events of `log`. -/
structure Copied (fst : VectorFst L W) (log : List (VisitEvent L W)) (ofst : VectorFst L W) :
    Prop where
  start : ofst.start = fst.start
  known : ∀ s, statusAfter log s ≠ .white → s < ofst.numStates
  bound : ∀ s < ofst.numStates, ∃ t ∈ initialised log, s ≤ t
  arcs : ∀ s, ofst.arcs s = reported s log
  finalWeight : ∀ s, ofst.finalWeight s =
    if statusAfter log s = .black then fst.finalWeight s else 0

theorem willing_copyVisitor (fst : VectorFst L W) : Willing (copyVisitor fst) :=
  ⟨fun _ _ _ => rfl, fun _ _ _ => rfl, fun _ _ _ => rfl, fun _ _ _ => rfl⟩

theorem copied_initVisit (fst ofst : VectorFst L W) :
    Copied fst [] ((copyVisitor fst).initVisit ofst) := by
  have hempty : ∀ s, (ofst.deleteAllStates).arcs s = [] ∧ (ofst.deleteAllStates).finalWeight s = 0 :=
    fun s => ⟨rfl, rfl⟩
  cases hstart : fst.start with
  | none =>
    have hinit : (copyVisitor fst).initVisit ofst = ofst.deleteAllStates := by
      simp [copyVisitor, hstart]
    rw [hinit]
    exact ⟨hstart.symm, fun s hs => absurd rfl hs, fun s hs => absurd hs (Nat.not_lt_zero s),
      fun s => rfl, fun s => rfl⟩
  | some start =>
    have hinit : (copyVisitor fst).initVisit ofst = ofst.deleteAllStates.setStart (some start) := by
      simp [copyVisitor, hstart]
    rw [hinit]
    exact ⟨hstart.symm, fun s hs => absurd rfl hs, fun s hs => absurd hs (Nat.not_lt_zero s),
      fun s => rfl, fun s => rfl⟩

theorem copied_arc (h : Copied fst log ofst) {e : VisitEvent L W} {s : ℕ} {arc : Arc L W}
    (hs : statusAfter log s = .grey) (hstatus : statusAfter (log ++ [e]) = statusAfter log)
    (hinit : initialised [e] = []) (harc : ∀ t, reported t [e] = if s = t then [arc] else []) :
    Copied fst (log ++ [e]) (ofst.addArc s arc) := by
  have hlt : s < ofst.numStates := h.known s (by rw [hs]; decide)
  have hsome : ofst.states[s]? = some ofst.states[s] := List.getElem?_eq_getElem hlt
  refine ⟨(VectorFst.addArc_start ofst s arc).trans h.start, fun t ht => ?_, fun t ht => ?_,
    fun t => ?_, fun t => ?_⟩
  · rw [hstatus] at ht
    rw [VectorFst.numStates_addArc]
    exact h.known t ht
  · rw [VectorFst.numStates_addArc] at ht
    rw [initialised_append, hinit, List.append_nil]
    exact h.bound t ht
  · rw [VectorFst.arcs_addArc arc hsome, reported_append, harc, ← h.arcs]
    by_cases hts : t = s
    · subst hts
      rw [Function.update_self, if_pos rfl, VectorFst.arcs_of_getElem? hsome]
    · rw [Function.update_of_ne hts, if_neg (Ne.symm hts), List.append_nil]
  · rw [VectorFst.finalWeight_addArc, hstatus]
    exact h.finalWeight t

theorem copied_snoc (h : Copied fst log ofst) {e : VisitEvent L W}
    (he : Timely filter (statusAfter log) e) :
    Copied fst (log ++ [e]) (report (copyVisitor fst) ofst e) := by
  have hstatus : statusAfter (log ++ [e]) = recolor (statusAfter log) e := statusAfter_append log [e]
  cases e with
  | initState s root =>
    have hs : statusAfter log s = .white := he
    obtain ⟨harcs, hfinal, hstart, hnum⟩ := VectorFst.growTo_eq ofst (s + 1)
    have hreport : report (copyVisitor fst) ofst (.initState s root) = ofst.growTo (s + 1) := rfl
    rw [hreport]
    refine ⟨hstart.trans h.start, fun t ht => ?_, fun t ht => ?_, fun t => ?_, fun t => ?_⟩
    · rw [hnum]
      by_cases hts : t = s
      · omega
      · rw [hstatus, recolor, Function.update_of_ne hts] at ht
        have := h.known t ht
        omega
    · rw [hnum] at ht
      rw [initialised_append]
      by_cases hold : t < ofst.numStates
      · obtain ⟨u, hu, htu⟩ := h.bound t hold
        exact ⟨u, List.mem_append_left _ hu, htu⟩
      · exact ⟨s, List.mem_append_right _ (List.mem_singleton_self s), by omega⟩
    · rw [harcs, h.arcs, reported_append]
      exact (List.append_nil _).symm
    · rw [hfinal, h.finalWeight, hstatus, recolor]
      by_cases hts : t = s
      · subst hts
        simp [hs]
      · rw [Function.update_of_ne hts]
  | finishState s =>
    have hs : statusAfter log s = .grey := he
    have hlt : s < ofst.numStates := h.known s (by rw [hs]; decide)
    have hreport : report (copyVisitor fst) ofst (.finishState s) =
        ofst.setFinal s (fst.finalWeight s) := rfl
    rw [hreport]
    refine ⟨(VectorFst.start_setFinal _ _ _).trans h.start, fun t ht => ?_, fun t ht => ?_,
      fun t => ?_, fun t => ?_⟩
    · rw [VectorFst.numStates_setFinal]
      by_cases hts : t = s
      · exact hts ▸ hlt
      · rw [hstatus, recolor, Function.update_of_ne hts] at ht
        exact h.known t ht
    · rw [VectorFst.numStates_setFinal] at ht
      obtain ⟨u, hu, htu⟩ := h.bound t ht
      exact ⟨u, by rw [initialised_append]; exact List.mem_append_left _ hu, htu⟩
    · rw [VectorFst.arcs_setFinal, h.arcs, reported_append]
      exact (List.append_nil _).symm
    · rw [VectorFst.finalWeight_setFinal _ hlt, hstatus, recolor]
      by_cases hts : t = s
      · subst hts
        simp
      · rw [Function.update_of_ne hts, Function.update_of_ne hts]
        exact h.finalWeight t
  | whiteArc s arc =>
    exact copied_arc h he.2.1 hstatus rfl fun t => by by_cases hst : s = t <;> simp [reported, hst]
  | greyArc s arc =>
    exact copied_arc h he.2.1 hstatus rfl fun t => by by_cases hst : s = t <;> simp [reported, hst]
  | blackArc s arc =>
    exact copied_arc h he.2.1 hstatus rfl fun t => by by_cases hst : s = t <;> simp [reported, hst]

theorem copied_log (h : Timed filter log) (fst ofst : VectorFst L W) :
    Copied fst log (log.foldl (report (copyVisitor fst)) ((copyVisitor fst).initVisit ofst)) := by
  induction log using List.reverseRecOn with
  | nil => exact copied_initVisit fst ofst
  | append_singleton log e ih =>
    obtain ⟨hlog, he, -⟩ := timedFrom_append.mp h
    rw [List.foldl_append]
    exact copied_snoc (ih hlog) he

/- An FST read the same in every state. -/
structure Reproduces (fst copy : VectorFst L W) : Prop where
  start : copy.start = fst.start
  numStates : copy.numStates = fst.numStates
  finalWeight : ∀ s, copy.finalWeight s = fst.finalWeight s
  arcs : ∀ s, copy.arcs s = fst.arcs s

theorem reproduces_of_exact (h : Timed (fun _ => true) log)
    (hexact : Exact fst (fun _ => true) log) (hcopied : Copied fst log ofst) :
    Reproduces fst ofst := by
  have hcounted := counted_of_timed h
  have hinit : ∀ s, statusAfter log s ≠ .white ↔ s < fst.numStates := by
    intro s
    rw [← hcounted.mem_initialised, hexact.initialised.mem_iff, List.mem_range]
  have hfinish : ∀ s, statusAfter log s = .black ↔ s < fst.numStates := by
    intro s
    rw [← hcounted.mem_finished, hexact.finished.mem_iff, List.mem_range]
  refine ⟨hcopied.start, le_antisymm ?_ ?_, fun s => ?_, fun s => ?_⟩
  · by_contra hlt
    obtain ⟨t, ht, hle⟩ := hcopied.bound fst.numStates (Nat.lt_of_not_le hlt)
    rw [hexact.initialised.mem_iff, List.mem_range] at ht
    omega
  · by_contra hlt
    have hmem := (hinit ofst.numStates).mpr (Nat.lt_of_not_le hlt)
    exact lt_irrefl _ (hcopied.known _ hmem)
  · rw [hcopied.finalWeight]
    split
    next => rfl
    next hnot =>
      rw [hfinish] at hnot
      exact (VectorFst.finalWeight_of_le (Nat.le_of_not_lt hnot)).symm
  · rw [hcopied.arcs, hexact.reported]
    simp

end Copying

section Main

variable {fst : VectorFst L W} {known : Option ℕ} {expanded : Bool} {queue : StateQueue Q}
  {start : ℕ} {Holds : Q → Finset ℕ → Prop} {q : Q} [One W] [DecidableEq W]

/- Whatever the queue, a visit comes to an end and has finished once each state it initialised;
one that is not aborted has initialised all and reported each arc once, each at its time; and a
copying visitor is left with the FST. -/
theorem visit_exact (hrange : fst.InRange) (hstart : fst.start = some start)
    (hknown : KnownStates fst known expanded start) (hlaws : Lawful queue Holds) (hq : Holds q ∅) :
    (∀ (σ : Type) (visitor : Visitor L W σ) (filter : Arc L W → Bool) (accessOnly : Bool) (v : σ),
      ∃ log q' bound, (∀ fuel ≥ bound,
          visit fst known expanded visitor queue filter accessOnly fuel q v = some (.ok
            (visitor.finishVisit (log.foldl (report visitor) (visitor.initVisit v)), q'))) ∧
        Timed filter log ∧ (∀ s, reported s log <+: (fst.arcs s).filter filter) ∧
          (initialised log).Nodup ∧ (finished log).Perm (initialised log) ∧
            (Willing visitor → accessOnly = false → Exact fst filter log)) ∧
      ∀ ofst, ∃ copy q' bound, (∀ fuel ≥ bound, visit fst known expanded (copyVisitor fst) queue
          (fun _ => true) false fuel q ofst = some (.ok (copy, q'))) ∧ Reproduces fst copy := by
  constructor
  · intro σ visitor filter accessOnly v
    obtain ⟨log, q', bound, hrun, htimed, hwithin, hperm, hexact⟩ :=
      visit_ends hrange hstart hknown hlaws hq visitor filter accessOnly v
    exact ⟨log, q', bound, hrun, htimed, hwithin, (counted_of_timed htimed).initialised_nodup, hperm,
      hexact⟩
  · intro ofst
    obtain ⟨log, q', bound, hrun, htimed, -, -, hexact⟩ :=
      visit_ends hrange hstart hknown hlaws hq (copyVisitor fst) (fun _ => true) false ofst
    exact ⟨_, q', bound, hrun, reproduces_of_exact htimed (hexact (willing_copyVisitor fst) rfl)
      (copied_log htimed fst ofst)⟩

def fifo : StateQueue FifoQueue where
  head queue := queue.states.head?
  enqueue state queue := ⟨queue.states ++ [state]⟩
  dequeue queue := ⟨queue.states.tail⟩
  isEmpty queue := queue.states.isEmpty

theorem lawful_fifo : Lawful fifo fun queue A => Lists queue.states A := by
  refine ⟨fun queue A s h hs => ?_, fun queue A h => ?_, fun queue A h hA => ?_⟩
  · exact (h.cons hs).perm (List.perm_append_singleton s queue.states)
  · refine List.isEmpty_iff.trans ⟨fun hnil => ?_, ?_⟩
    · rw [Finset.eq_empty_iff_forall_notMem]
      intro s hs
      have hmem := (h.mem s).mpr hs
      rw [hnil] at hmem
      cases hmem
    · rintro rfl
      exact h.nil_of_empty
  · obtain ⟨states⟩ := queue
    cases states with
    | nil => exact absurd rfl (h.ne_nil hA)
    | cons s states => exact ⟨s, h.tail.1, rfl, h.tail.2⟩

/- A start in the middle, a state on a cycle with it, one on a loop and one apart. -/
def islandFst : VectorFst ℤ ℕ :=
  ⟨[⟨0, [⟨1, 1, 1, 0⟩], 0, 0⟩, ⟨0, [⟨1, 2, 1, 2⟩, ⟨2, 1, 1, 0⟩], 0, 0⟩,
    ⟨1, [⟨0, 0, 1, 1⟩], 1, 1⟩, ⟨1, [], 0, 0⟩], some 1, 0⟩

theorem islandFst_inRange : islandFst.InRange := by
  constructor
  · intro s hs
    obtain rfl : 1 = s := Option.some.inj hs
    decide
  · refine VectorFst.forall_arcs_of_lt fun s hs => ?_
    change s < 4 at hs
    interval_cases s <;> decide

/- One more state is known of than those up to the start. -/
theorem visit_exact_island : ∃ copy q' bound, (∀ fuel ≥ bound, visit islandFst (some 3) false
    (copyVisitor islandFst) fifo (fun _ => true) false fuel FifoQueue.new .new =
      some (.ok (copy, q'))) ∧ Reproduces islandFst copy := by
  have hknown : KnownStates islandFst (some 3) false 1 := by
    refine ⟨fun n hn => ?_, nofun⟩
    obtain rfl : 3 = n := Option.some.inj hn
    exact ⟨by decide, by decide⟩
  exact (visit_exact islandFst_inRange rfl hknown lawful_fifo lists_nil).2 VectorFst.new

end Main

end Sicada.VisitExact
