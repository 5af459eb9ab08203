import Sicada.ArcMap
import Sicada.StateSort
import Sicada.TarjanExact

namespace Sicada

open DfsVisit

variable {L W : Type} [ArcLabel L]

section Model

structure TopOrderVisitor where
  finish : List ℕ
  acyclic : Bool

namespace TopOrderVisitor

def new : TopOrderVisitor := ⟨[], true⟩

/- `none` is an index out of bounds. -/
def setPosition (order : List ℕ) (state : ℕ × ℕ) : Option (List ℕ) :=
  if state.1 < order.length then some (order.set state.1 state.2) else none

/- The place of each state, read off the states in the order they finished. -/
def positions (finish : List ℕ) : Option (List ℕ) :=
  finish.reverse.zipIdx.foldlM setPosition (List.replicate finish.length noState)

def order (v : TopOrderVisitor) : Option (Option (List ℕ)) :=
  if v.acyclic then (positions v.finish).map some else some none

end TopOrderVisitor

def topOrderVisitor : DfsVisitor L W TopOrderVisitor where
  initVisit _ := ⟨[], true⟩
  initState _ _ v := (true, v)
  treeArc _ _ v := (true, v)
  backArc _ _ v := (false, { v with acyclic := false })
  forwardOrCrossArc _ _ v := (true, v)
  finishState s _ v := { v with finish := v.finish ++ [s] }
  finishVisit v := v

def VectorFst.topSort [Zero W] [One W] [DecidableEq W] (fst : VectorFst L W) :
    Option (Except OpenFstError Bool × VectorFst L W) :=
  (dfsVisitAny fst topOrderVisitor TopOrderVisitor.new).order.bind fun order =>
    match order with
    | some order =>
      if order.length ≠ fst.numStates then some (.ok true, fst)
      else (fst.stateSort order).map fun sorted =>
        match sorted with
        | (.error error, fst) => (.error error, fst)
        | (.ok (), fst) =>
          (.ok true, fst.setProperties (kAcyclic ||| kInitialAcyclic ||| kTopSorted)
            (kAcyclic ||| kInitialAcyclic ||| kTopSorted))
    | none => some (.ok false,
        fst.setProperties (kCyclic ||| kNotTopSorted) (kCyclic ||| kNotTopSorted))

end Model

namespace TopSort

open Relation DfsRuns SccRuns SccMarks TarjanExact PropertyBits TopOrderVisitor StateSort

section Searches

variable [Zero W] [One W] [DecidableEq W] {fst : VectorFst L W} {filter : Arc L W → Bool}
  {accessOnly : Bool} {start : ℕ} {d d' : DfsSearch L W TopOrderVisitor}

/- The frame of `t` stands above the frame of `s`. -/
def Above (stack : List (DfsFrame L W)) (s t : ℕ) : Prop :=
  [t, s].Sublist (stack.map (·.stateId))

/- No state is finished before one it leads to. -/
structure Finishing (fst : VectorFst L W) (filter : Arc L W → Bool) (finish : List ℕ) : Prop where
  nodup : finish.Nodup
  pairwise : finish.Pairwise fun s t => ¬ Follows fst filter s t
  loopless : ∀ s ∈ finish, ¬ Follows fst filter s s

structure TopInv (fst : VectorFst L W) (filter : Arc L W → Bool)
    (d : DfsSearch L W TopOrderVisitor) : Prop where
  going : d.dfs = d.visitor.acyclic
  finished : ∀ s, s ∈ d.visitor.finish ↔ d.stateColor s = .black
  finishing : d.dfs = true → Finishing fst filter d.visitor.finish
  above : d.dfs = true → ∀ s arc, Walked fst filter d s arc →
    d.stateColor arc.nextstate = .black ∨ Above d.stack s arc.nextstate
  cyclic : d.dfs = false → ∃ s, TransGen (Follows fst filter) s s

variable {frame : DfsFrame L W} {stack : List (DfsFrame L W)}

theorem linked_reaches {root : ℕ} (h : Linked fst filter root (frame :: stack)) {s : ℕ}
    (hs : s ∈ (frame :: stack).map (·.stateId)) : Reaches fst filter s frame.stateId := by
  induction stack generalizing frame with
  | nil =>
    obtain rfl : s = frame.stateId := by simpa using hs
    exact ReflTransGen.refl
  | cons parent stack ih =>
    obtain ⟨⟨arc, harc, hfilter, hnext, -⟩, hrest⟩ := h
    rw [List.map_cons, List.mem_cons] at hs
    rcases hs with rfl | hs
    · exact ReflTransGen.refl
    · exact (ih hrest hs).tail ⟨arc, harc, hfilter, hnext⟩

/- What is walked from the frame on top leads to states that are finished. -/
theorem black_of_top (hinv : DfsInv fst filter accessOnly start d) (h : TopInv fst filter d)
    (hdfs : d.dfs = true) (hstack : d.stack = frame :: stack) {arc : Arc L W}
    (hwalked : Walked fst filter d frame.stateId arc) : d.stateColor arc.nextstate = .black := by
  refine (h.above hdfs _ arc hwalked).resolve_right fun habove => ?_
  have hnodup := hinv.nodup
  unfold Above at habove
  rw [hstack, List.map_cons] at habove hnodup
  have hnot := (List.nodup_cons.mp hnodup).1
  rcases List.sublist_cons_iff.mp habove with hsub | ⟨rest, heq, hsub⟩
  · exact hnot (hsub.subset (by simp))
  · obtain ⟨-, rfl⟩ := List.cons.inj heq
    exact hnot (hsub.subset (by simp))

theorem topInv_take (hinv : DfsInv fst filter accessOnly start d) (h : TopInv fst filter d)
    {arc : Arc L W} {arcs : List (Arc L W)} (hstack : d.stack = frame :: stack)
    (harcs : frame.arcs = arc :: arcs)
    (hnext : d.dfs = true → filter arc = true → d.stateColor arc.nextstate = .black) :
    TopInv fst filter (takeArc frame arc arcs stack d) := by
  refine ⟨h.going, h.finished, h.finishing, fun hdfs s a hwalked => ?_, h.cyclic⟩
  rcases (walked_take hinv.toStacked hstack harcs).mp hwalked with hold | ⟨-, rfl, hfilter⟩
  · have habove := h.above hdfs s a hold
    unfold Above at habove ⊢
    rw [hstack] at habove
    exact habove
  · exact Or.inl (hnext hdfs hfilter)

theorem topInv_push {s : ℕ} {e : Option (ℕ × Arc L W)} (hwhite : d.stateColor s = .white)
    (hgoing : d.visitor.acyclic = true)
    (hfinished : ∀ t, t ∈ d.visitor.finish ↔ d.stateColor t = .black)
    (hfinishing : Finishing fst filter d.visitor.finish)
    (habove : ∀ u arc, Walked fst filter d u arc → d.stateColor arc.nextstate = .black ∨
      Above (⟨s, fst.arcs s, e⟩ :: d.stack) u arc.nextstate) :
    TopInv fst filter (pushState fst topOrderVisitor s e d) := by
  have hblack : ∀ t, Function.update d.stateColor s .grey t = .black ↔ d.stateColor t = .black := by
    intro t
    rw [Function.update_apply]
    split
    next heq => simp [heq, hwhite]
    next => exact Iff.rfl
  refine ⟨hgoing.symm, fun t => ?_, fun _ => hfinishing, fun _ u arc hwalked => ?_,
    fun hstop => ?_⟩
  · rw [stateColor_pushState, hblack]
    exact hfinished t
  · rw [stateColor_pushState, hblack, stack_pushState]
    exact habove u arc ((walked_push hwhite).mp hwalked)
  · cases hstop

theorem finishing_push (hinv : DfsInv fst filter accessOnly start d) (h : TopInv fst filter d)
    (hdfs : d.dfs = true) (hstack : d.stack = frame :: stack) (harcs : frame.arcs = []) :
    Finishing fst filter (d.visitor.finish ++ [frame.stateId]) := by
  obtain ⟨hnodup, hpairwise, hloopless⟩ := h.finishing hdfs
  have hgrey := (hinv.grey frame.stateId).mpr (by simp [hstack])
  have hnot : frame.stateId ∉ d.visitor.finish := by
    rw [h.finished, hgrey]
    simp
  refine ⟨?_, ?_, ?_⟩
  · rw [← List.concat_eq_append]
    exact List.Nodup.concat hnot hnodup
  · refine List.pairwise_append.mpr ⟨hpairwise, List.pairwise_singleton _ _, ?_⟩
    rintro s hs t ht ⟨arc, harc, hfilter, hnext⟩
    obtain rfl : t = frame.stateId := by simpa using ht
    have hblack := (h.finished s).mp hs
    rcases h.above hdfs s arc (walked_of_black hblack harc hfilter) with hdone | habove
    · rw [hnext, hgrey] at hdone
      cases hdone
    · have hmem : s ∈ d.stack.map (·.stateId) := habove.subset (by simp)
      rw [← hinv.grey, hblack] at hmem
      cases hmem
  · intro s hs
    rcases List.mem_append.mp hs with hs | hs
    · exact hloopless s hs
    · obtain rfl : s = frame.stateId := by simpa using hs
      rintro ⟨arc, harc, hfilter, hnext⟩
      have hblack := black_of_top hinv h hdfs hstack
        (walked_of_exhausted (hstack ▸ List.mem_cons_self) harcs harc hfilter)
      rw [hnext, hgrey] at hblack
      cases hblack

theorem topInv_move (hinv : DfsInv fst filter accessOnly start d) (h : TopInv fst filter d)
    (hmove : DfsMove fst topOrderVisitor filter accessOnly start d d') :
    TopInv fst filter d' := by
  cases hmove with
  | newTree hstack hdfs hroot =>
    refine topInv_push (hinv.fresh hstack hroot) (h.going ▸ hdfs) h.finished (h.finishing hdfs)
      fun u arc hwalked => ?_
    exact (h.above hdfs u arc hwalked).imp id fun habove => habove.cons _
  | @finish frame stack hstack harcs =>
    have hvisitor : (popState topOrderVisitor accessOnly start frame stack d).visitor =
        { d.visitor with finish := d.visitor.finish ++ [frame.stateId] } :=
      visitor_popState frame stack
    have hblack : ∀ t, Function.update d.stateColor frame.stateId .black t = .black ↔
        t = frame.stateId ∨ d.stateColor t = .black := by
      intro t
      rw [Function.update_apply]
      split <;> simp_all
    refine ⟨?_, fun s => ?_, fun hdfs => ?_, fun hdfs s arc hwalked => ?_, fun hdfs => ?_⟩
    · rw [dfs_popState, hvisitor]
      exact h.going
    · rw [hvisitor, stateColor_popState, hblack, List.mem_append, List.mem_singleton, h.finished,
        or_comm]
    · rw [dfs_popState] at hdfs
      rw [hvisitor]
      exact finishing_push hinv h hdfs hstack (harcs hdfs)
    · rw [dfs_popState] at hdfs
      rw [stateColor_popState, hblack, stack_popState]
      have hold := (walked_pop hinv.toStacked hstack (harcs hdfs)).mp hwalked
      rcases h.above hdfs s arc hold with hdone | habove
      · exact Or.inl (Or.inr hdone)
      · unfold Above at habove ⊢
        rw [hstack, List.map_cons] at habove
        rcases List.sublist_cons_iff.mp habove with hsub | ⟨rest, heq, -⟩
        · exact Or.inr hsub
        · exact Or.inl (Or.inl (List.cons.inj heq).1)
    · rw [dfs_popState] at hdfs
      exact h.cyclic hdfs
  | skip hstack harcs hdfs hfilter =>
    exact topInv_take hinv h hstack harcs fun _ htrue => by simp [hfilter] at htrue
  | @descend frame stack arc arcs hstack harcs hdfs hfilter hwhite htree =>
    refine topInv_push hwhite (h.going ▸ hdfs) h.finished (h.finishing hdfs)
      fun u a hwalked => ?_
    rcases (walked_take hinv.toStacked hstack harcs).mp hwalked with hold | ⟨rfl, rfl, -⟩
    · refine (h.above hdfs u a hold).imp id fun habove => ?_
      unfold Above at habove
      rw [hstack] at habove
      exact habove.cons _
    · refine Or.inr (List.Sublist.cons_cons _ ?_)
      exact List.singleton_sublist.mpr List.mem_cons_self
  | refuse hstack harcs hdfs hfilter hwhite htree => cases htree
  | @back frame stack arc arcs hstack harcs hdfs hfilter hgrey =>
    have harc : arc ∈ fst.arcs frame.stateId :=
      (hinv.suffix frame (hstack ▸ List.mem_cons_self)).subset (harcs ▸ List.mem_cons_self)
    have hlinked := hinv.linked
    have hmem := (hinv.grey arc.nextstate).mp hgrey
    rw [hstack] at hlinked hmem
    refine ⟨rfl, h.finished, nofun, nofun, fun _ => ?_⟩
    exact ⟨frame.stateId, TransGen.head' ⟨arc, harc, hfilter, rfl⟩ (linked_reaches hlinked hmem)⟩
  | @cross frame stack arc arcs hstack harcs hdfs hfilter hblack =>
    have htake := topInv_take hinv h hstack harcs fun _ _ => hblack
    refine ⟨?_, htake.finished, fun _ => h.finishing hdfs, fun _ => htake.above hdfs,
      nofun⟩
    have hgoing := h.going
    rw [hdfs] at hgoing
    exact hgoing

theorem topInv_start : TopInv fst filter (startSearch fst start ⟨[], true⟩) := by
  refine ⟨rfl, fun s => ?_, fun _ => ⟨List.nodup_nil, List.Pairwise.nil, nofun⟩,
    fun _ s arc hwalked => ?_, nofun⟩
  · simp [startSearch]
  · simp [Walked, startSearch] at hwalked

/- Either the states have all finished in an order that no arc goes along, or there is a cycle. -/
theorem finish_spec (h : fst.InRange) (hstart : fst.start = some start) (v : TopOrderVisitor) :
    (dfsVisitAny fst topOrderVisitor v).acyclic = true ∧
        Finishing fst (fun _ => true) (dfsVisitAny fst topOrderVisitor v).finish ∧
        (∀ s, s ∈ (dfsVisitAny fst topOrderVisitor v).finish ↔ s < fst.numStates) ∨
      (dfsVisitAny fst topOrderVisitor v).acyclic = false ∧ Holds fst .cyclic := by
  have hmove : ∀ d d', DfsInv fst (fun _ => true) false start d →
      (TopInv fst (fun _ => true) d ∧ fst.numStates ≤ d.nstates) →
      DfsMove fst topOrderVisitor (fun _ => true) false start d d' →
        TopInv fst (fun _ => true) d' ∧ fst.numStates ≤ d'.nstates :=
    fun d d' hinv hd hmove => ⟨topInv_move hinv hd.1 hmove, hd.2.trans (nstates_le_move hmove)⟩
  obtain ⟨d, hrun, hinv, ⟨htop, hknown⟩, hfinished⟩ :=
    dfsVisit_spec hstart ⟨topInv_start, le_rfl⟩ hmove
  have hvisit : dfsVisitAny fst topOrderVisitor v = d.visitor := hrun
  rw [hvisit, ← htop.going]
  cases hdfs : d.dfs with
  | true =>
    refine Or.inl ⟨rfl, htop.finishing hdfs, fun s => ?_⟩
    rw [htop.finished, black_iff h hstart hinv hdfs hknown hfinished]
  | false =>
    obtain ⟨s, hs⟩ := htop.cyclic hdfs
    rw [follows_any] at hs
    exact Or.inr ⟨rfl, s, hs⟩

end Searches

section Positions

theorem setPositions_spec {states order : List ℕ} (first : ℕ) (hnodup : states.Nodup)
    (hbound : ∀ s ∈ states, s < order.length) :
    ∃ order' : List ℕ, (states.zipIdx first).foldlM setPosition order = some order' ∧
      order'.length = order.length ∧ (∀ t ∉ states, order'[t]? = order[t]?) ∧
      ∀ i s, states[i]? = some s → order'[s]? = some (first + i) := by
  induction states generalizing order first with
  | nil => exact ⟨order, rfl, rfl, fun t _ => rfl, by simp⟩
  | cons s states ih =>
    obtain ⟨hnot, hnodup⟩ := List.nodup_cons.mp hnodup
    have hs := hbound s List.mem_cons_self
    obtain ⟨order', hrun, hlen, hothers, hplaced⟩ := @ih (order.set s first) (first + 1)
      hnodup fun t ht => by
        rw [List.length_set]
        exact hbound t (List.mem_cons_of_mem s ht)
    refine ⟨order', ?_, by rw [hlen, List.length_set], fun t ht => ?_, fun i t hi => ?_⟩
    · rw [List.zipIdx_cons, List.foldlM_cons, setPosition, if_pos hs]
      exact hrun
    · obtain ⟨hne, ht⟩ := not_or.mp fun hmem => ht (List.mem_cons.mpr hmem)
      rw [hothers t ht, List.getElem?_set_ne (Ne.symm hne)]
    · cases i with
      | zero =>
        obtain rfl : s = t := by simpa using hi
        rw [hothers s hnot, List.getElem?_set_self hs, Nat.add_zero]
      | succ i =>
        rw [hplaced i t (by simpa using hi)]
        congr 1
        omega

theorem positions_spec {finish : List ℕ} {n : ℕ} (hnodup : finish.Nodup)
    (hmem : ∀ s, s ∈ finish ↔ s < n) : ∃ order : List ℕ, positions finish = some order ∧
      order.Perm (List.range n) ∧ ∀ i s : ℕ, finish.reverse[i]? = some s → order[s]? = some i := by
  have hlen : finish.length = n := by
    have hperm : finish.Perm (List.range n) :=
      (List.perm_ext_iff_of_nodup hnodup List.nodup_range).mpr fun s => by
        rw [hmem, List.mem_range]
    simpa using hperm.length_eq
  obtain ⟨order, hrun, hlength, -, hplaced⟩ :=
    @setPositions_spec finish.reverse (List.replicate finish.length noState) 0
      (List.nodup_reverse.mpr hnodup) fun s hs => by
        rw [List.length_replicate, hlen]
        exact (hmem s).mp (List.mem_reverse.mp hs)
  have hplaced' : ∀ i s : ℕ, finish.reverse[i]? = some s → order[s]? = some i := fun i s hi => by
    rw [hplaced i s hi, Nat.zero_add]
  refine ⟨order, hrun, ?_, hplaced'⟩
  have hsub : List.range n ⊆ order := by
    intro i hi
    have hlt : i < finish.reverse.length := by
      rw [List.length_reverse, hlen]
      exact List.mem_range.mp hi
    exact List.mem_of_getElem? (hplaced' i _ (List.getElem?_eq_getElem hlt))
  refine ((List.subperm_of_subset List.nodup_range hsub).perm_of_length_le ?_).symm
  rw [hlength, List.length_replicate, hlen, List.length_range]

end Positions

variable [Zero W] [One W] [DecidableEq W] {fst : VectorFst L W} {start : ℕ}

/- An arc leads to a state that is placed later. -/
theorem place_lt {finish order : List ℕ} (hfinishing : Finishing fst (fun _ => true) finish)
    (hplaced : ∀ i s : ℕ, finish.reverse[i]? = some s → order[s]? = some i) {s t : ℕ}
    (hs : s ∈ finish) (ht : t ∈ finish) (hstep : Step fst s t) :
    order.getD s 0 < order.getD t 0 := by
  rw [← follows_any] at hstep
  obtain ⟨i, hi⟩ := List.mem_iff_getElem?.mp (List.mem_reverse.mpr hs)
  obtain ⟨j, hj⟩ := List.mem_iff_getElem?.mp (List.mem_reverse.mpr ht)
  rw [List.getD_eq_getElem?_getD, List.getD_eq_getElem?_getD, hplaced i s hi, hplaced j t hj,
    Option.getD_some, Option.getD_some]
  by_contra hle
  obtain ⟨hilt, hi⟩ := List.getElem?_eq_some_iff.mp hi
  obtain ⟨hjlt, hj⟩ := List.getElem?_eq_some_iff.mp hj
  rcases Nat.lt_or_eq_of_le (Nat.le_of_not_lt hle) with hlt | rfl
  · have hpairwise := List.pairwise_iff_getElem.mp
      (List.pairwise_reverse.mpr hfinishing.pairwise) j i hjlt hilt hlt
    rw [hi, hj] at hpairwise
    exact hpairwise hstep
  · obtain rfl : s = t := hi.symm.trans hj
    exact hfinishing.loopless s hs hstep

theorem topSort_of_finishing (h : fst.InRange) (hstart : fst.start = some start)
    (hfinishing : Finishing fst (fun _ => true)
      (dfsVisitAny fst topOrderVisitor TopOrderVisitor.new).finish)
    (hacyclic : (dfsVisitAny fst topOrderVisitor TopOrderVisitor.new).acyclic = true)
    (hall : ∀ s, s ∈ (dfsVisitAny fst topOrderVisitor TopOrderVisitor.new).finish ↔
      s < fst.numStates) :
    ∃ (order : List ℕ) (fst' : VectorFst L W), order.Perm (List.range fst.numStates) ∧
      fst.topSort = some (.ok true, fst') ∧ Renames (fun s => order.getD s 0) fst fst' ∧
      Holds fst' .topSorted := by
  obtain ⟨order, hpositions, hperm, hplaced⟩ := positions_spec hfinishing.nodup hall
  obtain ⟨hlen, -⟩ := perm_iff.mp hperm
  obtain ⟨fst', hsort, hrenames⟩ := stateSort_renames h hperm hstart
  refine ⟨order, fst'.setProperties (kAcyclic ||| kInitialAcyclic ||| kTopSorted)
    (kAcyclic ||| kInitialAcyclic ||| kTopSorted), hperm, ?_, ⟨hrenames.numStates,
      hrenames.start, hrenames.finalWeight, hrenames.arcs⟩, ?_⟩
  · unfold VectorFst.topSort TopOrderVisitor.order
    rw [if_pos hacyclic, hpositions]
    dsimp only [Option.map_some, Option.bind_some]
    rw [if_neg (not_not.mpr hlen), hsort]
    rfl
  · have hsorted : Holds fst' .topSorted := by
      refine VectorFst.forall_arcs_of_lt fun u hu => ?_
      rw [hrenames.numStates] at hu
      obtain ⟨s, hs⟩ := List.mem_iff_getElem?.mp (hperm.mem_iff.mpr (List.mem_range.mpr hu))
      have hlt : s < fst.numStates := hlen ▸ (List.getElem?_eq_some_iff.mp hs).1
      have hplace : order.getD s 0 = u := by
        rw [List.getD_eq_getElem?_getD, hs]
        rfl
      have harcs := hrenames.arcs s hlt
      rw [hplace] at harcs
      intro arc harc
      rw [harcs] at harc
      obtain ⟨arc, hold, rfl⟩ := List.mem_map.mp harc
      have hlt' := place_lt hfinishing hplaced ((hall s).mpr hlt)
        ((hall _).mpr (h.arcs s arc hold)) ⟨arc, hold, rfl⟩
      rw [hplace] at hlt'
      exact hlt'
    exact hsorted

theorem topSort_of_cyclic
    (hcyclic : (dfsVisitAny fst topOrderVisitor TopOrderVisitor.new).acyclic = false) :
    ∃ fst', fst.topSort = some (.ok false, fst') ∧ fst'.start = fst.start ∧
      fst'.states = fst.states := by
  refine ⟨fst.setProperties (kCyclic ||| kNotTopSorted) (kCyclic ||| kNotTopSorted), ?_, rfl, rfl⟩
  unfold VectorFst.topSort TopOrderVisitor.order
  rw [hcyclic]
  rfl

/- A path in an FST whose arcs are renamed. -/
theorem not_cyclic_of_renames {place : ℕ → ℕ} {fst' : VectorFst L W}
    (hrenames : Renames place fst fst') (hsorted : Holds fst' .topSorted) :
    ¬ Holds fst .cyclic := by
  have hstep : ∀ s t, Step fst s t → place s < place t := by
    rintro s t ⟨arc, harc, rfl⟩
    have hs : s < fst.numStates := by
      by_contra hge
      rw [VectorFst.arcs_of_le (Nat.le_of_not_lt hge)] at harc
      cases harc
    refine hsorted (place s) { arc with nextstate := place arc.nextstate } ?_
    rw [hrenames.arcs s hs]
    exact List.mem_map.mpr ⟨arc, harc, rfl⟩
  rintro ⟨s, hcycle⟩
  have hlt : ∀ t, TransGen (Step fst) s t → place s < place t := by
    intro t ht
    induction ht with
    | single hst => exact hstep _ _ hst
    | tail _ hst ih => exact ih.trans (hstep _ _ hst)
  exact lt_irrefl _ (hlt s hcycle)

/- A permutation renames the states, any other order is refused, and the order of a topological
sort is one wherever there is any. -/
theorem sorts_exact (fst : VectorFst L W) :
    (∀ order : List ℕ, ¬ order.Perm (List.range fst.numStates) → ∃ error fst',
      fst.stateSort order = some (.error error, fst') ∧ fst'.start = fst.start ∧
        fst'.states = fst.states) ∧
    (fst.InRange → ∀ start, fst.start = some start →
      (∀ order : List ℕ, order.Perm (List.range fst.numStates) → ∃ fst',
        fst.stateSort order = some (.ok (), fst') ∧
          Renames (fun s => order.getD s 0) fst fst') ∧
      (¬ Holds fst .cyclic → ∃ (order : List ℕ) (fst' : VectorFst L W), order.Perm (List.range fst.numStates) ∧
        fst.topSort = some (.ok true, fst') ∧ Renames (fun s => order.getD s 0) fst fst' ∧
          ∀ s, ∀ arc ∈ fst'.arcs s, s < arc.nextstate) ∧
      (Holds fst .cyclic → ∃ fst', fst.topSort = some (.ok false, fst') ∧
        fst'.start = fst.start ∧ fst'.states = fst.states)) := by
  refine ⟨fun order hperm => stateSort_refuses hperm, fun h start hstart => ?_⟩
  refine ⟨fun order hperm => stateSort_renames h hperm hstart, ?_, ?_⟩
  · intro hacyclic
    rcases finish_spec h hstart TopOrderVisitor.new with ⟨htrue, hfinishing, hall⟩ | ⟨-, hcyclic⟩
    · exact topSort_of_finishing h hstart hfinishing htrue hall
    · exact absurd hcyclic hacyclic
  · intro hcyclic
    rcases finish_spec h hstart TopOrderVisitor.new with ⟨htrue, hfinishing, hall⟩ | ⟨hfalse, -⟩
    · obtain ⟨order, fst', -, -, hrenames, hsorted⟩ :=
        topSort_of_finishing h hstart hfinishing htrue hall
      exact absurd hcyclic (not_cyclic_of_renames hrenames hsorted)
    · exact topSort_of_cyclic hfalse

/- A chain numbered from its end. -/
def backwards : VectorFst ℤ ℕ :=
  ⟨[⟨1, [], 0, 0⟩, ⟨0, [⟨2, 2, 1, 0⟩], 0, 0⟩, ⟨0, [⟨1, 1, 1, 1⟩, ⟨0, 0, 1, 0⟩], 1, 1⟩], some 2, 0⟩

theorem backwards_inRange : backwards.InRange := by
  constructor
  · intro s hs
    obtain rfl : 2 = s := Option.some.inj hs
    decide
  · refine VectorFst.forall_arcs_of_lt fun s hs => ?_
    change s < 3 at hs
    interval_cases s <;> decide

theorem sorts_exact_backwards :
    (∃ error fst', backwards.stateSort [0, 0, 2] = some (.error error, fst') ∧
      fst'.start = backwards.start ∧ fst'.states = backwards.states) ∧
    (∃ fst', backwards.stateSort [2, 1, 0] = some (.ok (), fst') ∧
      Renames (fun s => [2, 1, 0].getD s 0) backwards fst') ∧
    ∃ (order : List ℕ) (fst' : VectorFst ℤ ℕ), order.Perm (List.range 3) ∧
      backwards.topSort = some (.ok true, fst') ∧
        Renames (fun s => order.getD s 0) backwards fst' ∧
          ∀ s, ∀ arc ∈ fst'.arcs s, s < arc.nextstate := by
  obtain ⟨hrefused, hsorted⟩ := sorts_exact backwards
  obtain ⟨hperm, hacyclic, -⟩ := hsorted backwards_inRange 2 rfl
  refine ⟨hrefused _ (by decide), hperm _ (by decide), hacyclic ?_⟩
  rintro ⟨s, hcycle⟩
  have hdown : ∀ t, TransGen (Step backwards) s t → t < s := by
    have hstep : ∀ u, ∀ arc ∈ backwards.arcs u, arc.nextstate < u := by
      refine VectorFst.forall_arcs_of_lt fun u hu => ?_
      change u < 3 at hu
      interval_cases u <;> decide
    intro t ht
    induction ht with
    | single hst =>
      obtain ⟨arc, harc, rfl⟩ := hst
      exact hstep s arc harc
    | tail _ hst ih =>
      obtain ⟨arc, harc, rfl⟩ := hst
      exact (hstep _ arc harc).trans ih
  exact lt_irrefl s (hdown s hcycle)

end TopSort

end Sicada
