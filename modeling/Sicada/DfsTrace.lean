import Sicada.TarjanExact

namespace Sicada.DfsTrace

open Relation Loop DfsVisit DfsRuns SccRuns SccExact SccMarks TarjanExact

variable {L W σ τ : Type} [ArcLabel L] [Zero W]

inductive Event where
  | enter (s : ℕ)
  | descend (s t : ℕ)
  | look (s t : ℕ)
deriving DecidableEq

/- Writes down what a search reports, the latest first. -/
def traceVisitor : DfsVisitor L W (List Event) where
  initVisit events := events
  initState s _ events := (true, .enter s :: events)
  treeArc s arc events := (true, .descend s arc.nextstate :: events)
  backArc s arc events := (true, .look s arc.nextstate :: events)
  forwardOrCrossArc s arc events := (true, .look s arc.nextstate :: events)
  finishState _ _ events := events
  finishVisit events := events

def trace (fst : VectorFst L W) : List Event := dfsVisitAny fst traceVisitor []

section Mimicking

/- What `visitor'` is told it keeps as the image of what `visitor` would. -/
structure Mimics (h : σ → τ) (visitor : DfsVisitor L W σ) (visitor' : DfsVisitor L W τ) : Prop where
  initState : ∀ s root v, visitor'.initState s root (h v) = (visitor.initState s root v).map id h
  treeArc : ∀ s arc v, visitor'.treeArc s arc (h v) = (visitor.treeArc s arc v).map id h
  backArc : ∀ s arc v, visitor'.backArc s arc (h v) = (visitor.backArc s arc v).map id h
  forwardOrCrossArc : ∀ s arc v,
    visitor'.forwardOrCrossArc s arc (h v) = (visitor.forwardOrCrossArc s arc v).map id h
  finishState : ∀ s parent v, visitor'.finishState s parent (h v) = h (visitor.finishState s parent v)

def mapSearch (h : σ → τ) (d : DfsSearch L W σ) : DfsSearch L W τ :=
  { stateColor := d.stateColor
    nstates := d.nstates
    stack := d.stack
    dfs := d.dfs
    rootIdx := d.rootIdx
    visitor := h d.visitor }

variable {h : σ → τ} {visitor : DfsVisitor L W σ} {visitor' : DfsVisitor L W τ}
  {fst : VectorFst L W} {filter : Arc L W → Bool} {accessOnly : Bool} {start : ℕ}

theorem pushState_map (hm : Mimics h visitor visitor') (s : ℕ) (e : Option (ℕ × Arc L W))
    (d : DfsSearch L W σ) :
    pushState fst visitor' s e (mapSearch h d) = mapSearch h (pushState fst visitor s e d) := by
  simp only [pushState, mapSearch, hm.initState, Prod.map_fst, Prod.map_snd, id]

theorem popState_map (hm : Mimics h visitor visitor') (frame : DfsFrame L W)
    (stack : List (DfsFrame L W)) (d : DfsSearch L W σ) :
    popState visitor' accessOnly start frame stack (mapSearch h d) =
      mapSearch h (popState visitor accessOnly start frame stack d) := by
  unfold popState
  dsimp only [mapSearch]
  rw [hm.finishState]
  split <;> rfl

theorem walkArc_map (hm : Mimics h visitor visitor') (s : ℕ) (arc : Arc L W)
    (d : DfsSearch L W σ) : walkArc fst visitor' filter s arc (mapSearch h d) =
      mapSearch h (walkArc fst visitor filter s arc d) := by
  have hpush := @pushState_map L W σ τ _ _ h visitor visitor' fst hm arc.nextstate
    (some (s, arc)) { d with
      nstates := max d.nstates (arc.nextstate + 1)
      visitor := (visitor.treeArc s arc d.visitor).2 }
  cases hfilter : filter arc with
  | false => simp only [walkArc, hfilter, Bool.false_eq_true, if_false, mapSearch]
  | true =>
    cases hcolor : d.stateColor arc.nextstate with
    | white =>
      cases htree : (visitor.treeArc s arc d.visitor).1 with
      | false =>
        simp only [walkArc, hfilter, if_true, mapSearch, hcolor, hm.treeArc, Prod.map_fst,
          Prod.map_snd, id, htree, Bool.false_eq_true, if_false]
      | true =>
        simp only [walkArc, hfilter, if_true, mapSearch, hcolor, hm.treeArc, Prod.map_fst,
          Prod.map_snd, id, htree]
        exact hpush
    | grey =>
      simp only [walkArc, hfilter, if_true, mapSearch, hcolor, hm.backArc, Prod.map_fst,
        Prod.map_snd, id]
    | black =>
      simp only [walkArc, hfilter, if_true, mapSearch, hcolor, hm.forwardOrCrossArc, Prod.map_fst,
        Prod.map_snd, id]

theorem dfsStep_map (hm : Mimics h visitor visitor') (d : DfsSearch L W σ) :
    dfsStep fst visitor' filter accessOnly start (mapSearch h d) =
      (dfsStep fst visitor filter accessOnly start d).map (mapSearch h) := by
  have hpush : ∀ d, pushState fst visitor' d.rootIdx none (mapSearch h d) =
      mapSearch h (pushState fst visitor d.rootIdx none d) :=
    fun d => pushState_map hm d.rootIdx none d
  have hpop : ∀ frame stack d, popState visitor' accessOnly start frame stack (mapSearch h d) =
      mapSearch h (popState visitor accessOnly start frame stack d) :=
    fun frame stack d => popState_map hm frame stack d
  have hwalk : ∀ s arc d, walkArc fst visitor' filter s arc (mapSearch h d) =
      mapSearch h (walkArc fst visitor filter s arc d) := fun s arc d => walkArc_map hm s arc d
  obtain ⟨stateColor, nstates, stack, dfs, rootIdx, v⟩ := d
  cases stack with
  | nil =>
    by_cases hgo : dfs = true ∧ rootIdx < nstates
    · have hstep : dfsStep fst visitor filter accessOnly start
          ⟨stateColor, nstates, [], dfs, rootIdx, v⟩ = some (pushState fst visitor rootIdx none
            ⟨stateColor, nstates, [], dfs, rootIdx, v⟩) := if_pos hgo
      have hstep' : dfsStep fst visitor' filter accessOnly start
          (mapSearch h ⟨stateColor, nstates, [], dfs, rootIdx, v⟩) =
            some (pushState fst visitor' rootIdx none
              (mapSearch h ⟨stateColor, nstates, [], dfs, rootIdx, v⟩)) := if_pos hgo
      rw [hstep, hstep', Option.map_some]
      exact congrArg some (hpush ⟨stateColor, nstates, [], dfs, rootIdx, v⟩)
    · have hstep : dfsStep fst visitor filter accessOnly start
          ⟨stateColor, nstates, [], dfs, rootIdx, v⟩ = none := if_neg hgo
      have hstep' : dfsStep fst visitor' filter accessOnly start
          (mapSearch h ⟨stateColor, nstates, [], dfs, rootIdx, v⟩) = none := if_neg hgo
      rw [hstep, hstep', Option.map_none]
  | cons frame stack =>
    obtain ⟨s, arcs, enteredBy⟩ := frame
    cases dfs with
    | false =>
      exact congrArg some (hpop ⟨s, arcs, enteredBy⟩ stack
        ⟨stateColor, nstates, ⟨s, arcs, enteredBy⟩ :: stack, false, rootIdx, v⟩)
    | true =>
      cases arcs with
      | nil =>
        exact congrArg some (hpop ⟨s, [], enteredBy⟩ stack
          ⟨stateColor, nstates, ⟨s, [], enteredBy⟩ :: stack, true, rootIdx, v⟩)
      | cons arc arcs =>
        exact congrArg some (hwalk s arc
          ⟨stateColor, nstates, ⟨s, arcs, enteredBy⟩ :: stack, true, rootIdx, v⟩)

theorem searchFrom_map (hm : Mimics h visitor visitor') (v : σ) :
    searchFrom fst visitor' filter accessOnly start (h v) =
      mapSearch h (searchFrom fst visitor filter accessOnly start v) := by
  have hstep : ∀ d (d' : DfsSearch L W τ), d' = mapSearch h d →
      Option.Rel (fun d d' => d' = mapSearch h d)
        (dfsStep fst visitor filter accessOnly start d)
        (dfsStep fst visitor' filter accessOnly start d') := by
    rintro d _ rfl
    rw [dfsStep_map hm]
    cases dfsStep fst visitor filter accessOnly start d with
    | none => exact .none
    | some next => exact .some rfl
  have hfirst : startSearch fst start (h v) = mapSearch h (startSearch fst start v) := rfl
  have hrel := runLoop_rel hstep (dfsFuel fst) hfirst
  unfold searchFrom
  generalize runLoop (dfsStep fst visitor filter accessOnly start) (dfsFuel fst)
    (startSearch fst start v) = x at hrel ⊢
  generalize runLoop (dfsStep fst visitor' filter accessOnly start) (dfsFuel fst)
    (startSearch fst start (h v)) = y at hrel ⊢
  cases hrel with
  | none => rfl
  | some heq => exact heq

/- A visitor told the same as one it mimics ends as the image of where that one ends. -/
theorem dfsVisitAny_map (hm : Mimics h visitor visitor') (v : σ)
    (hinit : visitor'.initVisit (h v) = h (visitor.initVisit v)) {start : ℕ}
    (hstart : fst.start = some start) : dfsVisitAny fst visitor' (h v) = visitor'.finishVisit
      (h (searchFrom fst visitor (fun _ => true) false start (visitor.initVisit v)).visitor) := by
  unfold dfsVisitAny dfsVisit
  rw [hstart, hinit]
  dsimp only
  rw [searchFrom_map hm]
  rfl

end Mimicking

section Tracing

/- A state is entered once, from a state entered before or as a root, and only arcs between states
that have been entered are looked along. -/
inductive Proper : List Event → Prop
  | nil : Proper []
  | root {events : List Event} {r : ℕ} (h : Proper events) (hr : .enter r ∉ events) :
      Proper (.enter r :: events)
  | descend {events : List Event} {s t : ℕ} (h : Proper events) (hs : .enter s ∈ events)
      (ht : .enter t ∉ events) : Proper (.enter t :: .descend s t :: events)
  | look {events : List Event} {s t : ℕ} (h : Proper events) (hs : .enter s ∈ events)
      (ht : .enter t ∈ events) : Proper (.look s t :: events)

variable {fst : VectorFst L W} {filter : Arc L W → Bool} {accessOnly : Bool} {start : ℕ}
  {d d' : DfsSearch L W (List Event)}

structure Traced (fst : VectorFst L W) (filter : Arc L W → Bool) (d : DfsSearch L W (List Event)) :
    Prop where
  going : d.dfs = true
  proper : Proper d.visitor
  entered : ∀ s, .enter s ∈ d.visitor ↔ d.stateColor s ≠ .white
  along : ∀ s t, (.descend s t ∈ d.visitor ∨ .look s t ∈ d.visitor) ↔
    ∃ arc, Walked fst filter d s arc ∧ arc.nextstate = t

theorem along_take {frame : DfsFrame L W} {arc : Arc L W} {arcs : List (Arc L W)}
    {stack : List (DfsFrame L W)} (hinv : DfsInv fst filter accessOnly start d)
    (hstack : d.stack = frame :: stack) (harcs : frame.arcs = arc :: arcs)
    (hfilter : filter arc = true) (s t : ℕ) :
    (∃ a, Walked fst filter (takeArc frame arc arcs stack d) s a ∧ a.nextstate = t) ↔
      (s = frame.stateId ∧ t = arc.nextstate) ∨
        ∃ a, Walked fst filter d s a ∧ a.nextstate = t := by
  constructor
  · rintro ⟨a, hwalked, hnext⟩
    rcases (walked_take hinv.toStacked hstack harcs).mp hwalked with hold | ⟨hs, rfl, -⟩
    · exact .inr ⟨a, hold, hnext⟩
    · exact .inl ⟨hs, hnext.symm⟩
  · rintro (⟨hs, ht⟩ | ⟨a, hold, hnext⟩)
    · exact ⟨arc, (walked_take hinv.toStacked hstack harcs).mpr (.inr ⟨hs, rfl, hfilter⟩), ht.symm⟩
    · exact ⟨a, (walked_take hinv.toStacked hstack harcs).mpr (.inl hold), hnext⟩

theorem traced_look {frame : DfsFrame L W} {arc : Arc L W} {arcs : List (Arc L W)}
    {stack : List (DfsFrame L W)} (hinv : DfsInv fst filter accessOnly start d)
    (h : Traced fst filter d) (hstack : d.stack = frame :: stack)
    (harcs : frame.arcs = arc :: arcs) (hfilter : filter arc = true)
    (hseen : d.stateColor arc.nextstate ≠ .white) : Traced fst filter
      { takeArc frame arc arcs stack d with
        dfs := true
        visitor := .look frame.stateId arc.nextstate :: d.visitor } := by
  have hgrey := (hinv.grey frame.stateId).mpr (by simp [hstack])
  refine ⟨rfl, ?_, fun s => ?_, fun s t => ?_⟩
  · refine h.proper.look ((h.entered _).mpr ?_) ((h.entered _).mpr hseen)
    simp [hgrey]
  · rw [List.mem_cons, h.entered]
    simp [takeArc]
  · refine Iff.trans ?_ (along_take hinv hstack harcs hfilter s t).symm
    rw [← h.along, List.mem_cons, List.mem_cons, Event.look.injEq]
    simp only [reduceCtorEq, false_or]
    exact or_left_comm

theorem traced_move (hinv : DfsInv fst filter accessOnly start d) (h : Traced fst filter d)
    (hmove : DfsMove fst traceVisitor filter accessOnly start d d') : Traced fst filter d' := by
  cases hmove with
  | newTree hstack hdfs hroot =>
    have hwhite := hinv.fresh hstack hroot
    refine ⟨rfl, h.proper.root (fun hmem => (h.entered _).mp hmem hwhite), fun s => ?_,
      fun s t => ?_⟩
    · change Event.enter s ∈ .enter d.rootIdx :: d.visitor ↔ _
      rw [List.mem_cons, h.entered, stateColor_pushState, Event.enter.injEq, Function.update_apply]
      by_cases heq : s = d.rootIdx <;> simp [heq]
    · change Event.descend s t ∈ .enter d.rootIdx :: d.visitor ∨
        Event.look s t ∈ .enter d.rootIdx :: d.visitor ↔ _
      simp only [List.mem_cons, reduceCtorEq, false_or, walked_push hwhite]
      exact h.along s t
  | @finish frame stack hstack harcs =>
    have hgrey := (hinv.grey frame.stateId).mpr (by simp [hstack])
    have hcolor := @updated_white d.stateColor frame.stateId .black (by simp [hgrey]) (by simp)
    have hvisitor : (popState traceVisitor accessOnly start frame stack d).visitor = d.visitor :=
      visitor_popState frame stack
    refine ⟨(dfs_popState frame stack).trans h.going, hvisitor ▸ h.proper, fun s => ?_,
      fun s t => ?_⟩
    · rw [hvisitor, h.entered, stateColor_popState, hcolor]
    · rw [hvisitor, h.along]
      simp only [walked_pop hinv.toStacked hstack (harcs h.going)]
  | @skip frame stack arc arcs hstack harcs hdfs hfilter =>
    refine ⟨h.going, h.proper, h.entered, fun s t => (h.along s t).trans ?_⟩
    apply exists_congr
    intro a
    rw [walked_take hinv.toStacked hstack harcs]
    refine and_congr_left' ⟨.inl, ?_⟩
    rintro (hold | ⟨-, rfl, htrue⟩)
    · exact hold
    · rw [hfilter] at htrue
      cases htrue
  | @descend frame stack arc arcs hstack harcs hdfs hfilter hwhite htree =>
    have hgrey := (hinv.grey frame.stateId).mpr (by simp [hstack])
    refine ⟨rfl, ?_, fun s => ?_, fun s t => ?_⟩
    · refine h.proper.descend ((h.entered _).mpr ?_) fun hmem => (h.entered _).mp hmem hwhite
      simp [hgrey]
    · change Event.enter s ∈ .enter arc.nextstate :: .descend frame.stateId arc.nextstate ::
        d.visitor ↔ _
      rw [List.mem_cons, List.mem_cons, h.entered, stateColor_pushState, Event.enter.injEq,
        Function.update_apply]
      by_cases heq : s = arc.nextstate <;> simp [heq, takeArc]
    · change Event.descend s t ∈ .enter arc.nextstate :: .descend frame.stateId arc.nextstate ::
        d.visitor ∨ Event.look s t ∈ .enter arc.nextstate ::
          .descend frame.stateId arc.nextstate :: d.visitor ↔ _
      have hpushed : (∃ a, Walked fst filter (pushState fst traceVisitor arc.nextstate
          (some (frame.stateId, arc)) { takeArc frame arc arcs stack d with
            visitor := .descend frame.stateId arc.nextstate :: d.visitor }) s a ∧
              a.nextstate = t) ↔
          ∃ a, Walked fst filter (takeArc frame arc arcs stack d) s a ∧ a.nextstate = t :=
        exists_congr fun a => and_congr_left' (walked_push (by exact hwhite))
      refine Iff.trans ?_ ((along_take hinv hstack harcs hfilter s t).symm.trans hpushed.symm)
      rw [← h.along]
      simp only [List.mem_cons, Event.descend.injEq, reduceCtorEq, false_or]
      exact or_assoc
  | refuse hstack harcs hdfs hfilter hwhite htree => cases htree
  | back hstack harcs hdfs hfilter hgrey =>
    exact traced_look hinv h hstack harcs hfilter (by simp [hgrey])
  | cross hstack harcs hdfs hfilter hblack =>
    exact traced_look hinv h hstack harcs hfilter (by simp [hblack])

theorem traced_start : Traced fst filter (startSearch fst start []) := by
  refine ⟨rfl, .nil, fun s => ?_, fun s t => ?_⟩
  · simp [startSearch]
  · simp [startSearch, Walked]

variable (fst) in
/- What the whole search reports. -/
theorem trace_spec {start : ℕ} (hstart : fst.start = some start)
    (hrange : fst.InRange) :
    Proper (trace fst) ∧ (∀ s, .enter s ∈ trace fst ↔ s < fst.numStates) ∧
      ∀ s t, (.descend s t ∈ trace fst ∨ .look s t ∈ trace fst) ↔
        Follows fst (fun _ => true) s t := by
  classical
  let Inv : DfsSearch L W (List Event) → Prop := fun d =>
    Traced fst (fun _ => true) d ∧ fst.numStates ≤ d.nstates
  have hmove : ∀ d d', DfsInv fst (fun _ => true) false start d → Inv d →
      DfsMove fst traceVisitor (fun _ => true) false start d d' → Inv d' :=
    fun d d' hinv hd hmove => ⟨traced_move hinv hd.1 hmove, hd.2.trans (nstates_le_move hmove)⟩
  obtain ⟨d, hrun, hinv, ⟨h, hknown⟩, hfinished⟩ :=
    dfsVisit_spec hstart (⟨traced_start, le_rfl⟩ : Inv (startSearch fst start [])) hmove
  have htrace : trace fst = d.visitor := hrun
  have hblack := fun s => @black_iff _ _ _ _ fst _ start _ d hrange hstart hinv h.going hknown
    hfinished s
  rw [htrace]
  refine ⟨h.proper, fun s => ?_, fun s t => ?_⟩
  · rw [h.entered, ← hblack s]
    refine ⟨fun hs => black_of_finished hinv hfinished hs, fun hs => ?_⟩
    simp [hs]
  · rw [h.along]
    constructor
    · rintro ⟨arc, hwalked, hnext⟩
      rw [← hnext]
      exact walked_follows hinv.toStacked hwalked
    · rintro ⟨arc, harc, hfilter, hnext⟩
      have hs := (hblack s).mpr (lt_of_follows (⟨arc, harc, hfilter, hnext⟩ : Follows fst (fun _ => true) s t))
      exact ⟨arc, walked_of_black hs harc hfilter, hnext⟩

end Tracing

end Sicada.DfsTrace
