import Sicada.SccExact

set_option linter.unusedSectionVars false

namespace Sicada.SccMarks

open Relation DfsVisit DfsRuns CcVisitors SccVisitor SccRuns SccExact

variable {L W : Type} [ArcLabel L] [Zero W] [DecidableEq W]

section Access

variable {fst : VectorFst L W} {filter : Arc L W → Bool} {isMember : W → Bool} {want : Bool}
  {accessOnly : Bool} {start : ℕ} {d d' : DfsSearch L W SccVisitor}

/- The first tree marks what it enters, the later trees mark nothing, and a mark is never lost. -/
structure Accessed (fst : VectorFst L W) (filter : Arc L W → Bool) (start root : ℕ)
    (color : ℕ → StateColor) (frames : List ℕ) (walked : ℕ → Arc L W → Prop)
    (access : ℕ → Bool) : Prop where
  first : root = start → ∀ s, color s ≠ .white → access s = true
  later : root ≠ start → color start ≠ .white ∧ ∀ s ∈ frames, access s = false
  sound : ∀ s, access s = true → color s ≠ .white ∧ Reaches fst filter start s
  closed : ∀ s arc, walked s arc → access s = true → access arc.nextstate = true
  entered : color start ≠ .white → access start = true

def AccessInv (fst : VectorFst L W) (filter : Arc L W → Bool) (start : ℕ)
    (d : DfsSearch L W SccVisitor) : Prop :=
  Accessed fst filter start d.rootIdx d.stateColor (d.stack.map (·.stateId)) (Walked fst filter d)
    d.visitor.access

theorem access_passCoaccess (want : Bool) (s t : ℕ) (v : SccVisitor) :
    (v.passCoaccess want s t).access = v.access := by
  unfold passCoaccess
  split <;> rfl

theorem access_backArc (start : Option ℕ) (want : Bool) (s t : ℕ) (v : SccVisitor) :
    (v.backArc start want s t).2.access = v.access := by
  unfold backArc
  dsimp only
  rw [access_passCoaccess]
  split <;> rfl

theorem access_forwardOrCrossArc (want : Bool) (s t : ℕ) (v : SccVisitor) :
    (v.forwardOrCrossArc want s t).2.access = v.access := by
  unfold forwardOrCrossArc
  dsimp only
  rw [access_passCoaccess]
  split <;> rfl

theorem access_finishState (isMember : W → Bool) (want : Bool) (fst : VectorFst L W) (s : ℕ)
    (parent : Option (ℕ × Arc L W)) (v : SccVisitor) :
    (v.finishState isMember want fst s parent).access = v.access := by
  have hfinal : (v.finalCoaccess isMember want fst s).access = v.access := by
    unfold finalCoaccess
    split <;> rfl
  have hclose : ((v.finalCoaccess isMember want fst s).closeRoot want s).access = v.access := by
    unfold closeRoot
    split
    · exact hfinal
    · exact hfinal
  unfold finishState
  dsimp only
  split
  · unfold finishParent
    dsimp only
    split
    · exact (access_passCoaccess _ _ _ _).trans hclose
    · exact (access_passCoaccess _ _ _ _).trans hclose
  · exact hclose

variable {stack : List (DfsFrame L W)}

/- A state on a frame is reached from the root of its tree. -/
theorem reaches_of_linked {root : ℕ} (h : Linked fst filter root stack) {frame : DfsFrame L W}
    (hframe : frame ∈ stack) :
    Reaches fst filter root frame.stateId := by
  induction stack generalizing frame with
  | nil => cases hframe
  | cons top stack ih =>
    cases stack with
    | nil =>
      obtain rfl := List.mem_singleton.mp hframe
      rw [h.1]
    | cons parent stack =>
      obtain ⟨⟨arc, harc, hfilter, hnext, -⟩, hrest⟩ := h
      rcases List.mem_cons.mp hframe with rfl | hframe
      · exact (ih hrest List.mem_cons_self).tail ⟨arc, harc, hfilter, hnext⟩
      · exact ih hrest hframe

/- Looking along an arc marks nothing. -/
theorem accessInv_look {frame : DfsFrame L W} {arc : Arc L W} {arcs : List (Arc L W)}
    {v : SccVisitor} (hinv : DfsInv fst filter accessOnly start d)
    (h : AccessInv fst filter start d) (hstack : d.stack = frame :: stack)
    (harcs : frame.arcs = arc :: arcs) (dfs : Bool) (hv : v.access = d.visitor.access)
    (hnext : filter arc = true → d.stateColor arc.nextstate ≠ .white) :
    AccessInv fst filter start { takeArc frame arc arcs stack d with dfs := dfs, visitor := v } := by
  have hframes : (takeArc frame arc arcs stack d).stack.map (·.stateId) =
      d.stack.map (·.stateId) := by
    rw [hstack]
    rfl
  unfold AccessInv
  rw [hframes, hv]
  refine ⟨h.first, h.later, h.sound, ?_, h.entered⟩
  intro s a hwalked hs
  rcases (walked_take hinv.toStacked hstack harcs).mp hwalked with hold | ⟨rfl, rfl, hfilter⟩
  · exact h.closed s a hold hs
  · by_cases hroot : d.rootIdx = start
    · exact h.first hroot _ (hnext hfilter)
    · have hunmarked := (h.later hroot).2 frame.stateId (by simp [hstack])
      rw [hunmarked] at hs
      cases hs

/- Entering a state marks it just when it is entered from the start. -/
theorem accessed_enter {root s : ℕ} {color : ℕ → StateColor} {frames : List ℕ}
    {walked walked' : ℕ → Arc L W → Prop} {access : ℕ → Bool}
    (h : Accessed fst filter start root color frames walked access) (hwhite : color s = .white)
    (hreach : root = start → Reaches fst filter start s) (hother : root ≠ start → s ≠ start)
    (hwalked : ∀ u a, walked' u a →
      walked u a ∧ color a.nextstate ≠ .white ∨ u ∈ frames ∧ u ≠ s ∧ a.nextstate = s) :
    Accessed fst filter start root (Function.update color s .grey) (s :: frames) walked'
      (Function.update access s (decide (root = start))) := by
  refine ⟨?_, ?_, ?_, ?_, ?_⟩
  · intro hroot t ht
    rw [Function.update_apply] at ht ⊢
    split at ht
    next heq => simp [heq, hroot]
    next hne =>
      rw [if_neg hne]
      exact h.first hroot t ht
  · intro hroot
    obtain ⟨hcolor, hframes⟩ := h.later hroot
    refine ⟨coloured_update (by simp) hcolor, fun t ht => ?_⟩
    rw [Function.update_apply]
    split
    next => simp [hroot]
    next hne => exact hframes t ((List.mem_cons.mp ht).resolve_left hne)
  · intro t ht
    rw [Function.update_apply] at ht
    split at ht
    next heq =>
      subst heq
      rw [Function.update_self]
      exact ⟨by simp, hreach (by simpa using ht)⟩
    next hne =>
      obtain ⟨hcolor, hreaches⟩ := h.sound t ht
      exact ⟨coloured_update (by simp) hcolor, hreaches⟩
  · intro u a hwalk hu
    rcases hwalked u a hwalk with ⟨hold, hnext⟩ | ⟨hframe, hne, hnext⟩
    · have hne : a.nextstate ≠ s := by
        rintro heq
        exact hnext (heq ▸ hwhite)
      rw [Function.update_of_ne hne]
      rw [Function.update_apply] at hu
      split at hu
      next => exact h.first (by simpa using hu) _ hnext
      next => exact h.closed u a hold hu
    · rw [Function.update_of_ne hne] at hu
      rw [hnext, Function.update_self]
      by_contra hroot
      have hunmarked := (h.later (by simpa using hroot)).2 u hframe
      rw [hunmarked] at hu
      cases hu
  · intro hcolor
    rw [Function.update_apply] at hcolor ⊢
    split at hcolor
    next heq =>
      rw [if_pos heq]
      by_contra hne
      exact hother (by simpa using hne) heq.symm
    next hne =>
      rw [if_neg hne]
      exact h.entered hcolor

theorem access_pushState {s : ℕ} {e : Option (ℕ × Arc L W)} (hstart : fst.start = some start)
    (d : DfsSearch L W SccVisitor) :
    (pushState fst (sccVisitor isMember want fst) s e d).visitor.access =
      Function.update d.visitor.access s (decide (d.rootIdx = start)) := by
  simp [pushState, sccVisitor, SccVisitor.initState, hstart]

theorem accessInv_finish {frame : DfsFrame L W} (hinv : DfsInv fst filter accessOnly start d)
    (h : AccessInv fst filter start d) (hstack : d.stack = frame :: stack) (harcs : frame.arcs = []) :
    AccessInv fst filter start
      (popState (sccVisitor isMember want fst) accessOnly start frame stack d) := by
  have haccess : (popState (sccVisitor isMember want fst) accessOnly start frame stack
      d).visitor.access = d.visitor.access := by
    rw [visitor_popState]
    exact access_finishState _ _ _ _ _ _
  have hgrey := (hinv.grey frame.stateId).mpr (by simp [hstack])
  have hcolor := @updated_white d.stateColor frame.stateId .black (by simp [hgrey]) (by simp)
  have hroot := hinv.root (by simp [hstack])
  have hentered : d.stateColor start ≠ .white := by
    by_cases heq : d.rootIdx = start
    · exact heq ▸ hroot.1
    · exact (h.later heq).1
  -- the next root is a state not yet entered, or none at all
  have hidx : (popState (sccVisitor isMember want fst) accessOnly start frame stack d).rootIdx =
      start → d.rootIdx = start := by
    intro heq
    by_contra hne
    simp only [popState] at heq
    split at heq
    next hempty =>
      simp only [nextRoot] at heq
      have hlt := hinv.known start hentered
      split at heq
      next => exact absurd heq.symm hlt.ne
      next =>
        have hwhite := (@nextWhite_spec (Function.update d.stateColor frame.stateId .black)
          d.nstates (d.rootIdx + 1) (by omega)).1 (by omega)
        rw [heq] at hwhite
        exact absurd hwhite ((hcolor start).mpr hentered)
    next => exact hne heq
  unfold AccessInv
  rw [stateColor_popState, stack_popState, haccess]
  refine ⟨?_, ?_, ?_, ?_, fun _ => h.entered hentered⟩
  · intro heq s hs
    exact h.first (hidx heq) s ((hcolor s).mp hs)
  · intro hne
    refine ⟨(hcolor start).mpr hentered, fun s hs => ?_⟩
    cases hrest : stack with
    | nil =>
      rw [hrest] at hs
      cases hs
    | cons parent rest =>
      have hsame : (popState (sccVisitor isMember want fst) accessOnly start frame stack
          d).rootIdx = d.rootIdx := by simp [popState, hrest]
      rw [hsame] at hne
      refine (h.later hne).2 s ?_
      rw [hstack, List.map_cons]
      exact List.mem_cons_of_mem _ hs
  · intro s hs
    obtain ⟨hnot, hreach⟩ := h.sound s hs
    exact ⟨(hcolor s).mpr hnot, hreach⟩
  · intro s a hwalked hs
    exact h.closed s a ((walked_pop hinv.toStacked hstack harcs).mp hwalked) hs

theorem accessInv_move (hstart : fst.start = some start)
    (hinv : DfsInv fst filter accessOnly start d) (hgoing : d.dfs = true)
    (h : AccessInv fst filter start d)
    (hmove : DfsMove fst (sccVisitor isMember want fst) filter accessOnly start d d') :
    AccessInv fst filter start d' := by
  have hreached := hinv.reached hgoing
  cases hmove with
  | newTree hstack hdfs hroot =>
    have hwhite := hinv.fresh hstack hroot
    unfold AccessInv
    rw [access_pushState hstart]
    refine accessed_enter h hwhite ?_ (fun hne => hne) ?_
    · intro (heq : d.rootIdx = start)
      rw [heq]
    · intro u a hwalked
      have hold := (walked_push hwhite).mp hwalked
      exact .inl ⟨hold, hreached u a hold⟩
  | @finish frame stack hstack harcs => exact accessInv_finish hinv h hstack (harcs hgoing)
  | @skip frame stack arc arcs hstack harcs hdfs hfilter =>
    exact accessInv_look hinv h hstack harcs d.dfs rfl fun hf => by simp [hfilter] at hf
  | @descend frame stack arc arcs hstack harcs hdfs hfilter hwhite htree =>
    have hframe : frame ∈ d.stack := hstack ▸ List.mem_cons_self
    have hgrey := (hinv.grey frame.stateId).mpr (List.mem_map_of_mem hframe)
    have hne : frame.stateId ≠ arc.nextstate := by
      intro heq
      rw [← heq, hgrey] at hwhite
      cases hwhite
    unfold AccessInv
    rw [access_pushState hstart]
    have hframes : (takeArc frame arc arcs stack d).stack.map (·.stateId) =
        d.stack.map (·.stateId) := by
      rw [hstack]
      rfl
    rw [stack_pushState, List.map_cons]
    dsimp only
    rw [hframes]
    refine accessed_enter h hwhite ?_ ?_ ?_
    · intro (hroot : d.rootIdx = start)
      have hreach := reaches_of_linked hinv.linked hframe
      rw [hroot] at hreach
      exact hreach.tail (follows_of_frame hinv.toStacked hstack harcs hfilter)
    · rintro hroot heq
      rw [heq] at hwhite
      exact (h.later hroot).1 hwhite
    · intro u a hwalked
      have htaken := (walked_push (by exact hwhite)).mp hwalked
      rcases (walked_take hinv.toStacked hstack harcs).mp htaken with hold | ⟨rfl, rfl, -⟩
      · exact .inl ⟨hold, hreached u a hold⟩
      · exact .inr ⟨List.mem_map_of_mem hframe, hne, rfl⟩
  | refuse hstack harcs hdfs hfilter hwhite htree => cases htree
  | @back frame stack arc arcs hstack harcs hdfs hfilter hgrey =>
    exact accessInv_look hinv h hstack harcs _ (access_backArc _ _ _ _ _) fun _ => by simp [hgrey]
  | @cross frame stack arc arcs hstack harcs hdfs hfilter hblack =>
    exact accessInv_look hinv h hstack harcs _ (access_forwardOrCrossArc _ _ _ _) fun _ => by
      simp [hblack]

end Access

section Finished

variable {fst : VectorFst L W} {filter : Arc L W → Bool} {isMember : W → Bool} {start : ℕ}

theorem tarjan_start (want : Bool) (v : SccVisitor) :
    Tarjan fst filter (startSearch fst start (SccVisitor.initVisit want v)).stateColor []
      (Walked fst filter (startSearch fst start (SccVisitor.initVisit want v)))
      (SccVisitor.initVisit want v) := by
  constructor <;> simp [startSearch, SccVisitor.initVisit, SccVisitor.new]

theorem coaccessed_start (v : SccVisitor) :
    CoaccessInv isMember fst filter
      (startSearch fst start (SccVisitor.initVisit true v)) := by
  constructor <;> simp [startSearch, SccVisitor.initVisit, SccVisitor.new]

theorem accessed_start (want : Bool) (v : SccVisitor) :
    AccessInv fst filter start
      (startSearch fst start (SccVisitor.initVisit want v)) := by
  constructor <;> simp [startSearch, SccVisitor.initVisit, SccVisitor.new]

theorem black_of_finished {σ : Type} {d : DfsSearch L W σ} {accessOnly : Bool}
    (hinv : DfsInv fst filter accessOnly start d) (hfinished : Finished d) {t : ℕ}
    (ht : d.stateColor t ≠ .white) : d.stateColor t = .black := by
  cases hcolor : d.stateColor t with
  | white => exact absurd hcolor ht
  | black => rfl
  | grey =>
    have hmem := (hinv.grey t).mp hcolor
    rw [hfinished.stack] at hmem
    cases hmem

variable {d : DfsSearch L W SccVisitor}

theorem sccStack_of_finished (hscc : SccInv fst filter d) (hfinished : Finished d) :
    d.visitor.sccStack = [] := by
  refine List.eq_nil_iff_forall_not_mem.mpr fun x hx => ?_
  obtain ⟨g, hg, -⟩ := reaches_frame hscc.tarjan hx
  rw [trail_states, hfinished.stack] at hg
  cases hg

/- Once the search is over all that a black state leads to is black. -/
theorem walked_of_finished (hinv : DfsInv fst filter false start d) (hgoing : d.dfs = true)
    (hfinished : Finished d) {t : ℕ} {arc : Arc L W} (ht : d.stateColor t = .black)
    (harc : arc ∈ fst.arcs t) (hfilter : filter arc = true) :
    Walked fst filter d t arc ∧ d.stateColor arc.nextstate = .black := by
  have hwalked : Walked fst filter d t arc := ⟨hfilter, .inl ⟨ht, harc⟩⟩
  exact ⟨hwalked, black_of_finished hinv hfinished (hinv.reached hgoing t arc hwalked)⟩

/- The marks of the states on the way from the start are exact then. -/
theorem access_of_finished (hinv : DfsInv fst filter false start d) (hgoing : d.dfs = true)
    (hacc : AccessInv fst filter start d) (hnum : fst.numStates ≤ d.nstates)
    (hfinished : Finished d) (hlt : start < fst.numStates) (s : ℕ) :
    d.visitor.access s = true ↔ Reaches fst filter start s := by
  constructor
  · exact fun haccess => (hacc.sound s haccess).2
  · intro hreach
    have hboth : d.visitor.access s = true ∧ d.stateColor s = .black := by
      induction hreach with
      | refl =>
        have hcolor := all_black hinv hfinished hgoing hlt hnum (hlt.trans_le hnum)
        exact ⟨hacc.entered (by simp [hcolor]), hcolor⟩
      | tail _ hfollows ih =>
        obtain ⟨arc, harc, hfilter, rfl⟩ := hfollows
        obtain ⟨hwalked, hblack⟩ := walked_of_finished hinv hgoing hfinished ih.2 harc hfilter
        exact ⟨hacc.closed _ arc hwalked ih.1, hblack⟩
    exact hboth.1

/- Once the search is over the marks are exact. -/
theorem marks_of_finished (hinv : DfsInv fst filter false start d) (hscc : SccInv fst filter d)
    (hco : CoaccessInv isMember fst filter d) (hacc : AccessInv fst filter start d)
    (hnum : fst.numStates ≤ d.nstates) (hfinished : Finished d) (hlt : start < fst.numStates)
    (s : ℕ) : (d.visitor.access s = true ↔ Reaches fst filter start s) ∧
      (s < fst.numStates → (d.visitor.coaccess s = true ↔ CoAccessible isMember fst filter s)) := by
  have hfront : ∀ t < fst.numStates, d.stateColor t = .black :=
    fun t ht => all_black hinv hfinished hscc.going hlt hnum (ht.trans_le hnum)
  have hnone := sccStack_of_finished hscc hfinished
  constructor
  · exact access_of_finished hinv hscc.going hacc hnum hfinished hlt s
  · intro hs
    constructor
    · exact fun hmark => hco.sound s hmark
    · rintro ⟨t, hreach, hfinal⟩
      have hcolor := hfront s hs
      clear hs
      induction hreach using ReflTransGen.head_induction_on with
      | refl =>
        refine hco.final t (by simp [hcolor]) ?_ hfinal
        rw [hfinished.stack]
        simp [trailOf]
      | head hfollows _ ih =>
        obtain ⟨arc, harc, hfilter, rfl⟩ := hfollows
        obtain ⟨hwalked, hblack⟩ := walked_of_finished hinv hscc.going hfinished hcolor harc hfilter
        refine hco.passed _ arc hwalked ?_ (ih hblack)
        rw [hnone]
        exact List.not_mem_nil

theorem marks_exact (hstart : fst.start = some start) (hlt : start < fst.numStates)
    (v : SccVisitor) (s : ℕ) :
    ((dfsVisitAny fst (sccVisitor isMember true fst) v).access s = true ↔
      Reaches fst (fun _ => true) start s) ∧
    (s < fst.numStates → ((dfsVisitAny fst (sccVisitor isMember true fst) v).coaccess s = true ↔
      CoAccessible isMember fst (fun _ => true) s)) := by
  let Inv : DfsSearch L W SccVisitor → Prop := fun d =>
    SccInv fst (fun _ => true) d ∧ CoaccessInv isMember fst (fun _ => true) d ∧
      AccessInv fst (fun _ => true) start d ∧ fst.numStates ≤ d.nstates
  have hmove : ∀ d d', DfsInv fst (fun _ => true) false start d → Inv d →
      DfsMove fst (sccVisitor isMember true fst) (fun _ => true) false start d d' → Inv d' := by
    rintro d d' hinv ⟨hscc, hco, hacc, hnum⟩ hmove
    refine ⟨sccInv_move hinv hscc hmove, coaccessInv_move hinv hscc hco hmove,
      accessInv_move hstart hinv hscc.going hacc hmove, hnum.trans (nstates_le_move hmove)⟩
  have hfirst : Inv (startSearch fst start (SccVisitor.initVisit true v)) :=
    ⟨⟨rfl, tarjan_start true _⟩, coaccessed_start _, accessed_start true _, le_rfl⟩
  obtain ⟨d, hrun, hinv, ⟨hscc, hco, hacc, hnum⟩, hfinished⟩ := dfsVisit_spec hstart hfirst hmove
  have hvisit : dfsVisitAny fst (sccVisitor isMember true fst) v =
      (sccVisitor isMember true fst).finishVisit d.visitor := hrun
  rw [hvisit]
  exact marks_of_finished hinv hscc hco hacc hnum hfinished hlt s

/- The marks of the states on the way from the start, whether or not those on the way to a final
state are asked for. -/
theorem access_exact (want : Bool) (hstart : fst.start = some start) (hlt : start < fst.numStates)
    (v : SccVisitor) (s : ℕ) : (dfsVisitAny fst (sccVisitor isMember want fst) v).access s = true ↔
      Reaches fst (fun _ => true) start s := by
  let Inv : DfsSearch L W SccVisitor → Prop := fun d =>
    SccInv fst (fun _ => true) d ∧ AccessInv fst (fun _ => true) start d ∧
      fst.numStates ≤ d.nstates
  have hmove : ∀ d d', DfsInv fst (fun _ => true) false start d → Inv d →
      DfsMove fst (sccVisitor isMember want fst) (fun _ => true) false start d d' → Inv d' := by
    rintro d d' hinv ⟨hscc, hacc, hnum⟩ hmove
    exact ⟨sccInv_move hinv hscc hmove, accessInv_move hstart hinv hscc.going hacc hmove,
      hnum.trans (nstates_le_move hmove)⟩
  have hfirst : Inv (startSearch fst start (SccVisitor.initVisit want v)) :=
    ⟨⟨rfl, tarjan_start want _⟩, accessed_start want _, le_rfl⟩
  obtain ⟨d, hrun, hinv, ⟨hscc, hacc, hnum⟩, hfinished⟩ := dfsVisit_spec hstart hfirst hmove
  have hvisit : dfsVisitAny fst (sccVisitor isMember want fst) v =
      (sccVisitor isMember want fst).finishVisit d.visitor := hrun
  rw [hvisit]
  exact access_of_finished hinv hscc.going hacc hnum hfinished hlt s

/- Without a start state nothing is marked. -/
theorem marks_none (hstart : fst.start = none) (v : SccVisitor) (s : ℕ) :
    (dfsVisitAny fst (sccVisitor isMember true fst) v).access s = false ∧
      (dfsVisitAny fst (sccVisitor isMember true fst) v).coaccess s = false := by
  unfold dfsVisitAny dfsVisit
  rw [hstart]
  exact ⟨rfl, rfl⟩

end Finished

end Sicada.SccMarks
