import Sicada.TestProperties
import Sicada.SccRuns

namespace Sicada.SccNumbers

open Relation DfsVisit DfsRuns CcVisitors SccVisitor SccRuns

variable {L W : Type} [ArcLabel L] [Zero W] [DecidableEq W]

/- What the visitor says of the components that are closed. A component of more than one state has
an arc that stays inside. -/
structure Numbered (fst : VectorFst L W) (filter : Arc L W → Bool) (color : ℕ → StateColor)
    (v : SccVisitor) : Prop where
  closed : ∀ s, (∃ c, v.scc s = some c) ↔ color s ≠ .white ∧ s ∉ v.sccStack
  bound : ∀ s c, v.scc s = some c → c < v.nscc
  used : ∀ c, c < v.nscc → ∃ s, v.scc s = some c
  internal : ∀ s t c, s ≠ t → v.scc s = some c → v.scc t = some c → ∃ u, v.scc u = some c ∧
    ∃ arc ∈ fst.arcs u, v.scc arc.nextstate = some c
  len : ∀ s, color s ≠ .white → s < v.len
  grown : ∀ s, s < v.len → ∃ t, s ≤ t ∧ color t ≠ .white

/- The fields the numbers are made of. -/
def SameNumbers (v v' : SccVisitor) : Prop :=
  v'.scc = v.scc ∧ v'.nscc = v.nscc ∧ v'.sccStack = v.sccStack ∧ v'.len = v.len

section Steps

variable {fst : VectorFst L W} {filter : Arc L W → Bool} {color color' : ℕ → StateColor}
  {trail : Trail L W} {walked : ℕ → Arc L W → Prop} {v v' v'' : SccVisitor} {isMember : W → Bool}
  {want : Bool}

theorem sameNumbers_trans (h : SameNumbers v v') (h' : SameNumbers v' v'') : SameNumbers v v'' := by
  obtain ⟨hscc, hn, hstack, hlen⟩ := h
  obtain ⟨hscc', hn', hstack', hlen'⟩ := h'
  exact ⟨hscc'.trans hscc, hn'.trans hn, hstack'.trans hstack, hlen'.trans hlen⟩

theorem sameNumbers_lower (s n : ℕ) : SameNumbers v (v.lower s n) := ⟨rfl, rfl, rfl, rfl⟩

theorem sameNumbers_passCoaccess (s t : ℕ) : SameNumbers v (v.passCoaccess want s t) := by
  unfold passCoaccess
  split <;> exact ⟨rfl, rfl, rfl, rfl⟩

theorem sameNumbers_finalCoaccess (s : ℕ) :
    SameNumbers v (v.finalCoaccess isMember want fst s) := by
  unfold finalCoaccess
  split <;> exact ⟨rfl, rfl, rfl, rfl⟩

theorem sameNumbers_finishParent (s p : ℕ) : SameNumbers v (v.finishParent want s p) := by
  unfold finishParent
  dsimp only
  split
  · exact sameNumbers_trans (sameNumbers_passCoaccess p s) ⟨rfl, rfl, rfl, rfl⟩
  · exact sameNumbers_passCoaccess p s

theorem sameNumbers_backArc (start : Option ℕ) (s t : ℕ) :
    SameNumbers v (v.backArc start want s t).2 := by
  unfold backArc
  dsimp only
  split
  · exact sameNumbers_trans (sameNumbers_lower s (v.dfnumber t))
      (sameNumbers_trans (sameNumbers_passCoaccess s t) ⟨rfl, rfl, rfl, rfl⟩)
  · exact sameNumbers_trans (sameNumbers_passCoaccess s t) ⟨rfl, rfl, rfl, rfl⟩

theorem sameNumbers_forwardOrCrossArc (s t : ℕ) :
    SameNumbers v (v.forwardOrCrossArc want s t).2 := by
  unfold forwardOrCrossArc
  dsimp only
  split
  · exact sameNumbers_trans (sameNumbers_lower s (v.dfnumber t))
      (sameNumbers_passCoaccess s t)
  · exact sameNumbers_passCoaccess s t

theorem numbered_same (h : Numbered fst filter color v) (hsame : SameNumbers v v')
    (hcolor : ∀ t, color' t ≠ .white ↔ color t ≠ .white) : Numbered fst filter color' v' := by
  obtain ⟨hscc, hn, hstack, hlen⟩ := hsame
  constructor <;> simp only [hscc, hn, hstack, hlen, hcolor]
  · exact h.closed
  · exact h.bound
  · exact h.used
  · exact h.internal
  · exact h.len
  · exact h.grown

theorem numbered_push (h : Numbered fst filter color v) {s : ℕ} (hwhite : color s = .white)
    (start : Option ℕ) (root : ℕ) :
    Numbered fst filter (Function.update color s .grey) (v.initState start s root).2 := by
  refine ⟨?_, h.bound, h.used, h.internal, ?_, ?_⟩
  · intro t
    have hclosed := h.closed t
    simp only [initState, List.mem_cons, Function.update_apply]
    by_cases heq : t = s
    · subst heq
      rw [hclosed]
      simp [hwhite]
    · rw [hclosed, if_neg heq]
      simp [heq]
  · intro t ht
    change t < max v.len (s + 1)
    rw [Function.update_apply] at ht
    split at ht
    · next heq => omega
    · have hlen := h.len t ht
      omega
  · intro t ht
    change t < max v.len (s + 1) at ht
    by_cases hlt : t < v.len
    · obtain ⟨u, hu, hcolor⟩ := h.grown t hlt
      refine ⟨u, hu, ?_⟩
      rw [Function.update_apply]
      split
      · simp
      · exact hcolor
    · exact ⟨s, by omega, by simp⟩

theorem closed_reaches (h : Tarjan fst filter color trail walked v) {s t : ℕ}
    (hs : color s ≠ .white ∧ s ∉ v.sccStack) (hreaches : Reaches fst filter s t) :
    color t ≠ .white ∧ t ∉ v.sccStack := by
  induction hreaches with
  | refl => exact hs
  | tail _ hstep ih => exact h.closed _ ih.1 ih.2 _ hstep

/- From the root of a component of more than one state an arc leads into it. -/
theorem internal_root {s t : ℕ} {e : Option (ℕ × Arc L W)}
    (h : Tarjan fst filter color ((s, e) :: trail) walked v) (hroot : v.dfnumber s = v.lowlink s)
    (hreached : ∀ u arc, walked u arc → color arc.nextstate ≠ .white)
    (hdone : ∀ arc ∈ fst.arcs s, filter arc = true → walked s arc) (hne : s ≠ t)
    (ht : t ∈ (splitStack s v.sccStack).1) :
    ∃ arc ∈ fst.arcs s, arc.nextstate ∈ (splitStack s v.sccStack).1 := by
  have hs : s ∈ v.sccStack := mem_of_trail h List.mem_cons_self
  have htstack : t ∈ v.sccStack := mem_stack_iff.mpr (.inl ht)
  have hle := (mem_splitStack h htstack).1.mp ht
  have hreaches := h.descends s List.mem_cons_self t htstack hle
  rcases ReflTransGen.cases_head hreaches with heq | ⟨y, ⟨arc, harc, hfilter, rfl⟩, hrest⟩
  · exact absurd heq hne
  · have hwalked := hdone arc harc hfilter
    have hstack : arc.nextstate ∈ v.sccStack := by
      by_contra hout
      exact (closed_reaches h ⟨hreached s arc hwalked, hout⟩ hrest).2 htstack
    refine ⟨arc, harc, (mem_splitStack h hstack).1.mpr ?_⟩
    rw [hroot]
    exact h.lowlink_complete s List.mem_cons_self s hs le_rfl (fun _ _ hle => hle) arc hwalked hstack

theorem numbered_close {s : ℕ} {e : Option (ℕ × Arc L W)}
    (h : Numbered fst filter color v)
    (htarjan : Tarjan fst filter color ((s, e) :: trail) walked v)
    (hroot : v.dfnumber s = v.lowlink s)
    (hreached : ∀ u arc, walked u arc → color arc.nextstate ≠ .white)
    (hdone : ∀ arc ∈ fst.arcs s, filter arc = true → walked s arc) :
    Numbered fst filter color (v.closeComponent want s) := by
  have hs : s ∈ v.sccStack := mem_of_trail htarjan List.mem_cons_self
  have hin : ∀ t ∈ (splitStack s v.sccStack).1, t ∈ v.sccStack :=
    fun t ht => mem_stack_iff.mpr (.inl ht)
  have hout : ∀ t ∈ (splitStack s v.sccStack).1, t ∉ (splitStack s v.sccStack).2 := by
    intro t ht hrest
    have hle := (mem_splitStack htarjan (hin t ht)).1.mp ht
    have hlt := (mem_splitStack htarjan (hin t ht)).2.mp hrest
    omega
  have hold : ∀ t c, v.scc t = some c → t ∉ (splitStack s v.sccStack).1 := by
    intro t c ht hmem
    exact ((h.closed t).mp ⟨c, ht⟩).2 (hin t hmem)
  have hself : s ∈ (splitStack s v.sccStack).1 :=
    (mem_splitStack htarjan hs).1.mpr le_rfl
  have hscc : ∀ t, (v.closeComponent want s).scc t =
      if t ∈ (splitStack s v.sccStack).1 then some v.nscc else v.scc t := fun _ => rfl
  have hnscc : (v.closeComponent want s).nscc = v.nscc + 1 := rfl
  have hstack : (v.closeComponent want s).sccStack = (splitStack s v.sccStack).2 := rfl
  refine ⟨?_, ?_, ?_, ?_, h.len, h.grown⟩
  · intro t
    rw [hscc, hstack]
    by_cases ht : t ∈ (splitStack s v.sccStack).1
    · rw [if_pos ht]
      exact ⟨fun _ => ⟨htarjan.visited t (hin t ht), hout t ht⟩, fun _ => ⟨_, rfl⟩⟩
    · rw [if_neg ht, h.closed, @mem_stack_iff s v.sccStack t]
      simp [ht]
  · intro t c ht
    rw [hscc] at ht
    rw [hnscc]
    split at ht
    · cases ht
      exact Nat.lt_succ_self _
    · have hlt := h.bound t c ht
      omega
  · intro c hc
    rw [hnscc] at hc
    by_cases heq : c = v.nscc
    · exact ⟨s, by rw [hscc, if_pos hself, heq]⟩
    · obtain ⟨t, ht⟩ := h.used c (by omega)
      exact ⟨t, by rw [hscc, if_neg (hold t c ht), ht]⟩
  · intro x y c hne hx hy
    rw [hscc] at hx hy
    by_cases hc : c = v.nscc
    · subst hc
      have hboth : ∀ z, (if z ∈ (splitStack s v.sccStack).1 then some v.nscc else v.scc z) =
          some v.nscc → z ∈ (splitStack s v.sccStack).1 := by
        intro z hz
        by_contra hmem
        rw [if_neg hmem] at hz
        exact absurd (h.bound z _ hz) (lt_irrefl _)
      have hother : ∃ t, s ≠ t ∧ t ∈ (splitStack s v.sccStack).1 := by
        by_cases hsx : s = x
        · exact ⟨y, hsx ▸ hne, hboth y hy⟩
        · exact ⟨x, hsx, hboth x hx⟩
      obtain ⟨t, hst, ht⟩ := hother
      obtain ⟨arc, harc, hnext⟩ := internal_root htarjan hroot hreached hdone hst ht
      exact ⟨s, by rw [hscc, if_pos hself], arc, harc, by rw [hscc, if_pos hnext]⟩
    · have hkeep : ∀ z, (if z ∈ (splitStack s v.sccStack).1 then some v.nscc else v.scc z) =
          some c → v.scc z = some c := by
        intro z hz
        split at hz
        · exact absurd (Option.some.inj hz).symm hc
        · exact hz
      obtain ⟨u, hu, arc, harc, hnext⟩ := h.internal x y c hne (hkeep x hx) (hkeep y hy)
      refine ⟨u, ?_, arc, harc, ?_⟩
      · rw [hscc, if_neg (hold u c hu), hu]
      · rw [hscc, if_neg (hold _ c hnext), hnext]

end Steps

section Searches

variable {fst : VectorFst L W} {filter : Arc L W → Bool} {isMember : W → Bool} {want : Bool}
  {accessOnly : Bool} {start : ℕ} {d d' : DfsSearch L W SccVisitor}

theorem numbered_finish {frame : DfsFrame L W} {stack : List (DfsFrame L W)}
    (hinv : DfsInv fst filter accessOnly start d) (hscc : SccInv fst filter d)
    (h : Numbered fst filter d.stateColor d.visitor) (hstack : d.stack = frame :: stack)
    (harcs : frame.arcs = []) :
    Numbered fst filter
      (popState (sccVisitor isMember want fst) accessOnly start frame stack d).stateColor
      (popState (sccVisitor isMember want fst) accessOnly start frame stack d).visitor := by
  rw [visitor_popState, stateColor_popState]
  have htrail : trailOf d.stack = _ :: trailOf stack := congrArg trailOf hstack
  have hframe : frame.stateId ∈ d.stack.map (·.stateId) := by simp [hstack]
  have hgrey := (hinv.grey _).mpr hframe
  have hcolor := @updated_white d.stateColor frame.stateId .black (by simp [hgrey]) (by simp)
  have hkeeps : SameStack d.visitor (d.visitor.finalCoaccess isMember want fst frame.stateId) :=
    sameStack_finalCoaccess isMember want frame.stateId
  have htarjan := tarjan_same hscc.tarjan hkeeps
  rw [htrail] at htarjan
  have hnumbers : SameNumbers d.visitor (d.visitor.finalCoaccess isMember want fst frame.stateId) :=
    sameNumbers_finalCoaccess frame.stateId
  have hfirst := numbered_same h hnumbers (fun _ => Iff.rfl)
  simp only [sccVisitor, SccVisitor.finishState]
  generalize d.visitor.finalCoaccess isMember want fst frame.stateId = v at htarjan hfirst ⊢
  have hclosed : Numbered fst filter d.stateColor (v.closeRoot want frame.stateId) := by
    unfold closeRoot
    split
    · next hroot =>
      exact numbered_close hfirst htarjan hroot (fun u arc => hinv.reached hscc.going u arc)
        (fun arc harc hfilter =>
          walked_of_exhausted (hstack ▸ List.mem_cons_self) harcs harc hfilter)
    · exact hfirst
  cases frame.enteredBy with
  | none => exact numbered_same hclosed ⟨rfl, rfl, rfl, rfl⟩ hcolor
  | some by' => exact numbered_same hclosed (sameNumbers_finishParent _ _) hcolor

theorem numbered_move (hinv : DfsInv fst filter accessOnly start d) (hscc : SccInv fst filter d)
    (h : Numbered fst filter d.stateColor d.visitor)
    (hmove : DfsMove fst (sccVisitor isMember want fst) filter accessOnly start d d') :
    Numbered fst filter d'.stateColor d'.visitor := by
  cases hmove with
  | newTree hstack hdfs hroot => exact numbered_push h (hinv.fresh hstack hroot) fst.start d.rootIdx
  | finish hstack harcs => exact numbered_finish hinv hscc h hstack (harcs hscc.going)
  | skip hstack harcs hdfs hfilter => exact h
  | descend hstack harcs hdfs hfilter hwhite htree => exact numbered_push h hwhite fst.start d.rootIdx
  | refuse hstack harcs hdfs hfilter hwhite htree => cases htree
  | back hstack harcs hdfs hfilter hgrey =>
    exact numbered_same h (sameNumbers_backArc _ _ _) (fun _ => Iff.rfl)
  | cross hstack harcs hdfs hfilter hblack =>
    exact numbered_same h (sameNumbers_forwardOrCrossArc _ _) (fun _ => Iff.rfl)

/- A round numbers states that had no number, with the next one. -/
def Numbers (v v' : SccVisitor) : Prop :=
  ∀ t, v'.scc t = v.scc t ∨ v.scc t = none ∧ v'.scc t = some v.nscc

theorem numbers_same {v v' : SccVisitor} (h : SameNumbers v v') : Numbers v v' :=
  fun t => .inl (congrFun h.1 t)

theorem scc_closeComponent (v : SccVisitor) (s t : ℕ) : (v.closeComponent want s).scc t =
    if t ∈ (splitStack s v.sccStack).1 then some v.nscc else v.scc t := rfl

variable (want) in
theorem numbers_closeRoot {color : ℕ → StateColor} {v : SccVisitor}
    (h : Numbered fst filter color v) (s : ℕ) : Numbers v (v.closeRoot want s) := by
  unfold closeRoot
  split
  · intro t
    rw [scc_closeComponent]
    split
    · next hmem =>
      have hin : t ∈ v.sccStack := mem_stack_iff.mpr (.inl hmem)
      refine .inr ⟨?_, rfl⟩
      cases hsome : v.scc t with
      | none => rfl
      | some c => exact absurd hin ((h.closed t).mp ⟨c, hsome⟩).2
    · exact .inl rfl
  · exact fun t => .inl rfl

theorem numbers_finishState {color : ℕ → StateColor} {v : SccVisitor}
    (h : Numbered fst filter color v) (s : ℕ) (parent : Option (ℕ × Arc L W)) :
    Numbers v (v.finishState isMember want fst s parent) := by
  have hsame : SameNumbers v (v.finalCoaccess isMember want fst s) := sameNumbers_finalCoaccess s
  have hclosed := numbers_closeRoot want (numbered_same h hsame fun _ => Iff.rfl) s
  unfold SccVisitor.finishState
  intro t
  have hclosed' : ((v.finalCoaccess isMember want fst s).closeRoot want s).scc t = v.scc t ∨
      v.scc t = none ∧
        ((v.finalCoaccess isMember want fst s).closeRoot want s).scc t = some v.nscc := by
    have hboth := hclosed t
    rwa [hsame.1, hsame.2.1] at hboth
  cases parent with
  | none => exact hclosed'
  | some by' =>
    dsimp only
    rw [(sameNumbers_finishParent s by'.1).1]
    exact hclosed'

theorem numbers_move (h : Numbered fst filter d.stateColor d.visitor)
    (hmove : DfsMove fst (sccVisitor isMember want fst) filter accessOnly start d d') :
    Numbers d.visitor d'.visitor := by
  cases hmove with
  | newTree => exact fun t => .inl rfl
  | finish hstack harcs =>
    rw [visitor_popState]
    exact numbers_finishState h _ _
  | skip => exact fun t => .inl rfl
  | descend => exact fun t => .inl rfl
  | refuse hstack harcs hdfs hfilter hwhite htree => cases htree
  | back => exact numbers_same (sameNumbers_backArc _ _ _)
  | cross => exact numbers_same (sameNumbers_forwardOrCrossArc _ _)

/- States that can reach each other have one number. -/
def Strong (fst : VectorFst L W) (filter : Arc L W → Bool) (v : SccVisitor) : Prop :=
  ∀ s t c, Reaches fst filter s t → Reaches fst filter t s → v.scc s = some c → v.scc t = some c

/- Two states that can reach each other are closed in the same round. -/
theorem strong_move (h' : Numbered fst filter d'.stateColor d'.visitor) (hscc' : SccInv fst filter d')
    (hstrong : Strong fst filter d.visitor) (hnumbers : Numbers d.visitor d'.visitor) :
    Strong fst filter d'.visitor := by
  intro s t c hst hts hs
  obtain ⟨c', ht⟩ : ∃ c', d'.visitor.scc t = some c' := by
    rw [h'.closed]
    exact closed_reaches hscc'.tarjan ((h'.closed s).mp ⟨c, hs⟩) hst
  rw [ht]
  rcases hnumbers s with holds | ⟨hnone, hnew⟩
  · rw [holds] at hs
    have hold := hstrong s t c hst hts hs
    rcases hnumbers t with holdt | ⟨hnone, -⟩
    · rw [holdt, hold] at ht
      exact ht.symm
    · rw [hnone] at hold
      cases hold
  · rw [hnew] at hs
    rcases hnumbers t with holdt | ⟨-, hnewt⟩
    · rw [holdt] at ht
      have hback := hstrong t s c' hts hst ht
      rw [hnone] at hback
      cases hback
    · rw [hnewt] at ht
      exact ht.symm.trans hs

end Searches

section Finished

variable {fst : VectorFst L W} {filter : Arc L W → Bool} {isMember : W → Bool} {want : Bool}
  {start : ℕ}

theorem sccInv_start (v : SccVisitor) : SccInv fst filter
    (startSearch fst start (SccVisitor.initVisit want v)) := by
  refine ⟨rfl, ?_⟩
  constructor <;> simp [startSearch, SccVisitor.initVisit, SccVisitor.new, trailOf]

theorem numbered_start (v : SccVisitor) : Numbered fst filter
    (startSearch fst start (SccVisitor.initVisit want v)).stateColor
    (SccVisitor.initVisit want v) := by
  constructor <;> simp [startSearch, SccVisitor.initVisit, SccVisitor.new]

/- Once the search is over, states that can reach each other are of one component. -/
theorem scc_eq_of_reaches (hstart : fst.start = some start) (hlt : start < fst.numStates)
    (v : SccVisitor) {s t : ℕ} (hs : s < fst.numStates) (ht : t < fst.numStates)
    (hst : Reaches fst (fun _ => true) s t) (hts : Reaches fst (fun _ => true) t s) :
    (dfsVisitAny fst (sccVisitor isMember want fst) v).scc s =
        (dfsVisitAny fst (sccVisitor isMember want fst) v).scc t ∧
      s < (dfsVisitAny fst (sccVisitor isMember want fst) v).len ∧
      t < (dfsVisitAny fst (sccVisitor isMember want fst) v).len := by
  let Inv : DfsSearch L W SccVisitor → Prop := fun d =>
    SccInv fst (fun _ => true) d ∧ Numbered fst (fun _ => true) d.stateColor d.visitor ∧
      Strong fst (fun _ => true) d.visitor ∧ fst.numStates ≤ d.nstates
  have hmove : ∀ d d', DfsInv fst (fun _ => true) false start d → Inv d →
      DfsMove fst (sccVisitor isMember want fst) (fun _ => true) false start d d' → Inv d' := by
    rintro d d' hinv ⟨hscc, hnumbered, hstrong, hnum⟩ hmove
    have hscc' := sccInv_move hinv hscc hmove
    have hnumbered' := numbered_move hinv hscc hnumbered hmove
    exact ⟨hscc', hnumbered', strong_move hnumbered' hscc' hstrong
      (numbers_move hnumbered hmove), hnum.trans (nstates_le_move hmove)⟩
  have hfirst : Inv (startSearch fst start (SccVisitor.initVisit want v)) :=
    ⟨sccInv_start v, numbered_start v, fun s t c _ _ hs => (by cases hs), le_rfl⟩
  obtain ⟨d, hrun, hinv, ⟨hscc, hnumbered, hstrong, hnum⟩, hfinished⟩ :=
    dfsVisit_spec hstart hfirst hmove
  have hvisit : dfsVisitAny fst (sccVisitor isMember want fst) v =
      (sccVisitor isMember want fst).finishVisit d.visitor := hrun
  have hblack : ∀ u < fst.numStates, d.stateColor u ≠ .white := by
    intro u hu
    rw [all_black hinv hfinished hscc.going hlt hnum (hu.trans_le hnum)]
    simp
  have hnone : d.visitor.sccStack = [] := by
    refine List.eq_nil_iff_forall_not_mem.mpr fun x hx => ?_
    obtain ⟨g, hg, -⟩ := reaches_frame hscc.tarjan hx
    rw [trail_states, hfinished.stack] at hg
    cases hg
  obtain ⟨c, hc⟩ := (hnumbered.closed s).mpr ⟨hblack s hs, by rw [hnone]; exact List.not_mem_nil⟩
  rw [hvisit]
  refine ⟨?_, hnumbered.len s (hblack s hs), hnumbered.len t (hblack t ht)⟩
  change (d.visitor.scc s).map _ = (d.visitor.scc t).map _
  rw [hc, hstrong s t c hst hts hc]

end Finished

end Sicada.SccNumbers
