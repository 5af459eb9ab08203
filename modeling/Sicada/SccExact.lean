import Sicada.SccRuns

namespace Sicada.SccExact

open Relation DfsVisit DfsRuns CcVisitors SccVisitor SccRuns

variable {L W : Type} [ArcLabel L] [Zero W] [DecidableEq W]

def FinalState (isMember : W → Bool) (fst : VectorFst L W) (s : ℕ) : Prop :=
  isMember (fst.finalWeight s) = true ∧ fst.finalWeight s ≠ 0

def CoAccessible (isMember : W → Bool) (fst : VectorFst L W) (filter : Arc L W → Bool)
    (s : ℕ) : Prop := ∃ t, Reaches fst filter s t ∧ FinalState isMember fst t

/- What is marked can reach a final state, and a mark is passed back along every arc walked, save
those into a component that is still open. -/
structure Coaccessed (isMember : W → Bool) (fst : VectorFst L W) (filter : Arc L W → Bool)
    (color : ℕ → StateColor) (trail : Trail L W) (walked : ℕ → Arc L W → Prop)
    (v : SccVisitor) : Prop where
  sound : ∀ s, v.coaccess s = true → CoAccessible isMember fst filter s
  final : ∀ s, color s ≠ .white → s ∉ trail.map Prod.fst → FinalState isMember fst s →
    v.coaccess s = true
  passed : ∀ u arc, walked u arc → arc.nextstate ∉ v.sccStack → v.coaccess arc.nextstate = true →
    v.coaccess u = true

variable {s : ℕ}

theorem coAccessible_of_reaches {isMember : W → Bool} {fst : VectorFst L W}
    {filter : Arc L W → Bool} {t : ℕ} (hst : Reaches fst filter s t)
    (ht : CoAccessible isMember fst filter t) : CoAccessible isMember fst filter s := by
  obtain ⟨u, htu, hu⟩ := ht
  exact ⟨u, hst.trans htu, hu⟩

section Marks

variable {isMember : W → Bool} {fst : VectorFst L W} {filter : Arc L W → Bool}
  {color color' : ℕ → StateColor} {trail trail' : Trail L W} {walked walked' : ℕ → Arc L W → Prop}
  {v v' : SccVisitor}

theorem coaccess_passCoaccess (s t x : ℕ) : (v.passCoaccess true s t).coaccess x = true ↔
    v.coaccess x = true ∨ (x = s ∧ v.coaccess t = true) := by
  unfold passCoaccess
  split
  next hmark =>
    simp only [Function.update_apply]
    split
    next heq => simp [heq, hmark.2]
    next hne => simp [hne]
  next hmark =>
    have hnot : v.coaccess t ≠ true := fun h => hmark ⟨rfl, h⟩
    simp [hnot]

theorem coaccess_finishParent (s p : ℕ) :
    (v.finishParent true s p).coaccess = (v.passCoaccess true p s).coaccess := by
  unfold finishParent
  dsimp only
  split <;> rfl

theorem coaccess_finalCoaccess (s x : ℕ) :
    (v.finalCoaccess isMember true fst s).coaccess x = true ↔
      v.coaccess x = true ∨ (x = s ∧ FinalState isMember fst s) := by
  unfold finalCoaccess
  split
  next hmark =>
    have hfinal : FinalState isMember fst s := hmark.2
    simp only [Function.update_apply]
    split
    next heq => simp [heq, hfinal]
    next hne => simp [hne]
  next hmark =>
    have hnot : ¬ FinalState isMember fst s := fun h => hmark ⟨rfl, h⟩
    simp [hnot]

theorem coaccess_closeComponent (s x : ℕ) : (v.closeComponent true s).coaccess x = true ↔
    v.coaccess x = true ∨ (x ∈ (splitStack s v.sccStack).1 ∧
      ∃ y ∈ (splitStack s v.sccStack).1, v.coaccess y = true) := by
  simp only [closeComponent, Bool.or_eq_true, Bool.and_eq_true, Bool.true_and, List.any_eq_true,
    decide_eq_true_eq]
  exact or_congr_right and_comm

/- A mark on a state one arc ahead is passed back. -/
theorem coaccessed_look {t : ℕ} (h : Coaccessed isMember fst filter color trail walked v)
    (hs : s ∈ v.sccStack) (hfollows : Follows fst filter s t)
    (hmarks : ∀ x, v'.coaccess x = true ↔ v.coaccess x = true ∨ (x = s ∧ v.coaccess t = true))
    (hstack : v'.sccStack = v.sccStack)
    (hwalked : ∀ u arc, walked' u arc → walked u arc ∨ (u = s ∧ arc.nextstate = t)) :
    Coaccessed isMember fst filter color trail walked' v' := by
  refine ⟨?_, ?_, ?_⟩
  · intro x hx
    rcases (hmarks x).mp hx with hx | ⟨rfl, ht⟩
    · exact h.sound x hx
    · exact coAccessible_of_reaches (ReflTransGen.single hfollows) (h.sound t ht)
  · intro x hx hout hfinal
    exact (hmarks x).mpr (.inl (h.final x hx hout hfinal))
  · intro u arc harc hout hmark
    rw [hstack] at hout
    have hne : arc.nextstate ≠ s := fun heq => hout (heq ▸ hs)
    have hold : v.coaccess arc.nextstate = true :=
      ((hmarks _).mp hmark).resolve_right fun hright => hne hright.1
    rcases hwalked u arc harc with harc | ⟨rfl, rfl⟩
    · exact (hmarks u).mpr (.inl (h.passed u arc harc hout hold))
    · exact (hmarks u).mpr (.inr ⟨rfl, hold⟩)

variable {e : Option (ℕ × Arc L W)}

theorem coaccessed_push {start : Option ℕ} {root : ℕ}
    (h : Coaccessed isMember fst filter color trail walked v)
    (hwalked : ∀ u arc, walked' u arc → walked u arc ∨ (arc.nextstate = s ∧ e = some (u, arc))) :
    Coaccessed isMember fst filter (Function.update color s .grey) ((s, e) :: trail) walked'
      (v.initState start s root).2 := by
  refine ⟨h.sound, ?_, ?_⟩
  · intro x hx hout hfinal
    rw [List.map_cons, List.mem_cons, not_or] at hout
    rw [Function.update_of_ne hout.1] at hx
    exact h.final x hx hout.2 hfinal
  · intro u arc harc hout hmark
    simp only [initState, List.mem_cons, not_or] at hout
    rcases hwalked u arc harc with harc | ⟨heq, -⟩
    · exact h.passed u arc harc hout.2 hmark
    · exact absurd heq hout.1

theorem coaccessed_mono (h : Coaccessed isMember fst filter color trail walked v)
    (hwalked : ∀ u arc, walked' u arc → walked u arc) :
    Coaccessed isMember fst filter color trail walked' v :=
  ⟨h.sound, h.final, fun u arc harc => h.passed u arc (hwalked u arc harc)⟩

theorem coaccessed_final (h : Coaccessed isMember fst filter color trail walked v)
    (hs : s ∈ v.sccStack) : Coaccessed isMember fst filter color trail walked
      (v.finalCoaccess isMember true fst s) := by
  refine ⟨?_, ?_, ?_⟩
  · intro x hx
    rcases (coaccess_finalCoaccess s x).mp hx with hx | ⟨rfl, hfinal⟩
    · exact h.sound x hx
    · exact ⟨x, ReflTransGen.refl, hfinal⟩
  · intro x hx hout hfinal
    exact (coaccess_finalCoaccess s x).mpr (.inl (h.final x hx hout hfinal))
  · intro u arc harc hout hmark
    rw [(sameStack_finalCoaccess isMember true s).2.1] at hout
    have hne : arc.nextstate ≠ s := fun heq => hout (heq ▸ hs)
    have hold := ((coaccess_finalCoaccess s _).mp hmark).resolve_right fun hright => hne hright.1
    exact (coaccess_finalCoaccess s u).mpr (.inl (h.passed u arc harc hout hold))

/- The states of a component share a mark. Only the arc that entered its root is left to pass it
on. -/
theorem coaccessed_close (h : Coaccessed isMember fst filter color ((s, e) :: trail) walked v)
    (htarjan : Tarjan fst filter color ((s, e) :: trail) walked v)
    (hcolor : ∀ t, color' t ≠ .white ↔ color t ≠ .white)
    (hwalked : ∀ u arc, walked u arc → color u ≠ .white ∧ Follows fst filter u arc.nextstate)
    (hfinal : FinalState isMember fst s → v.coaccess s = true) :
    Coaccessed isMember fst filter color' trail (fun u arc => walked u arc ∧ e ≠ some (u, arc))
      (v.closeComponent true s) := by
  have hin : ∀ x ∈ (splitStack s v.sccStack).1, x ∈ v.sccStack :=
    fun x hx => mem_stack_iff.mpr (.inl hx)
  have hs : s ∈ v.sccStack := mem_of_trail htarjan List.mem_cons_self
  refine ⟨?_, ?_, ?_⟩
  · intro x hx
    rcases (coaccess_closeComponent s x).mp hx with hx | ⟨hx, y, hy, hmark⟩
    · exact h.sound x hx
    · have hle := (mem_splitStack htarjan (hin y hy)).1.mp hy
      have hsy := htarjan.descends s List.mem_cons_self y (hin y hy) hle
      exact coAccessible_of_reaches ((reaches_top htarjan (hin x hx)).trans hsy) (h.sound y hmark)
  · intro x hx hout hxfinal
    refine (coaccess_closeComponent s x).mpr (.inl ?_)
    by_cases heq : x = s
    · subst heq
      exact hfinal hxfinal
    · refine h.final x ((hcolor x).mp hx) ?_ hxfinal
      rw [List.map_cons, List.mem_cons, not_or]
      exact ⟨heq, hout⟩
  · rintro u arc ⟨harc, hentered⟩ hout hmark
    change arc.nextstate ∉ (splitStack s v.sccStack).2 at hout
    rw [coaccess_closeComponent]
    obtain ⟨hu, hfollows⟩ := hwalked u arc harc
    by_cases hnext : arc.nextstate ∈ (splitStack s v.sccStack).1
    · have hany : ∃ y ∈ (splitStack s v.sccStack).1, v.coaccess y = true := by
        rcases (coaccess_closeComponent s _).mp hmark with hmark | ⟨-, hany⟩
        · exact ⟨_, hnext, hmark⟩
        · exact hany
      by_cases hstack : u ∈ v.sccStack
      · refine .inr ⟨?_, hany⟩
        rw [(mem_splitStack htarjan hstack).1]
        by_contra hlt
        rcases htarjan.older (s, e) List.mem_cons_self u hstack (Nat.lt_of_not_le hlt) arc harc
          (hin _ hnext) with hlow | hpair
        · exact absurd ((mem_splitStack htarjan (hin _ hnext)).1.mp hnext)
            (Nat.not_le_of_lt hlow)
        · exact hentered (Prod.mk.inj hpair).2
      · exact absurd (hin _ hnext) (htarjan.closed u hu hstack _ hfollows).2
    · have hold := ((coaccess_closeComponent s _).mp hmark).resolve_right fun hright =>
        hnext hright.1
      refine .inl (h.passed u arc harc ?_ hold)
      intro hmem
      exact (mem_stack_iff.mp hmem).elim hnext hout

theorem coaccessed_leave (h : Coaccessed isMember fst filter color ((s, e) :: trail) walked v)
    (hcolor : ∀ t, color' t ≠ .white ↔ color t ≠ .white)
    (hfinal : FinalState isMember fst s → v.coaccess s = true) :
    Coaccessed isMember fst filter color' trail walked v := by
  refine ⟨h.sound, ?_, h.passed⟩
  intro x hx hout hxfinal
  by_cases heq : x = s
  · subst heq
    exact hfinal hxfinal
  · refine h.final x ((hcolor x).mp hx) ?_ hxfinal
    rw [List.map_cons, List.mem_cons, not_or]
    exact ⟨heq, hout⟩

end Marks

section Searches

variable {fst : VectorFst L W} {filter : Arc L W → Bool} {isMember : W → Bool}
  {accessOnly : Bool} {start : ℕ} {d d' : DfsSearch L W SccVisitor}

def CoaccessInv (isMember : W → Bool) (fst : VectorFst L W) (filter : Arc L W → Bool)
    (d : DfsSearch L W SccVisitor) : Prop :=
  Coaccessed isMember fst filter d.stateColor (trailOf d.stack) (Walked fst filter d) d.visitor

variable {arc : Arc L W}

theorem walked_follows {σ : Type} {d : DfsSearch L W σ} (h : Stacked fst filter d)
    (hwalked : Walked fst filter d s arc) :
    Follows fst filter s arc.nextstate := by
  clear h
  obtain ⟨hfilter, ⟨-, harc⟩ | ⟨frame, -, rfl, walked, hsplit, hmem⟩⟩ := hwalked
  · exact ⟨arc, harc, hfilter, rfl⟩
  · exact ⟨arc, hsplit ▸ List.mem_append_left _ hmem, hfilter, rfl⟩

variable {frame : DfsFrame L W} {stack : List (DfsFrame L W)}

theorem frame_on_stack (h : SccInv fst filter d) (hstack : d.stack = frame :: stack) :
    frame.stateId ∈ d.visitor.sccStack := by
  apply mem_of_trail h.tarjan
  rw [trail_states, hstack]
  exact List.mem_cons_self

theorem follows_of_frame {σ : Type} {d : DfsSearch L W σ} (hinv : Stacked fst filter d)
    {arcs : List (Arc L W)} (hstack : d.stack = frame :: stack) (harcs : frame.arcs = arc :: arcs)
    (hfilter : filter arc = true) :
    Follows fst filter frame.stateId arc.nextstate := by
  have hsuffix := hinv.suffix frame (hstack ▸ List.mem_cons_self)
  exact ⟨arc, hsuffix.subset (harcs ▸ List.mem_cons_self), hfilter, rfl⟩

theorem coaccessInv_look {arcs : List (Arc L W)} {v w : SccVisitor}
    (hinv : DfsInv fst filter accessOnly start d) (hscc : SccInv fst filter d)
    (h : CoaccessInv isMember fst filter d) (hstack : d.stack = frame :: stack)
    (harcs : frame.arcs = arc :: arcs) (hfilter : filter arc = true)
    (hw : w.coaccess = d.visitor.coaccess)
    (hv : v.coaccess = (w.passCoaccess true frame.stateId arc.nextstate).coaccess)
    (hsame : v.sccStack = d.visitor.sccStack) :
    CoaccessInv isMember fst filter
      { takeArc frame arc arcs stack d with dfs := true, visitor := v } := by
  have htrail : trailOf (takeArc frame arc arcs stack d).stack = trailOf d.stack := by
    rw [hstack]
    rfl
  unfold CoaccessInv
  rw [htrail]
  refine coaccessed_look h (frame_on_stack hscc hstack)
    (follows_of_frame hinv.toStacked hstack harcs hfilter) ?_ hsame ?_
  · intro x
    rw [hv, coaccess_passCoaccess, hw]
  · intro u a hwalked
    rcases (walked_take hinv.toStacked hstack harcs).mp hwalked with hold | ⟨rfl, rfl, -⟩
    · exact .inl hold
    · exact .inr ⟨rfl, rfl⟩

theorem coaccessInv_finish (hinv : DfsInv fst filter accessOnly start d)
    (hscc : SccInv fst filter d) (h : CoaccessInv isMember fst filter d)
    (hstack : d.stack = frame :: stack) (harcs : frame.arcs = []) : CoaccessInv isMember fst filter
      (popState (sccVisitor isMember true fst) accessOnly start frame stack d) := by
  unfold CoaccessInv
  rw [stack_popState, visitor_popState, stateColor_popState]
  have htrail : trailOf d.stack = _ :: trailOf stack := congrArg trailOf hstack
  have hframe : frame.stateId ∈ d.stack.map (·.stateId) := by simp [hstack]
  have hgrey := (hinv.grey _).mpr hframe
  have hcolor := @updated_white d.stateColor frame.stateId .black (by simp [hgrey]) (by simp)
  have hsame : SameStack d.visitor
      (d.visitor.finalCoaccess isMember true fst frame.stateId) :=
    sameStack_finalCoaccess isMember true frame.stateId
  have htarjan := tarjan_same hscc.tarjan hsame
  have hmarks := coaccessed_final h (frame_on_stack hscc hstack)
  have hfinal : FinalState isMember fst frame.stateId →
      (d.visitor.finalCoaccess isMember true fst frame.stateId).coaccess frame.stateId = true :=
    fun hfinal => (coaccess_finalCoaccess _ _).mpr (.inr ⟨rfl, hfinal⟩)
  have hwalked : ∀ u arc, Walked fst filter d u arc →
      d.stateColor u ≠ .white ∧ Follows fst filter u arc.nextstate :=
    fun u arc harc => ⟨walked_source hinv.toStacked harc, walked_follows hinv.toStacked harc⟩
  rw [htrail] at htarjan hmarks
  refine coaccessed_mono ?_ fun u arc harc => (walked_pop hinv.toStacked hstack harcs).mp harc
  simp only [sccVisitor, SccVisitor.finishState]
  generalize d.visitor.finalCoaccess isMember true fst frame.stateId = v at *
  have hclosed : Coaccessed isMember fst filter (Function.update d.stateColor frame.stateId .black)
      (trailOf stack) (fun u arc => Walked fst filter d u arc ∧ frame.enteredBy ≠ some (u, arc))
      (v.closeRoot true frame.stateId) := by
    by_cases hroot : v.dfnumber frame.stateId = v.lowlink frame.stateId
    · rw [closeRoot, if_pos hroot]
      exact coaccessed_close hmarks htarjan hcolor hwalked hfinal
    · rw [closeRoot, if_neg hroot]
      exact coaccessed_mono (coaccessed_leave hmarks hcolor hfinal) fun u arc harc => harc.1
  rcases linked_parent hinv.toStacked hstack with
    ⟨rfl, hby⟩ | ⟨parent, rest, arc, rfl, hby, harc, hfilter, hnext⟩
  · rw [hby] at hclosed ⊢
    exact coaccessed_mono hclosed fun u arc harc => ⟨harc, by simp⟩
  · rw [hby] at hclosed ⊢
    have hparent : parent.stateId ∈ (v.closeRoot true frame.stateId).sccStack := by
      have hsub := htarjan.frames
      rw [List.map_cons] at hsub
      have hmem : parent.stateId ∈ (trailOf (parent :: rest)).map Prod.fst := by
        rw [trail_states]
        exact List.mem_cons_self
      unfold closeRoot
      split
      · exact (sublist_splitStack hsub).subset hmem
      · exact hsub.subset (List.mem_cons_of_mem _ hmem)
    refine coaccessed_look hclosed hparent ⟨arc, harc, hfilter, hnext⟩ ?_ ?_ ?_
    · intro x
      rw [coaccess_finishParent, coaccess_passCoaccess]
    · exact (finishParent_eq frame.stateId parent.stateId).2.1
    · intro u a hwalk
      by_cases heq : some (parent.stateId, arc) = some (u, a)
      · obtain ⟨rfl, rfl⟩ := Prod.mk.inj (Option.some.inj heq)
        exact .inr ⟨rfl, hnext⟩
      · exact .inl ⟨hwalk, heq⟩

theorem coaccessInv_move (hinv : DfsInv fst filter accessOnly start d)
    (hscc : SccInv fst filter d) (h : CoaccessInv isMember fst filter d)
    (hmove : DfsMove fst (sccVisitor isMember true fst) filter accessOnly start d d') :
    CoaccessInv isMember fst filter d' := by
  cases hmove with
  | newTree hstack hdfs hroot =>
    have hwhite := hinv.fresh hstack hroot
    exact coaccessed_push h fun u arc hwalked => .inl ((walked_push hwhite).mp hwalked)
  | @finish frame stack hstack harcs =>
    exact coaccessInv_finish hinv hscc h hstack (harcs hscc.going)
  | @skip frame stack arc arcs hstack harcs hdfs hfilter =>
    unfold CoaccessInv at h ⊢
    rw [hstack] at h
    refine coaccessed_mono h ?_
    intro u a hwalked
    rcases (walked_take hinv.toStacked hstack harcs).mp hwalked with hold | ⟨-, rfl, htrue⟩
    · exact hold
    · rw [hfilter] at htrue
      cases htrue
  | @descend frame stack arc arcs hstack harcs hdfs hfilter hwhite htree =>
    unfold CoaccessInv at h
    rw [hstack] at h
    refine coaccessed_push h ?_
    intro u a hwalked
    have htaken := (walked_push (by exact hwhite)).mp hwalked
    rcases (walked_take hinv.toStacked hstack harcs).mp htaken with hold | ⟨rfl, rfl, -⟩
    · exact .inl hold
    · exact .inr ⟨rfl, rfl⟩
  | refuse hstack harcs hdfs hfilter hwhite htree => cases htree
  | @back frame stack arc arcs hstack harcs hdfs hfilter hgrey =>
    refine coaccessInv_look hinv hscc h hstack harcs hfilter
      (w := if d.visitor.dfnumber arc.nextstate < d.visitor.lowlink frame.stateId then
        d.visitor.lower frame.stateId (d.visitor.dfnumber arc.nextstate) else d.visitor) ?_ rfl ?_
    · split <;> rfl
    · simp only [SccVisitor.backArc, sccVisitor, (sameStack_passCoaccess _ _ _).2.1]
      split <;> rfl
  | @cross frame stack arc arcs hstack harcs hdfs hfilter hblack =>
    refine coaccessInv_look hinv hscc h hstack harcs hfilter
      (w := if d.visitor.dfnumber arc.nextstate < d.visitor.dfnumber frame.stateId ∧
          d.visitor.onstack arc.nextstate ∧
            d.visitor.dfnumber arc.nextstate < d.visitor.lowlink frame.stateId then
        d.visitor.lower frame.stateId (d.visitor.dfnumber arc.nextstate) else d.visitor) ?_ rfl ?_
    · split <;> rfl
    · simp only [SccVisitor.forwardOrCrossArc, sccVisitor, (sameStack_passCoaccess _ _ _).2.1]
      split <;> rfl

end Searches

end Sicada.SccExact
