import Sicada.SccMarks
import Sicada.SccNumbers

namespace Sicada.SccBits

open Relation DfsVisit DfsRuns CcVisitors SccVisitor SccRuns SccExact SccMarks SccNumbers
  PropertyBits

variable {L W : Type} [ArcLabel L] [Zero W] [DecidableEq W]

section Pairs

/- The first bit of a pair says what the second denies. -/
abbrev BitPair := BitVec 64 × BitVec 64

def cyclicPair : BitPair := (kCyclic, kAcyclic)

def initialPair : BitPair := (kInitialCyclic, kInitialAcyclic)

def accessPair : BitPair := (kNotAccessible, kAccessible)

def coaccessPair : BitPair := (kNotCoAccessible, kCoAccessible)

def pairs : List BitPair := [cyclicPair, initialPair, accessPair, coaccessPair]

def raise (pair : BitPair) (props : BitVec 64) : BitVec 64 := (props ||| pair.1) &&& ~~~pair.2

def Paired (props : BitVec 64) : Prop :=
  ∀ pair ∈ pairs, (Held props pair.2 ↔ ¬ Held props pair.1)

theorem raise_and (pair : BitPair) (props bit : BitVec 64) : raise pair props &&& bit =
    (props &&& (~~~pair.2 &&& bit)) ||| (pair.1 &&& (~~~pair.2 &&& bit)) := by
  unfold raise
  rw [BitVec.and_assoc, BitVec.and_or_distrib_right]

theorem held_raise {pair other : BitPair} (h : pair ∈ pairs) (h' : other ∈ pairs)
    (props : BitVec 64) :
    (Held (raise pair props) other.1 ↔ pair = other ∨ Held props other.1) ∧
      (Held (raise pair props) other.2 ↔ pair ≠ other ∧ Held props other.2) := by
  unfold Held
  rw [raise_and, raise_and]
  have hbits : ∀ pair ∈ pairs, ∀ other ∈ pairs,
      (pair = other → ~~~pair.2 &&& other.1 = other.1 ∧ pair.1 &&& other.1 = other.1 ∧
        other.1 ≠ 0 ∧ ~~~pair.2 &&& other.2 = 0) ∧
      (pair ≠ other → ~~~pair.2 &&& other.1 = other.1 ∧ pair.1 &&& other.1 = 0 ∧
        ~~~pair.2 &&& other.2 = other.2 ∧ pair.1 &&& other.2 = 0) := by
    intro pair hpair other hother
    simp only [pairs, List.mem_cons, List.not_mem_nil, or_false] at hpair hother
    rcases hpair with rfl | rfl | rfl | rfl <;> rcases hother with rfl | rfl | rfl | rfl <;> decide
  obtain ⟨hsame, hother⟩ := hbits pair h other h'
  by_cases heq : pair = other
  · obtain ⟨hkeep, hset, hne, hclear⟩ := hsame heq
    rw [hkeep, hset, hclear]
    constructor
    · refine ⟨fun _ => Or.inl heq, fun _ hzero => hne ?_⟩
      exact (BitVec.or_eq_zero_iff.mp hzero).2
    · simp [heq]
  · obtain ⟨hkeep, hset, hkeep', hset'⟩ := hother heq
    rw [hkeep, hset, hkeep', hset']
    simp [heq]

theorem cyclic_mem : cyclicPair ∈ pairs := by decide

theorem initial_mem : initialPair ∈ pairs := by decide

theorem paired_raise {pair : BitPair} (h : pair ∈ pairs) {props : BitVec 64}
    (hpaired : Paired props) : Paired (raise pair props) := by
  intro other hother
  obtain ⟨hon, hoff⟩ := held_raise h hother props
  rw [hon, hoff, hpaired other hother, not_or]

theorem held_raise_self (pair : BitPair) (h : pair ∈ pairs) (props : BitVec 64) :
    Held (raise pair props) pair.1 := (held_raise h h props).1.mpr (Or.inl rfl)

theorem held_raise_of_ne {pair other : BitPair} (h : pair ∈ pairs) (h' : other ∈ pairs)
    (hne : pair ≠ other) (props : BitVec 64) :
    Held (raise pair props) other.1 ↔ Held props other.1 := by
  rw [(held_raise h h' props).1]
  exact or_iff_right hne

end Pairs

section Building

variable {fst : VectorFst L W} {isMember : W → Bool} {v : SccVisitor}

theorem building_initState (start : Option ℕ) (s root : ℕ) :
    (v.initState start s root).2.building =
      if some root = start then v.building else raise accessPair v.building := by
  unfold initState
  by_cases h : some root = start
  · simp [h]
  · simp [h, raise, accessPair]

theorem building_passCoaccess (want : Bool) (s t : ℕ) :
    (v.passCoaccess want s t).building = v.building := by
  unfold passCoaccess
  split <;> rfl

theorem building_backArc (start : Option ℕ) (want : Bool) (s t : ℕ) :
    (v.backArc start want s t).2.building =
      if some t = start then raise initialPair (raise cyclicPair v.building)
      else raise cyclicPair v.building := by
  unfold backArc
  dsimp only
  rw [building_passCoaccess]
  split <;> split <;> rfl

theorem held_backArc (pair : BitPair) (h : pair ∈ pairs) (hne : cyclicPair ≠ pair)
    (hne' : initialPair ≠ pair) (start : Option ℕ) (want : Bool) (s t : ℕ) :
    Held (v.backArc start want s t).2.building pair.1 ↔ Held v.building pair.1 := by
  rw [building_backArc]
  split
  · rw [held_raise_of_ne (by decide) h hne', held_raise_of_ne (by decide) h hne]
  · rw [held_raise_of_ne (by decide) h hne]

theorem building_forwardOrCrossArc (want : Bool) (s t : ℕ) :
    (v.forwardOrCrossArc want s t).2.building = v.building := by
  unfold forwardOrCrossArc
  dsimp only
  rw [building_passCoaccess]
  split <;> rfl

theorem building_finalCoaccess (want : Bool) (s : ℕ) :
    (v.finalCoaccess isMember want fst s).building = v.building := by
  unfold finalCoaccess
  split <;> rfl

theorem building_finishParent (want : Bool) (s p : ℕ) :
    (v.finishParent want s p).building = v.building := by
  unfold finishParent
  dsimp only
  split
  · exact building_passCoaccess want p s
  · exact building_passCoaccess want p s

/- A component that cannot reach a final state is closed. -/
def Dead (v : SccVisitor) (s : ℕ) : Prop :=
  v.dfnumber s = v.lowlink s ∧ (splitStack s v.sccStack).1.any v.coaccess = false

theorem building_closeRoot (s : ℕ) : (v.closeRoot true s).building = v.building ∧ ¬ Dead v s ∨
    (v.closeRoot true s).building = raise coaccessPair v.building ∧ Dead v s := by
  unfold closeRoot Dead
  by_cases hroot : v.dfnumber s = v.lowlink s
  · rw [if_pos hroot]
    unfold closeComponent
    dsimp only
    generalize (splitStack s v.sccStack).1.any v.coaccess = marked
    cases marked with
    | true => exact Or.inl ⟨rfl, fun hdead => absurd hdead.2 (by simp)⟩
    | false => exact Or.inr ⟨rfl, hroot, rfl⟩
  · rw [if_neg hroot]
    exact Or.inl ⟨rfl, fun hdead => hroot hdead.1⟩

variable (fst isMember v) in
theorem building_finishState (s : ℕ) (parent : Option (ℕ × Arc L W)) :
    (v.finishState isMember true fst s parent).building = v.building ∧
        ¬ Dead (v.finalCoaccess isMember true fst s) s ∨
      (v.finishState isMember true fst s parent).building = raise coaccessPair v.building ∧
        Dead (v.finalCoaccess isMember true fst s) s := by
  have hparent : (v.finishState isMember true fst s parent).building =
      ((v.finalCoaccess isMember true fst s).closeRoot true s).building := by
    unfold finishState
    cases parent with
    | none => rfl
    | some by' => exact building_finishParent true s by'.1
  have hclose := building_closeRoot (v := v.finalCoaccess isMember true fst s) s
  rw [building_finalCoaccess] at hclose
  rw [hparent]
  exact hclose

theorem finishState_of_ne {pair : BitPair} (h : pair ∈ pairs) (hne : coaccessPair ≠ pair) (s : ℕ)
    (parent : Option (ℕ × Arc L W)) :
    Held (v.finishState isMember true fst s parent).building pair.1 ↔ Held v.building pair.1 := by
  rcases building_finishState fst isMember v s parent with
    ⟨hsame, -⟩ | ⟨hraised, -⟩
  · rw [hsame]
  · rw [hraised]
    exact held_raise_of_ne (by decide) h hne v.building

end Building

section Searches

variable {fst : VectorFst L W} {filter : Arc L W → Bool} {isMember : W → Bool}
  {accessOnly : Bool} {start : ℕ} {d d' : DfsSearch L W SccVisitor}

theorem building_pushState (s : ℕ) (e : Option (ℕ × Arc L W)) :
    (pushState fst (sccVisitor isMember true fst) s e d).visitor.building =
      if some d.rootIdx = fst.start then d.visitor.building
      else raise accessPair d.visitor.building := building_initState fst.start s d.rootIdx

variable (fst isMember d) in
theorem held_pushState (pair : BitPair) (h : pair ∈ pairs) (hne : accessPair ≠ pair) (s : ℕ)
    (e : Option (ℕ × Arc L W)) :
    Held (pushState fst (sccVisitor isMember true fst) s e d).visitor.building pair.1 ↔
      Held d.visitor.building pair.1 := by
  rw [building_pushState]
  split
  · exact Iff.rfl
  · exact held_raise_of_ne (by decide) h hne _

variable (fst isMember accessOnly start d) in
theorem held_popState (pair : BitPair) (h : pair ∈ pairs) (hne : coaccessPair ≠ pair)
    (frame : DfsFrame L W) (stack : List (DfsFrame L W)) :
    Held (popState (sccVisitor isMember true fst) accessOnly start frame stack
      d).visitor.building pair.1 ↔ Held d.visitor.building pair.1 := by
  rw [visitor_popState]
  exact finishState_of_ne h hne _ _

/- What raising the bits keeps, the search keeps. -/
theorem building_move {P : BitVec 64 → Prop}
    (hraise : ∀ pair ∈ pairs, ∀ props, P props → P (raise pair props)) (h : P d.visitor.building)
    (hmove : DfsMove fst (sccVisitor isMember true fst) filter accessOnly start d d') :
    P d'.visitor.building := by
  have hpush : ∀ (s : ℕ) (e : Option (ℕ × Arc L W)) (d : DfsSearch L W SccVisitor),
      P d.visitor.building →
        P (pushState fst (sccVisitor isMember true fst) s e d).visitor.building := by
    intro s e d h
    rw [building_pushState]
    split
    · exact h
    · exact hraise _ (by decide) _ h
  cases hmove with
  | newTree hstack hdfs hroot => exact hpush _ _ _ h
  | @finish frame stack hstack harcs =>
    rw [visitor_popState]
    rcases building_finishState fst isMember d.visitor
      frame.stateId frame.enteredBy with ⟨hsame, -⟩ | ⟨hraised, -⟩
    · exact hsame ▸ h
    · exact hraised ▸ hraise _ (by decide) _ h
  | skip hstack harcs hdfs hfilter => exact h
  | descend hstack harcs hdfs hfilter hwhite htree => exact hpush _ _ _ h
  | refuse hstack harcs hdfs hfilter hwhite htree => cases htree
  | back hstack harcs hdfs hfilter hgrey =>
    have hback := building_backArc (v := d.visitor) fst.start true
    dsimp only [sccVisitor]
    rw [hback]
    split
    · exact hraise _ (by decide) _ (hraise _ (by decide) _ h)
    · exact hraise _ (by decide) _ h
  | cross hstack harcs hdfs hfilter hblack =>
    dsimp only [sccVisitor]
    rw [building_forwardOrCrossArc]
    exact h

theorem paired_move (h : Paired d.visitor.building)
    (hmove : DfsMove fst (sccVisitor isMember true fst) filter accessOnly start d d') :
    Paired d'.visitor.building :=
  building_move (fun _ hpair _ hpaired => paired_raise hpair hpaired) h hmove

variable {e : Option (ℕ × Arc L W)} {frame : DfsFrame L W} {stack : List (DfsFrame L W)}

section Access

/- A tree that does not start at the start has been entered. -/
def AccessBit (d : DfsSearch L W SccVisitor) : Prop :=
  Held d.visitor.building kNotAccessible ↔
    ∃ s, d.stateColor s ≠ .white ∧ d.visitor.access s = false

theorem accessBit_push (hstart : fst.start = some start) {s : ℕ} (h : AccessBit d)
    (hwhite : d.stateColor s = .white) :
    AccessBit (pushState fst (sccVisitor isMember true fst) s e d) := by
  unfold AccessBit
  rw [access_pushState hstart, stateColor_pushState, building_pushState, hstart]
  by_cases hroot : d.rootIdx = start
  · have hold : (∃ t, Function.update d.stateColor s .grey t ≠ .white ∧
        Function.update d.visitor.access s (decide (d.rootIdx = start)) t = false) ↔
        ∃ t, d.stateColor t ≠ .white ∧ d.visitor.access t = false := by
      apply exists_congr
      intro t
      by_cases heq : t = s
      · subst heq
        simp [hroot, hwhite]
      · rw [Function.update_of_ne heq, Function.update_of_ne heq]
    rw [if_pos (congrArg some hroot), hold]
    exact h
  · rw [if_neg fun heq => hroot (Option.some.inj heq)]
    refine ⟨fun _ => ⟨s, by simp, by simp [hroot]⟩, fun _ => ?_⟩
    exact held_raise_self accessPair (by decide) _

theorem accessBit_move (hstart : fst.start = some start)
    (hinv : DfsInv fst filter accessOnly start d) (h : AccessBit d)
    (hmove : DfsMove fst (sccVisitor isMember true fst) filter accessOnly start d d') :
    AccessBit d' := by
  cases hmove with
  | newTree hstack hdfs hroot => exact accessBit_push hstart h (hinv.fresh hstack hroot)
  | @finish frame stack hstack harcs =>
    have hgrey := (hinv.grey frame.stateId).mpr (by simp [hstack])
    have hcolor := @updated_white d.stateColor frame.stateId .black (by simp [hgrey]) (by simp)
    unfold AccessBit
    have hheld := held_popState fst isMember accessOnly start d accessPair (by decide) (by decide)
      frame stack
    rw [show kNotAccessible = accessPair.1 from rfl, hheld, stateColor_popState, visitor_popState]
    simp only [sccVisitor, access_finishState, hcolor]
    exact h
  | skip hstack harcs hdfs hfilter => exact h
  | descend hstack harcs hdfs hfilter hwhite htree =>
    exact accessBit_push hstart h hwhite
  | refuse hstack harcs hdfs hfilter hwhite htree => cases htree
  | back hstack harcs hdfs hfilter hgrey =>
    unfold AccessBit
    dsimp only [sccVisitor]
    rw [show kNotAccessible = accessPair.1 from rfl,
      held_backArc accessPair (by decide) (by decide) (by decide), access_backArc]
    exact h
  | cross hstack harcs hdfs hfilter hblack =>
    unfold AccessBit
    dsimp only [sccVisitor]
    rw [building_forwardOrCrossArc, access_forwardOrCrossArc]
    exact h

end Access

section Coaccess

/- What is closed and can reach a final state is marked. -/
theorem coaccess_of_closed (hinv : DfsInv fst filter accessOnly start d)
    (hscc : SccInv fst filter d) (hco : CoaccessInv isMember fst filter d) {s : ℕ}
    (hs : d.stateColor s ≠ .white ∧ s ∉ d.visitor.sccStack)
    (hreach : CoAccessible isMember fst filter s) : d.visitor.coaccess s = true := by
  have hout : ∀ t, t ∉ d.visitor.sccStack → t ∉ (trailOf d.stack).map Prod.fst :=
    fun t ht hmem => ht (mem_of_trail hscc.tarjan hmem)
  obtain ⟨t, hreach, hfinal⟩ := hreach
  induction hreach using ReflTransGen.head_induction_on with
  | refl => exact hco.final t hs.1 (hout t hs.2) hfinal
  | @head s u hfollows _ ih =>
    have hu := hscc.tarjan.closed s hs.1 hs.2 u hfollows
    obtain ⟨arc, harc, hfilter, rfl⟩ := hfollows
    have hblack : d.stateColor s = .black := by
      cases hcolor : d.stateColor s with
      | white => exact absurd hcolor hs.1
      | black => rfl
      | grey =>
        have hmem := (hinv.grey s).mp hcolor
        rw [← trail_states] at hmem
        exact absurd hmem (hout s hs.2)
    exact hco.passed s arc (walked_of_black hblack harc hfilter) hu.2 (ih hu)

/- A component that cannot reach a final state has been closed. -/
structure CoaccessBit (isMember : W → Bool) (fst : VectorFst L W) (filter : Arc L W → Bool)
    (d : DfsSearch L W SccVisitor) : Prop where
  dead : Held d.visitor.building kNotCoAccessible →
    ∃ s, d.stateColor s ≠ .white ∧ ¬ CoAccessible isMember fst filter s
  alive : ¬ Held d.visitor.building kNotCoAccessible →
    ∀ s c, d.visitor.scc s = some c → d.visitor.coaccess s = true

theorem coaccessBit_mono (h : CoaccessBit isMember fst filter d)
    (hcolor : ∀ t, d.stateColor t ≠ .white → d'.stateColor t ≠ .white)
    (hbit : Held d'.visitor.building kNotCoAccessible ↔ Held d.visitor.building kNotCoAccessible)
    (hscc : d'.visitor.scc = d.visitor.scc)
    (hmark : ∀ t, d.visitor.coaccess t = true → d'.visitor.coaccess t = true) :
    CoaccessBit isMember fst filter d' := by
  constructor
  · intro hheld
    obtain ⟨s, hs, hdead⟩ := h.dead (hbit.mp hheld)
    exact ⟨s, hcolor s hs, hdead⟩
  · intro hnot s c hs
    rw [hscc] at hs
    exact hmark s (h.alive (mt hbit.mpr hnot) s c hs)

variable {v : SccVisitor}

theorem coaccess_backArc_of (start : Option ℕ) (s t x : ℕ) (hx : v.coaccess x = true) :
    (v.backArc start true s t).2.coaccess x = true := by
  unfold SccVisitor.backArc
  dsimp only
  rw [coaccess_passCoaccess]
  refine Or.inl ?_
  split <;> exact hx

theorem coaccess_forwardOrCrossArc_of (s t x : ℕ) (hx : v.coaccess x = true) :
    (v.forwardOrCrossArc true s t).2.coaccess x = true := by
  unfold SccVisitor.forwardOrCrossArc
  dsimp only
  rw [coaccess_passCoaccess]
  refine Or.inl ?_
  split <;> exact hx

variable (isMember fst) in
theorem finishState_fields {v : SccVisitor} (s : ℕ) (parent : Option (ℕ × Arc L W)) :
    (v.finishState isMember true fst s parent).scc =
        ((v.finalCoaccess isMember true fst s).closeRoot true s).scc ∧
      (v.finishState isMember true fst s parent).sccStack =
        ((v.finalCoaccess isMember true fst s).closeRoot true s).sccStack := by
  unfold SccVisitor.finishState
  cases parent with
  | none => exact ⟨rfl, rfl⟩
  | some by' =>
    have hsame : SameNumbers ((v.finalCoaccess isMember true fst s).closeRoot true s)
        (((v.finalCoaccess isMember true fst s).closeRoot true s).finishParent true s by'.1) :=
      sameNumbers_finishParent s by'.1
    exact ⟨hsame.1, hsame.2.2.1⟩

theorem coaccess_finishState_of (s x : ℕ) (parent : Option (ℕ × Arc L W))
    (hx : ((v.finalCoaccess isMember true fst s).closeRoot true s).coaccess x = true) :
    (v.finishState isMember true fst s parent).coaccess x = true := by
  unfold SccVisitor.finishState
  cases parent with
  | none => exact hx
  | some by' =>
    dsimp only
    rw [coaccess_finishParent, coaccess_passCoaccess]
    exact Or.inl hx

/- Finishing a state marks no other state of its component, unless that is its parent. -/
theorem coaccess_finishState_self {s : ℕ} {parent : Option (ℕ × Arc L W)}
    (hparent : ∀ p arc, parent = some (p, arc) → p ≠ s)
    (hs : (v.finishState isMember true fst s parent).coaccess s = true) :
    ((v.finalCoaccess isMember true fst s).closeRoot true s).coaccess s = true := by
  unfold SccVisitor.finishState at hs
  cases parent with
  | none => exact hs
  | some by' =>
    dsimp only at hs
    rw [coaccess_finishParent, coaccess_passCoaccess] at hs
    exact hs.resolve_right fun hpassed => hparent by'.1 by'.2 rfl hpassed.1.symm

theorem coaccess_finalCoaccess_of (s x : ℕ) (hx : v.coaccess x = true) :
    (v.finalCoaccess isMember true fst s).coaccess x = true :=
  (coaccess_finalCoaccess s x).mpr (Or.inl hx)

/- Unless it is dead, a component is marked when it is closed. -/
theorem coaccess_closeRoot {s x c : ℕ} (hdead : ¬ Dead v s)
    (hold : ∀ c, v.scc x = some c → v.coaccess x = true) (hx : (v.closeRoot true s).scc x = some c) :
    (v.closeRoot true s).coaccess x = true := by
  unfold closeRoot at hx ⊢
  split at hx
  · next hroot =>
    rw [if_pos hroot, coaccess_closeComponent]
    rw [scc_closeComponent] at hx
    split at hx
    · next hmem =>
      have hany : (splitStack s v.sccStack).1.any v.coaccess = true := by
        by_contra hnone
        exact hdead ⟨hroot, Bool.not_eq_true _ ▸ hnone⟩
      exact Or.inr ⟨hmem, List.any_eq_true.mp hany⟩
    · exact Or.inl (hold c hx)
  · next hroot =>
    rw [if_neg hroot]
    exact hold c hx

theorem parent_ne (hinv : DfsInv fst filter accessOnly start d) (hstack : d.stack = frame :: stack)
    (p : ℕ) (arc : Arc L W) (hby : frame.enteredBy = some (p, arc)) : p ≠ frame.stateId := by
  have hnodup := hinv.nodup
  rw [hstack, List.map_cons, List.nodup_cons] at hnodup
  rcases linked_parent hinv.toStacked hstack with ⟨-, hnone⟩ | ⟨parent, rest, arc', rfl, hby', -⟩
  · rw [hnone] at hby
    cases hby
  · rw [hby'] at hby
    obtain ⟨rfl, -⟩ := Prod.mk.inj (Option.some.inj hby)
    exact fun heq => hnodup.1 (List.mem_map.mpr ⟨parent, List.mem_cons_self, heq⟩)

theorem coaccessBit_finish (hinv : DfsInv fst filter accessOnly start d)
    (hscc : SccInv fst filter d) (h : CoaccessBit isMember fst filter d)
    (hstack : d.stack = frame :: stack)
    (hd' : d' = popState (sccVisitor isMember true fst) accessOnly start frame stack d)
    (hinv' : DfsInv fst filter accessOnly start d') (hscc' : SccInv fst filter d')
    (hco' : CoaccessInv isMember fst filter d') : CoaccessBit isMember fst filter d' := by
  have hgrey := (hinv.grey frame.stateId).mpr (by simp [hstack])
  have hcolor := @updated_white d.stateColor frame.stateId .black (by simp [hgrey]) (by simp)
  have hvisitor : d'.visitor =
      d.visitor.finishState isMember true fst frame.stateId frame.enteredBy := by
    rw [hd', visitor_popState]
    rfl
  have hcolor' : ∀ t, d'.stateColor t ≠ .white ↔ d.stateColor t ≠ .white := by
    intro t
    rw [hd', stateColor_popState]
    exact hcolor t
  obtain ⟨hfscc, hfstack⟩ := finishState_fields fst isMember (v := d.visitor) frame.stateId
    frame.enteredBy
  rcases building_finishState fst isMember d.visitor frame.stateId
    frame.enteredBy with ⟨hsame, hlive⟩ | ⟨hraised, hroot, hany⟩
  · constructor
    · intro hheld
      rw [hvisitor, hsame] at hheld
      obtain ⟨s, hs, hdead⟩ := h.dead hheld
      exact ⟨s, (hcolor' s).mpr hs, hdead⟩
    · intro hnot s c hs
      rw [hvisitor, hsame] at hnot
      rw [hvisitor, hfscc] at hs
      rw [hvisitor]
      apply coaccess_finishState_of
      refine coaccess_closeRoot hlive (fun c hc => ?_) hs
      have hnumbers : SameNumbers d.visitor
          (d.visitor.finalCoaccess isMember true fst frame.stateId) :=
        sameNumbers_finalCoaccess frame.stateId
      rw [hnumbers.1] at hc
      exact coaccess_finalCoaccess_of _ _ (h.alive hnot s c hc)
  · constructor
    · intro _
      refine ⟨frame.stateId, (hcolor' _).mpr (by simp [hgrey]), fun hreach => ?_⟩
      have hkeeps : SameStack d.visitor
          (d.visitor.finalCoaccess isMember true fst frame.stateId) :=
        sameStack_finalCoaccess isMember true frame.stateId
      have htarjan := tarjan_same hscc.tarjan hkeeps
      have htrail : trailOf d.stack = _ :: trailOf stack := congrArg trailOf hstack
      rw [htrail] at htarjan
      have hself := mem_splitStack htarjan (mem_of_trail htarjan List.mem_cons_self)
      have hclosed : ((d.visitor.finalCoaccess isMember true fst frame.stateId).closeRoot true
          frame.stateId) = (d.visitor.finalCoaccess isMember true fst
            frame.stateId).closeComponent true frame.stateId := if_pos hroot
      have hout : frame.stateId ∉ d'.visitor.sccStack := by
        rw [hvisitor, hfstack, hclosed]
        exact fun hmem => absurd (hself.2.mp hmem) (lt_irrefl _)
      have hmark := coaccess_of_closed hinv' hscc' hco'
        ⟨(hcolor' _).mpr (by simp [hgrey]), hout⟩ hreach
      rw [hvisitor] at hmark
      have hmark' := coaccess_finishState_self (parent_ne hinv hstack) hmark
      rw [hclosed, coaccess_closeComponent] at hmark'
      have hnone := List.any_eq_false.mp hany
      rcases hmark' with hmark' | ⟨-, y, hy, hmark'⟩
      · exact hnone _ (hself.1.mpr le_rfl) hmark'
      · exact hnone y hy hmark'
    · intro hnot
      rw [hvisitor, hraised] at hnot
      exact absurd (held_raise_self coaccessPair (by decide) _) hnot

theorem coaccessBit_move (hinv : DfsInv fst filter accessOnly start d)
    (hscc : SccInv fst filter d) (h : CoaccessBit isMember fst filter d)
    (hmove : DfsMove fst (sccVisitor isMember true fst) filter accessOnly start d d')
    (hinv' : DfsInv fst filter accessOnly start d') (hscc' : SccInv fst filter d')
    (hco' : CoaccessInv isMember fst filter d') : CoaccessBit isMember fst filter d' := by
  have hpush : ∀ (s : ℕ) (e : Option (ℕ × Arc L W)) (d : DfsSearch L W SccVisitor),
      CoaccessBit isMember fst filter d → CoaccessBit isMember fst filter
        (pushState fst (sccVisitor isMember true fst) s e d) := by
    intro s e d h
    refine coaccessBit_mono h (fun t ht => ?_)
      (held_pushState _ _ _ coaccessPair (by decide) (by decide) s e) rfl fun t ht => ht
    rw [stateColor_pushState]
    exact coloured_update (by simp) ht
  cases hmove with
  | newTree hstack hdfs hroot => exact hpush _ _ _ h
  | finish hstack harcs =>
    exact coaccessBit_finish hinv hscc h hstack rfl hinv' hscc' hco'
  | skip hstack harcs hdfs hfilter => exact ⟨h.dead, h.alive⟩
  | descend hstack harcs hdfs hfilter hwhite htree => exact hpush _ _ _ ⟨h.dead, h.alive⟩
  | refuse hstack harcs hdfs hfilter hwhite htree => cases htree
  | back hstack harcs hdfs hfilter hgrey =>
    refine coaccessBit_mono h (fun _ ht => ht) ?_ (sameNumbers_backArc _ _ _).1
      fun t ht => coaccess_backArc_of _ _ _ t ht
    exact held_backArc coaccessPair (by decide) (by decide) (by decide) fst.start true _ _
  | cross hstack harcs hdfs hfilter hblack =>
    refine coaccessBit_mono h (fun _ ht => ht) ?_ (sameNumbers_forwardOrCrossArc _ _).1
      fun t ht => coaccess_forwardOrCrossArc_of _ _ t ht
    dsimp only [sccVisitor]
    rw [building_forwardOrCrossArc]

end Coaccess

section Cyclic

/- While no cycle has been seen every component is a single state. -/
structure Straight (fst : VectorFst L W) (filter : Arc L W → Bool)
    (d : DfsSearch L W SccVisitor) : Prop where
  level : ∀ s ∈ d.visitor.sccStack, d.visitor.lowlink s = d.visitor.dfnumber s
  single : ∀ s t c, d.visitor.scc s = some c → d.visitor.scc t = some c → s = t
  loopless : ∀ u arc, Walked fst filter d u arc → arc.nextstate ≠ u

structure CyclicBit (fst : VectorFst L W) (filter : Arc L W → Bool)
    (d : DfsSearch L W SccVisitor) : Prop where
  cyclic : Held d.visitor.building kCyclic → ∃ s, TransGen (Follows fst filter) s s
  straight : ¬ Held d.visitor.building kCyclic → Straight fst filter d

theorem straight_push (hscc : SccInv fst filter d) (h : Straight fst filter d)
    (hd' : d'.visitor = d.visitor) {s : ℕ} (hwhite : d.stateColor s = .white)
    (hwalked : ∀ u arc, Walked fst filter
      (pushState fst (sccVisitor isMember true fst) s e d') u arc →
        Walked fst filter d u arc ∨ (d.stateColor u ≠ .white ∧ arc.nextstate = s)) :
    Straight fst filter (pushState fst (sccVisitor isMember true fst) s e d') := by
  have hvisitor : (pushState fst (sccVisitor isMember true fst) s e d').visitor =
      (d.visitor.initState fst.start s d'.rootIdx).2 := by
    rw [← hd']
    rfl
  constructor
  · intro t ht
    rw [hvisitor] at ht ⊢
    change Function.update d.visitor.lowlink s d.visitor.nstates t =
      Function.update d.visitor.dfnumber s d.visitor.nstates t
    rcases List.mem_cons.mp ht with rfl | hold
    · rw [Function.update_self, Function.update_self]
    · have hne : t ≠ s := by
        rintro rfl
        exact hscc.tarjan.visited t hold hwhite
      rw [Function.update_of_ne hne, Function.update_of_ne hne]
      exact h.level t hold
  · rw [hvisitor]
    exact h.single
  · intro u arc harc
    rcases hwalked u arc harc with hold | ⟨hu, hnext⟩
    · exact h.loopless u arc hold
    · rintro rfl
      rw [hnext] at hu
      exact hu hwhite

variable (fst isMember) in
theorem lowlink_finishState {v : SccVisitor} {s : ℕ} {parent : Option (ℕ × Arc L W)}
    (hparent : ∀ p arc, parent = some (p, arc) → v.lowlink p ≤ v.lowlink s) :
    (v.finishState isMember true fst s parent).lowlink = v.lowlink ∧
      (v.finishState isMember true fst s parent).dfnumber = v.dfnumber := by
  have hclose : ((v.finalCoaccess isMember true fst s).closeRoot true s).lowlink = v.lowlink ∧
      ((v.finalCoaccess isMember true fst s).closeRoot true s).dfnumber = v.dfnumber := by
    have hkeeps : SameStack v (v.finalCoaccess isMember true fst s) :=
      sameStack_finalCoaccess isMember true s
    obtain ⟨-, -, hdf, hlow, -⟩ := hkeeps
    unfold closeRoot
    split
    · exact ⟨hlow, hdf⟩
    · exact ⟨hlow, hdf⟩
  unfold SccVisitor.finishState
  cases parent with
  | none => exact hclose
  | some by' =>
    dsimp only
    generalize (v.finalCoaccess isMember true fst s).closeRoot true s = w at hclose
    obtain ⟨-, -, hdf, hlow, -⟩ := sameStack_passCoaccess (v := w) true by'.1 s
    unfold finishParent
    dsimp only
    rw [if_neg]
    · exact ⟨hlow.trans hclose.1, hdf.trans hclose.2⟩
    · rw [hlow, hclose.1, not_lt]
      exact hparent by'.1 by'.2 rfl

theorem straight_finish (hinv : DfsInv fst filter accessOnly start d) (hscc : SccInv fst filter d)
    (hnum : Numbered fst filter d.stateColor d.visitor) (h : Straight fst filter d)
    (hstack : d.stack = frame :: stack) (harcs : frame.arcs = []) : Straight fst filter
      (popState (sccVisitor isMember true fst) accessOnly start frame stack d) := by
  have htarjan := hscc.tarjan
  have htrail : trailOf d.stack = _ :: trailOf stack := congrArg trailOf hstack
  rw [htrail] at htarjan
  have hself := mem_of_trail htarjan List.mem_cons_self
  have hparent : ∀ p arc, frame.enteredBy = some (p, arc) →
      d.visitor.lowlink p ≤ d.visitor.lowlink frame.stateId := by
    intro p arc hby
    rcases linked_parent hinv.toStacked hstack with ⟨-, hnone⟩ | ⟨parent, rest, arc', rfl, hby', -⟩
    · rw [hnone] at hby
      cases hby
    · rw [hby'] at hby
      obtain ⟨rfl, -⟩ := Prod.mk.inj (Option.some.inj hby)
      have hmem : parent.stateId ∈ (trailOf (parent :: rest)).map Prod.fst := List.mem_cons_self
      rw [h.level _ hself, h.level _ (mem_of_trail htarjan (List.mem_cons_of_mem _ hmem))]
      exact (le_top htarjan hmem).le
  obtain ⟨hlow, hdf⟩ := lowlink_finishState fst isMember hparent
  obtain ⟨hfscc, hfstack⟩ := finishState_fields fst isMember (v := d.visitor) frame.stateId
    frame.enteredBy
  have hkeeps : SameStack d.visitor (d.visitor.finalCoaccess isMember true fst frame.stateId) :=
    sameStack_finalCoaccess isMember true frame.stateId
  obtain ⟨-, hkstack, hkdf, hklow, -⟩ := hkeeps
  have hroot : (d.visitor.finalCoaccess isMember true fst frame.stateId).dfnumber frame.stateId =
      (d.visitor.finalCoaccess isMember true fst frame.stateId).lowlink frame.stateId := by
    rw [hkdf, hklow]
    exact (h.level _ hself).symm
  have hclosed : (d.visitor.finalCoaccess isMember true fst frame.stateId).closeRoot true
      frame.stateId = (d.visitor.finalCoaccess isMember true fst frame.stateId).closeComponent true
        frame.stateId := if_pos hroot
  have hnumbers : SameNumbers d.visitor
      (d.visitor.finalCoaccess isMember true fst frame.stateId) :=
    sameNumbers_finalCoaccess frame.stateId
  -- whatever is above the frame on the stack would have found a way down
  have hcomponent : ∀ t ∈ (splitStack frame.stateId d.visitor.sccStack).1, t = frame.stateId := by
    intro t ht
    have hin : t ∈ d.visitor.sccStack := mem_stack_iff.mpr (.inl ht)
    have hle := (mem_splitStack htarjan hin).1.mp ht
    have hframe : t ∈ ((frame.stateId, frame.enteredBy) :: trailOf stack).map Prod.fst := by
      by_contra hout
      exact absurd (h.level t hin) (htarjan.lowlink_black t hin hout).ne
    rcases List.mem_cons.mp hframe with rfl | hframe
    · rfl
    · exact absurd (le_top htarjan hframe) (Nat.not_lt_of_le hle)
  have hstack' : (popState (sccVisitor isMember true fst) accessOnly start frame stack
      d).visitor.sccStack = (splitStack frame.stateId d.visitor.sccStack).2 := by
    rw [visitor_popState]
    change (d.visitor.finishState isMember true fst _ _).sccStack = _
    rw [hfstack, hclosed, ← hkstack]
    rfl
  have hscc' : ∀ t, (popState (sccVisitor isMember true fst) accessOnly start frame stack
      d).visitor.scc t = if t ∈ (splitStack frame.stateId d.visitor.sccStack).1 then
        some d.visitor.nscc else d.visitor.scc t := by
    intro t
    rw [visitor_popState]
    change (d.visitor.finishState isMember true fst _ _).scc t = _
    rw [hfscc, hclosed, scc_closeComponent, hkstack, hnumbers.1, hnumbers.2.1]
  constructor
  · intro t ht
    rw [hstack'] at ht
    rw [visitor_popState]
    change (d.visitor.finishState isMember true fst _ _).lowlink t =
      (d.visitor.finishState isMember true fst _ _).dfnumber t
    rw [hlow, hdf]
    exact h.level t (mem_stack_iff.mpr (.inr ht))
  · intro s t c hs ht
    rw [hscc'] at hs ht
    split at hs
    · next hmem =>
      split at ht
      · next hmem' => rw [hcomponent s hmem, hcomponent t hmem']
      · rw [← Option.some.inj hs] at ht
        exact absurd (hnum.bound t _ ht) (lt_irrefl _)
    · split at ht
      · rw [← Option.some.inj ht] at hs
        exact absurd (hnum.bound s _ hs) (lt_irrefl _)
      · exact h.single s t c hs ht
  · intro u arc hwalked
    exact h.loopless u arc ((walked_pop hinv.toStacked hstack harcs).mp hwalked)

theorem straight_cross (hinv : DfsInv fst filter accessOnly start d) (hscc : SccInv fst filter d)
    (h : Straight fst filter d) {arc : Arc L W} {arcs : List (Arc L W)}
    (hstack : d.stack = frame :: stack) (harcs : frame.arcs = arc :: arcs)
    (hblack : d.stateColor arc.nextstate = .black) (dfs : Bool) :
    Straight fst filter { takeArc frame arc arcs stack d with
      dfs := dfs
      visitor := (d.visitor.forwardOrCrossArc true frame.stateId arc.nextstate).2 } := by
  have hout : d.visitor.onstack arc.nextstate ≠ true := by
    intro hon
    have hin := (hscc.tarjan.onstack arc.nextstate).mp hon
    refine absurd (h.level _ hin) (hscc.tarjan.lowlink_black _ hin fun hframe => ?_).ne
    rw [trail_states] at hframe
    have hgrey := (hinv.grey arc.nextstate).mpr hframe
    rw [hblack] at hgrey
    cases hgrey
  have hvisitor : (d.visitor.forwardOrCrossArc true frame.stateId arc.nextstate).2 =
      d.visitor.passCoaccess true frame.stateId arc.nextstate := by
    unfold SccVisitor.forwardOrCrossArc
    rw [if_neg fun hboth => hout hboth.2.1]
  obtain ⟨-, hkstack, hkdf, hklow, -⟩ :=
    sameStack_passCoaccess (v := d.visitor) true frame.stateId arc.nextstate
  have hnumbers : SameNumbers d.visitor
      (d.visitor.passCoaccess true frame.stateId arc.nextstate) := sameNumbers_passCoaccess _ _
  rw [hvisitor]
  constructor
  · dsimp only
    rw [hkstack, hkdf, hklow]
    exact h.level
  · dsimp only
    rw [hnumbers.1]
    exact h.single
  · intro u a hwalked
    rcases (walked_take hinv.toStacked hstack harcs).mp hwalked with hold | ⟨rfl, rfl, -⟩
    · exact h.loopless u a hold
    · intro heq
      have hgrey := (hinv.grey frame.stateId).mpr (by simp [hstack])
      rw [← heq, hblack] at hgrey
      cases hgrey

/- A state of the stack below the top frame reaches it. -/
theorem reaches_of_grey (hinv : DfsInv fst filter accessOnly start d) (hscc : SccInv fst filter d)
    (hstack : d.stack = frame :: stack) {t : ℕ} (hgrey : d.stateColor t = .grey) :
    Reaches fst filter t frame.stateId := by
  have htarjan := hscc.tarjan
  have hmem : t ∈ (trailOf d.stack).map Prod.fst := by
    rw [trail_states]
    exact (hinv.grey t).mp hgrey
  have htrail : trailOf d.stack = _ :: trailOf stack := congrArg trailOf hstack
  rw [htrail] at htarjan hmem
  exact htarjan.descends t hmem frame.stateId (mem_of_trail htarjan List.mem_cons_self)
    (nearest_top htarjan t hmem)

theorem cyclicBit_move (hinv : DfsInv fst filter accessOnly start d)
    (hscc : SccInv fst filter d) (hnum : Numbered fst filter d.stateColor d.visitor)
    (h : CyclicBit fst filter d)
    (hmove : DfsMove fst (sccVisitor isMember true fst) filter accessOnly start d d') :
    CyclicBit fst filter d' := by
  have hsource : ∀ u arc, Walked fst filter d u arc → d.stateColor u ≠ .white :=
    fun u arc => walked_source hinv.toStacked
  cases hmove with
  | newTree hstack hdfs hroot =>
    have hheld := held_pushState fst isMember d cyclicPair
      (by decide) (by decide) d.rootIdx none
    have hwhite := hinv.fresh hstack hroot
    refine ⟨fun hbit => h.cyclic (hheld.mp hbit), fun hnot => ?_⟩
    exact straight_push hscc (h.straight (mt hheld.mpr hnot)) rfl hwhite
      fun u arc hwalked => .inl ((walked_push hwhite).mp hwalked)
  | @finish frame stack hstack harcs =>
    have hheld := held_popState fst isMember accessOnly start d cyclicPair (by decide) (by decide)
      frame stack
    refine ⟨fun hbit => h.cyclic (hheld.mp hbit), fun hnot => ?_⟩
    exact straight_finish hinv hscc hnum (h.straight (mt hheld.mpr hnot)) hstack
      (harcs hscc.going)
  | @skip frame stack arc arcs hstack harcs hdfs hfilter =>
    refine ⟨h.cyclic, fun hnot => ?_⟩
    have hstraight := h.straight hnot
    refine ⟨hstraight.level, hstraight.single, fun u a hwalked => ?_⟩
    rcases (walked_take hinv.toStacked hstack harcs).mp hwalked with hold | ⟨-, rfl, htrue⟩
    · exact hstraight.loopless u a hold
    · rw [hfilter] at htrue
      cases htrue
  | @descend frame stack arc arcs hstack harcs hdfs hfilter hwhite htree =>
    have hheld := held_pushState fst isMember { takeArc frame arc arcs stack d with visitor := d.visitor } cyclicPair (by decide)
      (by decide) arc.nextstate (some (frame.stateId, arc))
    have hframe := (hinv.grey frame.stateId).mpr (by simp [hstack])
    refine ⟨fun hbit => h.cyclic (hheld.mp hbit), fun hnot => ?_⟩
    have hsame : ({ takeArc frame arc arcs stack d with
        visitor := ((sccVisitor isMember true fst).treeArc frame.stateId arc d.visitor).2 } :
          DfsSearch L W SccVisitor).visitor = d.visitor := rfl
    refine straight_push hscc (h.straight (mt hheld.mpr hnot)) hsame hwhite fun u a hwalked => ?_
    have htaken := (walked_push (by exact hwhite)).mp hwalked
    rcases (walked_take hinv.toStacked hstack harcs).mp htaken with hold | ⟨rfl, rfl, -⟩
    · exact .inl hold
    · exact .inr ⟨by simp [hframe], rfl⟩
  | refuse hstack harcs hdfs hfilter hwhite htree => cases htree
  | @back frame stack arc arcs hstack harcs hdfs hfilter hgrey =>
    have hfollows := follows_of_frame hinv.toStacked hstack harcs hfilter
    have hcycle := TransGen.tail' (reaches_of_grey hinv hscc hstack hgrey) hfollows
    refine ⟨fun _ => ⟨arc.nextstate, hcycle⟩, fun hnot => absurd ?_ hnot⟩
    dsimp only [sccVisitor]
    rw [building_backArc]
    have hheld := held_raise_self cyclicPair (by decide) d.visitor.building
    split
    · exact (held_raise_of_ne (by decide) (by decide) (by decide) _).mpr hheld
    · exact hheld
  | @cross frame stack arc arcs hstack harcs hdfs hfilter hblack =>
    have hheld : Held (d.visitor.forwardOrCrossArc true frame.stateId
        arc.nextstate).2.building kCyclic ↔ Held d.visitor.building kCyclic := by
      rw [building_forwardOrCrossArc]
    refine ⟨fun hbit => h.cyclic (hheld.mp hbit), fun hnot => ?_⟩
    exact straight_cross hinv hscc (h.straight (mt hheld.mpr hnot)) hstack harcs hblack _

end Cyclic

section Initial

/- Until a cycle through the start is seen no arc leads back to it from where it leads. -/
structure InitialBit (fst : VectorFst L W) (filter : Arc L W → Bool) (start : ℕ)
    (d : DfsSearch L W SccVisitor) : Prop where
  cyclic : Held d.visitor.building kInitialCyclic → TransGen (Follows fst filter) start start
  unmarked : ¬ Held d.visitor.building kInitialCyclic →
    ∀ u arc, Walked fst filter d u arc → arc.nextstate = start → d.visitor.access u = false

/- The root of the tree is on the bottom frame. -/
theorem root_mem_of_linked {root : ℕ} (h : Linked fst filter root stack) (hne : stack ≠ []) :
    root ∈ stack.map (·.stateId) := by
  induction stack with
  | nil => exact absurd rfl hne
  | cons frame stack ih =>
    cases stack with
    | nil =>
      rw [← h.1]
      exact List.mem_cons_self
    | cons parent stack => exact List.mem_cons_of_mem _ (ih h.2 (List.cons_ne_nil _ _))

theorem start_entered (hinv : DfsInv fst filter accessOnly start d)
    (hacc : AccessInv fst filter start d) (hne : d.stack ≠ []) :
    d.stateColor start ≠ .white := by
  by_cases heq : d.rootIdx = start
  · rw [← heq]
    exact (hinv.root hne).1
  · exact (hacc.later heq).1

theorem initialBit_push (hstart : fst.start = some start) (h : InitialBit fst filter start d)
    (hd' : d'.visitor = d.visitor) {s : ℕ} (hwhite : d.stateColor s = .white)
    (hwalked : ∀ u arc, Walked fst filter
      (pushState fst (sccVisitor isMember true fst) s e d') u arc →
        d.stateColor u ≠ .white ∧ (arc.nextstate = start → Walked fst filter d u arc)) :
    InitialBit fst filter start (pushState fst (sccVisitor isMember true fst) s e d') := by
  have hheld := held_pushState fst isMember d' initialPair
    (by decide) (by decide) s e
  rw [hd'] at hheld
  refine ⟨fun hbit => h.cyclic (hheld.mp hbit), fun hnot u arc harc hnext => ?_⟩
  obtain ⟨hu, hold⟩ := hwalked u arc harc
  have hne : u ≠ s := by
    rintro rfl
    exact hu hwhite
  rw [access_pushState hstart, Function.update_of_ne hne, hd']
  exact h.unmarked (mt hheld.mpr hnot) u arc (hold hnext) hnext

theorem initialBit_move (hstart : fst.start = some start)
    (hinv : DfsInv fst filter accessOnly start d) (hscc : SccInv fst filter d)
    (hacc : AccessInv fst filter start d) (h : InitialBit fst filter start d)
    (hmove : DfsMove fst (sccVisitor isMember true fst) filter accessOnly start d d') :
    InitialBit fst filter start d' := by
  have hsource : ∀ u arc, Walked fst filter d u arc → d.stateColor u ≠ .white :=
    fun u arc => walked_source hinv.toStacked
  cases hmove with
  | newTree hstack hdfs hroot =>
    have hwhite := hinv.fresh hstack hroot
    refine initialBit_push hstart h rfl hwhite fun u arc hwalked => ?_
    have hold := (walked_push hwhite).mp hwalked
    exact ⟨hsource u arc hold, fun _ => hold⟩
  | @finish frame stack hstack harcs =>
    have hheld := held_popState fst isMember accessOnly start d initialPair (by decide) (by decide)
      frame stack
    refine ⟨fun hbit => h.cyclic (hheld.mp hbit), fun hnot u arc hwalked hnext => ?_⟩
    rw [visitor_popState]
    simp only [sccVisitor, access_finishState]
    exact h.unmarked (mt hheld.mpr hnot) u arc
      ((walked_pop hinv.toStacked hstack (harcs hscc.going)).mp hwalked) hnext
  | @skip frame stack arc arcs hstack harcs hdfs hfilter =>
    refine ⟨h.cyclic, fun hnot u a hwalked hnext => ?_⟩
    rcases (walked_take hinv.toStacked hstack harcs).mp hwalked with hold | ⟨-, rfl, htrue⟩
    · exact h.unmarked hnot u a hold hnext
    · rw [hfilter] at htrue
      cases htrue
  | @descend frame stack arc arcs hstack harcs hdfs hfilter hwhite htree =>
    have hsame : ({ takeArc frame arc arcs stack d with
        visitor := ((sccVisitor isMember true fst).treeArc frame.stateId arc d.visitor).2 } :
          DfsSearch L W SccVisitor).visitor = d.visitor := rfl
    have hframe := (hinv.grey frame.stateId).mpr (by simp [hstack])
    have hentered := start_entered hinv hacc (by simp [hstack])
    refine initialBit_push hstart h hsame hwhite fun u a hwalked => ?_
    have htaken := (walked_push (by exact hwhite)).mp hwalked
    rcases (walked_take hinv.toStacked hstack harcs).mp htaken with hold | ⟨rfl, rfl, -⟩
    · exact ⟨hsource u a hold, fun _ => hold⟩
    · refine ⟨by simp [hframe], fun hnext => ?_⟩
      rw [hnext] at hwhite
      exact absurd hwhite hentered
  | refuse hstack harcs hdfs hfilter hwhite htree => cases htree
  | @back frame stack arc arcs hstack harcs hdfs hfilter hgrey =>
    have hbuilding := building_backArc (v := d.visitor) fst.start true frame.stateId arc.nextstate
    by_cases hback : arc.nextstate = start
    · have hfollows := follows_of_frame hinv.toStacked hstack harcs hfilter
      have hcycle := TransGen.tail' (reaches_of_grey hinv hscc hstack hgrey) hfollows
      rw [hback] at hcycle
      rw [hstart, if_pos (congrArg some hback)] at hbuilding
      refine ⟨fun _ => hcycle, fun hnot => absurd ?_ hnot⟩
      dsimp only [sccVisitor]
      rw [hstart, hbuilding]
      exact held_raise_self initialPair (by decide) _
    · rw [hstart, if_neg fun heq => hback (Option.some.inj heq)] at hbuilding
      have hheld : Held (d.visitor.backArc fst.start true frame.stateId
          arc.nextstate).2.building kInitialCyclic ↔ Held d.visitor.building kInitialCyclic := by
        rw [hstart, hbuilding]
        exact held_raise_of_ne cyclic_mem initial_mem (by decide) _
      refine ⟨fun hbit => h.cyclic (hheld.mp hbit), fun hnot u a hwalked hnext => ?_⟩
      dsimp only [sccVisitor]
      rw [access_backArc]
      rcases (walked_take hinv.toStacked hstack harcs).mp hwalked with hold | ⟨-, rfl, -⟩
      · exact h.unmarked (mt hheld.mpr hnot) u a hold hnext
      · exact absurd hnext hback
  | @cross frame stack arc arcs hstack harcs hdfs hfilter hblack =>
    have hheld : Held (d.visitor.forwardOrCrossArc true frame.stateId
        arc.nextstate).2.building kInitialCyclic ↔ Held d.visitor.building kInitialCyclic := by
      rw [building_forwardOrCrossArc]
    refine ⟨fun hbit => h.cyclic (hheld.mp hbit), fun hnot u a hwalked hnext => ?_⟩
    dsimp only [sccVisitor]
    rw [access_forwardOrCrossArc]
    rcases (walked_take hinv.toStacked hstack harcs).mp hwalked with hold | ⟨rfl, rfl, -⟩
    · exact h.unmarked (mt hheld.mpr hnot) u a hold hnext
    · -- the start has been left, so that this is another tree
      have hroot : d.rootIdx ≠ start := by
        intro heq
        have hmem := root_mem_of_linked hinv.linked (by simp [hstack])
        have hgrey := (hinv.grey d.rootIdx).mpr hmem
        rw [heq, ← hnext, hblack] at hgrey
        cases hgrey
      exact (hacc.later hroot).2 frame.stateId (by simp [hstack])

end Initial

end Searches

end Sicada.SccBits
