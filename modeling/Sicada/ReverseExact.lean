import Sicada.Relations
import Sicada.Reverse
import Sicada.SccNumbers

set_option linter.unusedSectionVars false

namespace Sicada.ReverseExact

open Relation Walk Paths Relations DfsVisit CcVisitors SccRuns Reverse

variable {L W W' : Type} [ArcLabel L]

section Start

variable [Zero W] [One W] [DecidableEq W] {isMember : W → Bool} {ifst : VectorFst L W}

theorem singleFinal_some (hmember : ∀ s, isMember (ifst.finalWeight s) = true) {states : List ℕ}
    {before : Option ℕ} {q : ℕ} (h : singleFinal isMember ifst states before = some q) :
    (before = some q ∧ ∀ s ∈ states, ifst.finalWeight s = 0) ∨
      (before = none ∧ q ∈ states ∧ ifst.finalWeight q ≠ 0 ∧
        ∀ s ∈ states, ifst.finalWeight s ≠ 0 → s = q) := by
  induction states generalizing before with
  | nil => exact .inl ⟨h, fun s hs => by cases hs⟩
  | cons s states ih =>
    unfold singleFinal at h
    split at h
    · next hzero =>
      have hs : ifst.finalWeight s = 0 := hzero.resolve_left (by rw [hmember s]; decide)
      rcases ih h with ⟨hbefore, hall⟩ | ⟨hbefore, hmem, hq, hall⟩
      · refine .inl ⟨hbefore, fun t ht => ?_⟩
        rcases List.mem_cons.mp ht with rfl | ht
        · exact hs
        · exact hall t ht
      · refine .inr ⟨hbefore, List.mem_cons_of_mem _ hmem, hq, fun t ht hne => ?_⟩
        rcases List.mem_cons.mp ht with rfl | ht
        · exact absurd hs hne
        · exact hall t ht hne
    · next hne =>
      have hs : ifst.finalWeight s ≠ 0 := fun heq => hne (.inr heq)
      split at h
      · cases h
      · next hnone =>
        rcases ih h with ⟨hbefore, hall⟩ | ⟨hbefore, -, -, -⟩
        · cases hbefore
          refine .inr ⟨by simpa using hnone, List.mem_cons_self, hs, fun t ht hne => ?_⟩
          rcases List.mem_cons.mp ht with rfl | ht
          · rfl
          · exact absurd (hall t ht) hne
        · cases hbefore

/- There is no way from the state back to itself. -/
def OffCycle (ifst : VectorFst L W) (q : ℕ) : Prop :=
  ∀ arc ∈ ifst.arcs q, ¬ Reaches ifst (fun _ => true) arc.nextstate q

/- A start without a superinitial state is the only final state, which is on no cycle unless its
weight is one. -/
structure StartsAt (ifst : VectorFst L W) (q : ℕ) : Prop where
  final : ifst.finalWeight q ≠ 0
  only : ∀ s, ifst.finalWeight s ≠ 0 → s = q
  cycle : ifst.finalWeight q = 1 ∨ ifst.start = none ∨ OffCycle ifst q

theorem offCycle_of_search (h : ifst.InRange) {start q : ℕ} (hstart : ifst.start = some start)
    (hq : q < ifst.numStates) {v : SccVisitor}
    (hv : v = dfsVisitAny ifst (sccVisitor isMember false ifst) (SccVisitor.new 0))
    (hcount : ¬ (q < v.len ∧ 1 < (List.range v.len).countP fun s => v.scc s = v.scc q))
    (hloop : ¬ ((ifst.arcs q).any fun arc => arc.nextstate = q) = true) : OffCycle ifst q := by
  intro arc harc hreaches
  have hnext := h.arcs q arc harc
  have hforth : Reaches ifst (fun _ => true) q arc.nextstate := .single ⟨arc, harc, rfl, rfl⟩
  have hsame : v.scc q = v.scc arc.nextstate ∧ q < v.len ∧ arc.nextstate < v.len := by
    rw [hv]
    exact SccNumbers.scc_eq_of_reaches hstart (h.start start hstart) (SccVisitor.new 0) hq hnext
      hforth hreaches
  obtain ⟨hscc, hlenq, hlen⟩ := hsame
  have hne : arc.nextstate ≠ q := by
    intro heq
    exact hloop (List.any_eq_true.mpr ⟨arc, harc, decide_eq_true heq⟩)
  apply hcount
  refine ⟨hlenq, ?_⟩
  rw [List.countP_eq_length_filter]
  have hsub : ({q, arc.nextstate} : Finset ℕ) ⊆
      ((List.range v.len).filter fun s => v.scc s = v.scc q).toFinset := by
    intro s hs
    rw [List.mem_toFinset, List.mem_filter, List.mem_range]
    rcases Finset.mem_insert.mp hs with rfl | hs
    · exact ⟨hlenq, by simp⟩
    · rw [Finset.mem_singleton.mp hs]
      exact ⟨hlen, by simp [hscc]⟩
  have hcard := (Finset.card_le_card hsub).trans (List.toFinset_card_le _)
  rw [Finset.card_pair hne.symm] at hcard
  exact hcard

theorem startsAt_of_reversedStart (h : ifst.InRange)
    (hmember : ∀ s, isMember (ifst.finalWeight s) = true) {required : Bool} {q : ℕ}
    {iprops oprops : BitVec 64}
    (hstart : reversedStart isMember ifst required = (some q, iprops, oprops)) :
    StartsAt ifst q := by
  unfold reversedStart at hstart
  split at hstart
  · cases hstart
  split at hstart
  · cases hstart
  next p hsingle =>
  obtain ⟨hp, hfinal, honly⟩ : p < ifst.numStates ∧ ifst.finalWeight p ≠ 0 ∧
      ∀ s, ifst.finalWeight s ≠ 0 → s = p := by
    rcases singleFinal_some hmember hsingle with ⟨hnone, -⟩ | ⟨-, hmem, hfinal, honly⟩
    · cases hnone
    · refine ⟨List.mem_range.mp hmem, hfinal, fun s hs => honly s (List.mem_range.mpr ?_) hs⟩
      apply Nat.lt_of_not_le
      intro hle
      exact hs (VectorFst.finalWeight_of_le hle)
  split at hstart
  · next hone =>
    cases hstart
    exact ⟨hfinal, honly, .inl hone⟩
  dsimp only at hstart
  split at hstart
  · cases hstart
  next hcount =>
  split at hstart
  · cases hstart
  next hloop =>
  cases hstart
  refine ⟨hfinal, honly, .inr ?_⟩
  cases hs : ifst.start with
  | none => exact .inl rfl
  | some start => exact .inr (offCycle_of_search h hs hp rfl hcount hloop)

end Start

variable {ofst : VectorFst L W'} {v : ℕ}

section Arcs

variable [Zero W] [DecidableEq W] [Zero W'] [One W'] [Mul W'] [DecidableEq W'] {isMember : W → Bool}
  {rev : W → W'} {ifst : VectorFst L W} {k q : ℕ}

/- The arc a reversed arc becomes, leading to the copy `os` of the state it left. -/
def reversedArc (rev : W → W') (ifst : VectorFst L W) (k q os : ℕ) (arc : Arc L W) : Arc L W' :=
  ⟨arc.ilabel, arc.olabel, if k = 0 ∧ arc.nextstate + k = q then
    rev (ifst.finalWeight q) * rev arc.weight else rev arc.weight, os⟩

theorem arcs_reverseArc (os : ℕ) (ofst : VectorFst L W') (arc : Arc L W) (t : ℕ) :
    (reverseArc rev ifst k q os ofst arc).arcs t =
      ofst.arcs t ++ if arc.nextstate + k = t then [reversedArc rev ifst k q os arc] else [] := by
  obtain ⟨harcs, -, -, hnum⟩ := ofst.growTo_eq (arc.nextstate + k + 1)
  have hlt : arc.nextstate + k < (ofst.growTo (arc.nextstate + k + 1)).numStates := by omega
  have hsome := List.getElem?_eq_getElem hlt
  have hadd : (reverseArc rev ifst k q os ofst arc).arcs = _ :=
    VectorFst.arcs_addArc (reversedArc rev ifst k q os arc) hsome
  rw [hadd, ← VectorFst.arcs_of_getElem? hsome, harcs]
  by_cases ht : arc.nextstate + k = t
  · rw [if_pos ht, ht, Function.update_self]
  · rw [if_neg ht, Function.update_of_ne (Ne.symm ht), List.append_nil]

variable (rev ifst k q) in
theorem reverseArc_eq (os : ℕ) (ofst : VectorFst L W') (arc : Arc L W) :
    (reverseArc rev ifst k q os ofst arc).finalWeight = ofst.finalWeight ∧
      (reverseArc rev ifst k q os ofst arc).start = ofst.start ∧
      ofst.numStates ≤ (reverseArc rev ifst k q os ofst arc).numStates := by
  obtain ⟨-, hfinal, hstart, hnum⟩ := ofst.growTo_eq (arc.nextstate + k + 1)
  unfold reverseArc
  dsimp only
  rw [VectorFst.finalWeight_addArc, VectorFst.addArc_start, VectorFst.numStates_addArc]
  exact ⟨hfinal, hstart, by omega⟩

theorem arcs_reverseArcs (os : ℕ) (ofst : VectorFst L W') (arcs : List (Arc L W)) (t : ℕ) :
    (arcs.foldl (reverseArc rev ifst k q os) ofst).arcs t = ofst.arcs t ++
      (arcs.filter (·.nextstate + k = t)).map (reversedArc rev ifst k q os) := by
  induction arcs generalizing ofst with
  | nil => exact (List.append_nil _).symm
  | cons arc arcs ih =>
    rw [List.foldl_cons, ih, arcs_reverseArc, List.append_assoc]
    congr 1
    by_cases ht : arc.nextstate + k = t <;> simp [ht]

variable (rev ifst k q) in
theorem reverseArcs_eq (os : ℕ) (ofst : VectorFst L W') (arcs : List (Arc L W)) :
    (arcs.foldl (reverseArc rev ifst k q os) ofst).finalWeight = ofst.finalWeight ∧
      (arcs.foldl (reverseArc rev ifst k q os) ofst).start = ofst.start ∧
      ofst.numStates ≤ (arcs.foldl (reverseArc rev ifst k q os) ofst).numStates := by
  induction arcs generalizing ofst with
  | nil => exact ⟨rfl, rfl, Nat.le_refl _⟩
  | cons arc arcs ih =>
    obtain ⟨hfinal, hstart, hnum⟩ := reverseArc_eq rev ifst k q os
      ofst arc
    obtain ⟨hfinal', hstart', hnum'⟩ := ih (reverseArc rev ifst k q os ofst arc)
    exact ⟨hfinal'.trans hfinal, hstart'.trans hstart, hnum.trans hnum'⟩

/- An edge of a graph knows the state it leaves and its place there. -/
def edges (ifst : VectorFst L W) (m : ℕ) : List (ℕ × ℕ × Arc L W) :=
  (List.range m).flatMap fun s => (enumArcs (ifst.arcs s)).map fun e => (s, e)

def enters (ifst : VectorFst L W) (m t : ℕ) : List (ℕ × ℕ × Arc L W) :=
  (edges ifst m).filter fun e => e.2.2.nextstate = t

def finals (ifst : VectorFst L W) (m : ℕ) : List ℕ :=
  (List.range m).filter fun s => ifst.finalWeight s ≠ 0

/- The FST written so far, when the states below `m` have been reversed. -/
structure Built (rev : W → W') (ifst : VectorFst L W) (k q m : ℕ) (ofst : VectorFst L W') :
    Prop where
  arcs : ∀ t, ofst.arcs (t + k) =
    (enters ifst m t).map fun e => reversedArc rev ifst k q (e.1 + k) e.2.2
  super : k = 1 → ofst.arcs 0 =
    (finals ifst m).map fun s => ⟨epsilon, epsilon, rev (ifst.finalWeight s), s + k⟩
  final : ∀ t, ofst.finalWeight t = if ∃ s < m, ifst.start = some s ∧ t = s + k then 1 else 0
  start : ofst.start = none
  states : m + k ≤ ofst.numStates

theorem map_enters_succ {β : Type} (f : ℕ → Arc L W → β) (m t : ℕ) :
    (enters ifst (m + 1) t).map (fun e => f e.1 e.2.2) =
      (enters ifst m t).map (fun e => f e.1 e.2.2) ++
        ((ifst.arcs m).filter (·.nextstate = t)).map (f m) := by
  have hnew : ((enumArcs (ifst.arcs m)).map fun e => (m, e)).filter (·.2.2.nextstate = t) =
      ((enumArcs (ifst.arcs m)).filter (·.2.nextstate = t)).map fun e => (m, e) := by
    rw [List.filter_map]
    rfl
  have harcs : (ifst.arcs m).filter (·.nextstate = t) =
      ((enumArcs (ifst.arcs m)).filter (·.2.nextstate = t)).map Prod.snd := by
    conv_lhs => rw [← map_snd_enumArcs (ifst.arcs m), List.filter_map]
    rfl
  unfold enters edges
  rw [List.range_succ, List.flatMap_append, List.filter_append, List.map_append,
    List.flatMap_singleton, hnew, harcs, List.map_map, List.map_map]
  rfl

/- Reversing a state, one step after the other. -/
def marked (ifst : VectorFst L W) (k m : ℕ) (ofst : VectorFst L W') : VectorFst L W' :=
  if some m = ifst.start then (ofst.growTo (m + k + 1)).setFinal (m + k) 1
  else ofst.growTo (m + k + 1)

def linked (rev : W → W') (ifst : VectorFst L W) (k m : ℕ) (ofst : VectorFst L W') :
    VectorFst L W' :=
  if ifst.finalWeight m ≠ 0 ∧ k = 1 then
    (marked ifst k m ofst).addArc 0 ⟨epsilon, epsilon, rev (ifst.finalWeight m), m + k⟩
  else marked ifst k m ofst

theorem reverseState_eq (hmember : ∀ s, isMember (ifst.finalWeight s) = true) (m : ℕ)
    (ofst : VectorFst L W') : reverseState isMember rev ifst k q ofst m =
      (ifst.arcs m).foldl (reverseArc rev ifst k q (m + k)) (linked rev ifst k m ofst) := by
  have hlinked : linked rev ifst k m ofst =
      if isMember (ifst.finalWeight m) = true ∧ ifst.finalWeight m ≠ 0 ∧ k = 1 then
        (marked ifst k m ofst).addArc 0 ⟨epsilon, epsilon, rev (ifst.finalWeight m), m + k⟩
      else marked ifst k m ofst := by
    unfold linked
    simp only [hmember m, true_and]
  rw [hlinked]
  rfl

variable (ifst k) in
theorem marked_eq (m : ℕ) (ofst : VectorFst L W') :
    (marked ifst k m ofst).arcs = ofst.arcs ∧ (marked ifst k m ofst).start = ofst.start ∧
      (∀ t, (marked ifst k m ofst).finalWeight t =
        if ifst.start = some m ∧ t = m + k then 1 else ofst.finalWeight t) ∧
      ofst.numStates ≤ (marked ifst k m ofst).numStates ∧
      m + k < (marked ifst k m ofst).numStates := by
  obtain ⟨harcs, hfinal, hstart, hnum⟩ := ofst.growTo_eq (m + k + 1)
  have hlt : m + k < (ofst.growTo (m + k + 1)).numStates := by omega
  unfold marked
  by_cases hm : some m = ifst.start
  · rw [if_pos hm]
    refine ⟨(VectorFst.arcs_setFinal _ _ _).trans harcs,
      (VectorFst.start_setFinal _ _ _).trans hstart, fun t => ?_, ?_, ?_⟩
    · rw [VectorFst.finalWeight_setFinal 1 hlt, Function.update_apply, hfinal]
      simp [← hm]
    · rw [VectorFst.numStates_setFinal]
      omega
    · rw [VectorFst.numStates_setFinal]
      exact hlt
  · rw [if_neg hm]
    refine ⟨harcs, hstart, fun t => ?_, by omega, hlt⟩
    rw [hfinal, if_neg fun h => hm h.1.symm]

variable (rev ifst k) in
theorem linked_eq (m : ℕ) (ofst : VectorFst L W') :
    (∀ t, (linked rev ifst k m ofst).arcs t = ofst.arcs t ++
      if t = 0 ∧ ifst.finalWeight m ≠ 0 ∧ k = 1 then
        [⟨epsilon, epsilon, rev (ifst.finalWeight m), m + k⟩] else []) ∧
      (linked rev ifst k m ofst).start = ofst.start ∧
      (∀ t, (linked rev ifst k m ofst).finalWeight t =
        if ifst.start = some m ∧ t = m + k then 1 else ofst.finalWeight t) ∧
      m + k < (linked rev ifst k m ofst).numStates := by
  obtain ⟨harcs, hstart, hfinal, -, hlt⟩ := marked_eq ifst k m ofst
  unfold linked
  by_cases hm : ifst.finalWeight m ≠ 0 ∧ k = 1
  · have hsome := List.getElem?_eq_getElem (Nat.zero_lt_of_lt hlt)
    rw [if_pos hm]
    refine ⟨fun t => ?_, ?_, fun t => ?_, ?_⟩
    · rw [VectorFst.arcs_addArc _ hsome, ← VectorFst.arcs_of_getElem? hsome, harcs,
        Function.update_apply]
      by_cases ht : t = 0
      · rw [if_pos ht, if_pos ⟨ht, hm⟩, ht]
      · rw [if_neg ht, if_neg fun h => ht h.1, List.append_nil]
    · rw [VectorFst.addArc_start, hstart]
    · rw [VectorFst.finalWeight_addArc, hfinal]
    · rw [VectorFst.numStates_addArc]
      exact hlt
  · rw [if_neg hm]
    refine ⟨fun t => ?_, hstart, hfinal, hlt⟩
    rw [harcs, if_neg fun h => hm h.2, List.append_nil]

theorem Built.succ (hmember : ∀ s, isMember (ifst.finalWeight s) = true) {m : ℕ}
    (h : Built rev ifst k q m ofst) :
    Built rev ifst k q (m + 1) (reverseState isMember rev ifst k q ofst m) := by
  obtain ⟨harcs, hstart, hfinal, hlt⟩ := linked_eq rev ifst k m ofst
  obtain ⟨hfinal', hstart', hnum⟩ := reverseArcs_eq rev ifst k q
    (m + k) (linked rev ifst k m ofst) (ifst.arcs m)
  rw [reverseState_eq hmember]
  refine ⟨fun t => ?_, fun hk => ?_, fun t => ?_, ?_, by omega⟩
  · have hzero : ¬ (t + k = 0 ∧ ifst.finalWeight m ≠ 0 ∧ k = 1) := by omega
    have hsame : (fun arc : Arc L W => decide (arc.nextstate + k = t + k)) =
        fun arc => decide (arc.nextstate = t) := by
      funext arc
      simp
    rw [arcs_reverseArcs, harcs, if_neg hzero, List.append_nil, h.arcs, hsame]
    exact (map_enters_succ (fun s arc => reversedArc rev ifst k q (s + k) arc) m t).symm
  · have hnone : (ifst.arcs m).filter (·.nextstate + k = 0) = [] := by
      rw [List.filter_eq_nil_iff]
      intro arc _
      simp [hk]
    rw [arcs_reverseArcs, harcs, hnone, h.super hk]
    unfold finals
    rw [List.range_succ, List.filter_append]
    by_cases hm : ifst.finalWeight m = 0 <;> simp [hm, hk]
  · rw [hfinal', hfinal, h.final]
    by_cases hm : ifst.start = some m
    · have hold : ¬ ∃ s < m, ifst.start = some s ∧ t = s + k := by
        rintro ⟨s, hs, heq, -⟩
        rw [hm] at heq
        exact hs.ne' (Option.some.inj heq)
      rw [if_neg hold]
      apply if_congr _ rfl rfl
      constructor
      · exact fun ht => ⟨m, Nat.lt_succ_self m, ht.1, ht.2⟩
      · rintro ⟨s, -, heq, ht⟩
        rw [hm] at heq
        exact ⟨hm, (Option.some.inj heq).symm ▸ ht⟩
    · rw [if_neg fun ht => hm ht.1]
      apply if_congr _ rfl rfl
      constructor
      · rintro ⟨s, hs, heq, ht⟩
        exact ⟨s, Nat.lt_succ_of_lt hs, heq, ht⟩
      · rintro ⟨s, hs, heq, ht⟩
        refine ⟨s, Nat.lt_of_le_of_ne (Nat.le_of_lt_succ hs) ?_, heq, ht⟩
        rintro rfl
        exact hm heq
  · exact hstart'.trans (hstart.trans h.start)

theorem built_foldl (hmember : ∀ s, isMember (ifst.finalWeight s) = true)
    (h : Built rev ifst k q 0 ofst) (m : ℕ) :
    Built rev ifst k q m ((List.range m).foldl (reverseState isMember rev ifst k q) ofst) := by
  induction m with
  | zero => exact h
  | succ m ih =>
    rw [List.range_succ, List.foldl_append]
    exact ih.succ hmember

variable (rev q) in
theorem built_start (hk : k = 0 ∨ k = 1) (ofst : VectorFst L W') :
    Built rev ifst k q 0 (if k = 0 then ofst.deleteAllStates else ofst.deleteAllStates.addState) := by
  have hstates : (if k = 0 then ofst.deleteAllStates else ofst.deleteAllStates.addState).states =
      List.replicate k VectorState.new := by
    rcases hk with rfl | rfl <;> rfl
  have harcs : ∀ t,
      (if k = 0 then ofst.deleteAllStates else ofst.deleteAllStates.addState).arcs t = [] := by
    intro t
    unfold VectorFst.arcs
    rw [hstates, List.getElem?_replicate]
    split <;> rfl
  refine ⟨fun t => harcs _, fun _ => harcs 0, fun t => ?_, ?_, ?_⟩
  · have hnone : ¬ ∃ s < 0, ifst.start = some s ∧ t = s + k := by
      rintro ⟨s, hs, -⟩
      exact Nat.not_lt_zero s hs
    unfold VectorFst.finalWeight
    rw [hstates, List.getElem?_replicate, if_neg hnone]
    split <;> rfl
  · rcases hk with rfl | rfl <;> rfl
  · unfold VectorFst.numStates
    rw [hstates, List.length_replicate]
    omega

end Arcs

section Result

variable [Zero W] [One W] [DecidableEq W] [Zero W'] [One W'] [Mul W'] [DecidableEq W']
  {isMember : W → Bool} {rev : W → W'} {ifst : VectorFst L W}

/- What the reversed FST is, whose states are those of the input moved up by `k` and whose start
is `q`. -/
structure Result (rev : W → W') (ifst : VectorFst L W) (k q : ℕ) (res : VectorFst L W') :
    Prop where
  offset : k = 0 ∧ StartsAt ifst q ∨ k = 1 ∧ q = 0
  arcs : ∀ t, res.arcs (t + k) = (enters ifst ifst.numStates t).map fun e =>
    reversedArc rev ifst k q (e.1 + k) e.2.2
  super : k = 1 → res.arcs 0 = (finals ifst ifst.numStates).map fun s =>
    ⟨epsilon, epsilon, rev (ifst.finalWeight s), s + k⟩
  final : ∀ t, res.finalWeight t = if ∃ s, ifst.start = some s ∧ t = s + k then
    if k = 0 ∧ t = q then rev (ifst.finalWeight q) else 1 else 0
  start : res.start = some q

theorem result_of_built (h : ifst.InRange) {k q : ℕ}
    (hoffset : k = 0 ∧ StartsAt ifst q ∨ k = 1 ∧ q = 0)
    (hbuilt : Built rev ifst k q ifst.numStates ofst) (props mask : BitVec 64) :
    Result rev ifst k q
      ((if k = 0 ∧ some q = ifst.start then
        (ofst.setStart (some q)).setFinal q (rev (ifst.finalWeight q))
        else ofst.setStart (some q)).setProperties props mask) := by
  have hfinal : ∀ t, ofst.finalWeight t =
      if ∃ s, ifst.start = some s ∧ t = s + k then 1 else 0 := by
    intro t
    rw [hbuilt.final]
    apply if_congr _ rfl rfl
    constructor
    · rintro ⟨s, -, hs⟩
      exact ⟨s, hs⟩
    · rintro ⟨s, hs, ht⟩
      exact ⟨s, h.start s hs, hs, ht⟩
  by_cases hq : k = 0 ∧ some q = ifst.start
  · have hlt : q < (ofst.setStart (some q)).numStates := by
      have hstates := hbuilt.states
      have hqn := h.start q hq.2.symm
      have hsame : (ofst.setStart (some q)).numStates = ofst.numStates := rfl
      omega
    rw [if_pos hq]
    refine ⟨hoffset, fun t => ?_, fun hk => ?_, fun t => ?_, VectorFst.start_setFinal _ _ _⟩
    · have harcs := congrFun (VectorFst.arcs_setFinal (ofst.setStart (some q)) q
        (rev (ifst.finalWeight q))) (t + k)
      exact harcs.trans (hbuilt.arcs t)
    · omega
    · have hset := congrFun (VectorFst.finalWeight_setFinal (rev (ifst.finalWeight q)) hlt) t
      refine hset.trans ?_
      rw [Function.update_apply]
      by_cases ht : t = q
      · rw [if_pos ht, if_pos ⟨q, hq.2.symm, by omega⟩, if_pos ⟨hq.1, ht⟩]
      · have hne : ¬ (k = 0 ∧ t = q) := fun hkt => ht hkt.2
        rw [if_neg ht, if_neg hne]
        exact hfinal t
  · rw [if_neg hq]
    refine ⟨hoffset, hbuilt.arcs, hbuilt.super, fun t => (hfinal t).trans ?_, rfl⟩
    by_cases hs : ∃ s, ifst.start = some s ∧ t = s + k
    · have hne : ¬ (k = 0 ∧ t = q) := by
        rintro ⟨hk, rfl⟩
        obtain ⟨s, hs, hts⟩ := hs
        obtain rfl : t = s := by omega
        exact hq ⟨hk, hs.symm⟩
      rw [if_pos hs, if_pos hs, if_neg hne]
    · rw [if_neg hs, if_neg hs]

variable (rev) in
theorem reverse_result (h : ifst.InRange) (hmember : ∀ s, isMember (ifst.finalWeight s) = true)
    (ofst : VectorFst L W') (required : Bool) :
    ∃ k q, Result rev ifst k q (reverse isMember rev ifst ofst required) := by
  unfold reverse
  rcases hstart : reversedStart isMember ifst required with ⟨_ | q, iprops, oprops⟩
  · have hbuilt := built_foldl hmember (built_start rev 0 (.inr rfl) ofst) ifst.numStates
    exact ⟨1, 0, result_of_built h (.inr ⟨rfl, rfl⟩) hbuilt _ _⟩
  · have hbuilt := built_foldl hmember (built_start rev q (.inl rfl) ofst) ifst.numStates
    exact ⟨0, q, result_of_built h (.inl ⟨rfl, startsAt_of_reversedStart h hmember hstart⟩)
      hbuilt _ _⟩

end Result

section Paths

variable [MonoidWithZero W] [DecidableEq W] [MonoidWithZero W'] [DecidableEq W'] {rev : W → W'}
  {ifst : VectorFst L W} {res : VectorFst L W'} {k q : ℕ}

theorem lt_of_leaves {s : ℕ} {e : ℕ × Arc L W} (he : Leaves ifst s e) : s < ifst.numStates := by
  apply Nat.lt_of_not_le
  intro hle
  unfold Leaves at he
  rw [VectorFst.arcs_of_le hle] at he
  cases he

theorem mem_enters {t : ℕ} {e : ℕ × ℕ × Arc L W} :
    e ∈ enters ifst ifst.numStates t ↔ Leaves ifst e.1 e.2 ∧ e.2.2.nextstate = t := by
  unfold enters edges
  rw [List.mem_filter, decide_eq_true_iff]
  apply and_congr_left
  intro _
  rw [List.mem_flatMap]
  constructor
  · rintro ⟨s, -, he⟩
    obtain ⟨x, hx, rfl⟩ := List.mem_map.mp he
    exact mem_enumArcs.mp hx
  · intro he
    exact ⟨e.1, List.mem_range.mpr (lt_of_leaves he),
      List.mem_map.mpr ⟨e.2, mem_enumArcs.mpr he, rfl⟩⟩

theorem nodup_enters (m t : ℕ) : (enters ifst m t).Nodup := by
  apply List.Nodup.filter
  unfold edges
  rw [List.nodup_flatMap]
  constructor
  · intro s _
    exact (nodup_enumArcs _).map fun x y h => (Prod.mk.inj h).2
  · apply List.nodup_range.imp
    intro s t hne e hs ht
    obtain ⟨x, -, rfl⟩ := List.mem_map.mp hs
    obtain ⟨y, -, hy⟩ := List.mem_map.mp ht
    exact hne (Prod.mk.inj hy).1.symm

/- The edge of the input an edge of the reversed FST stands for. -/
def turned (ifst : VectorFst L W) (k v : ℕ) (e : ℕ × Arc L W') : ℕ × ℕ × Arc L W :=
  (enters ifst ifst.numStates (v - k))[e.1]?.getD (0, 0, ⟨e.2.ilabel, e.2.olabel, 0, 0⟩)

/- An edge of the input taken backwards. -/
def Back (ifst : VectorFst L W) (t : ℕ) (e : ℕ × ℕ × Arc L W) : Prop :=
  Leaves ifst e.1 e.2 ∧ e.2.2.nextstate = t

theorem arcs_known (h : Result rev ifst k q res) (hv : k ≤ v) :
    res.arcs v = (enters ifst ifst.numStates (v - k)).map fun e =>
      reversedArc rev ifst k q (e.1 + k) e.2.2 := by
  have harcs := h.arcs (v - k)
  rw [Nat.sub_add_cancel hv] at harcs
  exact harcs

theorem picks_turned (h : Result rev ifst k q res) :
    Picks res (fun v => enters ifst ifst.numStates (v - k))
      (fun _ e => reversedArc rev ifst k q (e.1 + k) e.2.2) (turned ifst k) (k ≤ ·) :=
  picks_getD (fun _ hv => arcs_known h hv) fun _ e => (0, 0, ⟨e.2.ilabel, e.2.olabel, 0, 0⟩)

theorem leaves_turned (h : Result rev ifst k q res) {e : ℕ × Arc L W'} (hv : k ≤ v)
    (he : Leaves res v e) :
    (enters ifst ifst.numStates (v - k))[e.1]? = some (turned ifst k v e) ∧
      reversedArc rev ifst k q ((turned ifst k v e).1 + k) (turned ifst k v e).2.2 = e.2 :=
  picks_turned h v e hv he

theorem back_turned (h : Result rev ifst k q res) {e : ℕ × Arc L W'} (hv : k ≤ v)
    (he : Leaves res v e) : Back ifst (v - k) (turned ifst k v e) :=
  mem_enters.mp (List.mem_of_getElem? (leaves_turned h hv he).1)

/- Off the superinitial state the reversed FST is the input taken backwards. -/
theorem covers_back (h : Result rev ifst k q res) :
    Covers (Leaves res) follow (Back ifst) (fun _ e => e.1) (· - k) (turned ifst k) (k ≤ ·) := by
  apply covers_of_kept (picks_turned h) (fun v hv => arcs_known h hv)
  · exact fun v => nodup_enters _ _
  · exact fun v e _ => mem_enters
  · intro v e _ _
    change k ≤ e.1 + k ∧ e.1 + k - k = e.1
    omega

/- The edges of the input, each with the state it leaves. -/
theorem covers_forth (ifst : VectorFst L W) :
    Covers (fun s (e : ℕ × ℕ × Arc L W) => Leaves ifst e.1 e.2 ∧ e.1 = s)
      (fun _ e => e.2.2.nextstate) (Leaves ifst) follow id (fun _ e => e.2) (fun _ => True) := by
  constructor
  · rintro s e - ⟨he, rfl⟩
    exact he
  · exact fun _ _ _ _ => rfl
  · exact fun _ _ _ _ => trivial
  · rintro s e₁ e₂ - ⟨-, h₁⟩ ⟨-, h₂⟩ heq
    exact Prod.ext (h₁.trans h₂.symm) heq
  · rintro s e - he
    exact ⟨(s, e), ⟨he, rfl⟩, rfl⟩

theorem project_forth (s : ℕ) (p : List (ℕ × ℕ × Arc L W)) :
    Covers.project (fun _ e => e.2.2.nextstate) (fun _ e => e.2) s p = p.map (·.2) := by
  induction p generalizing s with
  | nil => rfl
  | cons e p ih => rw [Covers.project, ih, List.map_cons]

/- The walks back from a final state to the start. -/
def backPaths (ifst : VectorFst L W) : Set (List (ℕ × ℕ × Arc L W)) :=
  {p | ∃ t, ifst.finalWeight t ≠ 0 ∧
    p ∈ acceptedFrom (Back ifst) (fun _ e => e.1) (fun s => ifst.start = some s) t}

theorem bijOn_backPaths (ifst : VectorFst L W) :
    Set.BijOn (fun p => p.reverse.map (·.2)) (backPaths ifst) (acceptingPaths ifst) := by
  have hreverse := @bijOn_reverse ℕ (ℕ × ℕ × Arc L W) (fun e => Leaves ifst e.1 e.2)
    (fun e => e.1) (fun e => e.2.2.nextstate) (fun s => ifst.start = some s)
    (fun t => ifst.finalWeight t ≠ 0)
  refine Set.BijOn.comp (g := List.map (·.2)) ?_ hreverse
  cases hs : ifst.start with
  | none =>
    rw [acceptingPaths_of_none hs]
    simp
  | some start =>
    have hproject : Set.BijOn
        (Covers.project (fun _ (e : ℕ × ℕ × Arc L W) => e.2.2.nextstate) (fun _ e => e.2) start)
        (acceptedFrom (fun s (e : ℕ × ℕ × Arc L W) => Leaves ifst e.1 e.2 ∧ e.1 = s)
          (fun _ e => e.2.2.nextstate) (fun t => ifst.finalWeight t ≠ 0) start)
        (acceptingFrom ifst start) :=
      (covers_forth ifst).bijOn_project (fun _ _ => Iff.rfl) trivial
    rw [funext (project_forth start)] at hproject
    have hsource : {p | ∃ s, some start = some s ∧
        p ∈ acceptedFrom (fun s (e : ℕ × ℕ × Arc L W) => Leaves ifst e.1 e.2 ∧ e.1 = s)
          (fun _ e => e.2.2.nextstate) (fun t => ifst.finalWeight t ≠ 0) s} =
        acceptedFrom (fun s (e : ℕ × ℕ × Arc L W) => Leaves ifst e.1 e.2 ∧ e.1 = s)
          (fun _ e => e.2.2.nextstate) (fun t => ifst.finalWeight t ≠ 0) start := by
      ext p
      simp
    rw [hsource, acceptingPaths_of_some hs]
    exact hproject

/- A walk back tells which final state it begins with. -/
theorem back_start {t u : ℕ} {p : List (ℕ × ℕ × Arc L W)}
    (ht : p ∈ acceptedFrom (Back ifst) (fun _ e => e.1) (fun s => ifst.start = some s) t)
    (hu : p ∈ acceptedFrom (Back ifst) (fun _ e => e.1) (fun s => ifst.start = some s) u) :
    t = u := by
  cases p with
  | nil =>
    have hstart := nil_mem_acceptedFrom.mp ht
    rw [nil_mem_acceptedFrom.mp hu] at hstart
    exact (Option.some.inj hstart).symm
  | cons e p => exact (cons_mem_acceptedFrom.mp ht).1.2.symm.trans (cons_mem_acceptedFrom.mp hu).1.2

end Paths

section Weights

variable [PreSemiring W] [DecidableEq W] [PreSemiring W'] [DecidableEq W'] {e : W ≃+* W'ᵐᵒᵖ}
  {ifst : VectorFst L W} {res : VectorFst L W'} {k q : ℕ}

/- The reverse of a weight, when reversing turns sums into sums and products round. -/
def reversal (e : W ≃+* W'ᵐᵒᵖ) (w : W) : W' := (e w).unop

theorem reversal_zero : reversal e 0 = 0 := congrArg MulOpposite.unop (e.toAddEquiv.map_zero)

theorem reversal_one : reversal e 1 = 1 := congrArg MulOpposite.unop (e.toMulEquiv.map_one)

theorem reversal_mul (a b : W) : reversal e (a * b) = reversal e b * reversal e a :=
  congrArg MulOpposite.unop (e.map_mul a b)

theorem reversal_ne_zero {w : W} (h : w ≠ 0) : reversal e w ≠ 0 := by
  intro hw
  apply h
  apply e.injective
  apply MulOpposite.unop_injective
  exact hw.trans reversal_zero.symm

theorem reversal_prod (l : List W) : reversal e l.prod = (l.reverse.map (reversal e)).prod := by
  induction l with
  | nil => exact reversal_one
  | cons w l ih =>
    rw [List.prod_cons, reversal_mul, ih, List.reverse_cons, List.map_append, List.prod_append,
      List.map_singleton, List.prod_singleton]

theorem final_iff [Nontrivial W'] (h : Result (reversal e) ifst k q res) (hv : k ≤ v) :
    res.finalWeight v ≠ 0 ↔ ifst.start = some (v - k) := by
  rw [h.final]
  constructor
  · intro hne
    by_cases hs : ∃ s, ifst.start = some s ∧ v = s + k
    · obtain ⟨s, hs, rfl⟩ := hs
      rw [Nat.add_sub_cancel]
      exact hs
    · exact absurd (if_neg hs) hne
  · intro hs
    rw [if_pos ⟨v - k, hs, by omega⟩]
    split
    · next hkq =>
      rcases h.offset with ⟨-, hstarts⟩ | ⟨hk, -⟩
      · exact reversal_ne_zero hstarts.final
      · omega
    · exact one_ne_zero

/- What an edge that leaves `v` carries, given what it would without the shortcut. -/
def carried (e : W ≃+* W'ᵐᵒᵖ) (ifst : VectorFst L W) (k q v : ℕ) (w : W') : W' :=
  if k = 0 ∧ v = q then reversal e (ifst.finalWeight q) * w else w

variable {a : ℕ × Arc L W'} {p : List (ℕ × Arc L W')}

theorem weight_turned (h : Result (reversal e) ifst k q res) (hv : k ≤ v) (ha : Leaves res v a) :
    a.2.weight = carried e ifst k q v (reversal e (turned ifst k v a).2.2.weight) := by
  have hback := back_turned h hv ha
  have hv' : (turned ifst k v a).2.2.nextstate + k = v := by
    rw [hback.2]
    exact Nat.sub_add_cancel hv
  rw [← (leaves_turned h hv ha).2]
  unfold reversedArc
  rw [hv']
  rfl

theorem finalWeight_result (h : Result (reversal e) ifst k q res) (hv : k ≤ v)
    (hstart : ifst.start = some (v - k)) : res.finalWeight v = carried e ifst k q v 1 := by
  rw [h.final, if_pos ⟨v - k, hstart, by omega⟩]
  unfold carried
  rw [mul_one]

/- The state is not the start, or what the start carries is nothing. -/
def Plain (e : W ≃+* W'ᵐᵒᵖ) (ifst : VectorFst L W) (k q v : ℕ) : Prop :=
  k = 1 ∨ reversal e (ifst.finalWeight q) = 1 ∨ ¬ Reaches ifst (fun _ => true) q (v - k)

theorem Plain.carried_eq (h : Plain e ifst k q v) (w : W') :
    carried e ifst k q v w = w := by
  unfold carried
  split
  · next hkq =>
    rcases h with hk | hone | hreaches
    · omega
    · rw [hone, one_mul]
    · rw [hkq.1, Nat.sub_zero, hkq.2] at hreaches
      exact absurd Relation.ReflTransGen.refl hreaches
  · rfl

theorem reaches_of_back {t : ℕ} {x : ℕ × ℕ × Arc L W} (h : Back ifst t x) :
    Reaches ifst (fun _ => true) x.1 t :=
  .single ⟨x.2.2, List.mem_of_getElem? h.1, rfl, h.2⟩

theorem Plain.next (h : Result (reversal e) ifst k q res) (hv : k ≤ v) (ha : Leaves res v a)
    (hplain : Plain e ifst k q v) :
    Plain e ifst k q a.2.nextstate := by
  refine hplain.imp_right fun hrest => hrest.imp_right fun hreaches hnext => hreaches ?_
  have hdst : a.2.nextstate - k = (turned ifst k v a).1 := (covers_back h).dst v a hv ha
  rw [hdst] at hnext
  exact hnext.trans (reaches_of_back (back_turned h hv ha))

/- The weights along a path of the reversed FST that does not come to its start, or where the
start carries nothing. -/
theorem weight_plain [Nontrivial W'] (h : Result (reversal e) ifst k q res) (hv : k ≤ v)
    (hplain : Plain e ifst k q v) (hp : p ∈ acceptingFrom res v) :
    arcsWeight p * res.finalWeight (walkEnd follow v p) =
      ((Covers.project follow (turned ifst k) v p).map fun x => reversal e x.2.2.weight).prod := by
  induction p generalizing v with
  | nil =>
    have hstart := (final_iff h hv).mp (nil_mem_acceptingFrom.mp hp)
    have hfinal := (finalWeight_result h hv hstart).trans (hplain.carried_eq 1)
    exact (one_mul _).trans hfinal
  | cons a p ih =>
    obtain ⟨ha, hp⟩ := cons_mem_acceptingFrom.mp hp
    have hknown : k ≤ a.2.nextstate := (covers_back h).known v a hv ha
    have hweight := (weight_turned h hv ha).trans (hplain.carried_eq _)
    have hrest := ih hknown (hplain.next h hv ha) hp
    rw [Covers.project, List.map_cons, List.prod_cons, ← hweight]
    change a.2.weight * arcsWeight p * _ = a.2.weight * _
    rw [mul_assoc]
    exact congrArg (a.2.weight * ·) hrest

/- Past its first edge a path from the start comes to it no more, or the start carries nothing. -/
theorem plain_of_start (h : Result (reversal e) ifst 0 q res) (hstarts : StartsAt ifst q)
    (hstart : ifst.start ≠ none) (ha : Leaves res q a) :
    Plain e ifst 0 q a.2.nextstate := by
  rcases hstarts.cycle with hone | hnone | hoff
  · refine .inr (.inl ?_)
    rw [hone]
    exact reversal_one
  · exact absurd hnone hstart
  · refine .inr (.inr fun hreaches => ?_)
    have hdst : a.2.nextstate - 0 = (turned ifst 0 q a).1 :=
      (covers_back h).dst q a (Nat.zero_le q) ha
    have hback : Back ifst q (turned ifst 0 q a) := back_turned h (Nat.zero_le q) ha
    rw [hdst] at hreaches
    rcases Relation.ReflTransGen.cases_head hreaches with heq | ⟨s, ⟨arc, harc, -, rfl⟩, hrest⟩
    · have harc : (turned ifst 0 q a).2.2 ∈ ifst.arcs (turned ifst 0 q a).1 :=
        List.mem_of_getElem? hback.1
      rw [← heq] at harc
      refine hoff _ harc ?_
      rw [hback.2]
    · exact hoff arc harc (hrest.trans (reaches_of_back hback))

theorem weight_start [Nontrivial W'] (h : Result (reversal e) ifst 0 q res)
    (hstarts : StartsAt ifst q) (hstart : ifst.start ≠ none) (hp : p ∈ acceptingFrom res q) :
    arcsWeight p * res.finalWeight (walkEnd follow q p) = reversal e (ifst.finalWeight q) *
      ((Covers.project follow (turned ifst 0) q p).map fun x => reversal e x.2.2.weight).prod := by
  have hcarried : ∀ w, carried e ifst 0 q q w = reversal e (ifst.finalWeight q) * w := fun w =>
    if_pos ⟨rfl, rfl⟩
  cases p with
  | nil =>
    have hq := (final_iff h (Nat.zero_le q)).mp (nil_mem_acceptingFrom.mp hp)
    have hfinal := (finalWeight_result h (Nat.zero_le q) hq).trans (hcarried 1)
    exact (one_mul _).trans hfinal
  | cons a p =>
    obtain ⟨ha, hp⟩ := cons_mem_acceptingFrom.mp hp
    have hweight := (weight_turned h (Nat.zero_le q) ha).trans (hcarried _)
    have hrest := weight_plain h (Nat.zero_le _) (plain_of_start h hstarts hstart ha) hp
    rw [Covers.project, List.map_cons, List.prod_cons, ← mul_assoc, ← hweight]
    change a.2.weight * arcsWeight p * _ = a.2.weight * _
    rw [mul_assoc]
    exact congrArg (a.2.weight * ·) hrest

/- The accepting paths of the reversed FST stand one to one for the walks back, whose labels they
read. -/
structure Mirrors (e : W ≃+* W'ᵐᵒᵖ) (ifst : VectorFst L W) (res : VectorFst L W')
    (turn : List (ℕ × Arc L W') → List (ℕ × ℕ × Arc L W)) : Prop where
  bijOn : Set.BijOn turn (acceptingPaths res) (backPaths ifst)
  istring : ∀ p ∈ acceptingPaths res, istring p = istring ((turn p).map (·.2))
  ostring : ∀ p ∈ acceptingPaths res, ostring p = ostring ((turn p).map (·.2))
  weight : ∀ p ∈ acceptingPaths res, ∀ t,
    turn p ∈ acceptedFrom (Back ifst) (fun _ x => x.1) (fun s => ifst.start = some s) t →
    weightOf res p = reversal e (ifst.finalWeight t) *
      ((turn p).map fun x => reversal e x.2.2.weight).prod

theorem bijOn_turned [Nontrivial W'] (h : Result (reversal e) ifst k q res) (hv : k ≤ v) :
    Set.BijOn (Covers.project follow (turned ifst k) v) (acceptingFrom res v)
      (acceptedFrom (Back ifst) (fun _ x => x.1) (fun s => ifst.start = some s) (v - k)) :=
  (covers_back h).bijOn_project (fun _ hv => final_iff h hv) hv

theorem labels_turned (h : Result (reversal e) ifst k q res) (hv : k ≤ v)
    (hp : p ∈ acceptingFrom res v) :
    ((Covers.project follow (turned ifst k) v p).map (·.2)).map (·.2.ilabel) =
        p.map (·.2.ilabel) ∧
      ((Covers.project follow (turned ifst k) v p).map (·.2)).map (·.2.olabel) =
        p.map (·.2.olabel) := by
  have hread : ∀ v a, k ≤ v → Leaves res v a →
      (turned ifst k v a).2.2.ilabel = a.2.ilabel ∧ (turned ifst k v a).2.2.olabel = a.2.olabel := by
    intro v a hv ha
    rw [← (leaves_turned h hv ha).2]
    exact ⟨rfl, rfl⟩
  rw [List.map_map, List.map_map]
  exact ⟨(covers_back h).map_project (fun v a hv ha => (hread v a hv ha).1) hv hp,
    (covers_back h).map_project (fun v a hv ha => (hread v a hv ha).2) hv hp⟩

theorem mirrors_start [Nontrivial W'] (h : Result (reversal e) ifst 0 q res)
    (hstarts : StartsAt ifst q) :
    Mirrors e ifst res (Covers.project follow (turned ifst 0) q) := by
  have hpaths : ∀ {p}, p ∈ acceptingPaths res → p ∈ acceptingFrom res q := fun {p} hp =>
    (mem_acceptingPaths h.start).mp hp
  have htarget : backPaths ifst =
      acceptedFrom (Back ifst) (fun _ x => x.1) (fun s => ifst.start = some s) q := by
    ext p
    constructor
    · rintro ⟨t, ht, hp⟩
      rw [hstarts.only t ht] at hp
      exact hp
    · exact fun hp => ⟨q, hstarts.final, hp⟩
  have hbij := bijOn_turned h (Nat.zero_le q)
  refine ⟨?_, fun p hp => ?_, fun p hp => ?_, fun p hp t ht => ?_⟩
  · rw [acceptingPaths_of_some h.start, htarget]
    exact hbij
  · exact congrArg (List.filter _) (labels_turned h (Nat.zero_le q) (hpaths hp)).1.symm
  · exact congrArg (List.filter _) (labels_turned h (Nat.zero_le q) (hpaths hp)).2.symm
  · have hturn := hbij.mapsTo (hpaths hp)
    have hstart : ifst.start ≠ none := by
      obtain ⟨s, -, hs⟩ := hturn
      rw [hs]
      simp
    obtain rfl := back_start hturn ht
    refine Eq.trans ?_ (weight_start h hstarts hstart (hpaths hp))
    unfold weightOf lastWeight
    rw [h.start]
    rfl

/- The walk back a path from the superinitial state stands for. -/
def turnRest (ifst : VectorFst L W) : List (ℕ × Arc L W') → List (ℕ × ℕ × Arc L W)
  | [] => []
  | a :: p => Covers.project follow (turned ifst 1) a.2.nextstate p

def enterArc (e : W ≃+* W'ᵐᵒᵖ) (ifst : VectorFst L W) (s : ℕ) : Arc L W' :=
  ⟨epsilon, epsilon, reversal e (ifst.finalWeight s), s + 1⟩

theorem mem_finals {s : ℕ} : s ∈ finals ifst ifst.numStates ↔ ifst.finalWeight s ≠ 0 := by
  unfold finals
  rw [List.mem_filter, List.mem_range, decide_eq_true_iff]
  constructor
  · exact fun hs => hs.2
  · intro hs
    refine ⟨Nat.lt_of_not_le fun hle => hs ?_, hs⟩
    exact VectorFst.finalWeight_of_le hle

theorem leaves_super (h : Result (reversal e) ifst 1 q res) :
    Leaves res 0 a ↔
      ∃ s, (finals ifst ifst.numStates)[a.1]? = some s ∧ a.2 = enterArc e ifst s := by
  unfold Leaves
  rw [h.super rfl, List.getElem?_map, Option.map_eq_some_iff]
  exact exists_congr fun s => and_congr_right fun _ => eq_comm

/- A path from the superinitial state enters the copy of a final state. -/
theorem mem_super [Nontrivial W'] (h : Result (reversal e) ifst 1 0 res)
    (hp : p ∈ acceptingPaths res) :
    ∃ i s rest, p = (i, enterArc e ifst s) :: rest ∧
      (finals ifst ifst.numStates)[i]? = some s ∧ rest ∈ acceptingFrom res (s + 1) := by
  have hfrom := (mem_acceptingPaths h.start).mp hp
  cases p with
  | nil =>
    have hzero : ¬ ∃ s, ifst.start = some s ∧ 0 = s + 1 := by
      rintro ⟨s, -, hs⟩
      exact Nat.succ_ne_zero s hs.symm
    refine absurd ?_ (nil_mem_acceptingFrom.mp hfrom)
    rw [h.final, if_neg hzero]
  | cons a rest =>
    obtain ⟨ha, hrest⟩ := cons_mem_acceptingFrom.mp hfrom
    obtain ⟨s, hs, harc⟩ := (leaves_super h).mp ha
    refine ⟨a.1, s, rest, ?_, hs, ?_⟩
    · rw [← harc]
    · rw [harc] at hrest
      exact hrest

theorem bijOn_turnRest [Nontrivial W'] (h : Result (reversal e) ifst 1 0 res) :
    Set.BijOn (turnRest ifst) (acceptingPaths res) (backPaths ifst) := by
  have hbij : ∀ s, Set.BijOn (Covers.project follow (turned ifst 1) (s + 1))
      (acceptingFrom res (s + 1))
      (acceptedFrom (Back ifst) (fun _ x => x.1) (fun u => ifst.start = some u) s) := fun s =>
    bijOn_turned h (Nat.le_add_left 1 s)
  refine ⟨?_, ?_, ?_⟩
  · intro p hp
    obtain ⟨i, s, rest, rfl, hs, hrest⟩ := mem_super h hp
    exact ⟨s, mem_finals.mp (List.mem_of_getElem? hs), (hbij s).mapsTo hrest⟩
  · intro p hp p' hp' heq
    obtain ⟨i, s, rest, rfl, hs, hrest⟩ := mem_super h hp
    obtain ⟨i', s', rest', rfl, hs', hrest'⟩ := mem_super h hp'
    change Covers.project follow (turned ifst 1) (s + 1) rest =
      Covers.project follow (turned ifst 1) (s' + 1) rest' at heq
    have hturn := (hbij s).mapsTo hrest
    rw [heq] at hturn
    obtain rfl := back_start hturn ((hbij s').mapsTo hrest')
    have hnodup : (finals ifst ifst.numStates).Nodup := List.nodup_range.filter _
    have hlt := (List.getElem?_eq_some_iff.mp hs).1
    obtain rfl := (List.getElem?_inj hlt hnodup).mp (hs.trans hs'.symm)
    rw [(hbij s).injOn hrest hrest' heq]
  · rintro x ⟨t, ht, hx⟩
    obtain ⟨i, hi⟩ := List.mem_iff_getElem?.mp (mem_finals.mpr ht)
    obtain ⟨rest, hrest, rfl⟩ := (hbij t).surjOn hx
    refine ⟨(i, enterArc e ifst t) :: rest, ?_, rfl⟩
    apply (mem_acceptingPaths h.start).mpr
    exact cons_mem_acceptingFrom.mpr ⟨(leaves_super h).mpr ⟨t, hi, rfl⟩, hrest⟩

theorem mirrors_super [Nontrivial W'] (h : Result (reversal e) ifst 1 0 res) :
    Mirrors e ifst res (turnRest ifst) := by
  refine ⟨bijOn_turnRest h, fun p hp => ?_, fun p hp => ?_, fun p hp t ht => ?_⟩
  · obtain ⟨i, s, rest, rfl, -, hrest⟩ := mem_super h hp
    have hlabels := (labels_turned h (Nat.le_add_left 1 s) hrest).1
    refine Eq.trans ?_ (congrArg (List.filter _) hlabels.symm)
    unfold Paths.istring
    rw [List.map_cons, List.filter_cons_of_neg]
    simp [enterArc]
  · obtain ⟨i, s, rest, rfl, -, hrest⟩ := mem_super h hp
    have hlabels := (labels_turned h (Nat.le_add_left 1 s) hrest).2
    refine Eq.trans ?_ (congrArg (List.filter _) hlabels.symm)
    unfold Paths.ostring
    rw [List.map_cons, List.filter_cons_of_neg]
    simp [enterArc]
  · obtain ⟨i, s, rest, rfl, -, hrest⟩ := mem_super h hp
    have hturn := (bijOn_turned h (Nat.le_add_left 1 s)).mapsTo hrest
    obtain rfl := back_start hturn ht
    have hplain : Plain e ifst 1 0 (s + 1) := .inl rfl
    refine Eq.trans ?_ (congrArg (reversal e (ifst.finalWeight s) * ·)
      (weight_plain h (Nat.le_add_left 1 s) hplain hrest))
    unfold weightOf lastWeight arcsWeight
    rw [h.start, List.map_cons, List.prod_cons, mul_assoc]
    rfl

theorem acceptingPaths_of_subsingleton [Subsingleton W] : acceptingPaths ifst = ∅ := by
  ext p
  constructor
  · rintro ⟨s, -, t, -, ht⟩
    exact ht (Subsingleton.elim _ _)
  · exact fun hp => hp.elim

/- The accepting paths of an FST and of its reverse stand one to one, read the labels of each other
backwards, and weigh the reverse of each other. -/
structure Turns (e : W ≃+* W'ᵐᵒᵖ) (ifst : VectorFst L W) (res : VectorFst L W')
    (turn : List (ℕ × Arc L W') → List (ℕ × Arc L W)) : Prop where
  bijOn : Set.BijOn turn (acceptingPaths res) (acceptingPaths ifst)
  istring : ∀ p ∈ acceptingPaths res, istring p = (istring (turn p)).reverse
  ostring : ∀ p ∈ acceptingPaths res, ostring p = (ostring (turn p)).reverse
  weight : ∀ p ∈ acceptingPaths res, weightOf res p = reversal e (weightOf ifst (turn p))

theorem weightOf_backPath {p : List (ℕ × ℕ × Arc L W)} {t : ℕ}
    (hp : p ∈ acceptedFrom (Back ifst) (fun _ x => x.1) (fun s => ifst.start = some s) t) :
    reversal e (weightOf ifst (p.reverse.map (·.2))) = reversal e (ifst.finalWeight t) *
      (p.map fun x => reversal e x.2.2.weight).prod := by
  obtain ⟨s, hwalk, hs⟩ := hp
  have hforth := (@isWalk_reverse ℕ (ℕ × ℕ × Arc L W) (fun x => Leaves ifst x.1 x.2)
    (fun x => x.1) (fun x => x.2.2.nextstate) s t p.reverse).mp (by rwa [p.reverse_reverse])
  have hend : walkEnd follow s (p.reverse.map (·.2)) = t := by
    have hmap : walkEnd follow s (p.reverse.map (·.2)) =
        walkEnd (fun _ (x : ℕ × ℕ × Arc L W) => x.2.2.nextstate) s p.reverse := List.foldl_map
    exact hmap.trans (walkEnd_eq hforth)
  unfold weightOf lastWeight arcsWeight
  rw [hs, Option.getD_some, hend, reversal_mul, reversal_prod, List.map_map, ← List.map_reverse,
    p.reverse_reverse, List.map_map]
  rfl

theorem Mirrors.turns {turn : List (ℕ × Arc L W') → List (ℕ × ℕ × Arc L W)}
    (h : Mirrors e ifst res turn) :
    Turns e ifst res fun p => (turn p).reverse.map (·.2) := by
  have hlabels : ∀ (f : ℕ × Arc L W → L) (x : List (ℕ × ℕ × Arc L W)),
      ((x.map (·.2)).map f).filter (· ≠ epsilon) =
        (((x.reverse.map (·.2)).map f).filter (· ≠ epsilon)).reverse := by
    intro f x
    rw [← List.filter_reverse, ← List.map_reverse, ← List.map_reverse, x.reverse_reverse]
  refine ⟨(bijOn_backPaths ifst).comp h.bijOn, fun p hp => ?_, fun p hp => ?_, fun p hp => ?_⟩
  · exact (h.istring p hp).trans (hlabels _ _)
  · exact (h.ostring p hp).trans (hlabels _ _)
  · obtain ⟨t, -, ht⟩ := h.bijOn.mapsTo hp
    rw [h.weight p hp t ht, weightOf_backPath ht]

theorem exists_turns {isMember : W → Bool} (e : W ≃+* W'ᵐᵒᵖ) (h : ifst.InRange)
    (hmember : ∀ s, isMember (ifst.finalWeight s) = true) (ofst : VectorFst L W')
    (required : Bool) :
    ∃ turn, Turns e ifst (reverse isMember (reversal e) ifst ofst required) turn := by
  obtain ⟨k, q, hres⟩ := reverse_result (reversal e) h hmember ofst required
  rcases subsingleton_or_nontrivial W' with hsub | hnon
  · have hsub' : Subsingleton W := ⟨fun a b => e.injective (MulOpposite.unop_injective
      (Subsingleton.elim _ _))⟩
    refine ⟨fun _ => [], ?_, ?_, ?_, ?_⟩
    · rw [acceptingPaths_of_subsingleton, acceptingPaths_of_subsingleton]
      simp
    all_goals
      rw [acceptingPaths_of_subsingleton]
      exact fun p hp => hp.elim
  · rcases hres.offset with ⟨rfl, hstarts⟩ | ⟨rfl, rfl⟩
    · exact ⟨_, (mirrors_start hres hstarts).turns⟩
    · exact ⟨_, (mirrors_super hres).turns⟩

section Sums

variable [TopologicalSpace W]

def unreversal (e : W ≃+* W'ᵐᵒᵖ) : W' →+ W :=
  AddMonoidHom.comp e.symm.toAddEquiv.toAddMonoidHom
    (MulOpposite.opAddEquiv : W' ≃+ W'ᵐᵒᵖ).toAddMonoidHom

theorem unreversal_reversal (w : W) : unreversal e (reversal e w) = w := e.symm_apply_apply w

/- Sums of reversed weights are read as those of the weights themselves. -/
abbrev reversedTopology (e : W ≃+* W'ᵐᵒᵖ) : TopologicalSpace W' :=
  TopologicalSpace.induced (unreversal e) ‹_›

theorem Turns.gives {turn : List (ℕ × Arc L W') → List (ℕ × Arc L W)}
    (h : Turns e ifst res turn) {i o : List L} {w : W} : Gives ifst i o w ↔
      letI := reversedTopology e
      Gives res i.reverse o.reverse (reversal e w) := by
  let _ := reversedTopology e
  have hinducing : Topology.IsInducing (unreversal e) := ⟨rfl⟩
  have hrelated : Set.BijOn turn (related res i.reverse o.reverse) (related ifst i o) := by
    refine ⟨?_, h.bijOn.injOn.mono fun p hp => hp.1, ?_⟩
    · rintro p ⟨hp, hi, ho⟩
      rw [h.istring p hp] at hi
      rw [h.ostring p hp] at ho
      exact ⟨h.bijOn.mapsTo hp, List.reverse_injective hi, List.reverse_injective ho⟩
    · rintro p' ⟨hp', rfl, rfl⟩
      obtain ⟨p, hp, rfl⟩ := h.bijOn.surjOn hp'
      exact ⟨p, ⟨hp, h.istring p hp, h.ostring p hp⟩, rfl⟩
  have hweight : ∀ p ∈ related res i.reverse o.reverse,
      weightOf ifst (turn p) = unreversal e (weightOf res p) := by
    intro p hp
    rw [h.weight p hp.1, unreversal_reversal]
  refine (Regroup.hasSum_bijOn hrelated hweight).trans ?_
  have hread := hinducing.hasSum_iff (L := .unconditional _)
    (fun p : related res i.reverse o.reverse => weightOf res p) (reversal e w)
  rw [unreversal_reversal] at hread
  exact hread

theorem reverse_exact {isMember : W → Bool} (e : W ≃+* W'ᵐᵒᵖ) (h : ifst.InRange)
    (hmember : ∀ s, isMember (ifst.finalWeight s) = true) (ofst : VectorFst L W')
    (required : Bool) :
    (∃ turn, Turns e ifst (reverse isMember (reversal e) ifst ofst required) turn) ∧
      ∀ i o w, Gives ifst i o w ↔
        letI := reversedTopology e
        Gives (reverse isMember (reversal e) ifst ofst required) i.reverse o.reverse
          (reversal e w) := by
  obtain ⟨turn, hturn⟩ := exists_turns e h hmember ofst required
  exact ⟨⟨turn, hturn⟩, fun i o w => hturn.gives⟩

/- A start that is final and on a cycle, whose weight no arc may carry. -/
def loop : VectorFst ℤ ℕ := ⟨[⟨2, [⟨1, 2, 3, 0⟩], 0, 0⟩], some 0, 0⟩

theorem reverse_exact_loop :
    (∃ turn, Turns (RingEquiv.toOpposite ℕ) loop (reverse (fun _ => true)
      (reversal (RingEquiv.toOpposite ℕ)) loop VectorFst.new false) turn) ∧
      ∀ i o w, Gives loop i o w ↔
        letI := reversedTopology (RingEquiv.toOpposite ℕ)
        Gives (reverse (fun _ => true) (reversal (RingEquiv.toOpposite ℕ)) loop VectorFst.new
          false) i.reverse o.reverse (reversal (RingEquiv.toOpposite ℕ) w) := by
  have harcs : ∀ s, ∀ arc ∈ loop.arcs s, arc.nextstate < loop.numStates :=
    VectorFst.forall_arcs_of_lt (P := fun _ arc => arc.nextstate < loop.numStates) (by decide)
  exact reverse_exact (RingEquiv.toOpposite ℕ) ⟨by decide, harcs⟩ (fun _ => rfl) VectorFst.new
    false

end Sums

end Weights

end Sicada.ReverseExact
