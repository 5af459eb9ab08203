import Sicada.ComposeMoves
import Sicada.Difference
import Sicada.Relations
import Sicada.ScanExact

set_option linter.unusedSectionVars false

namespace Sicada.ComplementPaths

open PropertyBits Paths Walk Relations

variable {L W : Type} [RhoLabel L] [CommSemiring W] [DecidableEq W]

/- What an acceptor has to be to be complemented. -/
structure Conforming (fst : VectorFst L W) : Prop where
  acceptor : Holds fst .acceptor
  deterministic : Holds fst .iDeterministic
  noEpsilons : ¬ Holds fst .epsilons
  unweighted : ¬ Holds fst .weighted

def Ordinary (label : L) : Prop := label ≠ noLabel ∧ label ≠ rhoLabel

/- The labels the composition asks the complement for. -/
def alphabet (left : VectorFst L W) : List L :=
  (((left.states.flatMap (·.arcs)).map (·.olabel)).filter (· ≠ epsilon)).toFinset.sort (· ≤ ·)

/- Where a label leads from a state of the complement: along the arc that carries it, or out. -/
def next (fst : VectorFst L W) : ℕ → L → Arc L W
  | 0, label => ⟨label, label, 1, 0⟩
  | s + 1, label =>
    match (fst.arcs s).find? fun arc => arc.ilabel = label with
    | some arc => { arc with nextstate := arc.nextstate + 1 }
    | none => ⟨label, label, 1, 0⟩

def stateAfter (fst : VectorFst L W) : ℕ → List L → ℕ
  | s, [] => s
  | s, label :: u => stateAfter fst (next fst s label).nextstate u

def weightsOn (fst : VectorFst L W) : ℕ → List L → List W
  | _, [] => []
  | s, label :: u => (next fst s label).weight :: weightsOn fst (next fst s label).nextstate u

variable {s : ℕ} {arc : Arc L W}

variable {label : L} {u : List L}

section Alphabet

variable {left : VectorFst L W}

theorem sorted_alphabet (left : VectorFst L W) : (alphabet left).IsChain (· ≤ ·) :=
  List.isChain_iff_pairwise.mpr (Finset.pairwise_sort _ _)

theorem nodup_alphabet (left : VectorFst L W) : (alphabet left).Nodup := Finset.sort_nodup _ _

theorem epsilon_notMem_alphabet : epsilon ∉ alphabet left := by
  unfold alphabet
  simp

theorem mem_alphabet (harc : arc ∈ left.arcs s) (hne : arc.olabel ≠ epsilon) :
    arc.olabel ∈ alphabet left := by
  unfold alphabet
  rw [Finset.mem_sort, List.mem_toFinset, List.mem_filter]
  refine ⟨List.mem_map_of_mem ?_, by simpa using hne⟩
  rw [List.mem_flatMap]
  cases hstate : left.states[s]? with
  | none => simp [VectorFst.arcs, hstate] at harc
  | some vs => exact ⟨vs, List.mem_of_getElem? hstate, VectorFst.arcs_of_getElem? hstate ▸ harc⟩

theorem exists_of_mem_alphabet (h : label ∈ alphabet left) :
    ∃ s, ∃ arc ∈ left.arcs s, arc.olabel = label := by
  unfold alphabet at h
  rw [Finset.mem_sort, List.mem_toFinset, List.mem_filter] at h
  obtain ⟨arc, harc, hlabel⟩ := List.mem_map.mp h.1
  obtain ⟨vs, hvs, harc⟩ := List.mem_flatMap.mp harc
  obtain ⟨s, hs⟩ := List.mem_iff_getElem?.mp hvs
  exact ⟨s, arc, VectorFst.arcs_of_getElem? hs ▸ harc, hlabel⟩

end Alphabet

section Next

variable {fst : VectorFst L W} (h : Conforming fst)

theorem next_of_some (hfind : (fst.arcs s).find? (fun arc => arc.ilabel = label) = some arc) :
    next fst (s + 1) label = { arc with nextstate := arc.nextstate + 1 } := by
  simp only [next, hfind]

theorem next_of_none (hfind : (fst.arcs s).find? (fun arc => arc.ilabel = label) = none) :
    next fst (s + 1) label = ⟨label, label, 1, 0⟩ := by
  simp only [next, hfind]

theorem mem_of_find (hfind : (fst.arcs s).find? (fun arc => arc.ilabel = label) = some arc) :
    arc ∈ fst.arcs s ∧ arc.ilabel = label :=
  ⟨List.mem_of_find?_eq_some hfind, by simpa using List.find?_some hfind⟩

theorem next_le (hrange : fst.InRange) (s : ℕ) (label : L) :
    (next fst s label).nextstate ≤ fst.numStates := by
  cases s with
  | zero => exact Nat.zero_le _
  | succ s =>
    cases hfind : (fst.arcs s).find? fun arc => arc.ilabel = label with
    | none => rw [next_of_none hfind]; exact Nat.zero_le _
    | some arc =>
      rw [next_of_some hfind]
      exact hrange.arcs s arc (mem_of_find hfind).1

include h

theorem next_labels (s : ℕ) (label : L) :
    (next fst s label).ilabel = label ∧ (next fst s label).olabel = label := by
  cases s with
  | zero => exact ⟨rfl, rfl⟩
  | succ s =>
    cases hfind : (fst.arcs s).find? fun arc => arc.ilabel = label with
    | none => rw [next_of_none hfind]; exact ⟨rfl, rfl⟩
    | some arc =>
      obtain ⟨harc, hlabel⟩ := mem_of_find hfind
      rw [next_of_some hfind]
      exact ⟨hlabel, (h.acceptor s arc harc).symm.trans hlabel⟩

theorem next_weight (s : ℕ) (label : L) :
    (next fst s label).weight = 0 ∨ (next fst s label).weight = 1 := by
  cases s with
  | zero => exact Or.inr rfl
  | succ s =>
    cases hfind : (fst.arcs s).find? fun arc => arc.ilabel = label with
    | none => rw [next_of_none hfind]; exact Or.inr rfl
    | some arc =>
      rw [next_of_some hfind]
      by_contra hweight
      obtain ⟨hzero, hone⟩ := not_or.mp hweight
      exact h.unweighted (Or.inl ⟨s, arc, (mem_of_find hfind).1, hzero, hone⟩)

theorem ilabel_ne_epsilon (harc : arc ∈ fst.arcs s) :
    arc.ilabel ≠ epsilon := by
  intro heps
  exact h.noEpsilons ⟨s, arc, harc, heps, (h.acceptor s arc harc).symm.trans heps⟩

/- The arc that carries a label is the only one that does. -/
theorem find_of_mem (harc : arc ∈ fst.arcs s) :
    (fst.arcs s).find? (fun a => a.ilabel = arc.ilabel) = some arc := by
  cases hfind : (fst.arcs s).find? fun a => a.ilabel = arc.ilabel with
  | none =>
    have hnone := List.find?_eq_none.mp hfind arc harc
    simp at hnone
  | some found =>
    obtain ⟨hmem, hlabel⟩ := mem_of_find hfind
    exact congrArg some (List.inj_on_of_nodup_map (h.deterministic s) hmem harc hlabel)

end Next

section Words

variable {fst : VectorFst L W}

theorem weightsOn_append (s : ℕ) (u v : List L) :
    weightsOn fst s (u ++ v) = weightsOn fst s u ++ weightsOn fst (stateAfter fst s u) v := by
  induction u generalizing s with
  | nil => rfl
  | cons label u ih => exact congrArg (List.cons _) (ih _)

theorem stateAfter_zero (u : List L) : stateAfter fst 0 u = 0 := by
  induction u with
  | nil => rfl
  | cons label u ih => exact ih

theorem stateAfter_le (hrange : fst.InRange) (hs : s ≤ fst.numStates) (u : List L) :
    stateAfter fst s u ≤ fst.numStates := by
  induction u generalizing s with
  | nil => exact hs
  | cons label u ih => exact ih (next_le hrange s label)

theorem exists_of_mem_weightsOn {w : W} (hw : w ∈ weightsOn fst s u) :
    ∃ u₁ label u₂, u = u₁ ++ label :: u₂ ∧ (next fst (stateAfter fst s u₁) label).weight = w := by
  induction u generalizing s with
  | nil => exact absurd hw List.not_mem_nil
  | cons label u ih =>
    rcases List.mem_cons.mp hw with rfl | hw
    · exact ⟨[], label, u, rfl, rfl⟩
    · obtain ⟨u₁, label', u₂, rfl, hweight⟩ := ih hw
      exact ⟨label :: u₁, label', u₂, rfl, hweight⟩

theorem prod_weightsOn (h : Conforming fst) (s : ℕ) (u : List L) :
    (0 ∈ weightsOn fst s u → (weightsOn fst s u).prod = 0) ∧
      (0 ∉ weightsOn fst s u → (weightsOn fst s u).prod = 1) := by
  refine ⟨List.prod_eq_zero, fun hzero => List.prod_eq_one fun w hw => ?_⟩
  obtain ⟨u₁, label, u₂, -, rfl⟩ := exists_of_mem_weightsOn hw
  exact (next_weight h _ _).resolve_left fun hw' => hzero (hw' ▸ hw)

/- A walk through the acceptor is the way its string takes through the complement. -/
theorem walk_next (h : Conforming fst) {t : ℕ} {p : List (ℕ × Arc L W)}
    (hp : IsWalk (Leaves fst) follow s p t) : stateAfter fst (s + 1) (istring p) = t + 1 ∧
      weightsOn fst (s + 1) (istring p) = p.map (·.2.weight) := by
  induction p generalizing s with
  | nil =>
    obtain rfl : s = t := hp
    exact ⟨rfl, rfl⟩
  | cons e p ih =>
    obtain ⟨he, hp⟩ := hp
    have harc := ComposeMoves.mem_of_leaves he
    have hne := ilabel_ne_epsilon h harc
    have hcons : istring (e :: p) = e.2.ilabel :: istring p := by simp [istring, hne]
    have hnext := next_of_some (find_of_mem h harc)
    obtain ⟨hstate, hweights⟩ := ih hp
    rw [hcons]
    refine ⟨?_, ?_⟩
    · rw [stateAfter, hnext]
      exact hstate
    · rw [weightsOn, hnext, List.map_cons]
      exact congrArg (List.cons _) hweights

theorem walk_of_stateAfter (h : Conforming fst) {t : ℕ} (hu : stateAfter fst (s + 1) u = t + 1) :
    ∃ p, IsWalk (Leaves fst) follow s p t ∧ istring p = u := by
  induction u generalizing s with
  | nil =>
    obtain rfl : s = t := Nat.succ_injective hu
    exact ⟨[], rfl, rfl⟩
  | cons label u ih =>
    rw [stateAfter] at hu
    cases hfind : (fst.arcs s).find? fun arc => arc.ilabel = label with
    | none =>
      rw [next_of_none hfind, stateAfter_zero] at hu
      omega
    | some arc =>
      obtain ⟨harc, hlabel⟩ := mem_of_find hfind
      rw [next_of_some hfind] at hu
      obtain ⟨p, hp, hstring⟩ := ih hu
      obtain ⟨i, hi⟩ := List.mem_iff_getElem?.mp harc
      have hne := ilabel_ne_epsilon h harc
      refine ⟨(i, arc) :: p, ⟨hi, hp⟩, ?_⟩
      rw [← hstring, ← hlabel]
      simp [istring, hne]

end Words

section Language

/- The strings of a weight other than zero. -/
def Accepts (fst : VectorFst L W) (u : List L) : Prop :=
  ∃ p ∈ acceptingPaths fst, istring p = u ∧ weightOf fst p ≠ 0

/- Whether a string, or a beginning of it, is read along an arc of weight zero. -/
def TakesZero (fst : VectorFst L W) (u : List L) : Prop :=
  ∃ s t p, fst.start = some s ∧ IsWalk (Leaves fst) follow s p t ∧ istring p <+: u ∧
    ∃ e ∈ p, e.2.weight = 0

variable {fst : VectorFst L W} (h : Conforming fst)
include h

theorem accepts_iff : Accepts fst u ↔ ∃ s, fst.start = some s ∧ ∃ t,
    stateAfter fst (s + 1) u = t + 1 ∧ fst.finalWeight t ≠ 0 ∧ 0 ∉ weightsOn fst (s + 1) u := by
  constructor
  · rintro ⟨p, ⟨s, hstart, t, hp, hfinal⟩, rfl, hweight⟩
    obtain ⟨hstate, hweights⟩ := walk_next h hp
    refine ⟨s, hstart, t, hstate, hfinal, fun hzero => hweight ?_⟩
    rw [hweights] at hzero
    unfold weightOf arcsWeight
    rw [List.prod_eq_zero hzero, zero_mul]
  · rintro ⟨s, hstart, t, hstate, hfinal, hzero⟩
    obtain ⟨p, hp, rfl⟩ := walk_of_stateAfter h hstate
    refine ⟨p, ⟨s, hstart, t, hp, hfinal⟩, rfl, ?_⟩
    have hprod := (prod_weightsOn h (s + 1) (istring p)).2 hzero
    rw [(walk_next h hp).2] at hprod
    unfold weightOf arcsWeight lastWeight
    rw [hprod, one_mul, hstart, Option.getD_some, walkEnd_eq hp]
    exact hfinal

theorem takesZero_iff (hone : (1 : W) ≠ 0) : TakesZero fst u ↔
    ∃ s, fst.start = some s ∧ 0 ∈ weightsOn fst (s + 1) u := by
  constructor
  · rintro ⟨s, t, p, hstart, hp, ⟨v, rfl⟩, e, he, hzero⟩
    refine ⟨s, hstart, ?_⟩
    rw [weightsOn_append, (walk_next h hp).2]
    exact List.mem_append_left _ (List.mem_map.mpr ⟨e, he, hzero⟩)
  · rintro ⟨s, hstart, hzero⟩
    obtain ⟨u₁, label, u₂, rfl, hweight⟩ := exists_of_mem_weightsOn hzero
    cases hstate : stateAfter fst (s + 1) u₁ with
    | zero =>
      rw [hstate] at hweight
      exact absurd hweight hone
    | succ t =>
      rw [hstate] at hweight
      obtain ⟨p, hp, rfl⟩ := walk_of_stateAfter h hstate
      cases hfind : (fst.arcs t).find? fun arc => arc.ilabel = label with
      | none =>
        rw [next_of_none hfind] at hweight
        exact absurd hweight hone
      | some arc =>
        obtain ⟨harc, hlabel⟩ := mem_of_find hfind
        rw [next_of_some hfind] at hweight
        obtain ⟨i, hi⟩ := List.mem_iff_getElem?.mp harc
        refine ⟨s, arc.nextstate, p ++ [(i, arc)], hstart,
          isWalk_append.mpr ⟨t, hp, hi, rfl⟩, ⟨u₂, ?_⟩, (i, arc), by simp, hweight⟩
        have hne := ilabel_ne_epsilon h harc
        rw [← hlabel]
        simp [istring, hne]

end Language

end Sicada.ComplementPaths
