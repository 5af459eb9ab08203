import Sicada.CcVisitors
import Sicada.Relations

namespace Sicada.Superfinals

open Paths Walk Relations

section Reading

variable {L W : Type} [ArcLabel L] [Zero W] [One W] [DecidableEq W]

/- What the final weights become when each is an arc to a state added for the purpose. -/
structure Superfinal (fst fst' : VectorFst L W) : Prop where
  start : fst'.start = fst.start
  numStates : fst'.numStates = fst.numStates + 1
  arcs : ∀ s < fst.numStates, fst'.arcs s = fst.arcs s ++ if fst.finalWeight s ≠ 0 then
    [⟨epsilon, epsilon, fst.finalWeight s, fst.numStates⟩] else []
  finalWeight : ∀ s < fst.numStates, fst'.finalWeight s = 0
  lastArcs : fst'.arcs fst.numStates = []
  lastFinal : fst'.finalWeight fst.numStates = 1

/- What reads the same. -/
structure SameReads (fst fst' : VectorFst L W) : Prop where
  start : fst'.start = fst.start
  numStates : fst'.numStates = fst.numStates
  arcs : ∀ s < fst.numStates, fst'.arcs s = fst.arcs s
  finalWeight : ∀ s < fst.numStates, fst'.finalWeight s = fst.finalWeight s

theorem SameReads.arcs_eq {fst fst' : VectorFst L W} (h : SameReads fst fst') :
    fst'.arcs = fst.arcs := by
  funext s
  by_cases hs : s < fst.numStates
  · exact h.arcs s hs
  · have hnum := h.numStates
    rw [VectorFst.arcs_of_le (by omega), VectorFst.arcs_of_le (by omega)]

theorem SameReads.finalWeight_eq {fst fst' : VectorFst L W} (h : SameReads fst fst') :
    fst'.finalWeight = fst.finalWeight := by
  funext s
  by_cases hs : s < fst.numStates
  · exact h.finalWeight s hs
  · have hnum := h.numStates
    rw [VectorFst.finalWeight_of_le (by omega), VectorFst.finalWeight_of_le (by omega)]

theorem SameReads.inRange {fst fst' : VectorFst L W} (h : SameReads fst fst')
    (hrange : fst.InRange) : fst'.InRange := by
  constructor
  · intro s hs
    rw [h.numStates]
    exact hrange.start s (h.start ▸ hs)
  · intro s arc harc
    rw [h.numStates]
    exact hrange.arcs s arc (h.arcs_eq ▸ harc)

theorem Superfinal.inRange {fst fst' : VectorFst L W} (h : Superfinal fst fst')
    (hrange : fst.InRange) : fst'.InRange := by
  constructor
  · intro s hs
    have hlt := hrange.start s (h.start ▸ hs)
    rw [h.numStates]
    omega
  · refine VectorFst.forall_arcs_of_lt fun s hs arc harc => ?_
    rw [h.numStates] at hs ⊢
    by_cases hlast : s = fst.numStates
    · rw [hlast, h.lastArcs] at harc
      cases harc
    · rw [h.arcs s (by omega), List.mem_append] at harc
      rcases harc with harc | harc
      · have hlt := hrange.arcs s arc harc
        omega
      · split at harc
        · obtain rfl := List.mem_singleton.mp harc
          exact Nat.lt_succ_self _
        · cases harc

/- The edge the final weight of a state becomes. -/
def lastEdge (fst : VectorFst L W) (s : ℕ) : ℕ × Arc L W :=
  ((fst.arcs s).length, ⟨epsilon, epsilon, fst.finalWeight s, fst.numStates⟩)

def extend (fst : VectorFst L W) (s : ℕ) (p : List (ℕ × Arc L W)) : List (ℕ × Arc L W) :=
  p ++ [lastEdge fst (walkEnd follow s p)]

variable {fst fst' : VectorFst L W}

theorem Superfinal.leaves_iff (h : Superfinal fst fst') {s : ℕ} (hs : s < fst.numStates)
    {e : ℕ × Arc L W} :
    Leaves fst' s e ↔ Leaves fst s e ∨ (fst.finalWeight s ≠ 0 ∧ e = lastEdge fst s) := by
  unfold Leaves lastEdge
  rw [h.arcs s hs]
  by_cases hlt : e.1 < (fst.arcs s).length
  · rw [List.getElem?_append_left hlt]
    refine ⟨Or.inl, fun hor => hor.resolve_right ?_⟩
    rintro ⟨-, rfl⟩
    exact absurd hlt (lt_irrefl _)
  · have hnone : (fst.arcs s)[e.1]? = none := List.getElem?_eq_none (by omega)
    rw [List.getElem?_append_right (by omega), hnone]
    by_cases hfinal : fst.finalWeight s = 0
    · simp [hfinal]
    · rw [if_pos hfinal]
      constructor
      · intro hget
        have hidx : e.1 - (fst.arcs s).length = 0 := by
          have hbound := (List.getElem?_eq_some_iff.mp hget).1
          simpa using hbound
        rw [hidx] at hget
        refine Or.inr ⟨hfinal, Prod.ext (by dsimp only; omega) (Option.some.inj hget).symm⟩
      · rintro (hfalse | ⟨-, rfl⟩)
        · cases hfalse
        · simp

theorem Superfinal.accepting_last (h : Superfinal fst fst') {p : List (ℕ × Arc L W)} :
    p ∈ acceptingFrom fst' fst.numStates ↔ p = [] ∧ (1 : W) ≠ 0 := by
  cases p with
  | nil => rw [nil_mem_acceptingFrom, h.lastFinal]; simp
  | cons e p =>
    rw [cons_mem_acceptingFrom, h.lastArcs]
    simp

theorem Superfinal.bijOn_extend (h : Superfinal fst fst') (hrange : fst.InRange)
    (hone : (1 : W) ≠ 0) {s : ℕ} (hs : s < fst.numStates) :
    Set.BijOn (extend fst s) (acceptingFrom fst s) (acceptingFrom fst' s) := by
  refine ⟨?_, ?_, ?_⟩
  · intro p hp
    induction p generalizing s with
    | nil =>
      have hlast : lastEdge fst s :: [] ∈ acceptingFrom fst' s :=
        cons_mem_acceptingFrom.mpr ⟨(h.leaves_iff hs).mpr (Or.inr ⟨nil_mem_acceptingFrom.mp hp, rfl⟩),
          h.accepting_last.mpr ⟨rfl, hone⟩⟩
      exact hlast
    | cons e p ih =>
      obtain ⟨he, hp⟩ := cons_mem_acceptingFrom.mp hp
      have hnext := hrange.arcs s e.2 (List.mem_of_getElem? he)
      exact cons_mem_acceptingFrom.mpr ⟨(h.leaves_iff hs).mpr (Or.inl he), ih hnext hp⟩
  · intro p _ q _ heq
    exact (List.append_inj' heq rfl).1
  · intro q hq
    induction q generalizing s with
    | nil => exact absurd (h.finalWeight s hs) (nil_mem_acceptingFrom.mp hq)
    | cons e q ih =>
      obtain ⟨he, hq⟩ := cons_mem_acceptingFrom.mp hq
      rcases (h.leaves_iff hs).mp he with he | ⟨hfinal, rfl⟩
      · have hnext := hrange.arcs s e.2 (List.mem_of_getElem? he)
        obtain ⟨p, hp, rfl⟩ := ih hnext hq
        exact ⟨e :: p, cons_mem_acceptingFrom.mpr ⟨he, hp⟩, rfl⟩
      · obtain ⟨rfl, -⟩ := h.accepting_last.mp hq
        exact ⟨[], nil_mem_acceptingFrom.mpr hfinal, rfl⟩

end Reading

section Weights

variable {L W : Type} [ArcLabel L] [PreSemiring W] [DecidableEq W] [TopologicalSpace W]
  {fst fst' : VectorFst L W}

theorem SameReads.gives (h : SameReads fst fst') {i o : List L} {w : W} :
    Gives fst i o w ↔ Gives fst' i o w := by
  have hpaths : acceptingPaths fst' = acceptingPaths fst := by
    unfold acceptingPaths acceptingFrom Leaves
    rw [h.start, h.arcs_eq, h.finalWeight_eq]
  have hbij : Set.BijOn id (acceptingPaths fst') (acceptingPaths fst) := by
    rw [hpaths]
    exact Set.bijOn_id _
  refine gives_of_bijOn hbij (fun p _ => ⟨rfl, rfl⟩) fun p _ => ?_
  unfold weightOf lastWeight
  rw [h.start, h.finalWeight_eq]
  rfl

theorem Superfinal.gives (h : Superfinal fst fst') (hrange : fst.InRange) {start : ℕ}
    (hstart : fst.start = some start) {i o : List L} {w : W} :
    Gives fst' i o w ↔ Gives fst i o w := by
  have hlt := hrange.start start hstart
  by_cases hone : (1 : W) = 0
  · have hall : ∀ x : W, x = 0 := fun x => by rw [← one_mul x, hone, zero_mul]
    have hsum : ∀ g : VectorFst L W, Gives g i o w := fun g => by
      unfold Gives
      rw [hall w, funext fun p => hall (weightOf g p)]
      exact hasSum_zero
    exact ⟨fun _ => hsum fst, fun _ => hsum fst'⟩
  have hstart' : fst'.start = some start := h.start.trans hstart
  have hbij : Set.BijOn (extend fst start) (acceptingPaths fst) (acceptingPaths fst') := by
    rw [acceptingPaths_of_some hstart, acceptingPaths_of_some hstart']
    exact h.bijOn_extend hrange hone hlt
  refine gives_of_bijOn hbij (fun p _ => ?_) fun p hp => ?_
  · unfold extend istring ostring lastEdge
    simp
  · have hend : walkEnd follow start (extend fst start p) = fst.numStates := by
      unfold extend walkEnd
      rw [List.foldl_append]
      rfl
    unfold weightOf lastWeight
    rw [hstart, hstart', Option.getD_some, hend, h.lastFinal]
    simp [arcsWeight, extend, lastEdge]

end Weights

end Sicada.Superfinals
