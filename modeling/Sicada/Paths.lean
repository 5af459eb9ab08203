import Sicada.Library.ListLemmas
import Sicada.Library.Walk
import Sicada.VectorFst

set_option linter.unusedSectionVars false

namespace Sicada

namespace Paths

open Walk

variable {L W : Type} [ArcLabel L]

/- An arc of a path comes with its place among the arcs of the state it leaves, so that parallel
arcs make different paths. -/
def Leaves (fst : VectorFst L W) (s : ℕ) (e : ℕ × Arc L W) : Prop := (fst.arcs s)[e.1]? = some e.2

def follow (_ : ℕ) (e : ℕ × Arc L W) : ℕ := e.2.nextstate

def istring (p : List (ℕ × Arc L W)) : List L := (p.map (·.2.ilabel)).filter (· ≠ epsilon)

def ostring (p : List (ℕ × Arc L W)) : List L := (p.map (·.2.olabel)).filter (· ≠ epsilon)

def enumArcs (arcs : List (Arc L W)) : List (ℕ × Arc L W) := arcs.zipIdx.map Prod.swap

theorem mem_enumArcs {arcs : List (Arc L W)} {e : ℕ × Arc L W} :
    e ∈ enumArcs arcs ↔ arcs[e.1]? = some e.2 := ListLemmas.mem_enum

theorem map_snd_enumArcs (arcs : List (Arc L W)) : (enumArcs arcs).map Prod.snd = arcs :=
  ListLemmas.map_snd_enum arcs

theorem nodup_enumArcs (arcs : List (Arc L W)) : (enumArcs arcs).Nodup := ListLemmas.nodup_enum arcs

/- An FST each of whose arcs is made of one move of a list for its state covers the graph of the
moves. -/
theorem covers_of_moves {V M : Type} {fst : VectorFst L W} {moves : ℕ → List M}
    {pick : ℕ → ℕ × Arc L W → M} {edge : V → M → Prop} {dst : V → M → V} {base : ℕ → V}
    {Known : ℕ → Prop} (hpick : ∀ k e, Known k → Leaves fst k e →
      (moves k)[e.1]? = some (pick k e) ∧ Known e.2.nextstate ∧
        base e.2.nextstate = dst (base k) (pick k e))
    (hlength : ∀ k, Known k → (moves k).length ≤ (fst.arcs k).length)
    (hnodup : ∀ k, (moves k).Nodup) (hedge : ∀ k m, Known k → (m ∈ moves k ↔ edge (base k) m)) :
    Covers (Leaves fst) follow edge dst base pick Known := by
  constructor
  · exact fun k e hk he => (hedge k _ hk).mp (List.mem_of_getElem? (hpick k e hk he).1)
  · exact fun k e hk he => (hpick k e hk he).2.2
  · exact fun k e hk he => (hpick k e hk he).2.1
  · intro k e e' hk he he' heq
    have hm := (hpick k e hk he).1
    rw [heq] at hm
    have hlt := (List.getElem?_eq_some_iff.mp hm).1
    have hplace : e.1 = e'.1 :=
      (List.getElem?_inj hlt (hnodup k)).mp (hm.trans (hpick k e' hk he').1.symm)
    have he'' : (fst.arcs k)[e.1]? = some e'.2 := hplace ▸ he'
    exact Prod.ext hplace (Option.some.inj (he.symm.trans he''))
  · intro k m hk hm
    obtain ⟨i, hi⟩ := List.mem_iff_getElem?.mp ((hedge k m hk).mpr hm)
    have hlt := (List.getElem?_eq_some_iff.mp hi).1.trans_le (hlength k hk)
    have hleaves : Leaves fst k (i, (fst.arcs k)[i]) := List.getElem?_eq_getElem hlt
    exact ⟨_, hleaves, Option.some.inj ((hpick k _ hk hleaves).1.symm.trans hi)⟩

section Weights

variable [Zero W]

def acceptingFrom (fst : VectorFst L W) (s : ℕ) : Set (List (ℕ × Arc L W)) :=
  acceptedFrom (Leaves fst) follow (fun t => fst.finalWeight t ≠ 0) s

def acceptingPaths (fst : VectorFst L W) : Set (List (ℕ × Arc L W)) :=
  {p | ∃ s, fst.start = some s ∧ p ∈ acceptingFrom fst s}

theorem mem_acceptingPaths {fst : VectorFst L W} {s : ℕ} (hs : fst.start = some s)
    {p : List (ℕ × Arc L W)} : p ∈ acceptingPaths fst ↔ p ∈ acceptingFrom fst s := by
  constructor
  · rintro ⟨t, ht, hp⟩
    obtain rfl : s = t := Option.some.inj (hs.symm.trans ht)
    exact hp
  · intro hp
    exact ⟨s, hs, hp⟩

theorem acceptingPaths_of_some {fst : VectorFst L W} {s : ℕ} (hs : fst.start = some s) :
    acceptingPaths fst = acceptingFrom fst s :=
  Set.ext fun p => mem_acceptingPaths hs

theorem acceptingPaths_of_none {fst : VectorFst L W} (hs : fst.start = none) :
    acceptingPaths fst = ∅ := by
  ext p
  constructor
  · rintro ⟨s, hstart, -⟩
    rw [hs] at hstart
    exact absurd hstart (by simp)
  · exact fun hp => hp.elim

theorem acceptingFrom_start {fst : VectorFst L W} {p : List (ℕ × Arc L W)}
    (hp : p ∈ acceptingPaths fst) : p ∈ acceptingFrom fst (fst.start.getD 0) := by
  obtain ⟨s, hs, hp⟩ := hp
  rwa [hs]

/- Where the arcs of one FST stand state by state for those of another, so do the paths. -/
theorem bijOn_of_covers {fst fst' : VectorFst L W} {shadow : ℕ → ℕ × Arc L W → ℕ × Arc L W}
    (h : Covers (Leaves fst') follow (Leaves fst) follow id shadow fun _ => True)
    (hstart : fst'.start = fst.start) (hfinal : fst'.finalWeight = fst.finalWeight) :
    Set.BijOn (Covers.project follow shadow (fst'.start.getD 0)) (acceptingPaths fst')
      (acceptingPaths fst) := by
  cases hs : fst'.start with
  | none =>
    rw [acceptingPaths_of_none hs, acceptingPaths_of_none (hstart.symm.trans hs)]
    exact Set.bijOn_empty _
  | some s =>
    rw [acceptingPaths_of_some hs, acceptingPaths_of_some (hstart.symm.trans hs)]
    exact h.bijOn_project (fun t _ => by rw [hfinal]; rfl) trivial

theorem nil_mem_acceptingFrom {fst : VectorFst L W} {s : ℕ} :
    [] ∈ acceptingFrom fst s ↔ fst.finalWeight s ≠ 0 := nil_mem_acceptedFrom

theorem cons_mem_acceptingFrom {fst : VectorFst L W} {s : ℕ} {e : ℕ × Arc L W}
    {p : List (ℕ × Arc L W)} : e :: p ∈ acceptingFrom fst s ↔
      (fst.arcs s)[e.1]? = some e.2 ∧ p ∈ acceptingFrom fst e.2.nextstate :=
  cons_mem_acceptedFrom

end Weights

variable [Semiring W]

def weightFrom (fst : VectorFst L W) (s : ℕ) (p : List (ℕ × Arc L W)) : W :=
  (p.map (·.2.weight)).prod * fst.finalWeight (walkEnd follow s p)

def pathWeight (fst : VectorFst L W) (p : List (ℕ × Arc L W)) : W :=
  weightFrom fst (fst.start.getD 0) p

end Paths

end Sicada

namespace Sicada

namespace StringWeights

open Paths Walk

variable {L W : Type} [ArcLabel L] [Semiring W]

/- The accepting paths that spell a string on their input side, epsilon a label like any other. -/
def spellings (fst : VectorFst L W) (u : List L) : Set (List (ℕ × Arc L W)) :=
  {p | p ∈ acceptingPaths fst ∧ p.map (·.2.ilabel) = u}

/- The weight an FST gives to a string. -/
noncomputable def stringWeight (fst : VectorFst L W) (u : List L) : W :=
  ∑ᶠ p ∈ spellings fst u, pathWeight fst p

/- The same weight from a state on, letter by letter. -/
def weightFromState (fst : VectorFst L W) : ℕ → List L → W
  | s, [] => fst.finalWeight s
  | s, l :: u => (((fst.arcs s).filter fun arc => arc.ilabel = l).map fun arc =>
      arc.weight * weightFromState fst arc.nextstate u).sum

theorem weightFromState_congr {fst fst' : VectorFst L W} (harcs : fst'.arcs = fst.arcs)
    (hfinal : fst'.finalWeight = fst.finalWeight) (s : ℕ) (u : List L) :
    weightFromState fst' s u = weightFromState fst s u := by
  induction u generalizing s with
  | nil => rw [weightFromState, weightFromState, hfinal]
  | cons l u ih => simp only [weightFromState, harcs, ih]

/- The paths from a state that spell a string, wherever they end. -/
def pathsFrom (fst : VectorFst L W) : ℕ → List L → List (List (ℕ × Arc L W))
  | _, [] => [[]]
  | s, l :: u => ((enumArcs (fst.arcs s)).filter fun e => e.2.ilabel = l).flatMap fun e =>
      (pathsFrom fst e.2.nextstate u).map fun p => e :: p

theorem mem_pathsFrom {fst : VectorFst L W} {u : List L} {s : ℕ} {p : List (ℕ × Arc L W)} :
    p ∈ pathsFrom fst s u ↔
      (∃ t, IsWalk (Leaves fst) follow s p t) ∧ p.map (·.2.ilabel) = u := by
  induction u generalizing s p with
  | nil =>
    simp only [pathsFrom, List.mem_singleton, List.map_eq_nil_iff]
    constructor
    · rintro rfl
      exact ⟨⟨s, rfl⟩, rfl⟩
    · exact fun h => h.2
  | cons l u ih =>
    simp only [pathsFrom, List.mem_flatMap, List.mem_filter, List.mem_map, mem_enumArcs,
      decide_eq_true_eq]
    constructor
    · rintro ⟨e, ⟨he, rfl⟩, p, hp, rfl⟩
      obtain ⟨⟨t, ht⟩, hlabels⟩ := ih.mp hp
      exact ⟨⟨t, he, ht⟩, by rw [List.map_cons, hlabels]⟩
    · rintro ⟨⟨t, ht⟩, hlabels⟩
      cases p with
      | nil => simp at hlabels
      | cons e p =>
        obtain ⟨hl, hrest⟩ := List.cons.inj hlabels
        exact ⟨e, ⟨ht.1, hl⟩, p, ih.mpr ⟨⟨t, ht.2⟩, hrest⟩, rfl⟩

theorem nodup_pathsFrom (fst : VectorFst L W) (s : ℕ) (u : List L) : (pathsFrom fst s u).Nodup := by
  induction u generalizing s with
  | nil => exact List.nodup_singleton _
  | cons l u ih =>
    refine List.nodup_flatMap.mpr ⟨fun e _ => (ih _).map fun p q h => (List.cons.inj h).2, ?_⟩
    refine ((nodup_enumArcs _).filter _).imp ?_
    intro e e' hne p hp hp'
    obtain ⟨q, -, rfl⟩ := List.mem_map.mp hp
    obtain ⟨q', -, heq⟩ := List.mem_map.mp hp'
    exact hne (List.cons.inj heq).1.symm

theorem sum_pathsFrom (fst : VectorFst L W) (s : ℕ) (u : List L) :
    ((pathsFrom fst s u).map (weightFrom fst s)).sum = weightFromState fst s u := by
  induction u generalizing s with
  | nil => simp [pathsFrom, weightFrom, weightFromState, walkEnd]
  | cons l u ih =>
    have hstep : ∀ e : ℕ × Arc L W,
        (((pathsFrom fst e.2.nextstate u).map fun p => e :: p).map (weightFrom fst s)).sum =
          e.2.weight * weightFromState fst e.2.nextstate u := by
      intro e
      have hcons : ∀ p : List (ℕ × Arc L W), weightFrom fst s (e :: p) =
          e.2.weight * weightFrom fst e.2.nextstate p := fun p => mul_assoc _ _ _
      rw [List.map_map, ← ih e.2.nextstate, ← List.sum_map_mul_left]
      exact congrArg List.sum (List.map_congr_left fun p _ => hcons p)
    have harcs : (fst.arcs s).filter (fun arc => arc.ilabel = l) =
        ((enumArcs (fst.arcs s)).filter fun e => e.2.ilabel = l).map Prod.snd := by
      conv_lhs => rw [← map_snd_enumArcs (fst.arcs s)]
      rw [List.filter_map]
      rfl
    rw [pathsFrom, weightFromState, harcs, List.map_flatMap, List.flatMap_def, List.sum_flatten,
      List.map_map, List.map_map]
    exact congrArg List.sum (List.map_congr_left fun e _ => hstep e)

/- A path that spells the string but ends where nothing is final weighs nothing. -/
theorem stringWeight_eq {fst : VectorFst L W} {s : ℕ} (hs : fst.start = some s) (u : List L) :
    stringWeight fst u = weightFromState fst s u := by
  classical
  rw [← sum_pathsFrom, ← List.sum_toFinset _ (nodup_pathsFrom fst s u)]
  have hweight : pathWeight fst = weightFrom fst s := by
    unfold pathWeight
    rw [hs, Option.getD_some]
  unfold stringWeight
  rw [hweight]
  apply finsum_mem_eq_sum_of_inter_support_eq
  ext p
  simp only [Set.mem_inter_iff, spellings, Set.mem_ofPred_eq, Finset.mem_coe, List.mem_toFinset,
    mem_acceptingPaths hs, mem_pathsFrom, Function.mem_support]
  constructor
  · rintro ⟨⟨⟨t, ht, -⟩, hlabels⟩, hne⟩
    exact ⟨⟨⟨t, ht⟩, hlabels⟩, hne⟩
  · rintro ⟨⟨⟨t, ht⟩, hlabels⟩, hne⟩
    refine ⟨⟨⟨t, ht, ?_⟩, hlabels⟩, hne⟩
    intro hzero
    apply hne
    unfold weightFrom
    rw [walkEnd_eq ht, hzero, mul_zero]

theorem stringWeight_of_none {fst : VectorFst L W} (hs : fst.start = none) (u : List L) :
    stringWeight fst u = 0 := by
  simp [stringWeight, spellings, acceptingPaths_of_none hs]

end StringWeights

end Sicada
