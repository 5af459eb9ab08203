import Sicada.Library.ExactFloat
import Sicada.Weights.Laws
import Sicada.Arc
import Sicada.Library.SortedLists

namespace Sicada

open ExactFloat WeightLaws

/- A graph cost and an acoustic cost, kept apart. -/
structure LatticeWeight (K : Type) where
  graph : ExactFloat K
  acoustic : ExactFloat K
deriving DecidableEq

namespace LatticeWeight

variable {K : Type} [AddCommGroup K] [LinearOrder K]

def zero : LatticeWeight K := ⟨inf, inf⟩

def one : LatticeWeight K := ⟨0, 0⟩

def noWeight : LatticeWeight K := ⟨nan, nan⟩

def total (w : LatticeWeight K) : ExactFloat K := w.graph + w.acoustic

def isMember (w : LatticeWeight K) : Bool :=
  if w.graph = nan ∨ w.acoustic = nan then false
  else if w.graph = negInf ∨ w.acoustic = negInf then false
  else decide (w.graph = inf) == decide (w.acoustic = inf)

/- Better is greater: a smaller total, then a smaller graph cost. -/
def compare (w w' : LatticeWeight K) : Ordering :=
  if less w.total w'.total then .gt
  else if less w'.total w.total then .lt
  else if less w.graph w'.graph then .gt
  else if less w'.graph w.graph then .lt
  else .eq

def plus (w w' : LatticeWeight K) : LatticeWeight K :=
  if !w.isMember || !w'.isMember then noWeight
  else if (w.compare w').isGE then w else w'

def times (w w' : LatticeWeight K) : LatticeWeight K :=
  if !w.isMember || !w'.isMember then noWeight
  else ⟨w.graph + w'.graph, w.acoustic + w'.acoustic⟩

def reverse (w : LatticeWeight K) : LatticeWeight K := w

def divide (w w' : LatticeWeight K) (_side : DivideType) : LatticeWeight K :=
  if !w.isMember || !w'.isMember then noWeight
  else if w' = zero then noWeight
  else if w = zero then zero
  else ⟨w.graph - w'.graph, w.acoustic - w'.acoustic⟩

instance : WeightOps (LatticeWeight K) where
  zero := zero
  one := one
  noWeight := noWeight
  plus := plus
  times := times
  isMember := isMember
  properties := leftSemiring ||| rightSemiring ||| commutative ||| path ||| idempotent

/- A pair of numbers. -/
def ofCosts (graph acoustic : K) : LatticeWeight K := ⟨finite graph, finite acoustic⟩

@[simp] theorem isMember_zero : (zero : LatticeWeight K).isMember = true := rfl

@[simp] theorem isMember_ofCosts (g a : K) : (ofCosts g a).isMember = true := rfl

@[simp] theorem ofCosts_ne_zero (g a : K) : ofCosts g a ≠ zero := by
  intro h
  injection h with hgraph
  cases hgraph

/- The members are the zero and the pairs of numbers. -/
theorem isMember_iff {w : LatticeWeight K} :
    w.isMember = true ↔ w = zero ∨ ∃ g a, w = ofCosts g a := by
  constructor
  · intro h
    obtain ⟨graph, acoustic⟩ := w
    cases graph <;> cases acoustic <;> first | exact Or.inl rfl | exact Or.inr ⟨_, _, rfl⟩ | cases h
  · rintro (rfl | ⟨g, a, rfl⟩) <;> rfl

@[simp] theorem times_ofCosts (g a g' a' : K) :
    (ofCosts g a).times (ofCosts g' a') = ofCosts (g + g') (a + a') := rfl

@[simp] theorem zero_times_ofCosts (g a : K) : zero.times (ofCosts g a) = zero := rfl

@[simp] theorem ofCosts_times_zero (g a : K) : (ofCosts g a).times zero = zero := rfl

@[simp] theorem zero_times_zero : (zero : LatticeWeight K).times zero = zero := rfl

theorem divide_ofCosts (g a g' a' : K) (side : DivideType) :
    (ofCosts g a).divide (ofCosts g' a') side = ofCosts (g - g') (a - a') := by
  unfold divide
  rw [if_neg (by simp), if_neg (ofCosts_ne_zero g' a'), if_neg (ofCosts_ne_zero g a)]
  simp only [ofCosts, finite_sub]

@[simp] theorem compare_zero_zero : (zero : LatticeWeight K).compare zero = .eq := rfl

@[simp] theorem compare_zero_ofCosts (g a : K) : zero.compare (ofCosts g a) = .lt := rfl

@[simp] theorem compare_ofCosts_zero (g a : K) : (ofCosts g a).compare zero = .gt := rfl

theorem compare_ofCosts (g a g' a' : K) :
    (ofCosts g a).compare (ofCosts g' a') =
      (cmp (g' + a') (g + a)).then (cmp g' g) := by
  have hcmp : ∀ x y : K, cmp y x = if x < y then .gt else if y < x then .lt else .eq := by
    intro x y
    rcases lt_trichotomy x y with h | rfl | h
    · rw [if_pos h, (cmp_eq_gt_iff y x).mpr h]
    · simp
    · rw [if_neg h.asymm, if_pos h, (cmp_eq_lt_iff y x).mpr h]
  simp only [compare, ofCosts, total, finite_add, less_finite, decide_eq_true_eq, hcmp]
  split_ifs <;> rfl

end LatticeWeight

end Sicada

namespace Sicada

open WeightLaws

/- A cost and the input labels that earned it. -/
structure CompactLatticeWeight (K L : Type) where
  weight : LatticeWeight K
  alignment : List L
deriving DecidableEq

namespace CompactLatticeWeight

variable {K L : Type} [AddCommGroup K] [LinearOrder K] [ArcLabel L]

section Operations

def zero : CompactLatticeWeight K L := ⟨LatticeWeight.zero, []⟩

def one : CompactLatticeWeight K L := ⟨LatticeWeight.one, []⟩

def noWeight : CompactLatticeWeight K L := ⟨LatticeWeight.noWeight, []⟩

/- The empty alignment is forced on the zero cost. -/
def new (weight : LatticeWeight K) (alignment : List L) : CompactLatticeWeight K L :=
  if weight = LatticeWeight.zero then zero else ⟨weight, alignment⟩

/- The ordering `LatticeWeight` keeps private. -/
def compareLatticeWeights (lhs rhs : LatticeWeight K) : Ordering := lhs.compare rhs

/- Better is greater: the cost decides, then the shorter alignment, then the smaller one. -/
def compare (w w' : CompactLatticeWeight K L) : Ordering :=
  ((compareLatticeWeights w.weight w'.weight).then
    (cmp w'.alignment.length w.alignment.length)).then (cmp w'.alignment w.alignment)

def isMember (w : CompactLatticeWeight K L) : Bool :=
  w.weight.isMember && (decide (w.weight ≠ LatticeWeight.zero) || w.alignment.isEmpty)

def plus (w w' : CompactLatticeWeight K L) : CompactLatticeWeight K L :=
  if !w.isMember || !w'.isMember then noWeight
  else if (w.compare w').isGE then w else w'

def times (w w' : CompactLatticeWeight K L) : CompactLatticeWeight K L :=
  if !w.isMember || !w'.isMember then noWeight
  else
    let weight := w.weight.times w'.weight
    if weight = LatticeWeight.zero then zero else ⟨weight, w.alignment ++ w'.alignment⟩

def reverse (w : CompactLatticeWeight K L) : CompactLatticeWeight K L :=
  ⟨w.weight.reverse, w.alignment.reverse⟩

def divide (w w' : CompactLatticeWeight K L) (side : DivideType) : CompactLatticeWeight K L :=
  if !w.isMember || !w'.isMember then noWeight
  else if w'.weight = LatticeWeight.zero then noWeight
  else if w.weight = LatticeWeight.zero then zero
  else if w.alignment.length < w'.alignment.length then noWeight
  else
    let weight := w.weight.divide w'.weight side
    if !weight.isMember then noWeight
    else
      let split := w.alignment.length - w'.alignment.length
      match side with
      | .left =>
        if w.alignment.take w'.alignment.length ≠ w'.alignment then noWeight
        else new weight (w.alignment.drop w'.alignment.length)
      | .right =>
        if w.alignment.drop split ≠ w'.alignment then noWeight
        else new weight (w.alignment.take split)
      | .any => noWeight

instance : WeightOps (CompactLatticeWeight K L) where
  zero := zero
  one := one
  noWeight := noWeight
  plus := plus
  times := times
  isMember := isMember
  properties := leftSemiring ||| rightSemiring ||| path ||| idempotent

instance : DivideOps (CompactLatticeWeight K L) where
  divide := divide

end Operations

section Members

/- A member other than the zero. -/
def aligned (g a : K) (labels : List L) : CompactLatticeWeight K L :=
  ⟨LatticeWeight.ofCosts g a, labels⟩

variable {w w' : CompactLatticeWeight K L} {g a g' a' : K} {labels labels' : List L}

@[simp] theorem isMember_zero : (zero : CompactLatticeWeight K L).isMember = true := rfl

@[simp] theorem isMember_aligned (g a : K) (labels : List L) :
    (aligned g a labels).isMember = true := by
  simp [isMember, aligned]

theorem isMember_iff :
    w.isMember = true ↔ w = zero ∨ ∃ g a labels, w = aligned g a labels := by
  constructor
  · intro h
    obtain ⟨weight, labels⟩ := w
    simp only [isMember, Bool.and_eq_true, Bool.or_eq_true, decide_eq_true_eq,
      List.isEmpty_iff] at h
    obtain ⟨hweight, hlabels⟩ := h
    rcases LatticeWeight.isMember_iff.mp hweight with rfl | ⟨g, a, rfl⟩
    · obtain rfl := hlabels.resolve_left (not_not_intro rfl)
      exact Or.inl rfl
    · exact Or.inr ⟨g, a, labels, rfl⟩
  · rintro (rfl | ⟨g, a, labels, rfl⟩)
    · exact isMember_zero
    · exact isMember_aligned g a labels

theorem one_eq : (one : CompactLatticeWeight K L) = aligned 0 0 [] := rfl

theorem times_aligned (g a g' a' : K) (labels labels' : List L) :
    (aligned g a labels).times (aligned g' a' labels') =
      aligned (g + g') (a + a') (labels ++ labels') := by
  unfold times
  rw [if_neg (by simp)]
  exact if_neg (LatticeWeight.ofCosts_ne_zero _ _)

theorem zero_times (h : w.isMember) : zero.times w = zero := by
  rcases isMember_iff.mp h with rfl | ⟨g, a, labels, rfl⟩ <;> unfold times
  · rw [if_neg (by simp)]
    exact if_pos rfl
  · rw [if_neg (by simp)]
    exact if_pos rfl

theorem times_zero (h : w.isMember) : w.times zero = zero := by
  rcases isMember_iff.mp h with rfl | ⟨g, a, labels, rfl⟩ <;> unfold times
  · rw [if_neg (by simp)]
    exact if_pos rfl
  · rw [if_neg (by simp)]
    exact if_pos rfl

theorem reverse_zero : (zero : CompactLatticeWeight K L).reverse = zero := rfl

theorem reverse_aligned (g a : K) (labels : List L) :
    (aligned g a labels).reverse = aligned g a labels.reverse := rfl

theorem isMember_reverse (h : w.isMember) : w.reverse.isMember := by
  rcases isMember_iff.mp h with rfl | ⟨g, a, labels, rfl⟩
  · exact isMember_zero
  · exact isMember_aligned g a labels.reverse

end Members

end CompactLatticeWeight

end Sicada
