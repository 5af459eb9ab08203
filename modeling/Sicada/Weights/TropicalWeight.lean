import Sicada.Library.SortedLists
import Sicada.Weights.Laws
import Sicada.Library.ExactFloat

namespace Sicada

/- The order of a weight type with the path property: the smaller of two weights is their sum. -/
namespace NaturalOrder

open WeightOps WeightLaws

class PathWeight (W : Type) [WeightOps W] : Prop where
  laws : Laws W
  declares : Declares W path

abbrev Member (W : Type) [WeightOps W] : Type := {a : W // isMember a = true}

variable {W : Type} [WeightOps W]

theorem plus_self [PathWeight W] (a : Member W) : plus a.1 a.1 = a.1 :=
  (PathWeight.laws.plus_path PathWeight.declares a.1 a.1 a.2 a.2).elim id id

noncomputable instance [PathWeight W] : LinearOrder (Member W) where
  le a b := plus a.1 b.1 = a.1
  le_refl := plus_self
  le_trans a b c hab hbc := by
    rw [← hab, PathWeight.laws.plus_assoc _ _ _ a.2 b.2 c.2, hbc]
  le_antisymm a b hab hba := by
    have hcomm : plus a.1 b.1 = plus b.1 a.1 := PathWeight.laws.plus_comm _ _ a.2 b.2
    exact Subtype.ext (hab.symm.trans (hcomm.trans hba))
  le_total a b := by
    rcases PathWeight.laws.plus_path PathWeight.declares a.1 b.1 a.2 b.2 with h | h
    · exact Or.inl h
    · exact Or.inr ((PathWeight.laws.plus_comm _ _ b.2 a.2).trans h)
  toDecidableLE := Classical.decRel _

variable [PathWeight W] {a b c : Member W}

theorem le_iff : a ≤ b ↔ plus a.1 b.1 = a.1 := Iff.rfl

theorem plus_of_le (h : a ≤ b) : plus a.1 b.1 = a.1 := h

theorem plus_of_ge (h : b ≤ a) : plus a.1 b.1 = b.1 :=
  (PathWeight.laws.plus_comm _ _ a.2 b.2).trans h

theorem le_zero (a : Member W) : a ≤ ⟨zero, PathWeight.laws.zero_member⟩ :=
  PathWeight.laws.plus_zero a.2

def product (a b : Member W) : Member W :=
  ⟨times a.1 b.1, PathWeight.laws.times_member _ _ a.2 b.2⟩

theorem product_le_left (h : Declares W leftSemiring) (hbc : b ≤ c) :
    product a b ≤ product a c := by
  have hdist := PathWeight.laws.left_distrib h _ _ _ a.2 b.2 c.2
  rw [hbc] at hdist
  exact hdist.symm

theorem product_le_right (h : Declares W rightSemiring) (hbc : b ≤ c) :
    product b a ≤ product c a := by
  have hdist := PathWeight.laws.right_distrib h _ _ _ a.2 b.2 c.2
  rw [hbc] at hdist
  exact hdist.symm

/- The other factor of a product with a weight that is not zero is the only one. -/
def Cancellative (W : Type) [WeightOps W] : Prop :=
  ∀ a b c : W, isMember a = true → isMember b = true → isMember c = true → c ≠ zero →
    (times c a = times c b → a = b) ∧ (times a c = times b c → a = b)

theorem product_inj_left (h : Cancellative W) (ha : a.1 ≠ zero) :
    product a b = product a c ↔ b = c := by
  constructor
  · intro heq
    exact Subtype.ext ((h _ _ _ b.2 c.2 a.2 ha).1 (congrArg Subtype.val heq))
  · rintro rfl
    rfl

theorem product_inj_right (h : Cancellative W) (ha : a.1 ≠ zero) :
    product b a = product c a ↔ b = c := by
  constructor
  · intro heq
    exact Subtype.ext ((h _ _ _ b.2 c.2 a.2 ha).2 (congrArg Subtype.val heq))
  · rintro rfl
    rfl

theorem product_lt_left (h : Cancellative W) (hleft : Declares W leftSemiring) (ha : a.1 ≠ zero) :
    product a b < product a c ↔ b < c := by
  constructor
  · intro hlt
    exact lt_of_not_ge fun hle => absurd (product_le_left hleft hle) (not_le.mpr hlt)
  · intro hlt
    exact lt_of_le_of_ne (product_le_left hleft hlt.le)
      fun heq => hlt.ne ((product_inj_left h ha).mp heq)

theorem product_lt_right (h : Cancellative W) (hright : Declares W rightSemiring)
    (ha : a.1 ≠ zero) : product b a < product c a ↔ b < c := by
  constructor
  · intro hlt
    exact lt_of_not_ge fun hle => absurd (product_le_right hright hle) (not_le.mpr hlt)
  · intro hlt
    exact lt_of_le_of_ne (product_le_right hright hlt.le)
      fun heq => hlt.ne ((product_inj_right h ha).mp heq)

theorem product_le_left_iff (h : Cancellative W) (hleft : Declares W leftSemiring)
    (ha : a.1 ≠ zero) : product a b ≤ product a c ↔ b ≤ c := by
  rw [← not_lt, product_lt_left h hleft ha, not_lt]

theorem product_le_right_iff (h : Cancellative W) (hright : Declares W rightSemiring)
    (ha : a.1 ≠ zero) : product b a ≤ product c a ↔ b ≤ c := by
  rw [← not_lt, product_lt_right h hright ha, not_lt]

theorem product_ne_zero (h : Cancellative W) (ha : a.1 ≠ zero) :
    (product a b).1 = zero ↔ b.1 = zero := by
  constructor
  · intro hzero
    exact (h _ _ _ b.2 PathWeight.laws.zero_member a.2 ha).1
      (hzero.trans (PathWeight.laws.times_zero _ a.2).symm)
  · intro hzero
    change times a.1 b.1 = zero
    rw [hzero]
    exact PathWeight.laws.times_zero _ a.2

end NaturalOrder

open ExactFloat WeightLaws

/- The tropical weight, its floating point without rounding. -/
@[ext]
structure TropicalWeight (K : Type) where
  value : ExactFloat K
deriving DecidableEq

namespace TropicalWeight

variable {K : Type} [AddCommGroup K] [LinearOrder K]

def isMember (w : TropicalWeight K) : Bool := less negInf w.value

def plus (w w' : TropicalWeight K) : TropicalWeight K :=
  if !w.isMember || !w'.isMember then ⟨nan⟩
  else if less w.value w'.value then w
  else w'

instance : WeightOps (TropicalWeight K) where
  zero := ⟨inf⟩
  one := ⟨0⟩
  noWeight := ⟨nan⟩
  plus := plus
  times w w' := ⟨w.value + w'.value⟩
  isMember := isMember
  properties := leftSemiring ||| rightSemiring ||| commutative ||| path ||| idempotent

instance : DivideOps (TropicalWeight K) where
  divide w w' _ := if w'.isMember then ⟨w.value - w'.value⟩ else ⟨nan⟩

def ofCost (x : K) : TropicalWeight K := ⟨finite x⟩

open WeightOps

theorem member_cases {a : TropicalWeight K} (h : WeightOps.isMember a = true) :
    a = zero ∨ ∃ x, a = ofCost x := by
  obtain ⟨value⟩ := a
  cases value with
  | finite x => exact Or.inr ⟨x, rfl⟩
  | inf => exact Or.inl rfl
  | negInf => cases h
  | nan => cases h

theorem ofCost_member (x : K) : WeightOps.isMember (ofCost x) = true := rfl

@[simp] theorem ofCost_plus (x y : K) :
    WeightOps.plus (ofCost x) (ofCost y) = ofCost (min x y) := by
  change (if less (finite x) (finite y) then ofCost x else ofCost y) = _
  rw [less_finite]
  rcases lt_or_ge x y with h | h
  · rw [if_pos (decide_eq_true h), min_eq_left h.le]
  · rw [if_neg (by simpa using h), min_eq_right h]

@[simp] theorem zero_plus_ofCost (x : K) : WeightOps.plus zero (ofCost x) = ofCost x := rfl

@[simp] theorem ofCost_plus_zero (x : K) : WeightOps.plus (ofCost x) zero = ofCost x := rfl

@[simp] theorem zero_plus_zero : WeightOps.plus zero (zero : TropicalWeight K) = zero := rfl

@[simp] theorem ofCost_times (x y : K) : times (ofCost x) (ofCost y) = ofCost (x + y) := rfl

@[simp] theorem zero_times_ofCost (x : K) : times zero (ofCost x) = zero := rfl

@[simp] theorem ofCost_times_zero (x : K) : times (ofCost x) zero = zero := rfl

@[simp] theorem zero_times_zero : times zero (zero : TropicalWeight K) = zero := rfl

theorem one_eq : (one : TropicalWeight K) = ofCost 0 := rfl

theorem declares_path : Declares (TropicalWeight K) path := fun h => by
  have hbits : (leftSemiring ||| rightSemiring ||| commutative ||| path ||| idempotent) &&&
      path = 0 := h
  exact absurd hbits (by decide)

theorem laws [IsOrderedAddMonoid K] : Laws (TropicalWeight K) where
  zero_member := rfl
  one_member := rfl
  plus_member a b ha hb := by
    obtain rfl | ⟨x, rfl⟩ := member_cases ha <;> obtain rfl | ⟨y, rfl⟩ := member_cases hb <;>
      simp [ofCost_member, ha]
  times_member a b ha hb := by
    obtain rfl | ⟨x, rfl⟩ := member_cases ha <;> obtain rfl | ⟨y, rfl⟩ := member_cases hb <;> rfl
  plus_assoc a b c ha hb hc := by
    obtain rfl | ⟨x, rfl⟩ := member_cases ha <;> obtain rfl | ⟨y, rfl⟩ := member_cases hb <;>
      obtain rfl | ⟨z, rfl⟩ := member_cases hc <;> simp [min_assoc]
  plus_comm a b ha hb := by
    obtain rfl | ⟨x, rfl⟩ := member_cases ha <;> obtain rfl | ⟨y, rfl⟩ := member_cases hb <;>
      simp [min_comm]
  zero_plus a ha := by obtain rfl | ⟨x, rfl⟩ := member_cases ha <;> rfl
  times_assoc a b c ha hb hc := by
    obtain rfl | ⟨x, rfl⟩ := member_cases ha <;> obtain rfl | ⟨y, rfl⟩ := member_cases hb <;>
      obtain rfl | ⟨z, rfl⟩ := member_cases hc <;> simp [add_assoc]
  one_times a ha := by obtain rfl | ⟨x, rfl⟩ := member_cases ha <;> simp [one_eq]
  times_one a ha := by obtain rfl | ⟨x, rfl⟩ := member_cases ha <;> simp [one_eq]
  zero_times a ha := by obtain rfl | ⟨x, rfl⟩ := member_cases ha <;> rfl
  times_zero a ha := by obtain rfl | ⟨x, rfl⟩ := member_cases ha <;> rfl
  left_distrib _ a b c ha hb hc := by
    obtain rfl | ⟨x, rfl⟩ := member_cases ha <;> obtain rfl | ⟨y, rfl⟩ := member_cases hb <;>
      obtain rfl | ⟨z, rfl⟩ := member_cases hc <;> simp [min_add_add_left]
  right_distrib _ a b c ha hb hc := by
    obtain rfl | ⟨x, rfl⟩ := member_cases ha <;> obtain rfl | ⟨y, rfl⟩ := member_cases hb <;>
      obtain rfl | ⟨z, rfl⟩ := member_cases hc <;> simp [min_add_add_right]
  times_comm _ a b ha hb := by
    obtain rfl | ⟨x, rfl⟩ := member_cases ha <;> obtain rfl | ⟨y, rfl⟩ := member_cases hb <;>
      simp [add_comm]
  plus_idem _ a ha := by obtain rfl | ⟨x, rfl⟩ := member_cases ha <;> simp
  plus_path _ a b ha hb := by
    obtain rfl | ⟨x, rfl⟩ := member_cases ha <;> obtain rfl | ⟨y, rfl⟩ := member_cases hb
    · exact Or.inl rfl
    · exact Or.inr rfl
    · exact Or.inl rfl
    · rw [ofCost_plus]
      rcases min_choice x y with h | h <;> rw [h]
      · exact Or.inl rfl
      · exact Or.inr rfl

end TropicalWeight

end Sicada
