import Mathlib

/- Floating point arithmetic without rounding: the numbers, the infinities and NaN. -/
inductive ExactFloat (K : Type) where
  | finite (x : K)
  | inf
  | negInf
  | nan
deriving DecidableEq

namespace ExactFloat

variable {K : Type}

section Operations

variable [AddCommGroup K]

def add : ExactFloat K → ExactFloat K → ExactFloat K
  | nan, _ => nan
  | _, nan => nan
  | inf, negInf => nan
  | negInf, inf => nan
  | inf, _ => inf
  | _, inf => inf
  | negInf, _ => negInf
  | _, negInf => negInf
  | finite x, finite y => finite (x + y)

def neg : ExactFloat K → ExactFloat K
  | finite x => finite (-x)
  | inf => negInf
  | negInf => inf
  | nan => nan

instance : Zero (ExactFloat K) := ⟨finite 0⟩

instance : Add (ExactFloat K) := ⟨add⟩

instance : Sub (ExactFloat K) := ⟨fun x y => add x (neg y)⟩

@[simp] theorem finite_add (x y : K) : finite x + finite y = finite (x + y) := rfl

@[simp] theorem finite_sub (x y : K) : finite x - finite y = finite (x - y) :=
  congrArg finite (sub_eq_add_neg x y).symm

@[simp] theorem inf_add_finite (x : K) : inf + finite x = inf := rfl

@[simp] theorem finite_add_inf (x : K) : finite x + inf = inf := rfl

@[simp] theorem inf_add_inf : (inf + inf : ExactFloat K) = inf := rfl

end Operations

section Order

variable [LinearOrder K]

def less : ExactFloat K → ExactFloat K → Bool
  | finite x, finite y => x < y
  | finite _, inf => true
  | negInf, finite _ => true
  | negInf, inf => true
  | _, _ => false

@[simp] theorem less_finite (x y : K) : less (finite x) (finite y) = decide (x < y) := rfl

@[simp] theorem less_finite_inf (x : K) : less (finite x) inf = true := rfl

@[simp] theorem less_inf (x : ExactFloat K) : less inf x = false := by
  cases x <;> rfl

end Order

end ExactFloat
