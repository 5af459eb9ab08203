import Sicada.Weights.SparseTupleWeight

namespace Sicada

open WeightOps WeightLaws

/- The bits a type with componentwise operations takes over from its components. -/
def WeightLaws.semiringBits : BitVec 64 :=
  leftSemiring ||| rightSemiring ||| commutative ||| idempotent

@[ext]
structure ProductWeight (W₁ W₂ : Type) where
  value1 : W₁
  value2 : W₂
deriving DecidableEq

namespace ProductWeight

variable {W₁ W₂ : Type} [WeightOps W₁] [WeightOps W₂]

instance : WeightOps (ProductWeight W₁ W₂) where
  zero := ⟨zero, zero⟩
  one := ⟨one, one⟩
  noWeight := ⟨noWeight, noWeight⟩
  plus w w' := ⟨plus w.value1 w'.value1, plus w.value2 w'.value2⟩
  times w w' := ⟨times w.value1 w'.value1, times w.value2 w'.value2⟩
  isMember w := isMember w.value1 && isMember w.value2
  properties := properties W₁ &&& properties W₂ &&& semiringBits

instance [DivideOps W₁] [DivideOps W₂] : DivideOps (ProductWeight W₁ W₂) where
  divide w w' side :=
    ⟨DivideOps.divide w.value1 w'.value1 side, DivideOps.divide w.value2 w'.value2 side⟩

end ProductWeight

@[ext]
structure PowerWeight (W : Type) (n : ℕ) where
  elements : Fin n → W
deriving DecidableEq

namespace PowerWeight

variable {W : Type} [WeightOps W] {n : ℕ}

instance : WeightOps (PowerWeight W n) where
  zero := ⟨fun _ => zero⟩
  one := ⟨fun _ => one⟩
  noWeight := ⟨fun _ => noWeight⟩
  plus w w' := ⟨fun i => plus (w.elements i) (w'.elements i)⟩
  times w w' := ⟨fun i => times (w.elements i) (w'.elements i)⟩
  isMember w := decide (∀ i, isMember (w.elements i) = true)
  properties := properties W &&& semiringBits

end PowerWeight

@[ext]
structure SparsePowerWeight (W K : Type) where
  inner : SparseTupleWeight W K
deriving DecidableEq

namespace SparsePowerWeight

variable {W K : Type} [WeightOps W] [DecidableEq W] [LinearOrder K]

instance : WeightOps (SparsePowerWeight W K) where
  zero := ⟨SparseTupleWeight.new zero⟩
  one := ⟨SparseTupleWeight.new one⟩
  noWeight := ⟨SparseTupleWeight.new noWeight⟩
  plus w w' := ⟨w.inner.map (fun _ => plus) w'.inner⟩
  times w w' := ⟨w.inner.map (fun _ => times) w'.inner⟩
  isMember w := isMember w.inner.default && w.inner.rest.all fun e => isMember e.2
  properties := properties W &&& semiringBits

end SparsePowerWeight

/- A probability and an expected value that comes with it. -/
@[ext]
structure ExpectationWeight (W : Type) where
  value1 : W
  value2 : W
deriving DecidableEq

class MinusOps (W : Type) where
  minus : W → W → W

namespace ExpectationWeight

variable {W : Type} [WeightOps W]

instance : WeightOps (ExpectationWeight W) where
  zero := ⟨zero, zero⟩
  one := ⟨one, zero⟩
  noWeight := ⟨noWeight, noWeight⟩
  plus w w' := ⟨plus w.value1 w'.value1, plus w.value2 w'.value2⟩
  times w w' := ⟨times w.value1 w'.value1,
    plus (times w.value1 w'.value2) (times w.value2 w'.value1)⟩
  isMember w := isMember w.value1 && isMember w.value2
  properties := properties W &&& semiringBits

instance [DivideOps W] [MinusOps W] : DivideOps (ExpectationWeight W) where
  divide w w' side :=
    let q₁ := DivideOps.divide w.value1 w'.value1 side
    let q₂ :=
      if side = .left then
        let cross := times w'.value2 q₁
        DivideOps.divide (MinusOps.minus w.value2 cross) w'.value1 side
      else
        let cross := times q₁ w'.value2
        DivideOps.divide (MinusOps.minus w.value2 cross) w'.value1 side
    ⟨q₁, q₂⟩

end ExpectationWeight

@[ext]
structure LexicographicWeight (W₁ W₂ : Type) where
  value1 : W₁
  value2 : W₂
deriving DecidableEq

namespace LexicographicWeight

variable {W₁ W₂ : Type} [WeightOps W₁] [WeightOps W₂] [DecidableEq W₁] [DecidableEq W₂]

/- Zeros and nonzeros are not mixed. -/
def isMember (w : LexicographicWeight W₁ W₂) : Bool :=
  if !WeightOps.isMember w.value1 || !WeightOps.isMember w.value2 then false
  else decide (w.value1 = zero) == decide (w.value2 = zero)

def plus (w w' : LexicographicWeight W₁ W₂) : LexicographicWeight W₁ W₂ :=
  if !w.isMember || !w'.isMember then ⟨noWeight, noWeight⟩
  else if w.value1 ≠ w'.value1 ∧ WeightOps.plus w.value1 w'.value1 = w.value1 then w
  else if w.value1 ≠ w'.value1 ∧ WeightOps.plus w.value1 w'.value1 = w'.value1 then w'
  else if w.value2 ≠ w'.value2 ∧ WeightOps.plus w.value2 w'.value2 = w.value2 then w
  else if w.value2 ≠ w'.value2 ∧ WeightOps.plus w.value2 w'.value2 = w'.value2 then w'
  else w

instance : WeightOps (LexicographicWeight W₁ W₂) where
  zero := ⟨zero, zero⟩
  one := ⟨one, one⟩
  noWeight := ⟨noWeight, noWeight⟩
  plus := plus
  times w w' := ⟨times w.value1 w'.value1, times w.value2 w'.value2⟩
  isMember := isMember
  properties := properties W₁ &&& properties W₂ &&& (semiringBits ||| path)

end LexicographicWeight

end Sicada
