import Sicada.Weights.StringWeight

namespace Sicada

open WeightOps WeightLaws

/- How the elements are ordered and how two that are neither way apart are merged. -/
structure UnionWeightOptions (E : Type) where
  compare : E → E → Bool
  merge : E → E → E
  normalize : List E → List E

/- A sorted set of weights, or no set at all. -/
@[ext]
structure UnionWeight (E : Type) (O : UnionWeightOptions E) where
  elements : Option (List E)
deriving DecidableEq

namespace UnionWeight

variable {E E' : Type} [WeightOps E] [WeightOps E'] {O : UnionWeightOptions E}
  {O' : UnionWeightOptions E'}

section Building

def newBad : UnionWeight E O := ⟨none⟩

def emptySet : UnionWeight E O := ⟨some []⟩

def new (weight : E) : UnionWeight E O := if !isMember weight then newBad else ⟨some [weight]⟩

def size (w : UnionWeight E O) : ℕ := (w.elements.map List.length).getD 0

def isBadSet (w : UnionWeight E O) : Bool := w.elements.isNone

variable (O) in
def ordering (w weight : E) : Ordering :=
  if O.compare w weight then .lt
  else if O.compare weight w then .gt
  else .eq

variable (O) in
def insert (elems : List E) (weight : E) : List E :=
  match BinarySearch.binarySearch (fun w => ordering O w weight) elems with
  | .ok idx => elems.modify idx fun old => O.merge old weight
  | .error idx => elems.insertIdx idx weight

def pushBack (w : UnionWeight E O) (weight : E) (sorted : Bool) : UnionWeight E O :=
  match w.elements with
  | none => w
  | some elems =>
    if !isMember weight then newBad
    else
      match elems.getLast? with
      | none => ⟨some (elems ++ [weight])⟩
      | some back =>
        if sorted then
          if O.compare back weight then ⟨some (elems ++ [weight])⟩
          else if !O.compare weight back then ⟨some (elems.dropLast ++ [O.merge back weight])⟩
          else ⟨some (insert O elems weight)⟩
        else ⟨some (insert O elems weight)⟩

variable (O) in
/- A run of elements that are neither way apart becomes one. -/
def dedup : List E → List E
  | [] => []
  | [b] => [b]
  | b :: a :: elems =>
    if !O.compare a b && !O.compare b a then dedup (O.merge b a :: elems)
    else b :: dedup (a :: elems)
termination_by elems => elems.length

/- The unstable sort of the standard library; elements that are neither way apart are merged. -/
def sort (w : UnionWeight E O) : UnionWeight E O :=
  ⟨w.elements.map fun elems => dedup O (elems.mergeSort fun a b => ordering O a b ≠ .gt)⟩

end Building

section Weights

variable [DecidableEq E]

def zero : UnionWeight E O := emptySet

def one : UnionWeight E O := new WeightOps.one

def noWeight : UnionWeight E O := newBad

def isMember (w : UnionWeight E O) : Bool :=
  match w.elements with
  | none => false
  | some elems => elems.all fun e => WeightOps.isMember e

/- What panics is none: `approxElement` is the comparison of two elements. -/
def approxEqual (approxElement : E → E → Bool) (w w' : UnionWeight E O) : Option Bool :=
  if w.size ≠ w'.size then some false
  else if w.isBadSet && w'.isBadSet then some true
  else
    match w.elements, w'.elements with
    | some e₁, some e₂ => some ((e₁.zip e₂).all fun e => approxElement e.1 e.2)
    | _, _ => none

def pushAll (w : UnionWeight E O) (elems : List E) (sorted : Bool) : UnionWeight E O :=
  elems.foldl (fun w e => w.pushBack e sorted) w

def quantize (quantizeElement : E → E) (w : UnionWeight E O) : UnionWeight E O :=
  match w.elements with
  | some elems => pushAll emptySet (elems.map quantizeElement) true
  | none => newBad

def reverse (reverseElement : E → E') (w : UnionWeight E O) : UnionWeight E' O' :=
  match w.elements with
  | some elems => (pushAll emptySet (elems.map reverseElement) false).sort
  | none => newBad

/- The walk over both lists, the rest of either at its end. -/
def plusElements : List E → List E → UnionWeight E O → UnionWeight E O
  | v₁ :: e₁, v₂ :: e₂, sum =>
    if O.compare v₁ v₂ then plusElements e₁ (v₂ :: e₂) (sum.pushBack v₁ true)
    else if O.compare v₂ v₁ then plusElements (v₁ :: e₁) e₂ (sum.pushBack v₂ true)
    else plusElements e₁ e₂ (sum.pushBack (O.merge v₁ v₂) true)
  | e₁, [], sum => pushAll sum e₁ true
  | [], e₂, sum => pushAll sum e₂ true
termination_by e₁ e₂ => e₁.length + e₂.length

/- The elements of a sum are members, so that there is a list to normalize. -/
def plus (w w' : UnionWeight E O) : UnionWeight E O :=
  if !w.isMember || !w'.isMember then noWeight
  else if w = zero then w'
  else if w' = zero then w
  else
    let sum : UnionWeight E O :=
      plusElements (w.elements.getD []) (w'.elements.getD []) emptySet
    ⟨sum.elements.map O.normalize⟩

def times (w w' : UnionWeight E O) : UnionWeight E O :=
  if !w.isMember || !w'.isMember then noWeight
  else if w = zero || w' = zero then zero
  else
    (w.elements.getD []).foldl (fun prod₁ v₁ =>
      prod₁.plus (pushAll zero ((w'.elements.getD []).map fun v₂ => WeightOps.times v₁ v₂) true))
      zero

instance : WeightOps (UnionWeight E O) where
  zero := zero
  one := one
  noWeight := noWeight
  plus := plus
  times := times
  isMember := isMember
  properties := properties E &&& semiringBits

end Weights

end UnionWeight

section Gallic

variable {L W : Type} [LinearOrder L] [WeightOps W] [DecidableEq W]

/- The first place where two lists of labels differ decides. -/
def labelsBefore : List L → List L → Bool
  | l₁ :: v₁, l₂ :: v₂ =>
    if l₁ < l₂ then true
    else if l₂ < l₁ then false
    else labelsBefore v₁ v₂
  | _, _ => false

def gallicUnionWeightOptions : UnionWeightOptions (GallicWeight L W .restrict) where
  compare w₁ w₂ :=
    let s₁ := w₁.product.value1
    let s₂ := w₂.product.value1
    if s₁.size < s₂.size then true
    else if s₁.size > s₂.size then false
    else
      match s₁.value, s₂.value with
      | .labels v₁, .labels v₂ => labelsBefore v₁ v₂
      | _, _ => false
  merge w₁ w₂ := ⟨⟨w₁.product.value1, plus w₁.product.value2 w₂.product.value2⟩⟩
  normalize weights := weights

/- A set of strings with a weight each. -/
abbrev GeneralGallicWeight (L W : Type) [LinearOrder L] [WeightOps W] [DecidableEq W] : Type :=
  UnionWeight (GallicWeight L W .restrict) gallicUnionWeightOptions

end Gallic

end Sicada
