import Sicada.Library.SortedLists
import Sicada.Weights.Laws

namespace Sicada

open WeightLaws

/- A label type that the special values fit. -/
class SetLabel (L : Type) extends LinearOrder L where
  toI64 : L → ℤ
  toI64_lt : ∀ a b, toI64 a < toI64 b ↔ a < b
  setEmpty : L
  setUniv : L
  setBad : L
  toI64_setEmpty : toI64 setEmpty = 0
  toI64_setUniv : toI64 setUniv = -1
  toI64_setBad : toI64 setBad = -2

instance : SetLabel ℤ where
  toI64 label := label
  toI64_lt _ _ := Iff.rfl
  setEmpty := 0
  setUniv := -1
  setBad := -2
  toI64_setEmpty := rfl
  toI64_setUniv := rfl
  toI64_setBad := rfl

/- Which pair of set operations the weights are added and multiplied with. -/
inductive SetKind where
  | intersectUnion
  | unionIntersect
  | intersectUnionRestrict
  | boolean
deriving DecidableEq, Repr

/- Increasing labels, or one special label that stands for a set. -/
structure SetWeight (L : Type) (S : SetKind) where
  labels : List L
deriving DecidableEq

namespace SetWeight

open SetLabel

variable {L : Type} [SetLabel L] {S : SetKind}

section Sets

def emptySet : SetWeight L S := ⟨[setEmpty]⟩

def univSet : SetWeight L S := ⟨[setUniv]⟩

def badSet : SetWeight L S := ⟨[setBad]⟩

def fromSortedVec (labels : List L) : SetWeight L S :=
  if labels.isEmpty then emptySet else ⟨labels⟩

def firstVal (w : SetWeight L S) : ℤ :=
  match w.labels with
  | [] => 0
  | label :: _ => toI64 label

def isEmptySet (w : SetWeight L S) : Bool := decide (w.labels.length = 1) && decide (w.firstVal = 0)

def isUnivSet (w : SetWeight L S) : Bool := decide (w.labels.length = 1) && decide (w.firstVal = -1)

def isBadSet (w : SetWeight L S) : Bool := decide (w.labels.length = 1) && decide (w.firstVal = -2)

def isMember (w : SetWeight L S) : Bool := !w.isBadSet

def unionSets (w w' : SetWeight L S) : SetWeight L S :=
  if !w.isMember || !w'.isMember then badSet
  else if w.isEmptySet then w'
  else if w'.isEmptySet then w
  else if w.isUnivSet then w
  else if w'.isUnivSet then w'
  else fromSortedVec (SortedMerge.union w.labels w'.labels)

def intersectSets (w w' : SetWeight L S) : SetWeight L S :=
  if !w.isMember || !w'.isMember then badSet
  else if w.isEmptySet then w
  else if w'.isEmptySet then w'
  else if w.isUnivSet then w'
  else if w'.isUnivSet then w
  else
    let result := SortedMerge.inter w.labels w'.labels
    if result.isEmpty then emptySet else fromSortedVec result

/- Taken from the universal set, a set of labels leaves it universal. -/
def differenceSets (w w' : SetWeight L S) : SetWeight L S :=
  if !w.isMember || !w'.isMember then badSet
  else if w.isEmptySet then w
  else if w'.isEmptySet then w
  else if w'.isUnivSet then emptySet
  else
    let result := SortedMerge.diff w.labels w'.labels
    if result.isEmpty then emptySet else fromSortedVec result

end Sets

section Semiring

/- The boolean kind compares by the quotient: every value but the zero is true. -/
def eq (w w' : SetWeight L S) : Bool :=
  if S = .boolean then w.isUnivSet == w'.isUnivSet && w.isBadSet == w'.isBadSet
  else decide (w.labels = w'.labels)

def zero : SetWeight L S :=
  match S with
  | .unionIntersect => emptySet
  | _ => univSet

def one : SetWeight L S :=
  match S with
  | .unionIntersect => univSet
  | _ => emptySet

def plus (w w' : SetWeight L S) : SetWeight L S :=
  match S with
  | .unionIntersect => unionSets w w'
  | .intersectUnion => intersectSets w w'
  | .intersectUnionRestrict =>
    if !w.isMember || !w'.isMember then badSet
    else if w.eq zero then w'
    else if w'.eq zero then w
    else if !w.eq w' then badSet
    else w
  | .boolean =>
    if !w.isMember || !w'.isMember then badSet
    else if w.eq one then w
    else if w'.eq one then w'
    else zero

def times (w w' : SetWeight L S) : SetWeight L S :=
  match S with
  | .unionIntersect => intersectSets w w'
  | .boolean =>
    if !w.isMember || !w'.isMember then badSet
    else if w.eq one then w'
    else w
  | .intersectUnion => unionSets w w'
  | .intersectUnionRestrict => unionSets w w'

def divide (w w' : SetWeight L S) (_side : DivideType) : SetWeight L S :=
  match S with
  | .unionIntersect =>
    if !w.isMember || !w'.isMember then badSet
    else if w.eq w' then univSet
    else w
  | .boolean =>
    if !w.isMember || !w'.isMember then badSet
    else if w.eq one || w'.eq zero then one
    else zero
  | .intersectUnion => differenceSets w w'
  | .intersectUnionRestrict => differenceSets w w'

instance : WeightOps (SetWeight L S) where
  zero := zero
  one := one
  noWeight := badSet
  plus := plus
  times := times
  isMember := isMember
  properties := idempotent ||| leftSemiring ||| rightSemiring ||| commutative

instance : DivideOps (SetWeight L S) where
  divide := divide

end Semiring

end SetWeight

end Sicada
