import Sicada.Library.CommonPrefix
import Sicada.Weights.CompositeWeights

namespace Sicada

open WeightOps WeightLaws CommonPrefix

inductive StringType where
  | left
  | right
  | restrict
deriving DecidableEq, Repr

def StringType.reverse : StringType → StringType
  | .left => .right
  | .right => .left
  | .restrict => .restrict

inductive StringWeightValue (L : Type) where
  | zero
  | noWeight
  | labels (v : List L)
deriving DecidableEq, Repr

@[ext]
structure StringWeight (L : Type) (S : StringType) where
  value : StringWeightValue L
deriving DecidableEq

namespace StringWeight

variable {L : Type} [DecidableEq L] {S : StringType}

def new (labels : List L) : StringWeight L S := ⟨.labels labels⟩

def size (w : StringWeight L S) : ℕ :=
  match w.value with
  | .labels v => v.length
  | _ => 0

def zero : StringWeight L S := ⟨.zero⟩

def one : StringWeight L S := ⟨.labels []⟩

def noWeight : StringWeight L S := ⟨.noWeight⟩

def isMember (w : StringWeight L S) : Bool :=
  match w.value with
  | .noWeight => false
  | _ => true

def reverse (w : StringWeight L S) : StringWeight L S.reverse :=
  match w.value with
  | .zero => zero
  | .noWeight => noWeight
  | .labels v => new v.reverse

def plus (w w' : StringWeight L S) : StringWeight L S :=
  if !w.isMember || !w'.isMember then noWeight
  else
    match w.value, w'.value with
    | .zero, _ => w'
    | _, .zero => w
    | .labels v, .labels v' =>
      match S with
      | .left => new (commonPrefix v v')
      | .right => new (commonPrefix v.reverse v'.reverse).reverse
      | .restrict => if w = w' then w else noWeight
    | _, _ => noWeight

def times (w w' : StringWeight L S) : StringWeight L S :=
  if !w.isMember || !w'.isMember then noWeight
  else
    match w.value, w'.value with
    | .zero, _ => zero
    | _, .zero => zero
    | .labels v, .labels v' => new (v ++ v')
    | _, _ => noWeight

def properties (S : StringType) : BitVec 64 :=
  match S with
  | .left => idempotent ||| leftSemiring
  | .right => idempotent ||| rightSemiring
  | .restrict => idempotent ||| leftSemiring ||| rightSemiring

instance : WeightOps (StringWeight L S) where
  zero := zero
  one := one
  noWeight := noWeight
  plus := plus
  times := times
  isMember := isMember
  properties := properties S

def divide (w w' : StringWeight L S) (typ : DivideType) : StringWeight L S :=
  if !w.isMember || !w'.isMember then noWeight
  else
    match w'.value, w.value with
    | .zero, _ => noWeight
    | _, .zero => zero
    | .labels v', .labels v =>
      match typ with
      | .left =>
        if S = .right then noWeight
        else if v'.length ≤ v.length ∧ v.take v'.length = v' then new (v.drop v'.length)
        else noWeight
      | .right =>
        if S = .left then noWeight
        else if v'.length ≤ v.length ∧ v.drop (v.length - v'.length) = v' then
          new (v.take (v.length - v'.length))
        else noWeight
      | .any => noWeight
    | _, _ => noWeight

instance : DivideOps (StringWeight L S) where
  divide := divide

end StringWeight

inductive GallicType where
  | left
  | right
  | restrict
  | min
deriving DecidableEq, Repr

def GallicType.stringType : GallicType → StringType
  | .left => .left
  | .right => .right
  | .restrict => .restrict
  | .min => .restrict

def GallicType.reverse : GallicType → GallicType
  | .left => .right
  | .right => .left
  | .restrict => .restrict
  | .min => .min

/- A string and a weight. -/
@[ext]
structure GallicWeight (L W : Type) (G : GallicType) where
  product : ProductWeight (StringWeight L G.stringType) W
deriving DecidableEq

namespace GallicWeight

variable {L W : Type} [DecidableEq L] [WeightOps W] [DecidableEq W] {G : GallicType}

def fromParts (labels : StringWeight L G.stringType) (weight : W) : GallicWeight L W G :=
  ⟨⟨labels, weight⟩⟩

def labels (w : GallicWeight L W G) : StringWeight L G.stringType := w.product.value1

def weight (w : GallicWeight L W G) : W := w.product.value2

/- The same for every flavour, whose reverse has the strings of the reversed flavour. -/
def reverse {W' : Type} (reverseWeight : W → W') : {G : GallicType} → GallicWeight L W G →
    GallicWeight L W' G.reverse
  | .left, w => ⟨⟨w.product.value1.reverse, reverseWeight w.product.value2⟩⟩
  | .right, w => ⟨⟨w.product.value1.reverse, reverseWeight w.product.value2⟩⟩
  | .restrict, w => ⟨⟨w.product.value1.reverse, reverseWeight w.product.value2⟩⟩
  | .min, w => ⟨⟨w.product.value1.reverse, reverseWeight w.product.value2⟩⟩

def plus (w w' : GallicWeight L W G) : GallicWeight L W G :=
  if G = .min then
    let p := WeightOps.plus w.product.value2 w'.product.value2
    if p = w.product.value2 ∧ w.product.value2 ≠ w'.product.value2 then w else w'
  else ⟨WeightOps.plus w.product w'.product⟩

instance : WeightOps (GallicWeight L W G) where
  zero := ⟨zero⟩
  one := ⟨one⟩
  noWeight := ⟨noWeight⟩
  plus := plus
  times w w' := ⟨times w.product w'.product⟩
  isMember w := isMember w.product
  properties := properties (ProductWeight (StringWeight L G.stringType) W)

instance [DivideOps W] : DivideOps (GallicWeight L W G) where
  divide w w' typ := ⟨DivideOps.divide w.product w'.product typ⟩

end GallicWeight

end Sicada
