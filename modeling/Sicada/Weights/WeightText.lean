import Sicada.Weights.UnionWeight

namespace Sicada

open StringParse

open SparsePowerWeight (failing)

/- A text that neither separates parts nor groups them. -/
def Plain (s : List Char) : Prop := ∀ c ∈ s, c ≠ ',' ∧ c ≠ '(' ∧ c ≠ ')'

/- A type of weights with a text of its own, which reads back. -/
structure Leaf (W : Type) where
  text : W → List Char
  fromStr : List Char → Except ParseError W
  reads : ∀ w, fromStr (text w) = .ok w
  plain : ∀ w, Plain (text w)

/- Labels are written as integers. -/
structure LabelText (L : Type) where
  text : L → List Char
  fromStr : List Char → Except ParseError L
  reads : ∀ label, fromStr (text label) = .ok label
  digits : ∀ label, ∀ c ∈ text label, c.isDigit = true ∨ c = '-'

/- Two weights that are only stored together. -/
@[ext]
structure PairWeight (W₁ W₂ : Type) where
  value1 : W₁
  value2 : W₂
deriving DecidableEq

section Texts

variable {A A₁ A₂ : Type}

def writePair (first second : List Char) : List Char := first ++ ',' :: second

/- What is written in a loop, with a separator before all but the first. -/
def writeAll (separator : Char) (parts : List (List Char)) : List Char :=
  [separator].intercalate parts

def readPair (read₁ : List Char → Except ParseError A₁) (read₂ : List Char → Except ParseError A₂)
    (s : List Char) : Except ParseError (A₁ × A₂) := do
  match ← splitWeight s with
  | [part₁, part₂] =>
    let value1 ← read₁ part₁
    let value2 ← read₂ part₂
    .ok (value1, value2)
  | parts => .error (.invalidElementCount 2 parts.length)

def readAll (read : List Char → Except ParseError A) :
    List (List Char) → Except ParseError (List A)
  | [] => .ok []
  | part :: parts => do
    let value ← read part
    let values ← readAll read parts
    .ok (value :: values)

end Texts

section Pairs

variable {W W₁ W₂ L : Type} (write : W → List Char) (write₁ : W₁ → List Char)
  (write₂ : W₂ → List Char) (read : List Char → Except ParseError W)
  (read₁ : List Char → Except ParseError W₁) (read₂ : List Char → Except ParseError W₂)

def PairWeight.text (w : PairWeight W₁ W₂) : List Char :=
  writePair (write₁ w.value1) (write₂ w.value2)

def PairWeight.fromStr (s : List Char) : Except ParseError (PairWeight W₁ W₂) :=
  (readPair read₁ read₂ s).map fun p => ⟨p.1, p.2⟩

def ProductWeight.text (w : ProductWeight W₁ W₂) : List Char :=
  writePair (write₁ w.value1) (write₂ w.value2)

def ProductWeight.fromStr (s : List Char) : Except ParseError (ProductWeight W₁ W₂) :=
  (readPair (failing "W1 of ProductWeight" read₁) (failing "W2 of ProductWeight" read₂) s).map
    fun p => ⟨p.1, p.2⟩

def LexicographicWeight.text (w : LexicographicWeight W₁ W₂) : List Char :=
  writePair (write₁ w.value1) (write₂ w.value2)

def LexicographicWeight.fromStr (s : List Char) : Except ParseError (LexicographicWeight W₁ W₂) :=
  (readPair (failing "W1 of LexicographicWeight" read₁)
    (failing "W2 of LexicographicWeight" read₂) s).map fun p => ⟨p.1, p.2⟩

/- The text of the pair inside. -/
def ExpectationWeight.text (w : ExpectationWeight W) : List Char :=
  PairWeight.text write write ⟨w.value1, w.value2⟩

def ExpectationWeight.fromStr (s : List Char) : Except ParseError (ExpectationWeight W) :=
  (readPair (failing "w1 in ExpectationWeight" read) (failing "w2 in ExpectationWeight" read) s).map
    fun p => ⟨p.1, p.2⟩

def StringWeight.text {S : StringType} (label : L → List Char) (w : StringWeight L S) : List Char :=
  match w.value with
  | .zero => "Infinity".toList
  | .noWeight => "BadString".toList
  | .labels [] => "Epsilon".toList
  | .labels (l :: v) => writeAll '_' ((l :: v).map label)

def StringWeight.fromStr {S : StringType} (label : List Char → Except ParseError L)
    (s : List Char) : Except ParseError (StringWeight L S) :=
  if s = "Infinity".toList then .ok zero
  else if s = "Epsilon".toList then .ok ⟨.labels []⟩
  else if s = "BadString".toList then .ok noWeight
  else
    match readAll label (s.splitOn '_') with
    | .ok v => .ok ⟨.labels v⟩
    | .error _ => .error (.invalidFormat ("Failed to parse labels in string: " ++ String.ofList s))

def GallicWeight.text {G : GallicType} (label : L → List Char) (w : GallicWeight L W G) :
    List Char :=
  ProductWeight.text (StringWeight.text label) write w.product

def GallicWeight.fromStr {G : GallicType} (label : List Char → Except ParseError L)
    (s : List Char) : Except ParseError (GallicWeight L W G) :=
  (ProductWeight.fromStr (StringWeight.fromStr label) read s).map fun product => ⟨product⟩

end Pairs

section Lists

variable {W K E : Type} {n : ℕ} (write : W → List Char) (read : List Char → Except ParseError W)

def PowerWeight.text (w : PowerWeight W n) : List Char :=
  writeAll ',' (List.ofFn fun i => write (w.elements i))

def PowerWeight.fromStr (s : List Char) : Except ParseError (PowerWeight W n) := do
  let parts ← splitWeight s
  if parts.length ≠ n then .error (.invalidElementCount n parts.length)
  else
    let parsed ← readAll (failing "element" read) parts
    if h : parsed.length = n then .ok ⟨fun i => parsed.get (i.cast h.symm)⟩
    else .error (.invalidFormat "Conversion from Vec to array failed")

def SparseTupleWeight.text (key : K → List Char) (t : SparseTupleWeight W K) : List Char :=
  write t.default ++ t.rest.flatMap fun entry => ',' :: key entry.1 ++ ',' :: write entry.2

variable [WeightOps E] {O : UnionWeightOptions E} (writeElement : E → List Char)
  (readElement : List Char → Except ParseError E)

def UnionWeight.text (w : UnionWeight E O) : List Char :=
  match w.elements with
  | none => "BadSet".toList
  | some [] => "EmptySet".toList
  | some (v :: elems) => writeAll ',' ((v :: elems).map writeElement)

def UnionWeight.readElements :
    List (List Char) → UnionWeight E O → Except ParseError (UnionWeight E O)
  | [], weight => .ok weight
  | part :: parts, weight => do
    let v ← failing "inner weight of UnionWeight" readElement part
    readElements parts (weight.pushBack v true)

def UnionWeight.fromStr (s : List Char) : Except ParseError (UnionWeight E O) :=
  let s := trim s
  if s = "EmptySet".toList then .ok emptySet
  else if s = "BadSet".toList then .ok newBad
  else do
    let parts ← splitWeight s
    readElements readElement parts emptySet

end Lists

/- The types of weights that are nested in each other, down to leaves. -/
inductive Nested : Type → Type 1
  | leaf {W : Type} (own : Leaf W) : Nested W
  | pair {W₁ W₂ : Type} (first : Nested W₁) (second : Nested W₂) : Nested (PairWeight W₁ W₂)
  | product {W₁ W₂ : Type} (first : Nested W₁) (second : Nested W₂) : Nested (ProductWeight W₁ W₂)
  | lexicographic {W₁ W₂ : Type} (first : Nested W₁) (second : Nested W₂) :
      Nested (LexicographicWeight W₁ W₂)
  | expectation {W : Type} (inner : Nested W) : Nested (ExpectationWeight W)
  | power {W : Type} (n : ℕ) (inner : Nested W) : Nested (PowerWeight W n)
  | sparsePower {W K : Type} [DecidableEq W] [LinearOrder K] (key : Leaf K) (inner : Nested W) :
      Nested (SparsePowerWeight W K)
  | gallic {L W : Type} (G : GallicType) (label : LabelText L) (inner : Nested W) :
      Nested (GallicWeight L W G)
  | union {E : Type} [WeightOps E] (O : UnionWeightOptions E) (inner : Nested E) :
      Nested (UnionWeight E O)

namespace Nested

def text : {W : Type} → Nested W → W → List Char
  | _, .leaf own, w => own.text w
  | _, .pair first second, w => PairWeight.text first.text second.text w
  | _, .product first second, w => ProductWeight.text first.text second.text w
  | _, .lexicographic first second, w => LexicographicWeight.text first.text second.text w
  | _, .expectation inner, w => ExpectationWeight.text inner.text w
  | _, .power _ inner, w => PowerWeight.text inner.text w
  | _, @sparsePower _ _ _ _ key inner, w => SparseTupleWeight.text inner.text key.text w.inner
  | _, .gallic _ label inner, w => GallicWeight.text inner.text label.text w
  | _, @union _ _ _ inner, w => UnionWeight.text inner.text w

def fromStr : {W : Type} → Nested W → List Char → Except ParseError W
  | _, .leaf own, s => own.fromStr s
  | _, .pair first second, s => PairWeight.fromStr first.fromStr second.fromStr s
  | _, .product first second, s => ProductWeight.fromStr first.fromStr second.fromStr s
  | _, .lexicographic first second, s => LexicographicWeight.fromStr first.fromStr second.fromStr s
  | _, .expectation inner, s => ExpectationWeight.fromStr inner.fromStr s
  | _, .power _ inner, s => PowerWeight.fromStr inner.fromStr s
  | _, @sparsePower _ _ _ _ key inner, s =>
    (SparsePowerWeight.fromStr inner.fromStr key.fromStr s).map fun t => ⟨t⟩
  | _, .gallic _ label inner, s => GallicWeight.fromStr inner.fromStr label.fromStr s
  | _, @union _ _ _ inner, s => UnionWeight.fromStr inner.fromStr s

end Nested

end Sicada
