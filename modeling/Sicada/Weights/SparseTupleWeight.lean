import Sicada.Library.SortedLists
import Sicada.Weights.Laws
import Sicada.Weights.StringParse

namespace Sicada

open StringParse

/- A default and the entries that differ from it. -/
structure SparseTupleWeight (W K : Type) where
  default : W
  rest : List (K × W)
deriving DecidableEq

namespace SparseTupleWeight

variable {W K : Type} [DecidableEq W] [LinearOrder K]

section Building

def new (default : W) : SparseTupleWeight W K := ⟨default, []⟩

/- The first entry of every key. -/
def dedupKeys : List (K × W) → List (K × W)
  | [] => []
  | entry :: entries => entry :: dedupKeys (entries.dropWhile fun next => next.1 = entry.1)
termination_by entries => entries.length
decreasing_by exact Nat.lt_succ_of_le (List.dropWhile_sublist _).length_le

/- `sort` is the standard library's unstable sort by key. -/
def fromIter (sort : List (K × W) → List (K × W)) (default : W) (entries : List (K × W)) :
    SparseTupleWeight W K :=
  ⟨default, dedupKeys (sort (entries.filter fun entry => entry.2 ≠ default))⟩

def quantize (quantizeWeight : W → W) (t : SparseTupleWeight W K) : SparseTupleWeight W K :=
  let quantizedDef := quantizeWeight t.default
  ⟨quantizedDef, (t.rest.map fun entry => (entry.1, quantizeWeight entry.2)).filter
    fun entry => entry.2 ≠ quantizedDef⟩

def reverse {W' : Type} (reverseWeight : W → W') (t : SparseTupleWeight W K) :
    SparseTupleWeight W' K :=
  ⟨reverseWeight t.default, t.rest.map fun entry => (entry.1, reverseWeight entry.2)⟩

def search (t : SparseTupleWeight W K) (key : K) : Except ℕ ℕ :=
  BinarySearch.binarySearch (fun entry => cmp entry.1 key) t.rest

def value (t : SparseTupleWeight W K) (key : K) : W :=
  match t.search key with
  | .ok idx => (t.rest[idx]?.map (·.2)).getD t.default
  | .error _ => t.default

/- The caller keeps the order. -/
def pushBack (t : SparseTupleWeight W K) (key : K) (weight : W) : SparseTupleWeight W K :=
  if weight ≠ t.default then { t with rest := t.rest ++ [(key, weight)] } else t

def setValue (t : SparseTupleWeight W K) (key : K) (weight : W) : SparseTupleWeight W K :=
  match t.search key with
  | .ok idx =>
    if weight = t.default then { t with rest := t.rest.eraseIdx idx }
    else { t with rest := t.rest.modify idx fun entry => (entry.1, weight) }
  | .error idx =>
    if weight ≠ t.default then { t with rest := t.rest.insertIdx idx (key, weight) } else t

def setDefaultValue (t : SparseTupleWeight W K) (default : W) : SparseTupleWeight W K :=
  ⟨default, t.rest.filter fun entry => entry.2 ≠ default⟩

end Building

section Mapping

variable (mapper : Option K → W → W → W) (default default' : W)

/- The walk over the entries of both. -/
def mapEntries : List (K × W) → List (K × W) → SparseTupleWeight W K → SparseTupleWeight W K
  | [], [], result => result
  | (k, w) :: rest, [], result =>
    mapEntries rest [] (result.pushBack k (mapper (some k) w default'))
  | [], (k', w') :: rest', result =>
    mapEntries [] rest' (result.pushBack k' (mapper (some k') default w'))
  | (k, w) :: rest, (k', w') :: rest', result =>
    match cmp k k' with
    | .eq => mapEntries rest rest' (result.pushBack k (mapper (some k) w w'))
    | .lt => mapEntries rest ((k', w') :: rest') (result.pushBack k (mapper (some k) w default'))
    | .gt => mapEntries ((k, w) :: rest) rest' (result.pushBack k' (mapper (some k') default w'))
termination_by rest rest' => rest.length + rest'.length

def map (mapper : Option K → W → W → W) (t t' : SparseTupleWeight W K) : SparseTupleWeight W K :=
  mapEntries mapper t.default t'.default t.rest t'.rest
    (new (mapper none t.default t'.default))

end Mapping

section Parsing

variable (parseDefault parseWeight : List Char → Except ParseError W)
  (parseKey : List Char → Except ParseError K)

/- `count` is the number of all parts. -/
def readEntries (count : ℕ) :
    List (List Char) → SparseTupleWeight W K → Except ParseError (SparseTupleWeight W K)
  | [], t => .ok t
  | [_], _ => .error (.invalidElementCount (count + 1) count)
  | key :: value :: parts, t => do
    let key ← parseKey key
    let value ← parseWeight value
    readEntries count parts (t.pushBack key value)

def readParts (s : List Char) : Except ParseError (SparseTupleWeight W K) := do
  match ← splitWeight s with
  | [] => .error (.invalidElementCount 1 0)
  | first :: parts =>
    let default ← parseDefault first
    readEntries parseWeight parseKey (parts.length + 1) parts (new default)

def fromStr (s : List Char) : Except ParseError (SparseTupleWeight W K) :=
  readParts parseWeight parseWeight parseKey s

end Parsing

end SparseTupleWeight

namespace SparsePowerWeight

variable {W K : Type} [DecidableEq W] [LinearOrder K]

def failing {A : Type} (message : String) (parse : List Char → Except ParseError A)
    (s : List Char) : Except ParseError A :=
  match parse s with
  | .ok a => .ok a
  | .error _ => .error (.invalidFormat s!"Failed to parse {message}: {String.ofList s}")

/- The same with its own messages. -/
def fromStr (parseWeight : List Char → Except ParseError W)
    (parseKey : List Char → Except ParseError K) (s : List Char) :
    Except ParseError (SparseTupleWeight W K) :=
  SparseTupleWeight.readParts (failing "default weight" parseWeight) (failing "weight" parseWeight)
    (failing "key" parseKey) s

end SparsePowerWeight

end Sicada
