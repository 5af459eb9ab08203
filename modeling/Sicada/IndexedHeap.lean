import Mathlib

namespace Sicada

structure Node (T : Type) where
  value : T
  key : BitVec 32
deriving DecidableEq

/- `pos` says where the element of a key lies; the entry of a freed key holds the next free one,
with a flag. -/
structure IndexedHeap (T : Type) where
  elements : List (Node T)
  pos : List (BitVec 32)
  freeHead : BitVec 32
deriving DecidableEq

namespace IndexedHeap

variable {T : Type}

def freeFlag : BitVec 32 := 0x80000000#32

def noFree : BitVec 32 := freeFlag - 1

def new : IndexedHeap T := ⟨[], [], noFree⟩

def top (heap : IndexedHeap T) : Option T := heap.elements.head?.map (·.value)

def indexOf (key : ℕ) (heap : IndexedHeap T) : Option ℕ :=
  match heap.pos[key]? with
  | some index => if index &&& freeFlag = 0 then some index.toNat else none
  | none => none

def get (key : ℕ) (heap : IndexedHeap T) : Option T :=
  (heap.indexOf key).bind fun index => heap.elements[index]?.map (·.value)

def release (key : BitVec 32) (heap : IndexedHeap T) : IndexedHeap T :=
  { heap with pos := heap.pos.set key.toNat (freeFlag ||| heap.freeHead), freeHead := key }

/- Puts an element where it belongs, in the array and in the table. -/
def place (index : ℕ) (node : Node T) (heap : IndexedHeap T) : IndexedHeap T :=
  { heap with
    elements := heap.elements.set index node
    pos := heap.pos.set node.key.toNat (.ofNat 32 index) }

section Operations

variable (comp : T → T → Bool)

def clear (heap : IndexedHeap T) : IndexedHeap T :=
  heap.elements.foldr (fun node heap => heap.release node.key) { heap with elements := [] }

end Operations

section Contents

/- The values in the heap, in its order. -/
def values (heap : IndexedHeap T) : List T := heap.elements.map (·.value)

variable {comp : T → T → Bool}

theorem set_set_perm {xs : List (Node T)} {i j : ℕ} (hij : i ≠ j) {x y : Node T}
    (hi : i < xs.length) (hy : xs[j]? = some y) :
    ((xs.set i y).set j x).Perm (xs.set i x) := by
  obtain ⟨hj, hget⟩ := List.getElem?_eq_some_iff.mp hy
  have hj' : j < (xs.set i y).length := by rwa [List.length_set]
  have hself : (xs.set i y)[j] = y := by rw [List.getElem_set_ne hij, hget]
  have hrest : ((xs.set i y).eraseIdx j).Perm (xs.eraseIdx i) := by
    apply List.Perm.cons_inv (a := y)
    have hcons := List.getElem_cons_eraseIdx_perm hj'
    rw [hself] at hcons
    exact hcons.trans (List.set_perm_cons_eraseIdx hi y)
  have hleft := List.set_perm_cons_eraseIdx hj' x
  exact hleft.trans ((hrest.cons x).trans (List.set_perm_cons_eraseIdx hi x).symm)

@[simp] theorem elements_place (i : ℕ) (node : Node T) (heap : IndexedHeap T) :
    (heap.place i node).elements = heap.elements.set i node := rfl

theorem set_self {xs : List (Node T)} {i : ℕ} {x : Node T} (h : xs[i]? = some x) :
    xs.set i x = xs := by
  obtain ⟨hi, rfl⟩ := List.getElem?_eq_some_iff.mp h
  exact List.set_getElem_self hi

theorem values_clear (heap : IndexedHeap T) : heap.clear.values = [] := by
  have hnil : ∀ (nodes : List (Node T)) (heap : IndexedHeap T), heap.elements = [] →
      (nodes.foldr (fun node heap => heap.release node.key) heap).elements = [] := by
    intro nodes heap hheap
    induction nodes with
    | nil => exact hheap
    | cons node nodes ih => exact ih
  unfold clear values
  rw [hnil _ _ rfl, List.map_nil]

end Contents

end IndexedHeap

/- A heap whose comparator keeps a state of its own, so that what it answers may change from one
call to the next. `none` is an assertion that fails, debug assertions among them. -/
namespace ComparedHeap

variable {T Memory : Type} (comp : Memory → T → T → Bool × Memory)

section Sifting

variable (node : Node T)

/- A hole wanders up until the element that was lifted out belongs there. -/
def moveUp : ℕ → ℕ → IndexedHeap T → Memory → IndexedHeap T × Memory
  | 0, hole, heap, memory => (heap.place hole node, memory)
  | fuel + 1, hole, heap, memory =>
    if hole = 0 then (heap.place hole node, memory)
    else
      match heap.elements[(hole - 1) / 2]? with
      | some parent =>
        let (outranks, memory) := comp memory node.value parent.value
        if outranks then moveUp fuel ((hole - 1) / 2) (heap.place hole parent) memory
        else (heap.place hole node, memory)
      | none => (heap.place hole node, memory)

/- The child that goes before the other. -/
def bestChild (hole : ℕ) (heap : IndexedHeap T) (memory : Memory) :
    Option (ℕ × Node T × Memory) :=
  heap.elements[2 * hole + 1]?.map fun left =>
    match heap.elements[2 * hole + 2]? with
    | some right =>
      let (outranks, memory) := comp memory right.value left.value
      if outranks then (2 * hole + 2, right, memory) else (2 * hole + 1, left, memory)
    | none => (2 * hole + 1, left, memory)

def moveDown : ℕ → ℕ → IndexedHeap T → Memory → IndexedHeap T × Memory
  | 0, hole, heap, memory => (heap.place hole node, memory)
  | fuel + 1, hole, heap, memory =>
    match bestChild comp hole heap memory with
    | some (best, child, memory) =>
      let (outranks, memory) := comp memory child.value node.value
      if outranks then moveDown fuel best (heap.place hole child) memory
      else (heap.place hole node, memory)
    | none => (heap.place hole node, memory)

def siftUp (index : ℕ) (heap : IndexedHeap T) (memory : Memory) : IndexedHeap T × Memory :=
  if index = 0 then (heap, memory)
  else
    match heap.elements[index]? with
    | some node => moveUp comp node index index heap memory
    | none => (heap, memory)

def siftDown (index : ℕ) (heap : IndexedHeap T) (memory : Memory) : IndexedHeap T × Memory :=
  match heap.elements[index]? with
  | some node => moveDown comp node heap.elements.length index heap memory
  | none => (heap, memory)

end Sifting

section Operations

open IndexedHeap

def insert (value : T) (heap : IndexedHeap T) (memory : Memory) :
    Option (ℕ × IndexedHeap T × Memory) :=
  let index := heap.elements.length
  if noFree.toNat ≤ index then none
  else
    let key := if heap.freeHead ≠ noFree then heap.freeHead else .ofNat 32 heap.pos.length
    let heap := if heap.freeHead ≠ noFree then
        { heap with
          freeHead := heap.pos.getD heap.freeHead.toNat 0 &&& ~~~freeFlag
          pos := heap.pos.set heap.freeHead.toNat (.ofNat 32 index) }
      else { heap with pos := heap.pos ++ [.ofNat 32 index] }
    let (heap, memory) :=
      siftUp comp index { heap with elements := heap.elements ++ [⟨value, key⟩] } memory
    some (key.toNat, heap, memory)

def update (key : ℕ) (value : T) (heap : IndexedHeap T) (memory : Memory) :
    Option (IndexedHeap T × Memory) := do
  let index ← heap.pos[key]?
  let node ← heap.elements[index.toNat]?
  let heap := { heap with elements := heap.elements.set index.toNat { node with value := value } }
  match if 0 < index.toNat then heap.elements[(index.toNat - 1) / 2]? else none with
  | some parent =>
    let (outranks, memory) := comp memory value parent.value
    if outranks then some (siftUp comp index.toNat heap memory)
    else some (siftDown comp index.toNat heap memory)
  | none => some (siftDown comp index.toNat heap memory)

/- The last element takes the place of the first. -/
def pop (heap : IndexedHeap T) (memory : Memory) : Option T × IndexedHeap T × Memory :=
  match heap.elements.getLast?, heap.elements.dropLast with
  | none, _ => (none, heap, memory)
  | some last, [] => (some last.value, release last.key { heap with elements := [] }, memory)
  | some last, root :: elements =>
    (some root.value, siftDown comp 0 (release root.key
      { heap with elements := last :: elements, pos := heap.pos.set last.key.toNat 0 }) memory)

end Operations

end ComparedHeap

inductive HeapOp (T : Type)
  | insert (value : T)
  | update (key : ℕ) (value : T)
  | pop
  | top
  | get (key : ℕ)
  | clear
deriving DecidableEq

inductive HeapAnswer (T : Type)
  | key (key : ℕ)
  | value (value : Option T)
  | done
deriving DecidableEq

def HeapOp.apply {T Memory : Type} (comp : Memory → T → T → Bool × Memory) :
    HeapOp T → IndexedHeap T → Memory → Option (HeapAnswer T × IndexedHeap T × Memory)
  | .insert value, heap, memory =>
    (ComparedHeap.insert comp value heap memory).map fun (key, after) => (.key key, after)
  | .update key value, heap, memory =>
    (ComparedHeap.update comp key value heap memory).map fun after => (.done, after)
  | .pop, heap, memory =>
    let (value, after) := ComparedHeap.pop comp heap memory
    some (.value value, after)
  | .top, heap, memory => some (.value heap.top, heap, memory)
  | .get key, heap, memory => some (.value (heap.get key), heap, memory)
  | .clear, heap, memory => some (.done, heap.clear, memory)

/- What a heap is for: the value each live key names. -/
def HeapOp.Step {T : Type} (live : ℕ → Option T) (answer : HeapAnswer T) (live' : ℕ → Option T) :
    HeapOp T → Prop
  | .insert value =>
    ∃ key, answer = .key key ∧ live key = none ∧ live' = Function.update live key (some value)
  | .update key value =>
    answer = .done ∧ live key ≠ none ∧ live' = Function.update live key (some value)
  | .pop =>
    (∃ key value, live key = some value ∧ answer = .value (some value) ∧
      live' = Function.update live key none) ∨
    (∀ key, live key = none) ∧ answer = .value none ∧ live' = live
  | .top =>
    live' = live ∧ ((∃ key value, live key = some value ∧ answer = .value (some value)) ∨
      (∀ key, live key = none) ∧ answer = .value none)
  | .get key => live' = live ∧ answer = .value (live key)
  | .clear => answer = .done ∧ live' = fun _ => none

/- A key that names nothing cannot be updated, and there are only so many keys. -/
def HeapOp.Panics {T : Type} (live : ℕ → Option T) : HeapOp T → Prop
  | .insert _ => IndexedHeap.noFree.toNat ≤ {key | live key ≠ none}.ncard
  | .update key _ => live key = none
  | _ => False

end Sicada
