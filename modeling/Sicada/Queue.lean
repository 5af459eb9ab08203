import Sicada.IndexedHeap
import Sicada.Library.Container

namespace Sicada

open Container

structure TrivialQueue where
  front : Option ℕ
deriving DecidableEq

namespace TrivialQueue

def new : TrivialQueue := ⟨none⟩

def discipline : Discipline ℕ TrivialQueue where
  enqueue state _ := some ⟨some state⟩
  dequeue queue := some (queue.front, ⟨none⟩)
  update _ queue := some queue
  clear _ := ⟨none⟩

end TrivialQueue

structure FifoQueue where
  states : List ℕ
deriving DecidableEq

namespace FifoQueue

def new : FifoQueue := ⟨[]⟩

def discipline : Discipline ℕ FifoQueue where
  enqueue state queue := some ⟨queue.states ++ [state]⟩
  dequeue queue := some (queue.states.head?, ⟨queue.states.tail⟩)
  update _ queue := some queue
  clear _ := ⟨[]⟩

end FifoQueue

/- The last state is the first of the list. -/
structure LifoQueue where
  states : List ℕ
deriving DecidableEq

namespace LifoQueue

def new : LifoQueue := ⟨[]⟩

def discipline : Discipline ℕ LifoQueue where
  enqueue state queue := some ⟨state :: queue.states⟩
  dequeue queue := some (queue.states.head?, ⟨queue.states.tail⟩)
  update _ queue := some queue
  clear _ := ⟨[]⟩

end LifoQueue

/- `keys` says which key of the heap each state has; past its end there is none. -/
structure ShortestFirstQueue where
  heap : IndexedHeap ℕ
  keys : ℕ → Option ℕ

namespace ShortestFirstQueue

def new : ShortestFirstQueue := ⟨.new, fun _ => none⟩

end ShortestFirstQueue

/- `order` is the position of each state, `slots` the state that waits at each position. -/
structure TopOrderQueue where
  order : List ℕ
  slots : List (Option ℕ)
  front : ℕ
  back : ℕ
deriving DecidableEq

namespace TopOrderQueue

def withOrder (order : List ℕ) : TopOrderQueue :=
  ⟨order, List.replicate order.length none, 0, 0⟩

section Operations

variable (state : ℕ) (queue : TopOrderQueue)

def head : Option ℕ := if queue.front < queue.back then queue.slots.getD queue.front none else none

def enqueue : Option TopOrderQueue :=
  queue.order[state]?.bind fun position =>
    if position < queue.slots.length then
      some { queue with
        front := if queue.back ≤ queue.front then position else min queue.front position
        back := if queue.back ≤ queue.front then position + 1 else max queue.back (position + 1)
        slots := queue.slots.set position (some state) }
    else none

def dequeue : Option ℕ × TopOrderQueue :=
  match queue.head with
  | some state =>
    let slots := queue.slots.set queue.front none
    (some state, { queue with
      slots := slots
      front := nextIn (fun i => (slots.getD i none).isSome) queue.front queue.back })
  | none => (none, queue)

def clear : TopOrderQueue :=
  { queue with
    slots := queue.slots.mapIdx fun i slot => if queue.front ≤ i ∧ i < queue.back then none else slot
    front := 0
    back := 0 }

end Operations

def discipline : Discipline ℕ TopOrderQueue where
  enqueue := enqueue
  dequeue queue := some queue.dequeue
  update _ queue := some queue
  clear := clear

end TopOrderQueue

structure StateOrderQueue where
  queued : ℕ → Bool
  front : ℕ
  back : ℕ

namespace StateOrderQueue

def new : StateOrderQueue := ⟨fun _ => false, 0, 0⟩

section Operations

variable (state : ℕ) (queue : StateOrderQueue)

def head : Option ℕ := if queue.front < queue.back then some queue.front else none

def enqueue : StateOrderQueue :=
  { front := if queue.back ≤ queue.front then state else min queue.front state
    back := if queue.back ≤ queue.front then state + 1 else max queue.back (state + 1)
    queued := Function.update queue.queued state true }

def dequeue : Option ℕ × StateOrderQueue :=
  match queue.head with
  | some state =>
    let queued := Function.update queue.queued queue.front false
    (some state, ⟨queued, nextIn queued queue.front queue.back, queue.back⟩)
  | none => (none, queue)

def clear : StateOrderQueue :=
  ⟨fun i => queue.queued i && !(queue.front ≤ i && i < queue.back), 0, 0⟩

end Operations

def discipline : Discipline ℕ StateOrderQueue where
  enqueue state queue := some (queue.enqueue state)
  dequeue queue := some queue.dequeue
  update _ queue := some queue
  clear := clear

end StateOrderQueue

/- What a component runs. -/
inductive SccInnerQueue where
  | trivial (queue : TrivialQueue)
  | fifo (queue : FifoQueue)
  | lifo (queue : LifoQueue)
  | shortestFirst (queue : ShortestFirstQueue)

namespace SccInnerQueue

variable (comp : ℕ → ℕ → Bool)

def isEmpty : SccInnerQueue → Bool
  | trivial queue => queue.front.isNone
  | fifo queue => queue.states.isEmpty
  | lifo queue => queue.states.isEmpty
  | shortestFirst queue => queue.heap.elements.isEmpty

end SccInnerQueue

/- `scc` is the component of each state; the components from `front` up to `back` may hold some. -/
structure SccQueue where
  queues : List SccInnerQueue
  scc : List ℕ
  front : ℕ
  back : ℕ

namespace SccQueue

variable (comp : ℕ → ℕ → Bool)

def new (scc : List ℕ) (queues : List SccInnerQueue) : SccQueue := ⟨queues, scc, 0, 0⟩

/- The components that have been drained are passed over. -/
def skipEmpty (queue : SccQueue) : SccQueue :=
  { queue with
    front := nextIn (fun c => (queue.queues[c]?.map fun inner => !inner.isEmpty).getD true)
      queue.front queue.back }

end SccQueue

end Sicada
