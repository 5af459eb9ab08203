import Sicada.Queue
import Sicada.Library.Calls

namespace Sicada

open Container

/- The queues as their callers see them, with a comparator that may have a memory. -/
namespace QueueCalls

variable {Q Memory : Type}

section Plain

/- A queue nothing of which moves when it is looked at. -/
def plain (d : Discipline ℕ Q) (head : Q → Option ℕ) (isEmpty : Q → Bool) : Queue ℕ Q :=
  { d with
    head := fun queue => some (head queue, queue)
    isEmpty := fun queue => some (isEmpty queue, queue) }

def trivial : Queue ℕ TrivialQueue :=
  plain TrivialQueue.discipline (·.front) (·.front.isNone)

def fifo : Queue ℕ FifoQueue :=
  plain FifoQueue.discipline (·.states.head?) (·.states.isEmpty)

def lifo : Queue ℕ LifoQueue :=
  plain LifoQueue.discipline (·.states.head?) (·.states.isEmpty)

def topOrder : Queue ℕ TopOrderQueue :=
  plain TopOrderQueue.discipline (·.head) fun queue => queue.back ≤ queue.front

def stateOrder : Queue ℕ StateOrderQueue :=
  plain StateOrderQueue.discipline (·.head) fun queue => queue.back ≤ queue.front

end Plain

section Compared

variable (comp : Memory → ℕ → ℕ → Bool × Memory)

namespace ShortestFirst

variable (tracks : Bool)

def enqueue (state : ℕ) : ShortestFirstQueue × Memory → Option (ShortestFirstQueue × Memory)
  | (queue, memory) =>
    (ComparedHeap.insert comp state queue.heap memory).map fun (key, heap, memory) =>
      (⟨heap, if tracks then Function.update queue.keys state (some key) else queue.keys⟩, memory)

def dequeue : ShortestFirstQueue × Memory → Option ℕ × ShortestFirstQueue × Memory
  | (queue, memory) =>
    match ComparedHeap.pop comp queue.heap memory with
    | (some state, heap, memory) =>
      (some state, ⟨heap, if tracks then Function.update queue.keys state none else queue.keys⟩,
        memory)
    | (none, heap, memory) => (none, ⟨heap, queue.keys⟩, memory)

def update (state : ℕ) : ShortestFirstQueue × Memory → Option (ShortestFirstQueue × Memory)
  | (queue, memory) =>
    if tracks then
      match queue.keys state with
      | some key => (ComparedHeap.update comp key state queue.heap memory).map fun (heap, memory) =>
          (⟨heap, queue.keys⟩, memory)
      | none => enqueue comp tracks state (queue, memory)
    else some (queue, memory)

end ShortestFirst

def shortestFirst (tracks : Bool) : Queue ℕ (ShortestFirstQueue × Memory) where
  enqueue := ShortestFirst.enqueue comp tracks
  dequeue queue := some (ShortestFirst.dequeue comp tracks queue)
  update := ShortestFirst.update comp tracks
  clear := fun (queue, memory) => (⟨queue.heap.clear, fun _ => none⟩, memory)
  head := fun (queue, memory) => some (queue.heap.top, queue, memory)
  isEmpty := fun (queue, memory) => some (queue.heap.elements.isEmpty, queue, memory)

namespace SccInner

def head : SccInnerQueue → Option ℕ
  | .trivial queue => queue.front
  | .fifo queue => queue.states.head?
  | .lifo queue => queue.states.head?
  | .shortestFirst queue => queue.heap.top

def enqueue (state : ℕ) : SccInnerQueue × Memory → Option (SccInnerQueue × Memory)
  | (.trivial queue, memory) =>
    (trivial.enqueue state queue).map fun queue => (.trivial queue, memory)
  | (.fifo queue, memory) => (fifo.enqueue state queue).map fun queue => (.fifo queue, memory)
  | (.lifo queue, memory) => (lifo.enqueue state queue).map fun queue => (.lifo queue, memory)
  | (.shortestFirst queue, memory) =>
    ((shortestFirst comp false).enqueue state (queue, memory)).map (Prod.map .shortestFirst id)

def dequeue : SccInnerQueue × Memory → Option (Option ℕ × SccInnerQueue × Memory)
  | (.trivial queue, memory) =>
    (trivial.dequeue queue).map fun (state, queue) => (state, .trivial queue, memory)
  | (.fifo queue, memory) =>
    (fifo.dequeue queue).map fun (state, queue) => (state, .fifo queue, memory)
  | (.lifo queue, memory) =>
    (lifo.dequeue queue).map fun (state, queue) => (state, .lifo queue, memory)
  | (.shortestFirst queue, memory) =>
    ((shortestFirst comp false).dequeue (queue, memory)).map
      (Prod.map id (Prod.map .shortestFirst id))

def update (state : ℕ) : SccInnerQueue × Memory → Option (SccInnerQueue × Memory)
  | (.trivial queue, memory) =>
    (trivial.update state queue).map fun queue => (.trivial queue, memory)
  | (.fifo queue, memory) => (fifo.update state queue).map fun queue => (.fifo queue, memory)
  | (.lifo queue, memory) => (lifo.update state queue).map fun queue => (.lifo queue, memory)
  | (.shortestFirst queue, memory) =>
    ((shortestFirst comp false).update state (queue, memory)).map (Prod.map .shortestFirst id)

def clear : SccInnerQueue → SccInnerQueue
  | .trivial queue => .trivial (trivial.clear queue)
  | .fifo queue => .fifo (fifo.clear queue)
  | .lifo queue => .lifo (lifo.clear queue)
  | .shortestFirst queue => .shortestFirst ⟨queue.heap.clear, fun _ => none⟩

/- A new queue of the same kind. -/
def fresh : SccInnerQueue → SccInnerQueue
  | .trivial _ => .trivial .new
  | .fifo _ => .fifo .new
  | .lifo _ => .lifo .new
  | .shortestFirst _ => .shortestFirst .new

end SccInner

def sccInner : Queue ℕ (SccInnerQueue × Memory) where
  enqueue := SccInner.enqueue comp
  dequeue := SccInner.dequeue comp
  update := SccInner.update comp
  clear := Prod.map SccInner.clear id
  head := fun (queue, memory) => some (SccInner.head queue, queue, memory)
  isEmpty := fun (queue, memory) => some (queue.isEmpty, queue, memory)

namespace Scc

/- What is done to the queue of a component. -/
def onInner (queue : SccQueue) (memory : Memory) (c : ℕ)
    (f : SccInnerQueue × Memory → Option (SccInnerQueue × Memory)) :
    Option (SccQueue × Memory) :=
  queue.queues[c]?.bind fun inner => (f (inner, memory)).map fun (inner, memory) =>
    ({ queue with queues := queue.queues.set c inner }, memory)

def enqueue (state : ℕ) : SccQueue × Memory → Option (SccQueue × Memory)
  | (queue, memory) => queue.scc[state]?.bind fun c =>
    onInner { queue with
        front := if queue.back ≤ queue.front then c else min queue.front c
        back := if queue.back ≤ queue.front then c + 1 else max queue.back (c + 1) } memory c
      (SccInner.enqueue comp state)

def dequeue : SccQueue × Memory → Option (Option ℕ × SccQueue × Memory)
  | (queue, memory) =>
    let queue := queue.skipEmpty
    if queue.front < queue.back then
      queue.queues[queue.front]?.bind fun inner =>
        (SccInner.dequeue comp (inner, memory)).map fun (state, inner, memory) =>
          (state, { queue with queues := queue.queues.set queue.front inner }, memory)
    else some (none, queue, memory)

def update (state : ℕ) : SccQueue × Memory → Option (SccQueue × Memory)
  | (queue, memory) => queue.scc[state]?.bind fun c =>
    onInner queue memory c (SccInner.update comp state)

def clear (queue : SccQueue) : SccQueue :=
  { queue with
    queues := queue.queues.mapIdx fun c inner =>
      if queue.front ≤ c ∧ c < queue.back then SccInner.clear inner else inner
    front := 0
    back := 0 }

def head (queue : SccQueue) : Option (Option ℕ × SccQueue) :=
  let queue := queue.skipEmpty
  if queue.front < queue.back then
    queue.queues[queue.front]?.map fun inner => (SccInner.head inner, queue)
  else some (none, queue)

end Scc

def scc : Queue ℕ (SccQueue × Memory) where
  enqueue := Scc.enqueue comp
  dequeue := Scc.dequeue comp
  update := Scc.update comp
  clear := fun (queue, memory) => (Scc.clear queue, memory)
  head := fun (queue, memory) => (Scc.head queue).map fun (state, queue) => (state, queue, memory)
  isEmpty := fun (queue, memory) =>
    let queue := queue.skipEmpty
    some (decide (queue.back ≤ queue.front), queue, memory)

end Compared

end QueueCalls

end Sicada
