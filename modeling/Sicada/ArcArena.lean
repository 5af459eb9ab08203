import Sicada.Runs

namespace Sicada

/- Handle to a committed run of arcs, three `u32`s. -/
structure ArcRun where
  block : ℕ
  start : ℕ
  len : ℕ
deriving DecidableEq, Repr

/- Blocks no longer written to, the one being filled with the capacity it was given, and where in
it the run in progress starts. -/
structure ArcArena (A : Type) where
  retired : List (List A)
  current : List A
  capacity : ℕ
  start : ℕ
  blockSize : ℕ
  firstBlockSize : ℕ
  totalSize : ℕ
  maxRetainedSize : ℕ

namespace ArcArena

variable {A : Type}

/- `alloc n` is the capacity the allocator gives where `n` is asked for. -/
def withOptions (alloc : ℕ → ℕ) (blockSize maxRetainedSize : ℕ) : ArcArena A :=
  let blockSize := max blockSize 1
  ⟨[], [], alloc blockSize, 0, blockSize, blockSize, blockSize, maxRetainedSize⟩

def new (alloc : ℕ → ℕ) : ArcArena A := withOptions alloc 256 1000000

def size (arena : ArcArena A) : ℕ := arena.totalSize

def pending (arena : ArcArena A) : List A := arena.current.drop arena.start

/- The slice of a block; out of its bounds is a panic. -/
def slice (block : List A) (run : ArcRun) : Option (List A) :=
  if run.start + run.len ≤ block.length then some ((block.drop run.start).take run.len) else none

def arcs (arena : ArcArena A) (run : ArcRun) : Option (List A) :=
  if run.block = arena.retired.length then slice arena.current run
  else arena.retired[run.block]?.bind fun block => slice block run

/- A block with room for the run in progress and `n` more arcs, to which the run is moved. -/
def newBlock (alloc : ℕ → ℕ) (n : ℕ) (arena : ArcArena A) : ArcArena A :=
  let pendingLen := arena.current.length - arena.start
  let newBlockSize := max (pendingLen + n) arena.blockSize
  { arena with
    retired := arena.retired ++ [arena.current.take arena.start]
    current := arena.current.drop arena.start
    capacity := alloc newBlockSize
    start := 0
    totalSize := arena.totalSize + newBlockSize }

def reserveArcs (alloc : ℕ → ℕ) (n : ℕ) (arena : ArcArena A) : ArcArena A :=
  if n ≤ arena.capacity - arena.current.length then arena else arena.newBlock alloc n

/- The arena as an arc is written to it. -/
def beforeWrite (alloc : ℕ → ℕ) (arena : ArcArena A) : ArcArena A :=
  if arena.current.length = arena.capacity then
    arena.newBlock alloc (max (arena.current.length - arena.start) 1)
  else arena

def pushArc (alloc : ℕ → ℕ) (arc : A) (arena : ArcArena A) : ArcArena A :=
  let arena := arena.beforeWrite alloc
  { arena with current := arena.current ++ [arc] }

/- The casts to `u32` keep the low bits; a debug build asserts that nothing is lost. -/
def commitArcs (arena : ArcArena A) : ArcRun × ArcArena A :=
  let len := arena.current.length - arena.start
  (⟨arena.retired.length % 2 ^ 32, arena.start % 2 ^ 32, len % 2 ^ 32⟩,
    { arena with start := arena.start + len })

def dropArcs (arena : ArcArena A) : ArcArena A :=
  { arena with current := arena.current.take arena.start }

def clear (alloc : ℕ → ℕ) (arena : ArcArena A) : ArcArena A :=
  if arena.firstBlockSize < arena.totalSize then
    let firstBlockSize := min arena.maxRetainedSize arena.totalSize
    { arena with
      retired := []
      firstBlockSize := firstBlockSize
      current := []
      capacity := alloc firstBlockSize
      totalSize := firstBlockSize
      start := 0 }
  else
    { arena with retired := [], current := [], totalSize := arena.firstBlockSize, start := 0 }

section Slices

theorem slice_of_longer {block block' : List A} (h : block <+: block') {run : ArcRun} {xs : List A}
    (hslice : slice block run = some xs) : slice block' run = some xs := by
  obtain ⟨rest, rfl⟩ := h
  unfold slice at hslice ⊢
  split at hslice
  · next hle =>
    rw [if_pos (by rw [List.length_append]; omega), ← hslice,
      List.drop_append_of_le_length (by omega),
      List.take_append_of_le_length (by rw [List.length_drop]; omega)]
  · cases hslice

theorem slice_take {block : List A} {run : ArcRun} {n : ℕ} (hn : run.start + run.len ≤ n)
    (hle : n ≤ block.length) : slice (block.take n) run = slice block run := by
  unfold slice
  rw [List.length_take, if_pos (by omega), if_pos (by omega), List.drop_take, List.take_take,
    Nat.min_eq_left (by omega)]

end Slices

/- Where the arcs of a run are kept; runs further on in a block start where earlier ones end. -/
def Before (run run' : ArcRun) : Prop :=
  run.block < run'.block ∨ run.block = run'.block ∧ run.start + run.len ≤ run'.start

/- What an arena holds: the runs that were committed with their arcs, and a run in progress. -/
structure Holds (arena : ArcArena A) (runs : List (ArcRun × List A)) (pending : List A) :
    Prop where
  start_le : arena.start ≤ arena.current.length
  length_le : arena.current.length ≤ arena.capacity
  pending_eq : arena.pending = pending
  resolves : ∀ e ∈ runs, arena.arcs e.1 = some e.2
  block_le : ∀ e ∈ runs, e.1.block ≤ arena.retired.length
  ends : ∀ e ∈ runs, e.1.block = arena.retired.length → e.1.start + e.1.len ≤ arena.start
  apart : runs.Pairwise fun e e' => Before e.1 e'.1

section Operations

variable {alloc : ℕ → ℕ} {arena : ArcArena A} {runs : List (ArcRun × List A)} {pending : List A}

theorem holds_withOptions (halloc : ∀ n, n ≤ alloc n) (blockSize maxRetainedSize : ℕ) :
    Holds (withOptions alloc blockSize maxRetainedSize : ArcArena A) [] [] where
  start_le := Nat.le_refl 0
  length_le := Nat.zero_le _
  pending_eq := rfl
  resolves := by simp
  block_le := by simp
  ends := by simp
  apart := .nil

theorem capacity_newBlock (halloc : ∀ n, n ≤ alloc n) (n : ℕ) (arena : ArcArena A) :
    (arena.newBlock alloc n).current.length + n ≤ (arena.newBlock alloc n).capacity := by
  have hle := halloc (max (arena.current.length - arena.start + n) arena.blockSize)
  simp only [newBlock, List.length_drop]
  exact (Nat.le_max_left _ _).trans hle

/- A committed run is read in the retired block as it was in the current one. -/
theorem arcs_newBlock (h : Holds arena runs pending) (n : ℕ) {e : ArcRun × List A} (he : e ∈ runs) :
    (arena.newBlock alloc n).arcs e.1 = some e.2 := by
  have hres := h.resolves e he
  have hblock := h.block_le e he
  unfold arcs at hres ⊢
  have hlength : (arena.newBlock alloc n).retired.length = arena.retired.length + 1 := by
    simp [newBlock]
  rw [hlength, if_neg (by omega)]
  by_cases hlast : e.1.block = arena.retired.length
  · rw [if_pos hlast] at hres
    have hget : (arena.newBlock alloc n).retired[e.1.block]? =
        some (arena.current.take arena.start) := by
      rw [hlast]
      exact List.getElem?_concat_length
    rw [hget, Option.bind_some, slice_take (h.ends e he hlast) h.start_le]
    exact hres
  · rw [if_neg hlast] at hres
    have hget : (arena.newBlock alloc n).retired[e.1.block]? = arena.retired[e.1.block]? :=
      List.getElem?_append_left (by omega)
    rw [hget]
    exact hres

theorem holds_newBlock (halloc : ∀ n, n ≤ alloc n) (h : Holds arena runs pending) (n : ℕ) :
    Holds (arena.newBlock alloc n) runs pending where
  start_le := Nat.zero_le _
  length_le := (Nat.le_add_right _ n).trans (capacity_newBlock halloc n arena)
  pending_eq := h.pending_eq
  resolves _ he := arcs_newBlock h n he
  block_le e he := by
    have hle := h.block_le e he
    simp only [newBlock, List.length_append, List.length_singleton]
    omega
  ends e he hlast := by
    have hle := h.block_le e he
    simp only [newBlock, List.length_append, List.length_singleton] at hlast
    omega
  apart := h.apart

theorem holds_reserveArcs (halloc : ∀ n, n ≤ alloc n) (h : Holds arena runs pending) (n : ℕ) :
    Holds (arena.reserveArcs alloc n) runs pending := by
  unfold reserveArcs
  split
  · exact h
  · exact holds_newBlock halloc h n

theorem holds_beforeWrite (halloc : ∀ n, n ≤ alloc n) (h : Holds arena runs pending) :
    Holds (arena.beforeWrite alloc) runs pending := by
  unfold beforeWrite
  split
  · exact holds_newBlock halloc h _
  · exact h

/- No arc is written to a full block. -/
theorem beforeWrite_spare (halloc : ∀ n, n ≤ alloc n) (h : Holds arena runs pending) :
    (arena.beforeWrite alloc).current.length < (arena.beforeWrite alloc).capacity := by
  have hle := h.length_le
  unfold beforeWrite
  split
  · have hroom := capacity_newBlock halloc (max (arena.current.length - arena.start) 1) arena
    omega
  · omega

theorem holds_write (h : Holds arena runs pending) (hspare : arena.current.length < arena.capacity)
    (arc : A) : Holds { arena with current := arena.current ++ [arc] } runs (pending ++ [arc]) where
  start_le := by
    have hle := h.start_le
    simp only [List.length_append, List.length_singleton]
    omega
  length_le := by
    simp only [List.length_append, List.length_singleton]
    omega
  pending_eq := by
    rw [← h.pending_eq]
    exact List.drop_append_of_le_length h.start_le
  resolves e he := by
    have hres := h.resolves e he
    unfold arcs at hres ⊢
    split at hres
    · next hlast => exact (if_pos hlast).trans (slice_of_longer (List.prefix_append _ _) hres)
    · next hlast => exact (if_neg hlast).trans hres
  block_le := h.block_le
  ends := h.ends
  apart := h.apart

theorem holds_pushArc (halloc : ∀ n, n ≤ alloc n) (h : Holds arena runs pending) (arc : A) :
    Holds (arena.pushArc alloc arc) runs (pending ++ [arc]) :=
  holds_write (holds_beforeWrite halloc h) (beforeWrite_spare halloc h) arc

theorem holds_commitArcs (h : Holds arena runs pending) (hblock : arena.current.length < 2 ^ 32)
    (hblocks : arena.retired.length < 2 ^ 32) :
    Holds arena.commitArcs.2 (runs ++ [(arena.commitArcs.1, pending)]) [] := by
  have hstart := h.start_le
  have hrun : arena.commitArcs.1 =
      ⟨arena.retired.length, arena.start, arena.current.length - arena.start⟩ := by
    unfold commitArcs
    dsimp only
    rw [Nat.mod_eq_of_lt hblocks, Nat.mod_eq_of_lt (by omega), Nat.mod_eq_of_lt (by omega)]
  have hnew : arena.commitArcs.2.start = arena.current.length := by
    simp only [commitArcs]
    omega
  have hall : ∀ {P : ArcRun × List A → Prop}, (∀ e ∈ runs, P e) → P (arena.commitArcs.1, pending) →
      ∀ e ∈ runs ++ [(arena.commitArcs.1, pending)], P e := by
    intro P hold hlast e he
    rcases List.mem_append.mp he with he | he
    · exact hold e he
    · rw [List.mem_singleton.mp he]
      exact hlast
  constructor
  · rw [hnew]
    exact Nat.le_refl _
  · exact h.length_le
  · unfold ArcArena.pending
    rw [hnew]
    exact List.drop_length
  · refine hall (P := fun e => arena.commitArcs.2.arcs e.1 = some e.2) h.resolves ?_
    rw [hrun]
    refine (if_pos rfl).trans ?_
    unfold slice
    rw [if_pos (by simp only [commitArcs]; omega), ← h.pending_eq]
    exact congrArg some (List.take_of_length_le (by rw [List.length_drop]; exact Nat.le_refl _))
  · refine hall (P := fun e => e.1.block ≤ arena.retired.length) h.block_le ?_
    rw [hrun]
  · rw [hnew]
    refine hall (P := fun e => e.1.block = arena.retired.length →
      e.1.start + e.1.len ≤ arena.current.length) (fun e he hlast => ?_) fun _ => ?_
    · exact (h.ends e he hlast).trans hstart
    · rw [hrun]
      dsimp only
      omega
  · refine List.pairwise_append.mpr ⟨h.apart, List.pairwise_singleton _ _, ?_⟩
    intro e he e' he'
    rw [List.mem_singleton.mp he', hrun]
    rcases Nat.lt_or_eq_of_le (h.block_le e he) with hlt | hlast
    · exact Or.inl hlt
    · exact Or.inr ⟨hlast, h.ends e he hlast⟩

theorem holds_dropArcs (h : Holds arena runs pending) : Holds arena.dropArcs runs [] where
  start_le := by
    have hle := h.start_le
    simp only [dropArcs, List.length_take]
    omega
  length_le := by
    have hle := h.length_le
    simp only [dropArcs, List.length_take]
    omega
  pending_eq := List.drop_take_self
  resolves e he := by
    have hres := h.resolves e he
    unfold arcs at hres ⊢
    split at hres
    · next hlast =>
      exact (if_pos hlast).trans ((slice_take (h.ends e he hlast) h.start_le).trans hres)
    · next hlast => exact (if_neg hlast).trans hres
  block_le := h.block_le
  ends := h.ends
  apart := h.apart

theorem holds_clear (h : Holds arena runs pending) : Holds (arena.clear alloc) [] [] := by
  unfold clear
  split
  · exact ⟨Nat.le_refl 0, Nat.zero_le _, rfl, by simp, by simp, by simp, .nil⟩
  · exact ⟨Nat.le_refl 0, Nat.zero_le _, rfl, by simp, by simp, by simp, .nil⟩

end Operations

inductive Op (A : Type) where
  | pushArc (arc : A)
  | reserveArcs (n : ℕ)
  | commitArcs
  | dropArcs
  | clear

/- An arena, the runs committed since it was last cleared with the arcs pushed for each, and the
arcs pushed since the last of them. -/
structure Recorded (A : Type) where
  arena : ArcArena A
  runs : List (ArcRun × List A)
  pushed : List A

def Op.apply (alloc : ℕ → ℕ) : Op A → Recorded A → Option (Recorded A)
  | pushArc arc, s => some ⟨s.arena.pushArc alloc arc, s.runs, s.pushed ++ [arc]⟩
  | reserveArcs n, s => some ⟨s.arena.reserveArcs alloc n, s.runs, s.pushed⟩
  | commitArcs, s =>
    some ⟨s.arena.commitArcs.2, s.runs ++ [(s.arena.commitArcs.1, s.pushed)], []⟩
  | dropArcs, s => some ⟨s.arena.dropArcs, s.runs, []⟩
  | clear, s => some ⟨s.arena.clear alloc, [], []⟩

/- What a run is committed to has less than `2 ^ 32` arcs. -/
def SmallBlock (s : Recorded A) (op : Op A) : Prop :=
  op = .commitArcs → s.arena.current.length < 2 ^ 32

/- And less than `2 ^ 32` blocks before it. -/
def Fits (s : Recorded A) (op : Op A) : Prop :=
  SmallBlock s op ∧ (op = .commitArcs → s.arena.retired.length < 2 ^ 32)

/- No place in a block belongs to two runs. -/
structure Stable (alloc : ℕ → ℕ) (s : Recorded A) : Prop where
  resolves : ∀ e ∈ s.runs, s.arena.arcs e.1 = some e.2
  pending : s.arena.pending = s.pushed
  apart : s.runs.Pairwise fun e e' => e.1.block ≠ e'.1.block ∨ e.1.start + e.1.len ≤ e'.1.start
  pending_apart : ∀ e ∈ s.runs, e.1.block ≠ s.arena.retired.length ∨
    e.1.start + e.1.len ≤ s.arena.start
  spare : (s.arena.beforeWrite alloc).current.length < (s.arena.beforeWrite alloc).capacity

section Runs

variable {alloc : ℕ → ℕ}

def opened (alloc : ℕ → ℕ) (blockSize maxRetainedSize : ℕ) : Recorded A :=
  ⟨withOptions alloc blockSize maxRetainedSize, [], []⟩

theorem holds_apply (halloc : ∀ n, n ≤ alloc n) (op : Op A) (s t : Recorded A) (hfits : Fits s op)
    (h : Holds s.arena s.runs s.pushed) (happly : op.apply alloc s = some t) :
    Holds t.arena t.runs t.pushed := by
  cases op with
  | pushArc arc =>
    obtain rfl := Option.some.inj happly
    exact holds_pushArc halloc h arc
  | reserveArcs n =>
    obtain rfl := Option.some.inj happly
    exact holds_reserveArcs halloc h n
  | commitArcs =>
    obtain rfl := Option.some.inj happly
    exact holds_commitArcs h (hfits.1 rfl) (hfits.2 rfl)
  | dropArcs =>
    obtain rfl := Option.some.inj happly
    exact holds_dropArcs h
  | clear =>
    obtain rfl := Option.some.inj happly
    exact holds_clear h

theorem stable_of_holds (halloc : ∀ n, n ≤ alloc n) {s : Recorded A}
    (h : Holds s.arena s.runs s.pushed) : Stable alloc s where
  resolves := h.resolves
  pending := h.pending_eq
  apart := h.apart.imp fun hbefore => hbefore.imp Nat.ne_of_lt And.right
  pending_apart e he := by
    by_cases hlast : e.1.block = s.arena.retired.length
    · exact Or.inr (h.ends e he hlast)
    · exact Or.inl hlast
  spare := beforeWrite_spare halloc h

/- A run keeps reading as it was pushed whatever is done to the arena, until it is cleared. -/
theorem runs_stable (halloc : ∀ n, n ≤ alloc n) (blockSize maxRetainedSize : ℕ)
    (ops : List (Op A)) (s : Recorded A)
    (hfits : AllSteps (Op.apply alloc) Fits ops (opened alloc blockSize maxRetainedSize))
    (hrun : runOps (Op.apply alloc) ops (opened alloc blockSize maxRetainedSize) = some s) :
    Stable alloc s :=
  have hholds : ∀ op s t, Fits s op → (fun s : Recorded A => Holds s.arena s.runs s.pushed) s →
      Op.apply alloc op s = some t → (fun s : Recorded A => Holds s.arena s.runs s.pushed) t :=
    holds_apply halloc
  stable_of_holds halloc (run_invariant hholds hfits
    (holds_withOptions halloc blockSize maxRetainedSize) hrun)

theorem runs_stable_moved : ∃ s, runOps (Op.apply id)
    [.pushArc 1, .commitArcs, .pushArc 2, .pushArc 3, .reserveArcs 4, .pushArc 5, .commitArcs]
    (opened id 2 0) = some s ∧ Stable id s ∧ s.runs = [(⟨0, 0, 1⟩, [1]), (⟨2, 0, 3⟩, [2, 3, 5])] :=
  ⟨_, rfl, runs_stable (fun _ => Nat.le_refl _) 2 0
    [.pushArc 1, .commitArcs, .pushArc 2, .pushArc 3, .reserveArcs 4, .pushArc 5, .commitArcs] _
    (by simp [AllSteps, Fits, SmallBlock, Op.apply, opened, withOptions, pushArc, beforeWrite,
      ArcArena.commitArcs, ArcArena.reserveArcs, newBlock]) rfl, rfl⟩

/- Runs of one arc each, in blocks of one arc each. -/
def rounds (n : ℕ) : List (Op Bool) :=
  (List.replicate n [Op.pushArc false, Op.commitArcs]).flatten

/- After a first run of another arc, and one for each of the rounds. -/
def filled (runs : List (ArcRun × List Bool)) (last : Bool) (retired : List (List Bool))
    (total : ℕ) : Recorded Bool :=
  ⟨⟨retired, [last], 1, 1, 1, 1, total, 0⟩, runs, []⟩

theorem round_run (runs : List (ArcRun × List Bool)) (last : Bool) (retired : List (List Bool))
    (total : ℕ) (ops : List (Op Bool)) :
    runOps (Op.apply id) (.pushArc false :: .commitArcs :: ops) (filled runs last retired total) =
      runOps (Op.apply id) ops
        (filled (runs ++ [(⟨(retired.length + 1) % 2 ^ 32, 0, 1⟩, [false])]) false
          (retired ++ [[last]]) (total + 1)) := by
  simp [runOps, Op.apply, filled, pushArc, beforeWrite, newBlock, ArcArena.commitArcs]

theorem round_small {runs : List (ArcRun × List Bool)} {last : Bool} {retired : List (List Bool)}
    {total : ℕ} {ops : List (Op Bool)} (hops : AllSteps (Op.apply id) SmallBlock ops
      (filled (runs ++ [(⟨(retired.length + 1) % 2 ^ 32, 0, 1⟩, [false])]) false
        (retired ++ [[last]]) (total + 1))) :
    AllSteps (Op.apply id) SmallBlock (.pushArc false :: .commitArcs :: ops)
      (filled runs last retired total) := by
  simpa [AllSteps, SmallBlock, Op.apply, filled, pushArc, beforeWrite, newBlock,
    ArcArena.commitArcs] using hops

theorem rounds_run (n : ℕ) (runs : List (ArcRun × List Bool)) (last : Bool)
    (retired : List (List Bool)) (total : ℕ) :
    ∃ runs' total', runOps (Op.apply id) (rounds (n + 1)) (filled runs last retired total) =
        some (filled (runs' ++ [(⟨(retired.length + n + 1) % 2 ^ 32, 0, 1⟩, [false])]) false
          (retired ++ [last] :: List.replicate n [false]) total') ∧
      AllSteps (Op.apply id) SmallBlock (rounds (n + 1)) (filled runs last retired total) := by
  induction n generalizing runs last retired total with
  | zero => exact ⟨runs, total + 1, round_run runs last retired total [], round_small trivial⟩
  | succ n ih =>
    obtain ⟨runs', total', hrun, hall⟩ :=
      ih (runs ++ [(⟨(retired.length + 1) % 2 ^ 32, 0, 1⟩, [false])]) false (retired ++ [[last]])
        (total + 1)
    have hlength : (retired ++ [[last]]).length + n + 1 = retired.length + (n + 1) + 1 := by
      rw [List.length_append, List.length_singleton]
      omega
    have hblocks : retired ++ [[last]] ++ [false] :: List.replicate n [false] =
        retired ++ [last] :: List.replicate (n + 1) [false] := by
      rw [List.append_assoc, List.replicate_succ, List.singleton_append]
    rw [hlength, hblocks] at hrun
    exact ⟨runs', total', (round_run runs last retired total _).trans hrun, round_small hall⟩

theorem first_small {ops : List (Op Bool)}
    (h : AllSteps (Op.apply id) SmallBlock ops (filled [(⟨0, 0, 1⟩, [true])] true [] 1)) :
    AllSteps (Op.apply id) SmallBlock (.pushArc true :: .commitArcs :: ops) (opened id 1 0) := by
  simpa [AllSteps, SmallBlock, Op.apply, filled, opened, withOptions, pushArc, beforeWrite,
    newBlock, ArcArena.commitArcs] using h

/- With `2 ^ 32` blocks behind it a run is taken for one in the first of them. -/
theorem many_blocks_not_stable : ¬ ∀ (blockSize maxRetainedSize : ℕ) (ops : List (Op Bool))
    (s : Recorded Bool),
    AllSteps (Op.apply id) SmallBlock ops (opened id blockSize maxRetainedSize) →
    runOps (Op.apply id) ops (opened id blockSize maxRetainedSize) = some s → Stable id s := by
  intro h
  obtain ⟨n, hn⟩ : ∃ n, n + 1 = 2 ^ 32 := ⟨2 ^ 32 - 1, by norm_num⟩
  obtain ⟨runs, total, hrun, hall⟩ := rounds_run n [(⟨0, 0, 1⟩, [true])] true [] 1
  have hstable := h 1 0 (.pushArc true :: .commitArcs :: rounds (n + 1)) _ (first_small hall) hrun
  have hresolves := hstable.resolves _ (List.mem_append_right _ (List.mem_singleton.mpr rfl))
  have hblock : ([] : List (List Bool)).length + n + 1 = 2 ^ 32 := by
    rw [List.length_nil]
    omega
  rw [hblock, Nat.mod_self] at hresolves
  simp [arcs, filled, slice] at hresolves

end Runs

end ArcArena

end Sicada
