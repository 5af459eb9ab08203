import Sicada.Decode.Traceback

namespace Sicada

open ArcLabel (toI64 fromI64)

variable {L L' C : Type} [ArcLabel L] [ArcLabel L'] [LinearOrderedAddCommMonoidWithTop C]

/- The phones to align, as columns of the matrix, and what it costs to give each one up. -/
structure AlignChain (C : Type) [LinearOrderedAddCommMonoidWithTop C] where
  phones : List ℕ
  skips : List C
  blank : ℕ
  length_phones_le : phones.length ≤ usizeMax
  length_skips : skips.length = phones.length
  skips_nonneg : ∀ cost ∈ skips, 0 ≤ cost

/- Whether each transition sounds the phone at its destination, by code. -/
def soundsTable : List Bool := [false, true, true, false]

namespace AlignChain

variable (chain : AlignChain C)

def new (phones : List ℕ) (h : phones.length ≤ usizeMax) : AlignChain C where
  phones := phones
  skips := List.replicate phones.length ⊤
  blank := 0
  length_phones_le := h
  length_skips := List.length_replicate
  skips_nonneg _ hcost := by
    rw [List.eq_of_mem_replicate hcost]
    exact le_top

def withSkipCosts [ToString C] (costs : List C) : Except String (AlignChain C) :=
  if hlength : costs.length ≠ chain.phones.length then
    .error s!"AlignChain: {costs.length} skip costs for {chain.phones.length} phones"
  else if hbad : ∃ cost ∈ costs, cost < 0 then
    let bad := costs.findIdx (· < 0)
    .error (s!"AlignChain: the skip cost at position {bad} is {costs.getD bad 0}, and a skip " ++
      "that pays for itself would drop the reference rather than align it")
  else
    .ok { chain with
      skips := costs
      length_skips := not_not.mp hlength
      skips_nonneg := fun cost hcost => not_lt.mp fun hlt => hbad ⟨cost, hcost, hlt⟩ }

def withBlank (column : ℕ) : AlignChain C := { chain with blank := column }

/- The phone that a position sounds, by the number of phones up to it. -/
def phone (position : ℕ) : ℕ := chain.phones.getD (position - 1) 0

/- What it costs to give up the phone of a position. -/
def skip (position : ℕ) : C := chain.skips.getD (position - 1) ⊤

/- `none` is an index past the phones. -/
def column (position : Option ℕ) : Option ℕ :=
  match position with
  | some p => chain.phones[p]?
  | none => some chain.blank

def checkColumns (numSymbols : ℕ) : Except String Unit :=
  let named := (none, chain.blank) :: chain.phones.zipIdx.map fun phone => (some phone.2, phone.1)
  match named.find? fun entry => numSymbols ≤ entry.2 with
  | none => .ok ()
  | some (position, column) =>
    let what := match position with
      | some p => s!"position {p}"
      | none => "the blank"
    .error (s!"AlignChain: {what} is column {column}, which a {numSymbols}-symbol acoustic " ++
      "matrix does not have")

section ToFst

/- Errors are returned; the outer `none` is a panic. -/
def fits (value : ℤ) (what : String) : ExceptT String Option L :=
  match fromI64 value with
  | some label => pure label
  | none => throw s!"AlignChain::to_fst: {what} {value} does not fit the arc's label type"

def input (labelOffset : ℤ) (column : ℕ) : ExceptT String Option L :=
  if labelOffset + column < 2 ^ 63 then fits (labelOffset + column) "input label"
  else ExceptT.lift none

def sounds (position : Option ℕ) : ExceptT String Option L :=
  match position with
  | some p => fits (p + 1) "output label"
  | none => fits (chain.phones.length + 1) "output label"

/- The phone behind a state, still sounding. -/
def heldArcs (labelOffset : ℤ) (i : ℕ) : ExceptT String Option (List (Arc L (Tropical C))) :=
  if 0 < i then do
    let held ← input labelOffset (chain.phone i)
    let sounding ← chain.sounds (some (i - 1))
    pure [⟨held, sounding, 1, i⟩]
  else pure []

/- The phone in front of a state, started or given up. -/
def onwardArcs (labelOffset : ℤ) (blank silent : L) (i : ℕ) :
    ExceptT String Option (List (Arc L (Tropical C))) :=
  if i < chain.phones.length then do
    let next ← input labelOffset (chain.phone (i + 1))
    let sounding ← chain.sounds (some i)
    let cost := chain.skip (i + 1)
    pure (⟨next, sounding, 1, i + 1⟩ ::
      if cost = ⊤ then [] else [⟨blank, silent, Tropical.trop cost, i + 1⟩])
  else pure []

def chainArcs (labelOffset : ℤ) (blank silent : L) (i : ℕ) :
    ExceptT String Option (List (Arc L (Tropical C))) := do
  let held ← chain.heldArcs labelOffset i
  let onward ← chain.onwardArcs labelOffset blank silent i
  pure (⟨blank, silent, 1, i⟩ :: (held ++ onward))

def addChainArcs (labelOffset : ℤ) (blank silent : L) (fst : VectorFst L (Tropical C)) (i : ℕ) :
    ExceptT String Option (VectorFst L (Tropical C)) := do
  let arcs ← chain.chainArcs labelOffset blank silent i
  pure (arcs.foldl (fun fst arc => fst.addArc i arc) fst)

/- The chain as an FST. The source then has the properties tested, which changes nothing but the
bits that are held of them. -/
def toFst (labelOffset : ℤ) : ExceptT String Option (VectorFst L (Tropical C)) :=
  if labelOffset < 1 then
    throw "AlignChain::to_fst: column 0 would be epsilon, which consumes no frame"
  else do
    let n := chain.phones.length
    let fst := ((VectorFst.new.growTo (n + 1)).setStart (some 0)).setFinal n 1
    let blank ← input labelOffset chain.blank
    let silent ← chain.sounds none
    (List.range (n + 1)).foldlM (chain.addChainArcs labelOffset blank silent) fst

end ToFst

end AlignChain

/- A chain with a matrix that has all of its columns. -/
structure ChainTrellis (L C : Type) [ArcLabel L] [LinearOrderedAddCommMonoidWithTop C] where
  chain : AlignChain C
  dense : DenseFst L C
  columns_ok : chain.checkColumns dense.numSymbols = .ok ()

def AlignChain.against (chain : AlignChain C) (dense : DenseFst L C) :
    Except String (ChainTrellis L C) :=
  match h : chain.checkColumns dense.numSymbols with
  | .ok () => .ok ⟨chain, dense, h⟩
  | .error e => .error e

def DenseFst.score (dense : DenseFst L C) (t column : ℕ) : C := (dense.frame t).getD column ⊤

theorem DenseFst.numFrames_le (dense : DenseFst L C) : dense.numFrames ≤ usizeMax := by
  have hsize := dense.size_lt
  unfold usizeMax
  rcases Nat.eq_zero_or_pos dense.numFrames with hzero | hpos
  · omega
  · have hle := Nat.le_mul_of_pos_right dense.numFrames (dense.numSymbols_pos hpos)
    omega

namespace ChainTrellis

variable (tr : ChainTrellis L C)

/- Waiting is listed before sounding, staying before advancing, and keeping a phone before skipping
it. -/
def stepsInto (t position : ℕ) : Fin 4 → Trellis.Step C :=
  let blank := tr.dense.score t tr.chain.blank
  if position = 0 then ![⟨0, blank⟩, ⟨0, ⊤⟩, ⟨0, ⊤⟩, ⟨0, ⊤⟩]
  else
    let phone := tr.dense.score t (tr.chain.phone position)
    ![⟨0, blank⟩, ⟨0, phone⟩, ⟨1, phone⟩, ⟨1, tr.chain.skip position + blank⟩]

def toTrellis : Trellis C 4 where
  reach := 1
  numFrames := tr.dense.numFrames
  numPositions := tr.chain.phones.length
  stepsInto := tr.stepsInto
  numFrames_le := tr.dense.numFrames_le
  numPositions_le := tr.chain.length_phones_le

end ChainTrellis

/- For each frame 0, or one more than the position of the phone that it sounds. -/
structure Alignment (C : Type) where
  sounding : List ℕ
  numPhones : ℕ
  cost : C
deriving DecidableEq

namespace Alignment

variable (alignment : Alignment C)

def frames : List (Option ℕ) :=
  alignment.sounding.map fun k => if k = 0 then none else some (k - 1)

/- The positions that no frame sounds; `none` is a position past the phones. -/
def skipped : Option (List ℕ) :=
  if ∀ k ∈ alignment.sounding, k ≤ alignment.numPhones then
    some ((List.range alignment.numPhones).filter fun position =>
      position + 1 ∉ alignment.sounding)
  else none

/- What each frame paid; `none` is a frame, a position or a column that is not there. -/
def acousticCosts (chain : AlignChain C) (dense : DenseFst L C) : Option (List C) :=
  alignment.frames.zipIdx.mapM fun entry =>
    (chain.column entry.1).bind fun column => (dense.frame entry.2)[column]?

/- What the transition of a frame sounds. -/
def soundingOf (entry : (ℕ × ℕ) × ℕ) : Except String ℕ :=
  match soundsTable[entry.1.1]? with
  | some sounds => .ok (if sounds then entry.1.2 else 0)
  | none => .error (s!"Alignment: transition {entry.1.1} at frame {entry.2} is not one of the " ++
      "chain's four")

def fromPath (chain : AlignChain C) (path : Path C) : Except String (Alignment C) :=
  ((path.codes.zip path.positions).zipIdx.mapM soundingOf).map fun sounding =>
    ⟨sounding, chain.phones.length, path.cost⟩

end Alignment

def alignmentOf (chain : AlignChain C) :
    Except String (Option (Path C)) → Except String (Option (Alignment C))
  | .error e => .error e
  | .ok none => .ok none
  | .ok (some path) => (Alignment.fromPath chain path).map some

/- The outer `none` is a panic. -/
def align (chain : AlignChain C) (dense : DenseFst L C) :
    Option (Except String (Option (Alignment C))) :=
  match chain.against dense with
  | .error e => some (.error e)
  | .ok tr => tr.toTrellis.bestPath.map (alignmentOf chain)

end Sicada
