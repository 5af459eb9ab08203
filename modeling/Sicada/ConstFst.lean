import Sicada.TestProperties
import Sicada.VectorFstIo

namespace Sicada

open Codec Io

/- Where the arcs of a state lie in the array of all of them; `w` is the width of the indices. -/
structure ConstState (W : Type) (w : ℕ) where
  finalWeight : W
  pos : BitVec w
  narcs : BitVec w
  niepsilons : BitVec w
  noepsilons : BitVec w
deriving DecidableEq

structure ConstFst (L W : Type) (w : ℕ) where
  states : List (ConstState W w)
  arcs : List (Arc L W)
  start : Option ℕ
  properties : BitVec 64
deriving DecidableEq

/- An arc as it lies in memory. -/
structure RawArc (L W : Type) where
  ilabel : L
  olabel : L
  weight : W
  nextstate : ℤ

namespace RawArc

variable {L W : Type}

def ofArc (arc : Arc L W) : RawArc L W := ⟨arc.ilabel, arc.olabel, arc.weight, arc.nextstate⟩

def arc (raw : RawArc L W) : Arc L W :=
  ⟨raw.ilabel, raw.olabel, raw.weight, idAsUsize raw.nextstate⟩

theorem arc_ofArc {arc : Arc L W} (h : arc.nextstate < 2 ^ 64) : (ofArc arc).arc = arc := by
  unfold RawArc.arc ofArc
  rw [VectorFstIo.idAsUsize_natCast h]

end RawArc

/- How states and arcs lie in memory. -/
structure ConstIo (L W : Type) (w : ℕ) where
  typeName : String
  states : Layout (ConstState W w)
  arcs : Layout (RawArc L W)
  noState : ℤ

namespace ConstFst

open VectorFstIo

def alignedFileVersion : ℤ := 1

def fileVersion : ℤ := 2

def minFileVersion : ℤ := 1

def maxStates : ℤ := 0x0010000000000000

def maxArcs : ℤ := 0x0010000000000000

def fstTypeName (w : ℕ) : String := if w = 32 then "const" else "const64"

variable {L W : Type} [ArcLabel L] [Zero W] [One W] [DecidableEq W] {w : ℕ}
  (isMember : W → Bool)

def stateArcs (fst : ConstFst L W w) (s : ConstState W w) : List (Arc L W) :=
  (fst.arcs.drop s.pos.toNat).take s.narcs.toNat

/- The FST as its readers see it. -/
def view (fst : ConstFst L W w) : VectorFst L W :=
  ⟨fst.states.map fun s =>
      ⟨s.finalWeight, fst.stateArcs s, s.niepsilons.toNat, s.noepsilons.toNat⟩,
    fst.start, fst.properties⟩

def allArcs (states : List (VectorState L W)) : List (Arc L W) := states.flatMap (·.arcs)

/- The states from `pos` on, with the counts that `counts` takes of them. -/
def constStates (counts : VectorState L W → ℕ × ℕ) :
    BitVec w → List (VectorState L W) → List (ConstState W w)
  | _, [] => []
  | pos, s :: states =>
    ⟨s.finalWeight, pos, .ofNat w s.arcs.length, .ofNat w (counts s).1, .ofNat w (counts s).2⟩ ::
      constStates counts (.ofNat w (pos.toNat + s.arcs.length)) states

def kStaticProperties : BitVec 64 := kExpanded

/- The counts are taken of the arcs as they are copied. -/
def fromFst (fst : VectorFst L W) : ConstFst L W w :=
  let properties :=
    if fst.properties &&& kMutable ≠ 0 then cachedProperties isMember fst kCopyProperties
    else checkProperties isMember fst
      (kCopyProperties &&& ~~~kWeightedCycles &&& ~~~kUnweightedCycles) kCopyProperties
  { states := constStates (fun s => (EpsilonCounts.iepsilons s.arcs,
      EpsilonCounts.oepsilons s.arcs)) 0 fst.states
    arcs := allArcs fst.states
    start := fst.start
    properties := properties ||| kStaticProperties }

section Writing

variable (io : ConstIo L W w)

def header (opts : FstWriteOptions) (fst : VectorFst L W) : FstHeader :=
  { fstType := fstTypeName w
    arcType := io.typeName
    version := if opts.align then alignedFileVersion else fileVersion
    flags := 0
    properties := cachedProperties isMember fst kCopyProperties ||| kStaticProperties
    start := startId fst.start
    numStates := fst.numStates
    numArcs := (allArcs fst.states).length }

/- Zeros up to the next boundary, counted from the first byte written. -/
def alignOutput (opts : FstWriteOptions) (bytes : List UInt8) : List UInt8 :=
  if opts.align then bytes ++ padding archAlignment bytes.length else bytes

/- Writes any FST; the counts are those it reports. -/
def writeFst (opts : FstWriteOptions) (fst : WithSymbols (VectorFst L W)) : IoWriter := do
  let (_, bytes) ← writeFstHeader opts (header isMember io opts fst.fst) fst.isymbols fst.osymbols
  let states : List (ConstState W w) :=
    constStates (fun s => (s.niepsilons, s.noepsilons)) (.ofNat w 0) fst.fst.states
  let bytes := alignOutput opts bytes ++ states.flatMap io.states.bytes
  pure (alignOutput opts bytes ++ ((allArcs fst.fst.states).map RawArc.ofArc).flatMap io.arcs.bytes)

def write (opts : FstWriteOptions) (fst : WithSymbols (ConstFst L W w)) : IoWriter :=
  writeFst isMember io opts ⟨fst.fst.view, fst.isymbols, fst.osymbols⟩

end Writing

section Reading

variable (getHash : String → ℕ) (io : ConstIo L W w)

def checkCounts (source : String) (header : FstHeader) : Except OpenFstError Unit :=
  if header.numStates < 0 ∨ maxStates < header.numStates then
    .error (bad source ("invalid number of states: " ++ toString header.numStates))
  else if header.numArcs < 0 ∨ maxArcs < header.numArcs then
    .error (bad source ("invalid number of arcs: " ++ toString header.numArcs))
  else .ok ()

def region (aligned : Bool) (size : ℕ) : IoReader (List UInt8) := do
  if aligned then alignInput archAlignment
  readBytes size

/- Version 1 predates the flag, and was always aligned. -/
def isAligned (header : FstHeader) : Bool :=
  header.version = alignedFileVersion ∨ header.flags &&& Flags.isAligned ≠ 0

def readStart (source : String) (header : FstHeader) : Except OpenFstError (Option ℕ) :=
  if header.start = noStateId then .ok none
  else if header.start < 0 ∨ header.numStates ≤ header.start then
    .error (bad source ("invalid start state " ++ toString header.start ++ " for an FST with " ++
      toString header.numStates ++ " states"))
  else .ok (some header.start.toNat)

/- The first state whose range of the arcs reaches past them. -/
def strayState (narcs : ℕ) : List (ConstState W w) → ℕ → Option ℕ
  | [], _ => none
  | s :: states, n =>
    if narcs < s.pos.toNat ∨ narcs - s.pos.toNat < s.narcs.toNat then some n
    else strayState narcs states (n + 1)

def checkStates (source : String) (narcs : ℕ) (states : List (ConstState W w)) :
    Except OpenFstError Unit :=
  match strayState narcs states 0 with
  | some s => .error (bad source ("state " ++ toString s ++ " arc range out of bounds"))
  | none => .ok ()

def verifyArc (source : String) (nstates : ℕ) (raw : RawArc L W) : Except OpenFstError Unit :=
  if raw.nextstate = io.noState then .error (bad source "disallowed next state")
  else if raw.nextstate < 0 then .error (bad source "next state is negative")
  else if nstates ≤ idAsUsize raw.nextstate then
    .error (bad source ("next state " ++ toString (idAsUsize raw.nextstate) ++
      " is larger than the number of states " ++ toString nstates))
  else .ok ()

def verifyArcs (opts : FstReadOptions) (nstates : ℕ) (arcs : List (RawArc L W)) :
    Except OpenFstError Unit :=
  if opts.verify then arcs.forM (verifyArc io opts.source nstates) else .ok ()

def finish (opts : FstReadOptions) (head : FstHeaderWithSymbols) (states : List (ConstState W w))
    (arcs : List (RawArc L W)) : Except OpenFstError (WithSymbols (ConstFst L W w)) := do
  let start ← readStart opts.source head.header
  checkStates opts.source arcs.length states
  verifyArcs io opts states.length arcs
  pure ⟨⟨states, arcs.map RawArc.arc, start, head.header.properties ||| kExpanded⟩,
    head.isymbols, head.osymbols⟩

def readRegions (header : FstHeader) : IoReader (List (ConstState W w) × List (RawArc L W)) := do
  let nstates := header.numStates.toNat
  let narcs := header.numArcs.toNat
  let statesRegion ← region (isAligned header) (nstates * io.states.size)
  let arcsRegion ← region (isAligned header) (narcs * io.arcs.size)
  pure (io.states.values nstates statesRegion, io.arcs.values narcs arcsRegion)

def read (opts : FstReadOptions) : IoReader (WithSymbols (ConstFst L W w)) := do
  let head ← readFstHeader getHash io.typeName opts (fstTypeName w) minFileVersion
  let _ ← lift (some (checkCounts opts.source head.header))
  let regions ← readRegions io head.header
  lift (some (finish io opts head regions.1 regions.2))

end Reading

end ConstFst

end Sicada
