import Sicada.EpsilonCounts
import Sicada.FstHeader

namespace Sicada

open Codec Io

/- How the values of an arc type are written. A state id is read as the number it is, which
`noState` and the negative ones are too. -/
structure ArcIo (L W : Type) where
  typeName : String
  label : Wire OpenFstError L
  weight : Wire OpenFstError W
  stateId : Wire OpenFstError ℤ
  noState : ℤ

/- The parts of the arc are values of their types, and its destination is a state. -/
structure ArcIo.Typed {L W : Type} (io : ArcIo L W) (arc : Arc L W) : Prop where
  ilabel : io.label.Fits arc.ilabel
  olabel : io.label.Fits arc.olabel
  weight : io.weight.Fits arc.weight
  nextstate : io.stateId.Fits arc.nextstate
  state : (arc.nextstate : ℤ) ≠ io.noState

/- A state id as an index, by way of `usize`. -/
def idAsUsize (id : ℤ) : ℕ := (id % 2 ^ 64).toNat

def noStateId : ℤ := -1

namespace VectorFstIo

open EpsilonCounts

def fileVersion : ℤ := 2

def minFileVersion : ℤ := 2

def minBytesPerArc : ℤ := 16

/- An FST and the tables attached to it. -/
structure WithSymbols (F : Type) where
  fst : F
  isymbols : Option SymbolTableImpl
  osymbols : Option SymbolTableImpl

variable {L W : Type} [ArcLabel L] [Zero W] [One W] [DecidableEq W] (getHash : String → ℕ)
  (io : ArcIo L W)

def encodeArc (arc : Arc L W) : List UInt8 :=
  io.label.write arc.ilabel ++ (io.label.write arc.olabel ++
    (io.weight.write arc.weight ++ io.stateId.write arc.nextstate))

def encodeState (s : VectorState L W) : List UInt8 :=
  io.weight.write s.finalWeight ++ (writeI64 s.arcs.length ++ s.arcs.flatMap (encodeArc io))

def startId (start : Option ℕ) : ℤ := (start.map fun s : ℕ => (s : ℤ)).getD noStateId

def header (fst : VectorFst L W) : FstHeader :=
  { fstType := "vector"
    arcType := io.typeName
    version := fileVersion
    flags := 0
    properties := (fst.properties &&& kCopyProperties) ||| VectorFst.staticProperties
    start := startId fst.start
    numStates := fst.numStates
    numArcs := 0 }

/- Writes any FST, seen as its states, its start and the property bits it answers. -/
def writeFst (opts : FstWriteOptions) (fst : WithSymbols (VectorFst L W)) : IoWriter := do
  let (_, bytes) ← writeFstHeader opts (header io fst.fst) fst.isymbols fst.osymbols
  pure (bytes ++ fst.fst.states.flatMap (encodeState io))

def bad (source message : String) : OpenFstError := .invalidFstHeader (source ++ ": " ++ message)

section Reading

variable (source : String)

def readArc : IoReader (Arc L W) := do
  let ilabel ← io.label.read
  let olabel ← io.label.read
  let weight ← io.weight.read
  let nextstate ← io.stateId.read
  if nextstate = io.noState then fail (bad source "disallowed next state")
  else if nextstate < 0 then fail (bad source "next state is negative")
  else pure ⟨ilabel, olabel, weight, idAsUsize nextstate⟩

def readArcs (state : ℕ) : ℕ → VectorFst L W → IoReader (VectorFst L W)
  | 0, fst => pure fst
  | n + 1, fst => do
    let arc ← readArc io source
    readArcs state n (fst.addArc state arc)

/- What follows the final weight of a state. -/
def readState (fst : VectorFst L W) (finalWeight : W) : IoReader (VectorFst L W) := do
  let state := fst.numStates
  let fst := fst.addState.setFinal state finalWeight
  let narcs ← readI64
  if narcs < 0 then
    fail (bad source ("invalid arc count (" ++ toString narcs ++ ") for state " ++ toString state))
  else if narcs > (2 ^ 63 - 1) / minBytesPerArc then
    fail (bad source ("arc count (" ++ toString narcs ++ ") causes integer overflow"))
  else readArcs io source state narcs.toNat fst

/- A final weight that does not read ends the states. -/
def readStates : ℕ → VectorFst L W → IoReader (VectorFst L W)
  | 0, fst => pure fst
  | n + 1, fst => do
    match ← attempt io.weight.read with
    | some finalWeight => do
      let fst ← readState io source fst finalWeight
      readStates n fst
    | none => pure fst

def remaining : IoReader ℕ := fun s => some (.ok (s.rest.length, s))

/- The start of the header, where it is one. -/
def readStart (header : FstHeader) (fst : VectorFst L W) : Except OpenFstError (VectorFst L W) :=
  if header.start ≠ noStateId then
    if header.start < 0 ∨ fst.numStates ≤ header.start then
      .error (bad source ("start state " ++ toString header.start ++ " out of range [0, " ++
        toString fst.numStates ++ ")"))
    else .ok (fst.setStart (some header.start.toNat))
  else .ok fst

/- The first arc, in the order of the states, that leads to no state. -/
def strayArc (fst : VectorFst L W) : Option (Arc L W) :=
  (fst.states.flatMap (·.arcs)).find? fun arc => fst.numStates ≤ arc.nextstate

def verifyStates (verify : Bool) (fst : VectorFst L W) : Except OpenFstError Unit :=
  if verify then
    match strayArc fst with
    | some arc => .error (bad source ("next state " ++ toString arc.nextstate ++
        " is larger than the number of states " ++ toString fst.numStates))
    | none => .ok ()
  else .ok ()

end Reading

/- A header may say it does not know how many states there are. -/
def expectedStates (header : FstHeader) : Option ℕ :=
  if header.numStates ≠ noStateId then some (max header.numStates 0).toNat else none

/- Where the count is not known the states run to the end of the stream; a state takes at least
the bytes of its arc count. -/
def rounds (expected : Option ℕ) : IoReader ℕ :=
  match expected with
  | some n => pure n
  | none => remaining

def finish (opts : FstReadOptions) (head : FstHeaderWithSymbols) (fst : VectorFst L W) :
    IoReader (WithSymbols (VectorFst L W)) := do
  let fst ← lift (some (readStart opts.source head.header fst))
  let _ ← lift (some (verifyStates opts.source opts.verify fst))
  pure ⟨{ fst with properties := head.header.properties ||| VectorFst.staticProperties },
    head.isymbols, head.osymbols⟩

def read (opts : FstReadOptions) : IoReader (WithSymbols (VectorFst L W)) := do
  let head ← readFstHeader getHash io.typeName opts "vector" minFileVersion
  let n ← rounds (expectedStates head.header)
  let fst ← readStates io opts.source n VectorFst.new
  if (expectedStates head.header).any (· ≠ fst.numStates) then
    fail (bad opts.source "unexpected end of file")
  else finish opts head fst

variable {getHash io} {source : String}

theorem idAsUsize_natCast {n : ℕ} (h : n < 2 ^ 64) : idAsUsize n = n := by
  unfold idAsUsize
  omega

theorem codes_readArc {arc : Arc L W} (h : io.Typed arc) (hsize : arc.nextstate < 2 ^ 64)
    (pos : ℕ) : Codes (readArc io source) pos (encodeArc io arc) arc := by
  unfold readArc encodeArc
  apply (io.label.codes _ _ h.ilabel).bind
  apply (io.label.codes _ _ h.olabel).bind
  apply (io.weight.codes _ _ h.weight).bind
  apply (io.stateId.codes _ _ h.nextstate).bind_nil
  rw [if_neg h.state, if_neg (not_lt.mpr (Int.natCast_nonneg _)), idAsUsize_natCast hsize]
  exact codes_pure _ _

/- A state as the reader builds it: the counts are those of its arcs. -/
def recount (s : VectorState L W) : VectorState L W :=
  ⟨s.finalWeight, s.arcs, iepsilons s.arcs, oepsilons s.arcs⟩

theorem recount_addArc (weight : W) (arcs : List (Arc L W)) (arc : Arc L W) :
    (recount ⟨weight, arcs, 0, 0⟩).addArc arc = recount ⟨weight, arcs ++ [arc], 0, 0⟩ := by
  unfold recount VectorState.addArc VectorState.incrementNumEpsilons iepsilons oepsilons
  simp only [List.countP_append, List.countP_singleton]
  congr 1 <;> split <;> simp_all

variable (source) in
theorem codes_readArcs {arcs done : List (Arc L W)} {weight : W} {states : List (VectorState L W)}
    {fst : VectorFst L W} (hstates : fst.states = states ++ [recount ⟨weight, done, 0, 0⟩])
    (h : ∀ arc ∈ arcs, io.Typed arc ∧ arc.nextstate < 2 ^ 64) (pos : ℕ) :
    ∃ fst', Codes (readArcs io source states.length arcs.length fst) pos
        (arcs.flatMap (encodeArc io)) fst' ∧
      fst'.states = states ++ [recount ⟨weight, done ++ arcs, 0, 0⟩] ∧ fst'.start = fst.start := by
  induction arcs generalizing done fst pos with
  | nil => exact ⟨fst, codes_pure _ _, by rwa [List.append_nil], rfl⟩
  | cons arc arcs ih =>
    obtain ⟨htyped, hsize⟩ := h arc List.mem_cons_self
    have hget : fst.states[states.length]? = some (recount ⟨weight, done, 0, 0⟩) := by
      rw [hstates]
      simp
    have hadd := VectorFst.addArc_of_some arc hget
    have hadded : (fst.addArc states.length arc).states =
        states ++ [recount ⟨weight, done ++ [arc], 0, 0⟩] := by
      rw [hadd, hstates, recount_addArc]
      simp
    obtain ⟨fst', hcodes, hstates', hstart⟩ := ih hadded
      (fun a ha => h a (List.mem_cons_of_mem arc ha)) (pos + (encodeArc io arc).length)
    refine ⟨fst', ?_, ?_, ?_⟩
    · rw [List.flatMap_cons]
      exact (codes_readArc htyped hsize pos).bind hcodes
    · rw [hstates', List.append_assoc]
      rfl
    · rw [hstart, hadd]

/- What the writer is given: values of their types, as many of them as a vector holds. -/
structure TypedState (io : ArcIo L W) (s : VectorState L W) : Prop where
  finalWeight : io.weight.Fits s.finalWeight
  arcs : ∀ arc ∈ s.arcs, io.Typed arc ∧ arc.nextstate < 2 ^ 64
  fits : (s.arcs.length : ℤ) ≤ (2 ^ 63 - 1) / minBytesPerArc

variable (source) in
theorem codes_readState {s : VectorState L W} (h : TypedState io s) (fst : VectorFst L W)
    (pos : ℕ) :
    ∃ fst', Codes (readState io source fst s.finalWeight) pos
        (writeI64 s.arcs.length ++ s.arcs.flatMap (encodeArc io)) fst' ∧
      fst'.states = fst.states ++ [recount s] ∧ fst'.start = fst.start := by
  have hfits := h.fits
  unfold minBytesPerArc at hfits
  have hget : fst.addState.states[fst.numStates]? = some VectorState.new := by
    unfold VectorFst.addState VectorFst.numStates
    simp
  have hset : (fst.addState.setFinal fst.numStates s.finalWeight).states =
      fst.states ++ [recount ⟨s.finalWeight, [], 0, 0⟩] ∧
      (fst.addState.setFinal fst.numStates s.finalWeight).start = fst.start := by
    unfold VectorFst.setFinal
    rw [hget]
    unfold VectorFst.addState VectorFst.numStates
    constructor
    · simp [recount, VectorState.new, iepsilons, oepsilons]
    · rfl
  obtain ⟨fst', hcodes, hstates, hstart⟩ := codes_readArcs source hset.1 h.arcs
    (pos + (writeI64 s.arcs.length).length)
  refine ⟨fst', ?_, hstates, hstart.trans hset.2⟩
  unfold readState
  apply (codes_i64 pos (by omega) (by omega)).bind
  rw [if_neg (not_lt.mpr (Int.natCast_nonneg _)), if_neg (not_lt.mpr h.fits), Int.toNat_natCast]
  exact hcodes

variable (source) in
/- Fewer bytes than those of the states leave an error or fewer states. -/
theorem codes_readStates {states : List (VectorState L W)} (h : ∀ s ∈ states, TypedState io s)
    (fst : VectorFst L W) (pos : ℕ) :
    ∃ fst', CodesUnless (fun u => u.numStates < fst.numStates + states.length)
        (readStates io source states.length fst) pos (states.flatMap (encodeState io)) fst' ∧
      fst'.states = fst.states ++ states.map recount ∧ fst'.start = fst.start := by
  induction states generalizing fst pos with
  | nil => exact ⟨fst, (codes_pure pos fst).unless _, by simp, rfl⟩
  | cons s states ih =>
    have hs := h s List.mem_cons_self
    obtain ⟨u, hcodes, hstates, hstart⟩ := codes_readState source hs fst
      (pos + (io.weight.write s.finalWeight).length)
    obtain ⟨fst', hrest, hstates', hstart'⟩ := ih (fun t ht => h t (List.mem_cons_of_mem s ht)) u
      (pos + (io.weight.write s.finalWeight).length +
        (writeI64 s.arcs.length ++ s.arcs.flatMap (encodeArc io)).length)
    have hcount : u.numStates + states.length = fst.numStates + (s :: states).length := by
      unfold VectorFst.numStates
      rw [hstates, List.length_append, List.length_singleton, List.length_cons]
      omega
    rw [hcount] at hrest
    refine ⟨fst', ?_, ?_, hstart'.trans hstart⟩
    · rw [List.flatMap_cons, encodeState, List.append_assoc]
      apply (io.weight.codes pos _ hs.finalWeight).attempt_bind (c := fst) rfl
      · rw [List.length_cons]
        omega
      · exact hcodes.bind_unless hrest
    · rw [hstates', hstates, List.append_assoc]
      rfl

/- An FST of the types of its arcs, all of whose arcs lead to existing states. -/
structure TypedFst (getHash : String → ℕ) (io : ArcIo L W) (fst : WithSymbols (VectorFst L W)) :
    Prop where
  states : ∀ s ∈ fst.fst.states, TypedState io s
  arcs : ∀ s ∈ fst.fst.states, ∀ arc ∈ s.arcs, arc.nextstate < fst.fst.numStates
  numStates : fst.fst.numStates < 2 ^ 63
  start : ∀ s, fst.fst.start = some s → s < 2 ^ 63
  isymbols : SoundTable getHash fst.isymbols
  osymbols : SoundTable getHash fst.osymbols

theorem startId_inRange {start : Option ℕ} (h : ∀ s, start = some s → s < 2 ^ 63) :
    -2 ^ 63 ≤ startId start ∧ startId start < 2 ^ 63 := by
  unfold startId noStateId
  cases start with
  | none => decide
  | some s =>
    have hs := h s rfl
    simp only [Option.map_some, Option.getD_some]
    omega

theorem strayArc_eq_none {fst : VectorFst L W}
    (h : ∀ s ∈ fst.states, ∀ arc ∈ s.arcs, arc.nextstate < fst.numStates) :
    strayArc fst = none := by
  unfold strayArc
  rw [List.find?_eq_none]
  intro arc harc
  obtain ⟨s, hs, hmem⟩ := List.mem_flatMap.mp harc
  simpa using h s hs arc hmem

section Whole

variable {opts : FstReadOptions} {wopts : FstWriteOptions} {fst : WithSymbols (VectorFst L W)}
  {bytes : List UInt8}

theorem write_ok (hwrite : writeFst io wopts fst = some (.ok bytes)) :
    ∃ header' hbytes, writeFstHeader wopts (header io fst.fst) fst.isymbols fst.osymbols =
        some (.ok (header', hbytes)) ∧
      bytes = hbytes ++ fst.fst.states.flatMap (encodeState io) := by
  unfold writeFst at hwrite
  obtain ⟨⟨header', hbytes⟩, hhead, hwrite⟩ := bind_eq_ok.mp hwrite
  cases hwrite
  exact ⟨header', hbytes, hhead, rfl⟩

/- The bytes are read down to the states, and what is then made of them decides. -/
theorem codes_of_finish (hopts : OwnHeader opts) (hwopts : wopts.writeHeader = true)
    (h : TypedFst getHash io fst) (hwrite : writeFst io wopts fst = some (.ok bytes)) (pos : ℕ) :
    ∃ head u, head.header = { header io fst.fst with
        flags := writtenFlags wopts fst.isymbols fst.osymbols } ∧
      SameTable getHash ((fst.isymbols.filter fun _ => wopts.writeIsymbols).filter fun _ =>
        opts.readIsymbols) head.isymbols ∧
      SameTable getHash ((fst.osymbols.filter fun _ => wopts.writeOsymbols).filter fun _ =>
        opts.readOsymbols) head.osymbols ∧
      u.states = fst.fst.states.map recount ∧ u.start = none ∧
      (∀ r, Codes (finish opts head u) (pos + bytes.length) [] r →
        Codes (read getHash io opts) pos bytes r) ∧
      ∀ e, finish opts head u ⟨pos + bytes.length, []⟩ = some (.error e) →
        read getHash io opts ⟨pos, bytes⟩ = some (.error e) := by
  obtain ⟨header', hbytes, hhead, rfl⟩ := write_ok hwrite
  have hnum := h.numStates
  have hrange : (header io fst.fst).InRange := by
    refine ⟨by constructor <;> norm_num [header, fileVersion], startId_inRange h.start, ?_,
      by constructor <;> norm_num [header]⟩
    unfold header
    dsimp only
    omega
  obtain ⟨isymbols', osymbols', hhcodes, hisame, hosame, rfl⟩ := codes_readFstHeader hopts hwopts
    hrange h.isymbols h.osymbols hhead (le_refl fileVersion) pos
  obtain ⟨u, hstates, hustates, hustart⟩ := codes_readStates opts.source h.states
    VectorFst.new (pos + hbytes.length)
  have hcount : u.numStates = fst.fst.states.length := by
    unfold VectorFst.numStates
    rw [hustates]
    simp [VectorFst.new]
  have hexpected (flags : BitVec 32) :
      expectedStates { header io fst.fst with flags := flags } = some fst.fst.states.length := by
    unfold expectedStates header noStateId
    dsimp only
    rw [if_pos (by omega), max_eq_left (Int.natCast_nonneg _), Int.toNat_natCast]
    rfl
  refine ⟨⟨_, isymbols', osymbols'⟩, u, rfl, hisame, hosame, by rw [hustates]; rfl, hustart, ?_,
    ?_⟩
  · intro r hr
    unfold read
    apply hhcodes.bind
    simp only [hexpected]
    apply (codes_pure _ fst.fst.states.length).nil_bind
    apply hstates.bind
    · rw [if_neg (by simp [hcount])]
      rw [List.length_append, ← Nat.add_assoc] at hr
      exact hr
    · intro c s hc
      refine ⟨bad opts.source "unexpected end of file", ?_⟩
      rw [if_pos]
      · rfl
      · simp only [VectorFst.new, VectorFst.numStates, List.length_nil, Nat.zero_add] at hc
        rw [Option.any_some, decide_eq_true_eq, VectorFst.numStates]
        omega
  · intro e he
    unfold read
    refine (bind_of_ok (hhcodes.reads (fst.fst.states.flatMap (encodeState io)))).trans ?_
    simp only [hexpected]
    have hreads := hstates.reads []
    rw [List.append_nil] at hreads
    refine (bind_of_ok (a := fst.fst.states.length) rfl).trans ((bind_of_ok hreads).trans ?_)
    rw [if_neg (by simp [hcount])]
    rw [List.length_append, ← Nat.add_assoc] at he
    exact he

theorem numStates_of_recount {u : VectorFst L W} {states : List (VectorState L W)}
    (h : u.states = states.map recount) : u.numStates = states.length := by
  unfold VectorFst.numStates
  rw [h, List.length_map]

/- The start is an existing state. -/
def StartExists (fst : VectorFst L W) : Prop := ∀ s, fst.start = some s → s < fst.numStates

variable (opts) in
theorem finish_ok {head : FstHeaderWithSymbols} {u : VectorFst L W}
    (hstart : head.header.start = startId fst.fst.start)
    (hstates : u.states = fst.fst.states.map recount) (hu : u.start = none)
    (harcs : ∀ s ∈ fst.fst.states, ∀ arc ∈ s.arcs, arc.nextstate < fst.fst.numStates)
    (h : StartExists fst.fst) (pos : ℕ) :
    Codes (finish opts head u) pos [] ⟨⟨fst.fst.states.map recount, fst.fst.start,
      head.header.properties ||| VectorFst.staticProperties⟩, head.isymbols, head.osymbols⟩ := by
  have hcount := numStates_of_recount hstates
  have hread : ∃ v, readStart opts.source head.header u = .ok v ∧
      v.states = fst.fst.states.map recount ∧ v.start = fst.fst.start := by
    unfold readStart
    rw [hstart]
    unfold startId noStateId
    cases hfst : fst.fst.start with
    | none => exact ⟨u, if_neg (by simp), hstates, hu⟩
    | some s =>
      have hs := h s hfst
      rw [VectorFst.numStates, ← hcount] at hs
      rw [Option.map_some, Option.getD_some, if_pos (by omega), if_neg (by omega),
        Int.toNat_natCast]
      exact ⟨_, rfl, hstates, rfl⟩
  obtain ⟨v, hv, hvstates, hvstart⟩ := hread
  have hstray : verifyStates opts.source opts.verify v = .ok () := by
    unfold verifyStates
    rw [strayArc_eq_none]
    · split <;> rfl
    · intro s hs arc harc
      rw [hvstates] at hs
      obtain ⟨t, ht, rfl⟩ := List.mem_map.mp hs
      rw [numStates_of_recount hvstates]
      exact harcs t ht arc harc
  unfold finish
  apply (codes_lift pos (congrArg some hv)).nil_bind
  apply (codes_lift pos (congrArg some hstray)).nil_bind
  rw [← hvstates, ← hvstart]
  exact codes_pure _ _

variable (opts) in
theorem finish_error {head : FstHeaderWithSymbols} {u : VectorFst L W}
    (hstart : head.header.start = startId fst.fst.start)
    (hstates : u.states = fst.fst.states.map recount) (h : ¬ StartExists fst.fst) (s : Stream) :
    ∃ e, finish opts head u s = some (.error e) := by
  unfold StartExists at h
  push Not at h
  obtain ⟨start, hfst, hle⟩ := h
  have hcount := numStates_of_recount hstates
  rw [VectorFst.numStates, ← hcount] at hle
  have hread : ∃ e, readStart opts.source head.header u = .error e := by
    unfold readStart
    rw [hstart, hfst]
    unfold startId noStateId
    rw [Option.map_some, Option.getD_some, if_pos (by omega), if_pos (by omega)]
    exact ⟨_, rfl⟩
  obtain ⟨e, he⟩ := hread
  refine ⟨e, bind_of_error ?_⟩
  unfold lift
  rw [he]
  rfl

/- What comes back is what was written. -/
structure Same (getHash : String → ℕ) (fst fst' : WithSymbols (VectorFst L W)) : Prop where
  start : fst'.fst.start = fst.fst.start
  states : fst'.fst.states = fst.fst.states
  properties : fst'.fst.properties &&& kFstProperties = fst.fst.properties &&& kFstProperties
  isymbols : SameTable getHash fst.isymbols fst'.isymbols
  osymbols : SameTable getHash fst.osymbols fst'.osymbols

theorem recount_eq_self {s : VectorState L W} : recount s = s ↔ Exact s := by
  cases s
  unfold recount Exact
  rw [VectorState.mk.injEq]
  constructor
  · rintro ⟨-, -, hi, ho⟩
    exact ⟨hi.symm, ho.symm⟩
  · rintro ⟨hi, ho⟩
    exact ⟨rfl, rfl, hi.symm, ho.symm⟩

theorem map_recount_eq_self {states : List (VectorState L W)} :
    states.map recount = states ↔ ∀ s ∈ states, Exact s := by
  conv_lhs => rw [← List.map_id states, List.map_map]
  rw [List.map_inj_left]
  exact forall₂_congr fun s _ => recount_eq_self

theorem properties_written (props : BitVec 64) :
    (((props &&& kCopyProperties) ||| VectorFst.staticProperties) |||
      VectorFst.staticProperties) &&& kFstProperties = props &&& kFstProperties ↔
    props &&& VectorFst.staticProperties = VectorFst.staticProperties := by
  have hfst : kFstProperties = kCopyProperties ||| VectorFst.staticProperties := by decide
  have hdisjoint : kCopyProperties &&& VectorFst.staticProperties = 0 := by decide
  rw [hfst]
  generalize kCopyProperties = copy at *
  generalize VectorFst.staticProperties = static at *
  simp only [BitVec.eq_of_getLsbD_eq_iff, BitVec.getLsbD_and, BitVec.getLsbD_or] at *
  refine forall₂_congr fun i hi => ?_
  have h := hdisjoint i hi
  revert h
  cases props.getLsbD i <;> cases copy.getLsbD i <;> cases static.getLsbD i <;> simp

theorem codes_read (hopts : OwnHeader opts) (hwopts : wopts.writeHeader = true)
    (h : TypedFst getHash io fst) (hstart : StartExists fst.fst)
    (hwrite : writeFst io wopts fst = some (.ok bytes)) (pos : ℕ) :
    ∃ isymbols osymbols, Codes (read getHash io opts) pos bytes
        ⟨⟨fst.fst.states.map recount, fst.fst.start,
          ((fst.fst.properties &&& kCopyProperties) ||| VectorFst.staticProperties) |||
            VectorFst.staticProperties⟩, isymbols, osymbols⟩ ∧
      SameTable getHash ((fst.isymbols.filter fun _ => wopts.writeIsymbols).filter fun _ =>
        opts.readIsymbols) isymbols ∧
      SameTable getHash ((fst.osymbols.filter fun _ => wopts.writeOsymbols).filter fun _ =>
        opts.readOsymbols) osymbols := by
  obtain ⟨head, u, hhead, hi, ho, hstates, hu, hok, -⟩ := codes_of_finish hopts hwopts h hwrite pos
  have hfinish := finish_ok opts (hhead ▸ rfl : head.header.start = startId fst.fst.start) hstates hu
    h.arcs hstart (pos + bytes.length)
  refine ⟨head.isymbols, head.osymbols, ?_, hi, ho⟩
  rw [hhead] at hfinish
  exact hok _ hfinish

theorem not_codes_read (hopts : OwnHeader opts) (hwopts : wopts.writeHeader = true)
    (h : TypedFst getHash io fst) (hstart : ¬ StartExists fst.fst)
    (hwrite : writeFst io wopts fst = some (.ok bytes)) (pos : ℕ)
    (r : WithSymbols (VectorFst L W)) : ¬ Codes (read getHash io opts) pos bytes r := by
  intro hcodes
  obtain ⟨head, u, hhead, -, -, hstates, -, -, herror⟩ := codes_of_finish hopts hwopts h hwrite pos
  obtain ⟨e, he⟩ := finish_error opts
    (hhead ▸ rfl : head.header.start = startId fst.fst.start) hstates hstart ⟨pos + bytes.length, []⟩
  have hreads := hcodes.reads []
  rw [List.append_nil, herror e he] at hreads
  cases hreads

/- What a `VectorFst` must be for its file to give it back. -/
structure Restorable (fst : VectorFst L W) : Prop where
  start : StartExists fst
  counts : CountsExact fst
  properties : fst.properties &&& VectorFst.staticProperties = VectorFst.staticProperties

/- The options that keep the tables of the file. -/
structure KeepsTables (opts : FstReadOptions) : Prop extends OwnHeader opts where
  readIsymbols : opts.readIsymbols = true
  readOsymbols : opts.readOsymbols = true

/- The options that write everything. -/
structure WritesAll (opts : FstWriteOptions) : Prop where
  writeHeader : opts.writeHeader = true
  writeIsymbols : opts.writeIsymbols = true
  writeOsymbols : opts.writeOsymbols = true

theorem read_writeFst_iff (hopts : KeepsTables opts) (hwopts : WritesAll wopts)
    (h : TypedFst getHash io fst) (hwrite : writeFst io wopts fst = some (.ok bytes)) (pos : ℕ) :
    (∃ fst', Codes (read getHash io opts) pos bytes fst' ∧ Same getHash fst fst') ↔
      Restorable fst.fst := by
  by_cases hstart : StartExists fst.fst
  · obtain ⟨isymbols, osymbols, hcodes, hi, ho⟩ := codes_read hopts.toOwnHeader hwopts.1 h hstart
      hwrite pos
    rw [hwopts.writeIsymbols, hopts.readIsymbols, filter_keep, filter_keep] at hi
    rw [hwopts.writeOsymbols, hopts.readOsymbols, filter_keep, filter_keep] at ho
    constructor
    · rintro ⟨fst', hcodes', hsame⟩
      obtain rfl := hcodes.unique hcodes'
      refine ⟨hstart, ?_, (properties_written _).mp hsame.properties⟩
      exact (countsExact_iff _).mpr (map_recount_eq_self.mp hsame.states)
    · rintro ⟨-, hcounts, hprops⟩
      refine ⟨_, hcodes, rfl, ?_, (properties_written _).mpr hprops, hi, ho⟩
      exact map_recount_eq_self.mpr ((countsExact_iff _).mp hcounts)
  · constructor
    · rintro ⟨fst', hcodes', -⟩
      exact absurd hcodes' (not_codes_read hopts.toOwnHeader hwopts.1 h hstart hwrite pos fst')
    · exact fun hrestorable => absurd hrestorable.start hstart

end Whole

end VectorFstIo

end Sicada
