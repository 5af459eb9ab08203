import Sicada.CompactExpand
import Sicada.ConstFstIo

namespace Sicada.CompactRoundTrip

open Codec Io VectorFstIo ConstFst CompactArcStore CompactorKind CompactExpand CompactKinds

variable {L W : Type} [ArcLabel L] [Zero W] [One W] [DecidableEq W] {w : ℕ}

section Indices

variable {E : Type} {els : List (List E)}

theorem positions_eq_cons (w a : ℕ) (els : List (List E)) :
    ∃ rest, positions w a els = .ofNat w a :: rest := by
  cases els with
  | nil => exact ⟨[], rfl⟩
  | cons first els => exact ⟨_, rfl⟩

theorem strayRange_positions {a total : ℕ} (htotal : a + els.flatten.length ≤ total)
    (hw : total < 2 ^ w) (n : ℕ) : CompactFst.strayRange total (positions w a els) n = none := by
  induction els generalizing a n with
  | nil => rfl
  | cons first els ih =>
    rw [List.flatten_cons, List.length_append] at htotal
    have hrest := ih (a := a + first.length) (by omega) (n + 1)
    obtain ⟨rest, heq⟩ := positions_eq_cons w (a + first.length) els
    rw [heq] at hrest
    rw [positions, heq, CompactFst.strayRange, BitVec.toNat_ofNat, BitVec.toNat_ofNat,
      Nat.mod_eq_of_lt (by omega), Nat.mod_eq_of_lt (by omega), if_neg (by omega)]
    exact hrest

theorem last_positions (w : ℕ) (els : List (List E)) :
    (positions w 0 els).getD els.length 0 = .ofNat w els.flatten.length := by
  have hlast := positions_getElem? (w := w) 0 (le_refl els.length)
  rw [CompactExpand.start, List.take_length, Nat.zero_add] at hlast
  rw [List.getD_eq_getElem?_getD, hlast, Option.getD_some]

end Indices

section Whole

variable {isMember : W → Bool} {getHash : String → ℕ} {kind : CompactorKind} {noState : ℤ}
  {io : CompactIo (kind.Element L W) w} {opts : FstReadOptions} {wopts : FstWriteOptions}
  {fst : WithSymbols (VectorFst L W)} {compact : CompactFst (kind.Element L W) w}
  {bytes : List UInt8}

/- An FST of the types of its arcs, and of no more elements than a vector has room for. -/
structure TypedFst (getHash : String → ℕ) (io : CompactIo (kind.Element L W) w) (noState : ℤ)
    (fst : WithSymbols (VectorFst L W)) : Prop where
  elements : ∀ element ∈ (allElements (compactor noState kind) noState fst.fst.states).flatten,
    io.elements.Fits element
  indices : ∀ index, io.indices.Fits index
  nextstates : ∀ s ∈ fst.fst.states, ∀ arc ∈ s.arcs, arc.nextstate < 2 ^ 64
  numElements : numCompacts (compactor noState kind) fst.fst < 2 ^ 63
  numStates : fst.fst.numStates < 2 ^ 63
  numArcs : (allArcs fst.fst.states).length < 2 ^ 63
  start : ∀ s, fst.fst.start = some s → s < 2 ^ 63
  isymbols : SoundTable getHash fst.isymbols
  osymbols : SoundTable getHash fst.osymbols

def indexBytes (io : CompactIo (kind.Element L W) w) (opts : FstWriteOptions) (n : ℕ)
    (states : Option (List (BitVec w))) : List UInt8 :=
  match states with
  | some states => gap opts.align n ++ states.flatMap io.indices.bytes
  | none => []

def elementBytes (io : CompactIo (kind.Element L W) w) (opts : FstWriteOptions) (n : ℕ)
    (elements : List (kind.Element L W)) : List UInt8 :=
  gap opts.align n ++ elements.flatMap io.elements.bytes

theorem write_ok (hwrite : CompactFst.write (compactor noState kind) io wopts
      ⟨compact, fst.isymbols, fst.osymbols⟩ = some (.ok bytes)) :
    ∃ header' hbytes, writeFstHeader wopts
        (CompactFst.header (compactor noState kind) io wopts compact) fst.isymbols fst.osymbols =
        some (.ok (header', hbytes)) ∧
      bytes = hbytes ++ (indexBytes io wopts hbytes.length compact.store.states ++
        elementBytes io wopts
          (hbytes.length + (indexBytes io wopts hbytes.length compact.store.states).length)
          compact.store.compacts) := by
  unfold CompactFst.write at hwrite
  obtain ⟨⟨header', hbytes⟩, hhead, hwrite⟩ := bind_eq_ok.mp hwrite
  cases hwrite
  refine ⟨header', hbytes, hhead, ?_⟩
  unfold indexBytes elementBytes
  cases compact.store.states with
  | none => simp only [alignOutput_eq, List.append_assoc, List.nil_append, List.length_nil,
      Nat.add_zero]
  | some states => simp only [alignOutput_eq, List.append_assoc, List.length_append]

theorem codes_readIndices {header : FstHeader} {states : Option (List (BitVec w))}
    (haligned : isAligned header = wopts.align)
    (hnone : (compactor noState kind : ArcCompactor L W _).size ≠ -1 → states = none)
    (hsome : (compactor noState kind : ArcCompactor L W _).size = -1 → ∃ indices,
      states = some indices ∧ indices.length = header.numStates.toNat + 1)
    (hfits : ∀ index, io.indices.Fits index) {pos : ℕ}
    (hpos : wopts.align = true → pos % archAlignment = 0) (n : ℕ) :
    Codes (CompactFst.readIndices (compactor noState kind) io header) (pos + n)
      (indexBytes io wopts n states) states := by
  unfold CompactFst.readIndices indexBytes
  by_cases hsize : (compactor noState kind : ArcCompactor L W _).size = -1
  · obtain ⟨indices, rfl, hlength⟩ := hsome hsize
    rw [if_pos hsize, haligned]
    have hregion := codes_region wopts.align (pos + n) (indices.flatMap io.indices.bytes)
    rw [gap_add hpos, Layout.length_flatMap_bytes, hlength] at hregion
    have hvalues := io.indices.values_flatMap_bytes fun index (_ : index ∈ indices) => hfits index
    rw [hlength] at hvalues
    apply hregion.bind_nil
    rw [hvalues]
    exact codes_pure _ _
  · rw [if_neg hsize, hnone hsize]
    exact codes_pure _ _

theorem length_allElements (states : List (VectorState L W)) :
    (allElements (compactor noState kind : ArcCompactor L W _) noState states).length = states.length :=
  List.length_mapIdx

theorem elementCount_eq (hstores : Stores (compactor noState kind) noState fst.fst compact.store)
    (hwidth : (compactor noState kind : ArcCompactor L W _).size = -1 →
      compact.store.compacts.length < 2 ^ w)
    {header : FstHeader} (hnum : header.numStates = fst.fst.numStates) :
    CompactFst.elementCount (compactor noState kind : ArcCompactor L W _) header
      compact.store.states = compact.store.compacts.length := by
  unfold CompactFst.elementCount
  rw [hnum, Int.toNat_natCast, hstores.states]
  by_cases hsize : (compactor noState kind : ArcCompactor L W _).size = -1
  · have hlast := last_positions w (allElements (compactor noState kind) noState fst.fst.states)
    rw [length_allElements] at hlast
    rw [if_pos hsize]
    dsimp only
    rw [VectorFst.numStates, hlast, ← hstores.compacts, BitVec.toNat_ofNat,
      Nat.mod_eq_of_lt (hwidth hsize)]
  · have hcount := hstores.count
    unfold numCompacts at hcount
    rw [if_neg hsize] at hcount
    rw [if_neg hsize]
    exact hcount.symm

theorem checkRanges_eq (hstores : Stores (compactor noState kind) noState fst.fst compact.store)
    (hwidth : (compactor noState kind : ArcCompactor L W _).size = -1 →
      compact.store.compacts.length < 2 ^ w) (source : String) :
    CompactFst.checkRanges source compact.store.compacts.length compact.store.states = .ok () := by
  unfold CompactFst.checkRanges
  rw [hstores.states]
  by_cases hsize : (compactor noState kind : ArcCompactor L W _).size = -1
  · have hstray : CompactFst.strayRange compact.store.compacts.length
        (positions w 0 (allElements (compactor noState kind) noState fst.fst.states)) 0 = none :=
      strayRange_positions (by rw [hstores.compacts, Nat.zero_add]) (hwidth hsize) 0
    rw [if_pos hsize, Option.bind_some, hstray]
  · rw [if_neg hsize]
    rfl

/- The header as it is written. -/
def fileHeader (noState : ℤ) (io : CompactIo (kind.Element L W) w) (opts : FstWriteOptions)
    (fst : WithSymbols (VectorFst L W)) (compact : CompactFst (kind.Element L W) w) : FstHeader :=
  { CompactFst.header (compactor noState kind : ArcCompactor L W _) io opts compact with
    flags := writtenFlags opts fst.isymbols fst.osymbols }

theorem isAligned_fileHeader : isAligned (fileHeader noState io wopts fst compact) = wopts.align := by
  have hflags := (writtenFlags_bits wopts fst.isymbols fst.osymbols).2.2
  unfold isAligned fileHeader CompactFst.header alignedFileVersion ConstFst.fileVersion
  rw [Bool.decide_or, hflags]
  cases wopts.align <;> rfl

/- What the header must allow for. -/
structure Allowed (elements : ℕ) (fst : VectorFst L W) : Prop where
  start : StartExists fst
  countable : Countable fst
  elements : (elements : ℤ) ≤ maxArcs

theorem codes_header (hopts : OwnHeader opts) (hwopts : wopts.writeHeader = true)
    (h : TypedFst getHash io noState fst)
    (hstores : Stores (compactor noState kind) noState fst.fst compact.store) {header' : FstHeader}
    {hbytes : List UInt8} (hhead : writeFstHeader wopts
      (CompactFst.header (compactor noState kind : ArcCompactor L W _) io wopts compact)
        fst.isymbols fst.osymbols = some (.ok (header', hbytes))) (pos : ℕ) :
    ∃ isymbols osymbols, Codes (readFstHeader getHash io.typeName opts
        (CompactFst.fstTypeName (compactor noState kind : ArcCompactor L W _) w)
        ConstFst.minFileVersion) pos hbytes
          ⟨fileHeader noState io wopts fst compact, isymbols, osymbols⟩ ∧
      SameTable getHash ((fst.isymbols.filter fun _ => wopts.writeIsymbols).filter fun _ =>
        opts.readIsymbols) isymbols ∧
      SameTable getHash ((fst.osymbols.filter fun _ => wopts.writeOsymbols).filter fun _ =>
        opts.readOsymbols) osymbols := by
  have hnstates := hstores.nstates
  have hnarcs := hstores.narcs
  have hnum := h.numStates
  have harcs := h.numArcs
  have hversion : (CompactFst.header (compactor noState kind) io wopts compact).version = 1 ∨
      (CompactFst.header (compactor noState kind) io wopts compact).version = 2 := by
    unfold CompactFst.header
    dsimp only
    split
    · exact Or.inl rfl
    · exact Or.inr rfl
  have hrange : (CompactFst.header (compactor noState kind) io wopts compact).InRange := by
    refine ⟨by omega, startId_inRange (hstores.start ▸ h.start), ?_, ?_⟩
    · unfold CompactFst.header
      dsimp only
      omega
    · unfold CompactFst.header
      dsimp only
      omega
  have hmin : ConstFst.minFileVersion ≤
      (CompactFst.header (compactor noState kind) io wopts compact).version := by
    unfold ConstFst.minFileVersion
    omega
  obtain ⟨isymbols', osymbols', hcodes, hisame, hosame, rfl⟩ := codes_readFstHeader hopts hwopts
    hrange h.isymbols h.osymbols hhead hmin pos
  exact ⟨isymbols', osymbols', hcodes, hisame, hosame⟩

theorem read_of_write (hopts : KeepsTables opts) (hwopts : WritesAll wopts)
    (h : TypedFst getHash io noState fst)
    (hstores : Stores (compactor noState kind) noState fst.fst compact.store)
    (hwidth : (compactor noState kind : ArcCompactor L W _).size = -1 →
      compact.store.compacts.length < 2 ^ w)
    (hwrite : CompactFst.write (compactor noState kind) io wopts
      ⟨compact, fst.isymbols, fst.osymbols⟩ = some (.ok bytes))
    {pos : ℕ} (hpos : wopts.align = true → pos % archAlignment = 0) :
    (Allowed compact.store.compacts.length fst.fst → ∃ fst',
      Codes (CompactFst.read (compactor noState kind) io getHash opts) pos bytes fst' ∧
        fst'.fst.store = compact.store ∧ SameTable getHash fst.isymbols fst'.isymbols ∧
          SameTable getHash fst.osymbols fst'.osymbols) ∧
    (¬ Allowed compact.store.compacts.length fst.fst → ∃ e,
      CompactFst.read (compactor noState kind) io getHash opts ⟨pos, bytes⟩ = some (.error e)) := by
  obtain ⟨header', hbytes, hhead, rfl⟩ := write_ok hwrite
  obtain ⟨isymbols', osymbols', hcodes, hisame, hosame⟩ := codes_header hopts.toOwnHeader
    hwopts.writeHeader h hstores hhead pos
  have hnumStates : (fileHeader noState io wopts fst compact).numStates = fst.fst.numStates :=
    congrArg Nat.cast hstores.nstates
  have hnumArcs : (fileHeader noState io wopts fst compact).numArcs =
      (allArcs fst.fst.states).length := congrArg Nat.cast hstores.narcs
  have hstartId : (fileHeader noState io wopts fst compact).start = startId fst.fst.start :=
    congrArg startId hstores.start
  have hindices : Codes (CompactFst.readIndices (compactor noState kind : ArcCompactor L W _) io
      (fileHeader noState io wopts fst compact)) (pos + hbytes.length)
      (indexBytes io wopts hbytes.length compact.store.states) compact.store.states := by
    apply codes_readIndices isAligned_fileHeader _ _ h.indices hpos
    · intro hsize
      rw [hstores.states, if_neg hsize]
    · intro hsize
      refine ⟨_, by rw [hstores.states, if_pos hsize], ?_⟩
      rw [length_positions, length_allElements, hnumStates, Int.toNat_natCast]
      rfl
  have hcount := elementCount_eq hstores hwidth hnumStates
  have hregion := codes_region wopts.align
    (pos + (hbytes.length + (indexBytes io wopts hbytes.length compact.store.states).length))
    (compact.store.compacts.flatMap io.elements.bytes)
  rw [gap_add hpos, Layout.length_flatMap_bytes, ← Nat.add_assoc] at hregion
  have hfits : ∀ element ∈ compact.store.compacts, io.elements.Fits element := by
    rw [hstores.compacts]
    exact h.elements
  have hvalues := io.elements.values_flatMap_bytes hfits
  constructor
  · rintro ⟨hstart, hcountable, helements⟩
    have hchecks := checkCounts_eq hcountable hnumStates hnumArcs opts.source
    have hreadStart := readStart_eq hstartId hnumStates hstart opts.source
    have hmany : CompactFst.checkElements opts.source compact.store.compacts.length = .ok () := by
      unfold CompactFst.checkElements
      rw [if_neg (not_lt.mpr helements)]
    refine ⟨⟨⟨compact.store, (fileHeader noState io wopts fst compact).properties ||| kExpanded⟩,
      isymbols', osymbols'⟩, ?_, rfl, ?_, ?_⟩
    · unfold CompactFst.read
      apply hcodes.bind
      apply (codes_lift _ (congrArg some hchecks)).nil_bind
      apply (codes_lift _ (congrArg some hreadStart)).nil_bind
      apply hindices.bind
      rw [hcount]
      apply (codes_lift _ (congrArg some hmany)).nil_bind
      dsimp only
      rw [isAligned_fileHeader]
      apply hregion.bind_nil
      apply (codes_lift _ (congrArg some (checkRanges_eq hstores hwidth opts.source))).bind_nil
      rw [hvalues, hnumStates, hnumArcs, Int.toNat_natCast, Int.toNat_natCast, ← hstores.nstates,
        ← hstores.narcs, ← hstores.start]
      exact codes_pure _ _
    · rwa [hwopts.writeIsymbols, hopts.readIsymbols, filter_keep, filter_keep] at hisame
    · rwa [hwopts.writeOsymbols, hopts.readOsymbols, filter_keep, filter_keep] at hosame
  · intro hbad
    unfold CompactFst.read
    rw [bind_of_ok (hcodes.reads _)]
    dsimp only
    by_cases hcountable : Countable fst.fst
    · have hchecks := checkCounts_eq hcountable hnumStates hnumArcs opts.source
      rw [bind_lift_of_ok (congrArg some hchecks)]
      by_cases hstart : StartExists fst.fst
      · have hreadStart := readStart_eq hstartId hnumStates hstart opts.source
        have hmany : ∃ e, CompactFst.checkElements opts.source compact.store.compacts.length =
            .error e := by
          unfold CompactFst.checkElements
          rw [if_pos (not_le.mp fun helements => hbad ⟨hstart, hcountable, helements⟩)]
          exact ⟨_, rfl⟩
        obtain ⟨e, he⟩ := hmany
        rw [bind_lift_of_ok (congrArg some hreadStart), bind_of_ok (hindices.reads _), hcount]
        exact ⟨e, bind_lift_of_error (congrArg some he) _⟩
      · obtain ⟨e, he⟩ := readStart_error hstartId hnumStates hstart opts.source
        exact ⟨e, bind_lift_of_error (congrArg some he) _⟩
    · obtain ⟨e, he⟩ := checkCounts_error hcountable hnumStates hnumArcs opts.source
      exact ⟨e, bind_lift_of_error (congrArg some he) _⟩

theorem new_ok (hnew : CompactFst.new isMember (compactor noState kind) noState fst.fst =
    .ok compact) :
    CompactFst.isCompatible isMember (compactor noState kind : ArcCompactor L W _) fst.fst = true ∧
      Stores (compactor noState kind) noState fst.fst compact.store := by
  unfold CompactFst.new at hnew
  split at hnew
  · cases hnew
  · next hcompatible =>
    cases hstore : CompactArcStore.new (w := w) (compactor noState kind) noState fst.fst with
    | error e =>
      rw [hstore] at hnew
      cases hnew
    | ok store =>
      rw [hstore] at hnew
      cases hnew
      exact ⟨by simpa using hcompatible, stores_of_new hstore⟩

/- The compact FST says of every state what the FST does. -/
structure Restores (noState : ℤ) (fst : VectorFst L W)
    (compact : CompactFst (kind.Element L W) w) : Prop where
  start : compact.store.start = fst.start
  numStates : compact.store.nstates = fst.numStates
  finalWeight : ∀ state, state < fst.numStates →
    compact.finalWeight (compactor noState kind) state = some (fst.finalWeight state)
  arcs : ∀ state, state < fst.numStates →
    compact.arcs (compactor noState kind) state = some (fst.arcs state)

/- A kind that drops weights is given arcs that weigh One. -/
def KeepsWeights (kind : CompactorKind) (fst : VectorFst L W) : Prop :=
  dropsWeights kind = true → ∀ s ∈ fst.states, ∀ arc ∈ s.arcs, arc.weight = 1

def IndicesHold (w : ℕ) (kind : CompactorKind) (noState : ℤ) (fst : VectorFst L W) : Prop :=
  (compactor noState kind : ArcCompactor L W _).size = -1 →
    numCompacts (compactor noState kind : ArcCompactor L W _) fst < 2 ^ w

theorem map_reweigh_eq_self {s : VectorState L W} : s.arcs.map (reweigh kind) = s.arcs ↔
    (dropsWeights kind = true → ∀ arc ∈ s.arcs, arc.weight = 1) := by
  have hself : s.arcs.map (reweigh kind) = s.arcs ↔ ∀ arc ∈ s.arcs, reweigh kind arc = arc := by
    conv_lhs => rhs; rw [← List.map_id s.arcs]
    exact List.map_inj_left
  rw [hself]
  constructor
  · intro h hdrops arc harc
    have heq := congrArg Arc.weight (h arc harc)
    unfold reweigh at heq
    rw [if_pos hdrops] at heq
    exact heq.symm
  · intro h arc harc
    unfold reweigh
    split
    · next hdrops => rw [← h hdrops arc harc]
    · rfl

theorem restores_iff (hw : w ≤ 64) (h : TypedFst getHash io noState fst)
    (hlabels : ∀ s ∈ fst.fst.states, ∀ arc ∈ s.arcs, arc.ilabel ≠ noLabel)
    (hsuits : Suits kind fst.fst)
    (hstores : Stores (compactor noState kind) noState fst.fst compact.store) :
    Restores noState fst.fst compact ↔
      KeepsWeights kind fst.fst ∧ IndicesHold w kind noState fst.fst := by
  have hexpands {state : ℕ} {s : VectorState L W} (hs : fst.fst.states[state]? = some s) :
      Expands (compactor noState kind) noState state s (reweigh kind) :=
    expands hsuits hs (hlabels s (List.mem_of_getElem? hs))
      (h.nextstates s (List.mem_of_getElem? hs))
  have hlt {state : ℕ} {s : VectorState L W} (hs : fst.fst.states[state]? = some s) :
      state < fst.fst.numStates := (List.getElem?_eq_some_iff.mp hs).1
  have hsmall : compact.store.compacts.length < 2 ^ 63 := hstores.count ▸ h.numElements
  constructor
  · intro hrestores
    have hwidth : IndicesHold w kind noState fst.fst := by
      intro hvariable
      rw [← hstores.count]
      apply width_of_expand hw hstores hvariable
      · intro i s hs
        rw [← VectorFst.finalWeight_of_getElem? hs]
        exact hrestores.finalWeight i (hlt hs)
      · intro i s hs
        rw [← VectorFst.arcs_of_getElem? hs]
        exact congrArg (Option.map List.length) (hrestores.arcs i (hlt hs))
    refine ⟨?_, hwidth⟩
    intro hdrops s hmem
    obtain ⟨state, hs⟩ := List.mem_iff_getElem?.mp hmem
    obtain ⟨first, hreads⟩ := reads_of_stores hstores hsmall
      (fun hvariable => hstores.count ▸ hwidth hvariable) hs
    have harcs := (expand_eq hreads (hexpands hs)).2.symm.trans (hrestores.arcs state (hlt hs))
    rw [VectorFst.arcs_of_getElem? hs] at harcs
    exact map_reweigh_eq_self.mp (Option.some.inj harcs) hdrops
  · rintro ⟨hweights, hwidth⟩
    refine ⟨hstores.start, hstores.nstates, ?_, ?_⟩
    · intro state hstate
      have hs : fst.fst.states[state]? = some fst.fst.states[state] :=
        List.getElem?_eq_getElem hstate
      obtain ⟨first, hreads⟩ := reads_of_stores hstores hsmall
        (fun hvariable => hstores.count ▸ hwidth hvariable) hs
      rw [VectorFst.finalWeight_of_getElem? hs]
      exact (expand_eq hreads (hexpands hs)).1
    · intro state hstate
      have hs : fst.fst.states[state]? = some fst.fst.states[state] :=
        List.getElem?_eq_getElem hstate
      obtain ⟨first, hreads⟩ := reads_of_stores hstores hsmall
        (fun hvariable => hstores.count ▸ hwidth hvariable) hs
      rw [VectorFst.arcs_of_getElem? hs]
      refine (expand_eq hreads (hexpands hs)).2.trans (congrArg some ?_)
      exact map_reweigh_eq_self.mpr fun hdrops => hweights hdrops _ (List.mem_of_getElem? hs)

/- What an FST must be for the compact one to say the same, in memory and in the file. -/
structure Restorable (w : ℕ) (kind : CompactorKind) (noState : ℤ) (fst : VectorFst L W) :
    Prop where
  weights : KeepsWeights kind fst
  indices : IndicesHold w kind noState fst
  allowed : Allowed (numCompacts (compactor noState kind : ArcCompactor L W _) fst) fst

end Whole

end Sicada.CompactRoundTrip
