import Sicada.ConstFst

set_option linter.unusedSectionVars false

namespace Sicada.ConstFst

open Codec Io VectorFstIo

variable {L W : Type} [ArcLabel L] [Zero W] [One W] [DecidableEq W] {w : ℕ}

section Offsets

variable {counts : VectorState L W → ℕ × ℕ} {states : List (VectorState L W)}

/- The number of arcs before those of a state. -/
def offset (states : List (VectorState L W)) (i : ℕ) : ℕ := (allArcs (states.take i)).length

theorem offset_cons (s : VectorState L W) (i : ℕ) :
    offset (s :: states) (i + 1) = s.arcs.length + offset states i := by
  unfold offset allArcs
  rw [List.take_succ_cons, List.flatMap_cons, List.length_append]

theorem constStates_getElem? (a i : ℕ) :
    (constStates counts (.ofNat w a) states)[i]? = states[i]?.map fun s =>
      ⟨s.finalWeight, .ofNat w (a + offset states i), .ofNat w s.arcs.length,
        .ofNat w (counts s).1, .ofNat w (counts s).2⟩ := by
  induction states generalizing a i with
  | nil => rfl
  | cons s states ih =>
    unfold constStates
    cases i with
    | zero =>
      unfold offset allArcs
      simp
    | succ i =>
      have hnext : BitVec.ofNat w ((BitVec.ofNat w a).toNat + s.arcs.length) =
          BitVec.ofNat w (a + s.arcs.length) := by
        apply BitVec.eq_of_toNat_eq
        rw [BitVec.toNat_ofNat, BitVec.toNat_ofNat, BitVec.toNat_ofNat, Nat.mod_add_mod]
      rw [List.getElem?_cons_succ, List.getElem?_cons_succ, hnext, ih, offset_cons,
        Nat.add_assoc]

theorem length_constStates (a : ℕ) :
    (constStates counts (.ofNat w a) states).length = states.length := by
  have hsome (i : ℕ) : (constStates counts (.ofNat w a) states)[i]?.isSome =
      states[i]?.isSome := by
    rw [constStates_getElem?, Option.isSome_map]
  apply le_antisymm
  · by_contra hlt
    have hi := hsome states.length
    rw [List.getElem?_eq_none (le_refl _), List.getElem?_eq_getElem (by omega)] at hi
    cases hi
  · by_contra hlt
    have hi := hsome (constStates counts (.ofNat w a) states).length
    rw [List.getElem?_eq_none (le_refl _), List.getElem?_eq_getElem (by omega)] at hi
    cases hi

theorem allArcs_split {i : ℕ} {s : VectorState L W} (h : states[i]? = some s) :
    allArcs states = allArcs (states.take i) ++ (s.arcs ++ allArcs (states.drop (i + 1))) := by
  obtain ⟨hi, rfl⟩ := List.getElem?_eq_some_iff.mp h
  unfold allArcs
  rw [← List.flatMap_cons, List.getElem_cons_drop, ← List.flatMap_append, List.take_append_drop]

theorem offset_le {i : ℕ} {s : VectorState L W} (h : states[i]? = some s) :
    offset states i + s.arcs.length ≤ (allArcs states).length := by
  rw [allArcs_split h]
  simp only [offset, List.length_append]
  omega

theorem drop_offset {i : ℕ} {s : VectorState L W} (h : states[i]? = some s) :
    ((allArcs states).drop (offset states i)).take s.arcs.length = s.arcs := by
  rw [allArcs_split h, offset, List.drop_left, List.take_left]

theorem strayState_eq_none {narcs : ℕ} {xs : List (ConstState W w)}
    (h : ∀ s ∈ xs, s.pos.toNat ≤ narcs ∧ s.narcs.toNat ≤ narcs - s.pos.toNat) (n : ℕ) :
    strayState narcs xs n = none := by
  induction xs generalizing n with
  | nil => rfl
  | cons s xs ih =>
    obtain ⟨hpos, hnarcs⟩ := h s List.mem_cons_self
    rw [strayState, if_neg (by omega)]
    exact ih (fun t ht => h t (List.mem_cons_of_mem s ht)) (n + 1)

theorem strayState_constStates (narcs : ℕ) (hnarcs : narcs = (allArcs states).length) :
    strayState narcs (constStates (w := w) counts (.ofNat w 0) states) 0 = none := by
  apply strayState_eq_none
  intro t ht
  obtain ⟨i, hi⟩ := List.mem_iff_getElem?.mp ht
  rw [constStates_getElem?] at hi
  obtain ⟨s, hs, rfl⟩ := Option.map_eq_some_iff.mp hi
  have hle := offset_le hs
  have hpos := Nat.mod_le (0 + offset states i) (2 ^ w)
  have hlen := Nat.mod_le s.arcs.length (2 ^ w)
  simp only [BitVec.toNat_ofNat]
  omega

/- What is read of the arcs of each state: as many as its count says, from where its index says. -/
def rewrapped (w : ℕ) (states : List (VectorState L W)) (i : ℕ) (s : VectorState L W) :
    VectorState L W :=
  ⟨s.finalWeight, ((allArcs states).drop (offset states i % 2 ^ w)).take (s.arcs.length % 2 ^ w),
    s.niepsilons % 2 ^ w, s.noepsilons % 2 ^ w⟩

/- Every state has fewer arcs than the indices can count, as well as epsilons, and its own arcs lie
where its index, cut to its width, says. -/
def IndicesFit (w : ℕ) (states : List (VectorState L W)) : Prop :=
  ∀ (i : ℕ) (s : VectorState L W), states[i]? = some s →
    s.arcs.length < 2 ^ w ∧ s.niepsilons < 2 ^ w ∧ s.noepsilons < 2 ^ w ∧
      ((allArcs states).drop (offset states i % 2 ^ w)).take s.arcs.length = s.arcs

theorem rewrapped_eq_self (i : ℕ) (s : VectorState L W) :
    rewrapped w states i s = s ↔ s.arcs.length < 2 ^ w ∧ s.niepsilons < 2 ^ w ∧
      s.noepsilons < 2 ^ w ∧
        ((allArcs states).drop (offset states i % 2 ^ w)).take s.arcs.length = s.arcs := by
  have hpos : 0 < 2 ^ w := Nat.two_pow_pos w
  constructor
  · intro heq
    have harcs := congrArg VectorState.arcs heq
    have hni := congrArg VectorState.niepsilons heq
    have hno := congrArg VectorState.noepsilons heq
    simp only [rewrapped] at harcs hni hno
    have hlen := congrArg List.length harcs
    rw [List.length_take] at hlen
    have hmod := Nat.mod_lt s.arcs.length hpos
    have hlt : s.arcs.length < 2 ^ w := by omega
    refine ⟨hlt, ?_, ?_, ?_⟩
    · rw [← hni]
      exact Nat.mod_lt _ hpos
    · rw [← hno]
      exact Nat.mod_lt _ hpos
    · rwa [Nat.mod_eq_of_lt hlt] at harcs
  · rintro ⟨hlen, hni, hno, harcs⟩
    unfold rewrapped
    rw [Nat.mod_eq_of_lt hlen, Nat.mod_eq_of_lt hni, Nat.mod_eq_of_lt hno, harcs]

/- With fewer arcs in all than the indices can count, all of them fit. -/
theorem indicesFit_of_lt (harcs : (allArcs states).length < 2 ^ w)
    (hcounts : ∀ s ∈ states, s.niepsilons < 2 ^ w ∧ s.noepsilons < 2 ^ w) :
    IndicesFit w states := by
  intro i s hs
  have hle := offset_le hs
  obtain ⟨hni, hno⟩ := hcounts s (List.mem_of_getElem? hs)
  refine ⟨by omega, hni, hno, ?_⟩
  rw [Nat.mod_eq_of_lt (by omega)]
  exact drop_offset hs

theorem mapIdx_rewrapped_eq_self :
    states.mapIdx (rewrapped w states) = states ↔ IndicesFit w states := by
  constructor
  · intro heq i s hs
    rw [← rewrapped_eq_self i s]
    have hget := congrArg (·[i]?) heq
    simp only [List.getElem?_mapIdx, hs, Option.map_some] at hget
    exact Option.some.inj hget
  · intro h
    apply List.ext_getElem?
    intro i
    rw [List.getElem?_mapIdx]
    cases hs : states[i]? with
    | none => rfl
    | some s => rw [Option.map_some, (rewrapped_eq_self i s).mpr (h i s hs)]

/- The view of the states and arcs of the file. -/
variable (w states) in
theorem view_constStates (start : Option ℕ) (props : BitVec 64) :
    (⟨constStates (w := w) (fun s => (s.niepsilons, s.noepsilons)) (.ofNat w 0) states,
        allArcs states, start, props⟩ : ConstFst L W w).view =
      ⟨states.mapIdx (rewrapped w states), start, props⟩ := by
  unfold view
  congr 1
  apply List.ext_getElem?
  intro i
  rw [List.getElem?_map, constStates_getElem?, List.getElem?_mapIdx, Option.map_map]
  cases hs : states[i]? with
  | none => rfl
  | some s =>
    simp only [Option.map_some, Function.comp_apply, stateArcs, rewrapped, BitVec.toNat_ofNat,
      Nat.zero_add]

end Offsets

variable {pos : ℕ}

section Regions

/- The zeros before a region. -/
def gap (aligned : Bool) (pos : ℕ) : List UInt8 :=
  if aligned then padding archAlignment pos else []

theorem codes_region (aligned : Bool) (pos : ℕ) (block : List UInt8) :
    Codes (region aligned block.length) pos (gap aligned pos ++ block) block := by
  unfold region gap
  cases aligned with
  | true => exact (codes_alignInput (by decide) pos).bind (codes_readBytes _ block rfl)
  | false => exact (codes_pure pos _).nil_bind (codes_readBytes pos block rfl)

/- The padding only depends on where the position lies between two boundaries. -/
theorem gap_add {aligned : Bool} (h : aligned = true → pos % archAlignment = 0) (n : ℕ) :
    gap aligned (pos + n) = gap aligned n := by
  unfold gap
  cases aligned with
  | false => rfl
  | true =>
    have hpos := h rfl
    unfold padding
    rw [if_pos rfl, if_pos rfl, Nat.add_mod, hpos, Nat.zero_add, Nat.mod_mod]

theorem alignOutput_eq (opts : FstWriteOptions) (bytes : List UInt8) :
    alignOutput opts bytes = bytes ++ gap opts.align bytes.length := by
  unfold alignOutput gap
  split
  · rfl
  · rw [List.append_nil]

end Regions

section Whole

variable {isMember : W → Bool} {getHash : String → ℕ} {io : ConstIo L W w}
  {opts : FstReadOptions} {wopts : FstWriteOptions} {fst : WithSymbols (VectorFst L W)}
  {bytes : List UInt8}

/- An FST of the types of its arcs, all of whose arcs lead to existing states. -/
structure TypedFst (getHash : String → ℕ) (io : ConstIo L W w)
    (fst : WithSymbols (VectorFst L W)) : Prop where
  states : ∀ s ∈ fst.fst.states, ∀ pos narcs niepsilons noepsilons,
    io.states.Fits ⟨s.finalWeight, pos, narcs, niepsilons, noepsilons⟩
  arcs : ∀ arc ∈ allArcs fst.fst.states, io.arcs.Fits (.ofArc arc) ∧
    (arc.nextstate : ℤ) ≠ io.noState ∧ arc.nextstate < fst.fst.numStates
  numStates : fst.fst.numStates < 2 ^ 63
  numArcs : (allArcs fst.fst.states).length < 2 ^ 63
  start : ∀ s, fst.fst.start = some s → s < 2 ^ 63
  isymbols : SoundTable getHash fst.isymbols
  osymbols : SoundTable getHash fst.osymbols

def fileStates (w : ℕ) (states : List (VectorState L W)) : List (ConstState W w) :=
  constStates (fun s => (s.niepsilons, s.noepsilons)) (.ofNat w 0) states

def fileArcs (states : List (VectorState L W)) : List (RawArc L W) :=
  (allArcs states).map RawArc.ofArc

def statesBlock (io : ConstIo L W w) (states : List (VectorState L W)) : List UInt8 :=
  (fileStates w states).flatMap io.states.bytes

def arcsBlock (io : ConstIo L W w) (states : List (VectorState L W)) : List UInt8 :=
  (fileArcs states).flatMap io.arcs.bytes

theorem write_ok (hwrite : writeFst isMember io wopts fst = some (.ok bytes)) :
    ∃ header' hbytes, writeFstHeader wopts (header isMember io wopts fst.fst) fst.isymbols
        fst.osymbols = some (.ok (header', hbytes)) ∧
      bytes = hbytes ++ ((gap wopts.align hbytes.length ++ statesBlock io fst.fst.states) ++
        (gap wopts.align (hbytes ++ (gap wopts.align hbytes.length ++
          statesBlock io fst.fst.states)).length ++ arcsBlock io fst.fst.states)) := by
  unfold writeFst at hwrite
  obtain ⟨⟨header', hbytes⟩, hhead, hwrite⟩ := bind_eq_ok.mp hwrite
  cases hwrite
  refine ⟨header', hbytes, hhead, ?_⟩
  simp only [alignOutput_eq, statesBlock, arcsBlock, fileStates, fileArcs, List.append_assoc]

theorem values_statesBlock (h : TypedFst getHash io fst) :
    io.states.values fst.fst.states.length (statesBlock io fst.fst.states) =
      fileStates w fst.fst.states := by
  have hfits : ∀ t ∈ fileStates w fst.fst.states, io.states.Fits t := by
    intro t ht
    obtain ⟨i, hi⟩ := List.mem_iff_getElem?.mp ht
    rw [fileStates, constStates_getElem?] at hi
    obtain ⟨s, hs, rfl⟩ := Option.map_eq_some_iff.mp hi
    exact h.states s (List.mem_of_getElem? hs) _ _ _ _
  have hvalues := io.states.values_flatMap_bytes hfits
  rwa [fileStates, length_constStates] at hvalues

theorem values_arcsBlock (h : TypedFst getHash io fst) :
    io.arcs.values (allArcs fst.fst.states).length (arcsBlock io fst.fst.states) =
      fileArcs fst.fst.states := by
  have hfits : ∀ raw ∈ fileArcs fst.fst.states, io.arcs.Fits raw := by
    intro raw hraw
    obtain ⟨arc, harc, rfl⟩ := List.mem_map.mp hraw
    exact (h.arcs arc harc).1
  have hvalues := io.arcs.values_flatMap_bytes hfits
  rwa [fileArcs, List.length_map] at hvalues

theorem map_arc_fileArcs (h : TypedFst getHash io fst) :
    (fileArcs fst.fst.states).map RawArc.arc = allArcs fst.fst.states := by
  unfold fileArcs
  rw [List.map_map]
  conv_rhs => rw [← List.map_id (allArcs fst.fst.states)]
  apply List.map_congr_left
  intro arc harc
  have hlt := (h.arcs arc harc).2.2
  have hnum := h.numStates
  exact RawArc.arc_ofArc (by omega)

theorem verifyArcs_fileArcs (h : TypedFst getHash io fst) :
    verifyArcs io opts fst.fst.numStates (fileArcs fst.fst.states) = .ok () := by
  have hall : ∀ raw ∈ fileArcs fst.fst.states,
      verifyArc io opts.source fst.fst.numStates raw = .ok () := by
    intro raw hraw
    obtain ⟨arc, harc, rfl⟩ := List.mem_map.mp hraw
    obtain ⟨-, hne, hlt⟩ := h.arcs arc harc
    have hnum := h.numStates
    unfold verifyArc RawArc.ofArc
    dsimp only
    rw [if_neg hne, if_neg (not_lt.mpr (Int.natCast_nonneg _)), idAsUsize_natCast (by omega),
      if_neg (not_le.mpr hlt)]
  generalize fileArcs fst.fst.states = raws at hall
  unfold verifyArcs
  split
  · induction raws with
    | nil => rfl
    | cons raw raws ih =>
      rw [List.forM, hall raw List.mem_cons_self]
      exact ih fun r hr => hall r (List.mem_cons_of_mem raw hr)
  · rfl

variable {head : FstHeader}

theorem readStart_eq (hstart : head.start = startId fst.fst.start)
    (hnum : head.numStates = fst.fst.numStates) (h : StartExists fst.fst) (source : String) :
    readStart source head = .ok fst.fst.start := by
  unfold readStart
  rw [hstart, hnum]
  unfold startId noStateId
  cases hfst : fst.fst.start with
  | none => rfl
  | some s =>
    have hs := h s hfst
    rw [Option.map_some, Option.getD_some, if_neg (by omega), if_neg (by omega),
      Int.toNat_natCast]

theorem readStart_error (hstart : head.start = startId fst.fst.start)
    (hnum : head.numStates = fst.fst.numStates) (h : ¬ StartExists fst.fst) (source : String) :
    ∃ e, readStart source head = .error e := by
  unfold StartExists at h
  push Not at h
  obtain ⟨start, hfst, hle⟩ := h
  unfold readStart
  rw [hstart, hnum, hfst]
  unfold startId noStateId
  rw [Option.map_some, Option.getD_some, if_neg (by omega), if_pos (by omega)]
  exact ⟨_, rfl⟩

variable (opts) in
theorem finish_eq (h : TypedFst getHash io fst) (hexists : StartExists fst.fst)
    {head : FstHeaderWithSymbols} (hstart : head.header.start = startId fst.fst.start)
    (hnum : head.header.numStates = fst.fst.numStates) :
    finish io opts head (fileStates w fst.fst.states) (fileArcs fst.fst.states) =
      .ok ⟨⟨fileStates w fst.fst.states, allArcs fst.fst.states, fst.fst.start,
        head.header.properties ||| kExpanded⟩, head.isymbols, head.osymbols⟩ := by
  have hcheck : checkStates opts.source (fileArcs fst.fst.states).length
      (fileStates w fst.fst.states) = .ok () := by
    unfold checkStates fileStates fileArcs
    rw [List.length_map, strayState_constStates _ rfl]
  have hlen : (fileStates w fst.fst.states).length = fst.fst.numStates := length_constStates 0
  unfold finish
  rw [readStart_eq hstart hnum hexists, hcheck, hlen, verifyArcs_fileArcs h, map_arc_fileArcs h]
  rfl

variable (io opts) in
theorem finish_error (hexists : ¬ StartExists fst.fst)
    {head : FstHeaderWithSymbols} (hstart : head.header.start = startId fst.fst.start)
    (hnum : head.header.numStates = fst.fst.numStates) (states : List (ConstState W w))
    (arcs : List (RawArc L W)) : ∃ e, finish io opts head states arcs = .error e := by
  obtain ⟨e, he⟩ := readStart_error hstart hnum hexists opts.source
  unfold finish
  rw [he]
  exact ⟨e, rfl⟩

/- The counts that the header has room for. -/
structure Countable (fst : VectorFst L W) : Prop where
  numStates : (fst.numStates : ℤ) ≤ maxStates
  numArcs : ((allArcs fst.states).length : ℤ) ≤ maxArcs

theorem checkCounts_eq (h : Countable fst.fst) (hnum : head.numStates = fst.fst.numStates)
    (harcs : head.numArcs = (allArcs fst.fst.states).length) (source : String) :
    checkCounts source head = .ok () := by
  obtain ⟨hstates, hall⟩ := h
  unfold checkCounts
  rw [hnum, harcs, if_neg (by omega), if_neg (by omega)]

theorem checkCounts_error (h : ¬ Countable fst.fst) (hnum : head.numStates = fst.fst.numStates)
    (harcs : head.numArcs = (allArcs fst.fst.states).length) (source : String) :
    ∃ e, checkCounts source head = .error e := by
  unfold checkCounts
  rw [hnum, harcs]
  by_cases hstates : (fst.fst.numStates : ℤ) ≤ maxStates
  · have hall : ¬ ((allArcs fst.fst.states).length : ℤ) ≤ maxArcs := fun hle => h ⟨hstates, hle⟩
    rw [if_neg (by omega), if_pos (by omega)]
    exact ⟨_, rfl⟩
  · rw [if_pos (by omega)]
    exact ⟨_, rfl⟩

theorem isAligned_header (isymbols osymbols : Option SymbolTableImpl) :
    isAligned { header isMember io wopts fst.fst with
      flags := writtenFlags wopts isymbols osymbols } = wopts.align := by
  have hflags := (writtenFlags_bits wopts isymbols osymbols).2.2
  unfold isAligned header alignedFileVersion fileVersion
  rw [Bool.decide_or, hflags]
  cases wopts.align <;> rfl

variable (isMember) in
theorem codes_readRegions (h : TypedFst getHash io fst)
    (isymbols osymbols : Option SymbolTableImpl) {pos : ℕ}
    (hpos : wopts.align = true → pos % archAlignment = 0) (hbytes : List UInt8) :
    Codes (readRegions io { header isMember io wopts fst.fst with
        flags := writtenFlags wopts isymbols osymbols }) (pos + hbytes.length)
      ((gap wopts.align hbytes.length ++ statesBlock io fst.fst.states) ++
        (gap wopts.align (hbytes ++ (gap wopts.align hbytes.length ++
          statesBlock io fst.fst.states)).length ++ arcsBlock io fst.fst.states))
      (fileStates w fst.fst.states, fileArcs fst.fst.states) := by
  have hslen : (statesBlock io fst.fst.states).length =
      fst.fst.states.length * io.states.size := by
    unfold statesBlock
    rw [Layout.length_flatMap_bytes, fileStates, length_constStates]
  have halen : (arcsBlock io fst.fst.states).length =
      (allArcs fst.fst.states).length * io.arcs.size := by
    unfold arcsBlock
    rw [Layout.length_flatMap_bytes, fileArcs, List.length_map]
  have hsregion := codes_region wopts.align (pos + hbytes.length) (statesBlock io fst.fst.states)
  have haregion := codes_region wopts.align (pos + (hbytes ++ (gap wopts.align hbytes.length ++
    statesBlock io fst.fst.states)).length) (arcsBlock io fst.fst.states)
  rw [gap_add hpos, hslen] at hsregion
  rw [gap_add hpos, halen] at haregion
  have hsecond (block : List UInt8) :
      pos + (hbytes ++ block).length = pos + hbytes.length + block.length := by
    rw [List.length_append, Nat.add_assoc]
  rw [hsecond] at haregion
  unfold readRegions
  rw [isAligned_header]
  unfold header
  dsimp only
  rw [Int.toNat_natCast, Int.toNat_natCast, VectorFst.numStates]
  apply hsregion.bind
  apply haregion.bind_nil
  rw [values_statesBlock h, values_arcsBlock h]
  exact codes_pure _ _

/- The header and the tables are read; what is done with the rest of the bytes decides. -/
theorem codes_of_finish (hopts : OwnHeader opts) (hwopts : wopts.writeHeader = true)
    (h : TypedFst getHash io fst) (hwrite : writeFst isMember io wopts fst = some (.ok bytes))
    (hpos : wopts.align = true → pos % archAlignment = 0) :
    ∃ head, head.header = { header isMember io wopts fst.fst with
        flags := writtenFlags wopts fst.isymbols fst.osymbols } ∧
      SameTable getHash ((fst.isymbols.filter fun _ => wopts.writeIsymbols).filter fun _ =>
        opts.readIsymbols) head.isymbols ∧
      SameTable getHash ((fst.osymbols.filter fun _ => wopts.writeOsymbols).filter fun _ =>
        opts.readOsymbols) head.osymbols ∧
      (Countable fst.fst → ∀ r, finish io opts head (fileStates w fst.fst.states)
        (fileArcs fst.fst.states) = .ok r → Codes (read getHash io opts) pos bytes r) ∧
      (Countable fst.fst → ∀ e, finish io opts head (fileStates w fst.fst.states)
        (fileArcs fst.fst.states) = .error e →
          read getHash io opts ⟨pos, bytes⟩ = some (.error e)) ∧
      (¬ Countable fst.fst → ∃ e, read getHash io opts ⟨pos, bytes⟩ = some (.error e)) := by
  obtain ⟨header', hbytes, hhead, rfl⟩ := write_ok hwrite
  have hstates := h.numStates
  have harcs := h.numArcs
  have hversion : (header isMember io wopts fst.fst).version = 1 ∨
      (header isMember io wopts fst.fst).version = 2 := by
    unfold header
    dsimp only
    split
    · exact Or.inl rfl
    · exact Or.inr rfl
  have hrange : (header isMember io wopts fst.fst).InRange := by
    refine ⟨by omega, startId_inRange h.start, ?_, ?_⟩
    · unfold header
      dsimp only
      omega
    · unfold header
      dsimp only
      omega
  have hmin : minFileVersion ≤ (header isMember io wopts fst.fst).version := by
    unfold minFileVersion
    omega
  obtain ⟨isymbols', osymbols', hcodes, hisame, hosame, rfl⟩ := codes_readFstHeader hopts hwopts
    hrange h.isymbols h.osymbols hhead hmin pos
  have hregions := codes_readRegions isMember h fst.isymbols fst.osymbols hpos hbytes
  refine ⟨⟨_, isymbols', osymbols'⟩, rfl, hisame, hosame, ?_, ?_, ?_⟩
  · intro hcount r hr
    unfold read
    apply hcodes.bind
    apply (codes_lift _ (congrArg some (checkCounts_eq hcount rfl rfl _))).nil_bind
    exact hregions.bind_nil (codes_lift _ (congrArg some hr))
  · intro hcount e he
    have hreads := hregions.reads []
    rw [List.append_nil] at hreads
    unfold read
    refine (bind_of_ok (hcodes.reads _)).trans (.trans (bind_lift_of_ok
      (congrArg some (checkCounts_eq hcount rfl rfl _)) _) ((bind_of_ok hreads).trans ?_))
    exact congrArg (lift · _) (congrArg some he)
  · intro hcount
    obtain ⟨e, he⟩ := @checkCounts_error _ _ _ _ _ _ _ { header isMember io wopts fst.fst with
      flags := writtenFlags wopts fst.isymbols fst.osymbols } hcount rfl rfl opts.source
    refine ⟨e, ?_⟩
    unfold read
    exact (bind_of_ok (hcodes.reads _)).trans (bind_lift_of_error (congrArg some he) _)

/- What is read is what was written; the property bits are those a scan settles, and the one every
`ConstFst` has. -/
structure Same (isMember : W → Bool) (getHash : String → ℕ) (fst : WithSymbols (VectorFst L W))
    (fst' : WithSymbols (ConstFst L W w)) : Prop where
  start : fst'.fst.view.start = fst.fst.start
  states : fst'.fst.view.states = fst.fst.states
  properties : fst'.fst.properties = cachedProperties isMember fst.fst kCopyProperties ||| kExpanded
  isymbols : SameTable getHash fst.isymbols fst'.isymbols
  osymbols : SameTable getHash fst.osymbols fst'.osymbols

/- What an FST must be for the file to give it back. -/
structure Restorable (w : ℕ) (fst : VectorFst L W) : Prop where
  start : StartExists fst
  countable : Countable fst
  indices : IndicesFit w fst.states

/- What is read of the states of an FST all of which can be counted. -/
theorem codes_read (hopts : OwnHeader opts) (hwopts : wopts.writeHeader = true)
    (h : TypedFst getHash io fst) (hstart : StartExists fst.fst) (hcount : Countable fst.fst)
    (hwrite : writeFst isMember io wopts fst = some (.ok bytes))
    (hpos : wopts.align = true → pos % archAlignment = 0) :
    ∃ isymbols osymbols, Codes (read getHash io opts) pos bytes
        ⟨⟨fileStates w fst.fst.states, allArcs fst.fst.states, fst.fst.start,
          (cachedProperties isMember fst.fst kCopyProperties ||| kExpanded) ||| kExpanded⟩,
          isymbols, osymbols⟩ ∧
      SameTable getHash ((fst.isymbols.filter fun _ => wopts.writeIsymbols).filter fun _ =>
        opts.readIsymbols) isymbols ∧
      SameTable getHash ((fst.osymbols.filter fun _ => wopts.writeOsymbols).filter fun _ =>
        opts.readOsymbols) osymbols := by
  obtain ⟨head, hhead, hi, ho, hok, -, -⟩ := codes_of_finish hopts hwopts h hwrite hpos
  have hfinish := finish_eq opts h hstart (hhead ▸ rfl : head.header.start = startId fst.fst.start)
    (hhead ▸ rfl)
  rw [hhead] at hfinish
  exact ⟨head.isymbols, head.osymbols, hok hcount _ hfinish, hi, ho⟩

theorem not_codes_read (hopts : OwnHeader opts) (hwopts : wopts.writeHeader = true)
    (h : TypedFst getHash io fst) (hbad : ¬ (StartExists fst.fst ∧ Countable fst.fst))
    (hwrite : writeFst isMember io wopts fst = some (.ok bytes))
    (hpos : wopts.align = true → pos % archAlignment = 0) (r : WithSymbols (ConstFst L W w)) :
    ¬ Codes (read getHash io opts) pos bytes r := by
  intro hcodes
  obtain ⟨head, hhead, -, -, -, herror, hmany⟩ := codes_of_finish hopts hwopts h hwrite hpos
  have hfails : ∃ e, read getHash io opts ⟨pos, bytes⟩ = some (.error e) := by
    by_cases hcount : Countable fst.fst
    · have hstart : ¬ StartExists fst.fst := fun hstart => hbad ⟨hstart, hcount⟩
      obtain ⟨e, he⟩ := finish_error io opts hstart
        (hhead ▸ rfl : head.header.start = startId fst.fst.start) (hhead ▸ rfl) (fileStates w fst.fst.states)
        (fileArcs fst.fst.states)
      exact ⟨e, herror hcount e he⟩
    · exact hmany hcount
  obtain ⟨e, he⟩ := hfails
  have hreads := hcodes.reads []
  rw [List.append_nil, he] at hreads
  cases hreads

theorem read_writeFst_iff (hopts : KeepsTables opts) (hwopts : WritesAll wopts)
    (h : TypedFst getHash io fst) (hwrite : writeFst isMember io wopts fst = some (.ok bytes))
    (hpos : wopts.align = true → pos % archAlignment = 0) :
    (∃ fst', Codes (read getHash io opts) pos bytes fst' ∧ Same isMember getHash fst fst') ↔
      Restorable w fst.fst := by
  by_cases hgood : StartExists fst.fst ∧ Countable fst.fst
  · obtain ⟨hstart, hcount⟩ := hgood
    obtain ⟨isymbols, osymbols, hcodes, hi, ho⟩ := codes_read hopts.toOwnHeader hwopts.1 h hstart
      hcount hwrite hpos
    rw [hwopts.writeIsymbols, hopts.readIsymbols, filter_keep, filter_keep] at hi
    rw [hwopts.writeOsymbols, hopts.readOsymbols, filter_keep, filter_keep] at ho
    have hview := view_constStates w fst.fst.states fst.fst.start
      ((cachedProperties isMember fst.fst kCopyProperties ||| kExpanded) ||| kExpanded)
    constructor
    · rintro ⟨fst', hcodes', hsame⟩
      obtain rfl := hcodes.unique hcodes'
      refine ⟨hstart, hcount, mapIdx_rewrapped_eq_self.mp ?_⟩
      exact (congrArg VectorFst.states hview).symm.trans hsame.states
    · rintro ⟨-, -, hindices⟩
      refine ⟨_, hcodes, rfl, ?_, ?_, hi, ho⟩
      · exact (congrArg VectorFst.states hview).trans (mapIdx_rewrapped_eq_self.mpr hindices)
      · dsimp only
        rw [BitVec.or_assoc, BitVec.or_self]
  · constructor
    · rintro ⟨fst', hcodes', -⟩
      exact absurd hcodes' (not_codes_read hopts.toOwnHeader hwopts.1 h hgood hwrite hpos fst')
    · exact fun hrestorable => absurd ⟨hrestorable.start, hrestorable.countable⟩ hgood

end Whole

end Sicada.ConstFst
