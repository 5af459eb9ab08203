import Sicada.ConstFstIo

namespace Sicada.FstRoundTrip

open Codec Io VectorFstIo

/- Both formats give back an FST, from exactly its own bytes and from no fewer, just when it is as
the format assumes: its start is a state, and for a `VectorFst` its epsilon counts are those of its
arcs and its static bits are set, for a `ConstFst` its indices and counts fit their width. -/
theorem binary_roundTrips_iff {L W : Type} [ArcLabel L] [Zero W] [One W] [DecidableEq W]
    (isMember : W → Bool) (getHash : String → ℕ) {opts : FstReadOptions} {wopts : FstWriteOptions}
    (hopts : KeepsTables opts) (hwopts : WritesAll wopts) (fst : WithSymbols (VectorFst L W))
    (bytes : List UInt8) :
    (∀ io, TypedFst getHash io fst → writeFst io wopts fst = some (.ok bytes) →
      ((∃ fst', Codes (read getHash io opts) 0 bytes fst' ∧ Same getHash fst fst') ↔
        Restorable fst.fst)) ∧
    ∀ (w : ℕ) (io : ConstIo L W w), ConstFst.TypedFst getHash io fst →
      ConstFst.writeFst isMember io wopts fst = some (.ok bytes) →
      ((∃ fst', Codes (ConstFst.read getHash io opts) 0 bytes fst' ∧
          ConstFst.Same isMember getHash fst fst') ↔ ConstFst.Restorable w fst.fst) :=
  ⟨fun _ h hwrite => read_writeFst_iff hopts hwopts h hwrite 0,
    fun _ _ h hwrite => ConstFst.read_writeFst_iff hopts hwopts h hwrite fun _ => rfl⟩

/- Arcs with labels and state ids of 32 bits and a weight of 32 bits. -/
def i32Wire : Wire OpenFstError ℤ where
  Fits x := -2 ^ 31 ≤ x ∧ x < 2 ^ 31
  write := writeI32
  read := readI32
  codes pos _ h := codes_i32 pos h.1 h.2

def u32Wire : Wire OpenFstError ℕ where
  Fits n := n < 2 ^ 32
  write := writeU32
  read := readU32
  codes pos _ h := codes_u32 pos h

def stdArcIo : ArcIo ℤ ℕ := ⟨"standard", i32Wire, u32Wire, i32Wire, -1⟩

/- The words of four bytes that make up a block. -/
def word (block : List UInt8) (k : ℕ) : List UInt8 := (block.drop (4 * k)).take 4

variable {first rest : List UInt8}

theorem word_zero (h : first.length = 4) : word (first ++ rest) 0 = first := by
  unfold word
  rw [Nat.mul_zero, List.drop_zero, List.take_left' h]

theorem word_succ (h : first.length = 4) (k : ℕ) : word (first ++ rest) (k + 1) = word rest k := by
  unfold word
  rw [Nat.mul_add, Nat.add_comm, Nat.mul_one, ← List.drop_drop, List.drop_left' h]

theorem length_writeU32 (n : ℕ) : (writeU32 n).length = 4 := length_toBytes 4 n

theorem length_writeI32 (x : ℤ) : (writeI32 x).length = 4 := length_toBytes 4 _

theorem ofNat_writeU32 (b : BitVec 32) : BitVec.ofNat 32 (ofBytes (writeU32 b.toNat)) = b := by
  have hb := b.isLt
  rw [writeU32, ofBytes_toBytes (by norm_num; omega), BitVec.ofNat_toNat, BitVec.setWidth_eq]

theorem ofBytes_writeU32 {n : ℕ} (h : n < 2 ^ 32) : ofBytes (writeU32 n) = n :=
  ofBytes_toBytes (by norm_num; omega)

theorem ofBytesSigned_writeI32 {x : ℤ} (h : -2 ^ 31 ≤ x ∧ x < 2 ^ 31) :
    ofBytesSigned (writeI32 x) = x :=
  ofBytesSigned_toBytesSigned (by norm_num; omega) (by norm_num; omega)

def stdStateLayout : Layout (ConstState ℕ 32) where
  Fits s := s.finalWeight < 2 ^ 32
  size := 20
  bytes s := writeU32 s.finalWeight ++ (writeU32 s.pos.toNat ++ (writeU32 s.narcs.toNat ++
    (writeU32 s.niepsilons.toNat ++ (writeU32 s.noepsilons.toNat ++ []))))
  value block := ⟨ofBytes (word block 0), .ofNat 32 (ofBytes (word block 1)),
    .ofNat 32 (ofBytes (word block 2)), .ofNat 32 (ofBytes (word block 3)),
    .ofNat 32 (ofBytes (word block 4))⟩
  length_bytes s := by simp [length_writeU32]
  value_bytes s h := by
    have hlen := length_writeU32
    rw [word_zero (hlen _), ofBytes_writeU32 h]
    rw [word_succ (hlen _), word_zero (hlen _), ofNat_writeU32]
    rw [word_succ (hlen _), word_succ (hlen _), word_zero (hlen _), ofNat_writeU32]
    rw [word_succ (hlen _), word_succ (hlen _), word_succ (hlen _), word_zero (hlen _),
      ofNat_writeU32]
    rw [word_succ (hlen _), word_succ (hlen _), word_succ (hlen _), word_succ (hlen _),
      word_zero (hlen _), ofNat_writeU32]

def stdArcLayout : Layout (RawArc ℤ ℕ) where
  Fits arc := i32Wire.Fits arc.ilabel ∧ i32Wire.Fits arc.olabel ∧ arc.weight < 2 ^ 32 ∧
    i32Wire.Fits arc.nextstate
  size := 16
  bytes arc := writeI32 arc.ilabel ++ (writeI32 arc.olabel ++ (writeU32 arc.weight ++
    (writeI32 arc.nextstate ++ [])))
  value block := ⟨ofBytesSigned (word block 0), ofBytesSigned (word block 1),
    ofBytes (word block 2), ofBytesSigned (word block 3)⟩
  length_bytes arc := by simp [length_writeU32, length_writeI32]
  value_bytes arc h := by
    have hlen := length_writeU32
    have hlen' := length_writeI32
    obtain ⟨hi, ho, hw, hn⟩ := h
    rw [word_zero (hlen' _), ofBytesSigned_writeI32 hi]
    rw [word_succ (hlen' _), word_zero (hlen' _), ofBytesSigned_writeI32 ho]
    rw [word_succ (hlen' _), word_succ (hlen' _), word_zero (hlen _), ofBytes_writeU32 hw]
    rw [word_succ (hlen' _), word_succ (hlen' _), word_succ (hlen _), word_zero (hlen' _),
      ofBytesSigned_writeI32 hn]

def stdConstIo : ConstIo ℤ ℕ 32 := ⟨"standard", stdStateLayout, stdArcLayout, -1⟩

/- Two states, the one leading to the other. -/
def twoStates : VectorFst ℤ ℕ :=
  (((VectorFst.new : VectorFst ℤ ℕ).addStates 2).setStart (some 0)).addArc 0 ⟨1, 2, 3, 1⟩

theorem twoStates_states : twoStates.states = [⟨0, [⟨1, 2, 3, 1⟩], 0, 0⟩, ⟨0, [], 0, 0⟩] := by
  decide

theorem typed_arc {arc : Arc ℤ ℕ} (h : arc = ⟨1, 2, 3, 1⟩) : stdArcIo.Typed arc := by
  subst h
  refine ⟨?_, ?_, ?_, ?_, by decide⟩
  · exact ⟨by decide, by decide⟩
  · exact ⟨by decide, by decide⟩
  · exact (by decide : 3 < 2 ^ 32)
  · exact ⟨by decide, by decide⟩

theorem typed_twoStates : TypedFst String.length stdArcIo ⟨twoStates, none, none⟩ := by
  refine ⟨?_, ?_, by decide, ?_, soundTable_none, soundTable_none⟩
  · rw [twoStates_states]
    intro s hs
    fin_cases hs
    · refine ⟨(by decide : 0 < 2 ^ 32), fun arc harc => ?_, by decide⟩
      have heq := List.mem_singleton.mp harc
      exact ⟨typed_arc heq, by rw [heq]; decide⟩
    · exact ⟨(by decide : 0 < 2 ^ 32), fun arc harc => (by cases harc), by decide⟩
  · rw [twoStates_states]
    intro s hs arc harc
    fin_cases hs
    · rw [List.mem_singleton.mp harc]
      decide
    · cases harc
  · intro s hs
    cases hs
    decide

theorem typedConst_twoStates :
    ConstFst.TypedFst String.length stdConstIo ⟨twoStates, none, none⟩ := by
  refine ⟨?_, ?_, by decide, by decide, ?_, soundTable_none, soundTable_none⟩
  · rw [twoStates_states]
    intro s hs pos narcs niepsilons noepsilons
    fin_cases hs <;> exact (by decide : 0 < 2 ^ 32)
  · intro arc harc
    have heq : arc = ⟨1, 2, 3, 1⟩ := by
      rw [twoStates_states] at harc
      exact List.mem_singleton.mp harc
    have htyped := typed_arc heq
    refine ⟨⟨htyped.ilabel, htyped.olabel, htyped.weight, htyped.nextstate⟩, htyped.state, ?_⟩
    rw [heq]
    decide
  · intro s hs
    cases hs
    decide

theorem binary_roundTrips_twoStates :
    (∃ bytes fst', writeFst stdArcIo {} ⟨twoStates, none, none⟩ = some (.ok bytes) ∧
      Codes (read String.length stdArcIo {}) 0 bytes fst' ∧
        Same String.length ⟨twoStates, none, none⟩ fst') ∧
    ∃ bytes fst', ConstFst.writeFst (fun _ => true) stdConstIo {} ⟨twoStates, none, none⟩ =
        some (.ok bytes) ∧
      Codes (ConstFst.read String.length stdConstIo {}) 0 bytes fst' ∧
        ConstFst.Same (fun _ => true) String.length ⟨twoStates, none, none⟩ fst' := by
  have hkeeps : KeepsTables {} := ⟨⟨rfl, rfl, rfl⟩, rfl, rfl⟩
  have hwrites : WritesAll {} := ⟨rfl, rfl, rfl⟩
  have hstart : StartExists twoStates := by
    intro s hs
    cases hs
    decide
  have hcounts : ∀ s ∈ twoStates.states, EpsilonCounts.Exact s := by
    rw [twoStates_states]
    intro s hs
    fin_cases hs <;> exact ⟨rfl, rfl⟩
  constructor
  · have hwrite : ∃ bytes, writeFst stdArcIo {} ⟨twoStates, none, none⟩ = some (.ok bytes) :=
      ⟨_, rfl⟩
    obtain ⟨bytes, hwrite⟩ := hwrite
    have hiff := (binary_roundTrips_iff (fun _ => true) String.length hkeeps hwrites
      ⟨twoStates, none, none⟩ bytes).1 stdArcIo typed_twoStates hwrite
    obtain ⟨fst', hfst⟩ := hiff.mpr ⟨hstart, (EpsilonCounts.countsExact_iff _).mpr hcounts, rfl⟩
    exact ⟨bytes, fst', hwrite, hfst⟩
  · have hwrite : ∃ bytes, ConstFst.writeFst (fun _ => true) stdConstIo {} ⟨twoStates, none, none⟩ =
        some (.ok bytes) := ⟨_, rfl⟩
    obtain ⟨bytes, hwrite⟩ := hwrite
    have hiff := (binary_roundTrips_iff (fun _ => true) String.length hkeeps hwrites
      ⟨twoStates, none, none⟩ bytes).2 32 stdConstIo typedConst_twoStates hwrite
    obtain ⟨fst', hfst⟩ := hiff.mpr ⟨hstart, ⟨by decide, by decide⟩,
      ConstFst.indicesFit_of_lt (by decide) fun s hs => by
        rw [twoStates_states] at hs
        fin_cases hs <;> decide⟩
    exact ⟨bytes, fst', hwrite, hfst⟩

/- A loop whose input epsilon is relabelled once it is there. -/
def relabelled : VectorFst ℤ ℕ :=
  ((((VectorFst.new : VectorFst ℤ ℕ).addState.setStart (some 0)).addArc 0 ⟨0, 0, 1, 0⟩).mutateArcs 0
    (fun arc (_ : Unit) => ({ arc with ilabel := 1 }, ())) ()).1

theorem relabelled_states : relabelled.states = [⟨0, [⟨1, 0, 1, 0⟩], 1, 1⟩] := by decide

/- The count of the state is of an epsilon that is gone, and the reader counts again. -/
theorem counts_lost : ∃ bytes, writeFst stdArcIo {} ⟨relabelled, none, none⟩ = some (.ok bytes) ∧
    ¬ ∃ fst', Codes (read String.length stdArcIo {}) 0 bytes fst' ∧
      Same String.length ⟨relabelled, none, none⟩ fst' := by
  have hwrite : ∃ bytes, writeFst stdArcIo {} ⟨relabelled, none, none⟩ = some (.ok bytes) :=
    ⟨_, rfl⟩
  obtain ⟨bytes, hwrite⟩ := hwrite
  have hkeeps : KeepsTables {} := ⟨⟨rfl, rfl, rfl⟩, rfl, rfl⟩
  have hwrites : WritesAll {} := ⟨rfl, rfl, rfl⟩
  have htyped : TypedFst String.length stdArcIo ⟨relabelled, none, none⟩ := by
    refine ⟨?_, ?_, by decide, ?_, soundTable_none, soundTable_none⟩
    · rw [relabelled_states]
      intro s hs
      obtain rfl := List.mem_singleton.mp hs
      refine ⟨(by decide : 0 < 2 ^ 32), fun arc harc => ?_, by decide⟩
      obtain rfl := List.mem_singleton.mp harc
      refine ⟨⟨?_, ?_, (by decide : 1 < 2 ^ 32), ?_, by decide⟩, by decide⟩
      · exact ⟨by decide, by decide⟩
      · exact ⟨by decide, by decide⟩
      · exact ⟨by decide, by decide⟩
    · rw [relabelled_states]
      intro s hs arc harc
      obtain rfl := List.mem_singleton.mp hs
      obtain rfl := List.mem_singleton.mp harc
      decide
    · intro s hs
      cases hs
      decide
  refine ⟨bytes, hwrite, fun hread => ?_⟩
  have hrestorable := (read_writeFst_iff hkeeps hwrites htyped hwrite 0).mp hread
  have hexact := (EpsilonCounts.countsExact_iff _).mp hrestorable.counts
  rw [relabelled_states] at hexact
  have hzero := (hexact _ (List.mem_singleton_self _)).1
  exact absurd hzero (by decide)

end Sicada.FstRoundTrip
