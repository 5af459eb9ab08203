import Sicada.CompactRoundTrip
import Sicada.FstRoundTrip

namespace Sicada.CompactExact

open Codec Io VectorFstIo ConstFst CompactArcStore CompactorKind CompactExpand CompactKinds
  CompactRoundTrip FstRoundTrip

/- A compact FST that is made says what the FST does, and so does the one that is read from exactly
the bytes of its file, just when no weight is dropped, the indices hold the elements and the header
allows for them. -/
theorem compact_restores_iff {L W : Type} [ArcLabel L] [Zero W] [One W] [DecidableEq W] {w : ℕ}
    (kind : CompactorKind) (isMember : W → Bool) (noState : ℤ) (getHash : String → ℕ) (hw : w ≤ 64)
    (io : CompactIo (kind.Element L W) w)
    {opts : FstReadOptions} {wopts : FstWriteOptions} (hopts : KeepsTables opts)
    (hwopts : WritesAll wopts) {fst : WithSymbols (VectorFst L W)}
    (h : CompactRoundTrip.TypedFst getHash io noState fst) (honest : PropertyBits.Honest fst.fst)
    (hlabels : ∀ s ∈ fst.fst.states, ∀ arc ∈ s.arcs, arc.ilabel ≠ noLabel ∧ arc.olabel ≠ noLabel)
    {compact : CompactFst (kind.Element L W) w}
    (hnew : CompactFst.new isMember (compactor noState kind) noState fst.fst = .ok compact)
    {bytes : List UInt8} (hwrite : CompactFst.write (compactor noState kind : ArcCompactor L W _) io
      wopts ⟨compact, fst.isymbols, fst.osymbols⟩ = some (.ok bytes))
    {pos : ℕ} (hpos : wopts.align = true → pos % archAlignment = 0) :
    (Restores noState fst.fst compact ∧ ∃ fst',
      Codes (CompactFst.read (compactor noState kind : ArcCompactor L W _) io getHash opts) pos bytes
        fst' ∧ Restores noState fst.fst fst'.fst ∧ SameTable getHash fst.isymbols fst'.isymbols ∧
          SameTable getHash fst.osymbols fst'.osymbols) ↔
      Restorable w kind noState fst.fst := by
  have hlabels' : ∀ s ∈ fst.fst.states, ∀ arc ∈ s.arcs, arc.ilabel ≠ noLabel :=
    fun s hs arc harc => (hlabels s hs arc harc).1
  obtain ⟨hcompatible, hstores⟩ := new_ok hnew
  have hsuits := suits_of_compatible honest hcompatible
  have hiff := restores_iff hw h hlabels' hsuits hstores
  have hwidth (hindices : IndicesHold w kind noState fst.fst)
      (hsize : (compactor noState kind : ArcCompactor L W _).size = -1) :
      compact.store.compacts.length < 2 ^ w := hstores.count ▸ hindices hsize
  constructor
  · rintro ⟨hrestores, fst', hcodes, -⟩
    obtain ⟨hweights, hindices⟩ := hiff.mp hrestores
    refine ⟨hweights, hindices, ?_⟩
    obtain ⟨-, hfails⟩ := read_of_write hopts hwopts h hstores (hwidth hindices) hwrite hpos
    by_contra hbad
    rw [← hstores.count] at hbad
    obtain ⟨e, he⟩ := hfails hbad
    have hreads := hcodes.reads []
    rw [List.append_nil, he] at hreads
    cases hreads
  · rintro ⟨hweights, hindices, hallowed⟩
    have hrestores := hiff.mpr ⟨hweights, hindices⟩
    obtain ⟨hreads, -⟩ := read_of_write hopts hwopts h hstores (hwidth hindices) hwrite hpos
    rw [← hstores.count] at hallowed
    obtain ⟨fst', hcodes, hstore, htables⟩ := hreads hallowed
    refine ⟨hrestores, fst', hcodes, ?_, htables⟩
    have hstores' : Stores (compactor noState kind) noState fst.fst fst'.fst.store := by
      rw [hstore]
      exact hstores
    exact (restores_iff hw h hlabels' hsuits hstores').mpr ⟨hweights, hindices⟩

def stdIndexLayout : Layout (BitVec 32) where
  Fits _ := True
  size := 4
  bytes index := writeU32 index.toNat
  value block := .ofNat 32 (ofBytes block)
  length_bytes _ := length_writeU32 _
  value_bytes index _ := ofNat_writeU32 index

/- A label, a weight and a next state. -/
def stdElementLayout : Layout (ℤ × ℕ × ℤ) where
  Fits element := i32Wire.Fits element.1 ∧ element.2.1 < 2 ^ 32 ∧ i32Wire.Fits element.2.2
  size := 12
  bytes element := writeI32 element.1 ++ (writeU32 element.2.1 ++ (writeI32 element.2.2 ++ []))
  value block := (ofBytesSigned (word block 0), ofBytes (word block 1), ofBytesSigned (word block 2))
  length_bytes element := by simp [length_writeU32, length_writeI32]
  value_bytes element h := by
    have hlen := length_writeU32
    have hlen' := length_writeI32
    obtain ⟨hl, hw, hn⟩ := h
    rw [word_zero (hlen' _), ofBytesSigned_writeI32 hl]
    rw [word_succ (hlen' _), word_zero (hlen _), ofBytes_writeU32 hw]
    rw [word_succ (hlen' _), word_succ (hlen _), word_zero (hlen' _), ofBytesSigned_writeI32 hn]

def stdCompactIo : CompactIo (CompactorKind.acceptor.Element ℤ ℕ) 32 :=
  ⟨"standard", stdIndexLayout, stdElementLayout⟩

/- One arc to a final state. -/
def oneWord : VectorFst ℤ ℕ :=
  ((((VectorFst.new : VectorFst ℤ ℕ).addStates 2).setStart (some 0)).setFinal 1 2).addArc 0
    ⟨5, 5, 3, 1⟩

theorem oneWord_states : oneWord.states = [⟨0, [⟨5, 5, 3, 1⟩], 0, 0⟩, ⟨2, [], 0, 0⟩] := by
  decide

theorem honest_oneWord : PropertyBits.Honest oneWord :=
  PropertyBits.honest_addArc (PropertyBits.honest_setFinal (PropertyBits.honest_setStart
    (PropertyBits.honest_addStates PropertyBits.honest_new 2) _) _ _) _ _

theorem typed_oneWord : CompactRoundTrip.TypedFst String.length stdCompactIo (-1)
    ⟨oneWord, none, none⟩ := by
  refine ⟨?_, fun _ => trivial, ?_, by decide, by decide, by decide, ?_, soundTable_none, soundTable_none⟩
  · intro element helement
    have hmem : element ∈ [(5, 3, 1), (-1, 2, -1)] := by
      rw [oneWord_states] at helement
      exact helement
    fin_cases hmem
    · exact ⟨⟨by decide, by decide⟩, (by decide : 3 < 2 ^ 32), ⟨by decide, by decide⟩⟩
    · exact ⟨⟨by decide, by decide⟩, (by decide : 2 < 2 ^ 32), ⟨by decide, by decide⟩⟩
  · rw [oneWord_states]
    intro s hs arc harc
    fin_cases hs
    · rw [List.mem_singleton.mp harc]
      decide
    · cases harc
  · intro s hs
    cases hs
    decide

theorem compact_restores_oneWord : ∃ compact bytes,
    CompactFst.new (fun _ => true) (compactor (-1) .acceptor) (-1) oneWord = .ok compact ∧
    CompactFst.write (compactor (-1) .acceptor) stdCompactIo {} ⟨compact, none, none⟩ =
      some (.ok bytes) ∧
    Restores (-1) oneWord compact ∧ ∃ fst', Codes (CompactFst.read (compactor (-1) .acceptor)
      stdCompactIo String.length {}) 0 bytes fst' ∧ Restores (-1) oneWord fst'.fst := by
  have hnew : ∃ compact, CompactFst.new (w := 32) (fun _ => true) (compactor (-1) .acceptor) (-1)
      oneWord = .ok compact := ⟨_, rfl⟩
  obtain ⟨compact, hnew⟩ := hnew
  have hwrite : ∃ bytes, CompactFst.write (compactor (-1) .acceptor) stdCompactIo {}
      ⟨compact, none, none⟩ = some (.ok bytes) := by
    cases hnew
    exact ⟨_, rfl⟩
  obtain ⟨bytes, hwrite⟩ := hwrite
  have hlabels : ∀ s ∈ oneWord.states, ∀ arc ∈ s.arcs,
      arc.ilabel ≠ noLabel ∧ arc.olabel ≠ noLabel := by
    rw [oneWord_states]
    decide
  have hkeeps : KeepsTables {} := ⟨⟨rfl, rfl, rfl⟩, rfl, rfl⟩
  have hwrites : WritesAll {} := ⟨rfl, rfl, rfl⟩
  have hrestorable : Restorable 32 .acceptor (-1) oneWord := by
    refine ⟨fun hdrops => absurd hdrops (by decide), fun _ => by decide, ?_, ?_, by decide⟩
    · intro s hs
      cases hs
      decide
    · exact ⟨by decide, by decide⟩
  obtain ⟨hrestores, fst', hcodes, hrestores', -⟩ := (compact_restores_iff .acceptor (fun _ => true)
    (-1) String.length (by decide) stdCompactIo hkeeps hwrites typed_oneWord honest_oneWord
    hlabels hnew hwrite (fun _ => Nat.zero_mod _)).mpr hrestorable
  exact ⟨compact, bytes, hnew, hwrite, hrestores, fst', hcodes, hrestores'⟩

/- A loop of weight Zero, which counts as no weight. -/
def zeroLoop : VectorFst ℤ ℕ :=
  ((VectorFst.new : VectorFst ℤ ℕ).addState.setStart (some 0)).addArc 0 ⟨1, 2, 0, 0⟩

/- The loop comes back with weight One, and no error is made of it. -/
theorem weight_dropped : PropertyBits.Honest zeroLoop ∧
    (∀ s ∈ zeroLoop.states, ∀ arc ∈ s.arcs, arc.ilabel ≠ noLabel ∧ arc.olabel ≠ noLabel) ∧
    ∃ compact, CompactFst.new (w := 32) (fun _ => true) (compactor (-1) .unweighted) (-1) zeroLoop =
        .ok compact ∧
      zeroLoop.arcs 0 = [⟨1, 2, 0, 0⟩] ∧
      compact.arcs (compactor (-1) .unweighted : ArcCompactor ℤ ℕ _) 0 = some [⟨1, 2, 1, 0⟩] ∧
      ¬ Restores (-1) zeroLoop compact := by
  have hnew : ∃ compact, CompactFst.new (w := 32) (fun _ => true) (compactor (-1) .unweighted) (-1)
      zeroLoop = .ok compact := ⟨_, rfl⟩
  obtain ⟨compact, hnew⟩ := hnew
  have hread : compact.arcs (compactor (-1) .unweighted : ArcCompactor ℤ ℕ _) 0 =
      some [⟨1, 2, 1, 0⟩] := by
    cases hnew
    decide
  refine ⟨PropertyBits.honest_addArc (PropertyBits.honest_setStart
    (PropertyBits.honest_addStates PropertyBits.honest_new 1) _) _ _, by decide, compact, hnew, rfl,
    hread, fun hrestores => ?_⟩
  have harcs := hread.symm.trans (hrestores.arcs 0 (by decide))
  exact absurd harcs (by decide)

end Sicada.CompactExact
