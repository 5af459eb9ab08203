import Sicada.SymbolTableIo

namespace Sicada

open Codec Io SymbolTableImpl SymbolTableExact SymbolTableIo

def kFstMagicNumber : ℤ := 2125659606

namespace Flags

def hasIsymbols : BitVec 32 := 0x1#32
def hasOsymbols : BitVec 32 := 0x2#32
def isAligned : BitVec 32 := 0x4#32

end Flags

structure FstHeader where
  fstType : String
  arcType : String
  version : ℤ
  flags : BitVec 32
  properties : BitVec 64
  start : ℤ
  numStates : ℤ
  numArcs : ℤ
deriving DecidableEq

structure FstReadOptions where
  source : String := "<unspecified>"
  header : Option FstHeader := none
  isymbols : Option SymbolTableImpl := none
  osymbols : Option SymbolTableImpl := none
  readIsymbols : Bool := true
  readOsymbols : Bool := true
  verify : Bool := true

structure FstWriteOptions where
  writeHeader : Bool := true
  writeIsymbols : Bool := true
  writeOsymbols : Bool := true
  align : Bool := false

structure FstHeaderWithSymbols where
  header : FstHeader
  isymbols : Option SymbolTableImpl
  osymbols : Option SymbolTableImpl

namespace FstHeader

def read : IoReader FstHeader := do
  let magic ← readI32
  if magic ≠ kFstMagicNumber then fail (.invalidMagicNumber kFstMagicNumber magic)
  else do
    let fstType ← readString
    let arcType ← readString
    let version ← readI32
    let flags ← readU32
    let properties ← readU64
    let start ← readI64
    let numStates ← readI64
    let numArcs ← readI64
    pure ⟨fstType, arcType, version, .ofNat 32 flags, .ofNat 64 properties, start, numStates, numArcs⟩

def write (header : FstHeader) : IoWriter := do
  let fstType ← ExceptT.mk (some (writeString header.fstType))
  let arcType ← ExceptT.mk (some (writeString header.arcType))
  pure (writeI32 kFstMagicNumber ++ (fstType ++ (arcType ++ (writeI32 header.version ++
    (writeU32 header.flags.toNat ++ (writeU64 header.properties.toNat ++
      (writeI64 header.start ++ (writeI64 header.numStates ++ writeI64 header.numArcs))))))))

/- The numbers are those of their types. -/
structure InRange (header : FstHeader) : Prop where
  version : -2 ^ 31 ≤ header.version ∧ header.version < 2 ^ 31
  start : -2 ^ 63 ≤ header.start ∧ header.start < 2 ^ 63
  numStates : -2 ^ 63 ≤ header.numStates ∧ header.numStates < 2 ^ 63
  numArcs : -2 ^ 63 ≤ header.numArcs ∧ header.numArcs < 2 ^ 63

theorem codes_read {header : FstHeader} (h : header.InRange) {bytes : List UInt8}
    (hwrite : header.write = some (.ok bytes)) (pos : ℕ) : Codes read pos bytes header := by
  unfold write at hwrite
  obtain ⟨fstType, hfst, hwrite⟩ := bind_eq_ok.mp hwrite
  obtain ⟨arcType, harc, hwrite⟩ := bind_eq_ok.mp hwrite
  cases hwrite
  unfold read
  apply (codes_i32 pos (by decide) (by decide)).bind
  rw [if_neg (by simp)]
  apply (codes_string _ (Option.some.inj hfst)).bind
  apply (codes_string _ (Option.some.inj harc)).bind
  apply (codes_i32 _ h.version.1 h.version.2).bind
  apply (codes_u32 _ header.flags.isLt).bind
  apply (codes_u64 _ header.properties.isLt).bind
  apply (codes_i64 _ h.start.1 h.start.2).bind
  apply (codes_i64 _ h.numStates.1 h.numStates.2).bind
  apply (codes_i64 _ h.numArcs.1 h.numArcs.2).bind_nil
  rw [BitVec.ofNat_toNat, BitVec.ofNat_toNat, BitVec.setWidth_eq, BitVec.setWidth_eq]
  exact codes_pure _ _

end FstHeader

section Symbols

variable (getHash : String → ℕ)

/- A table that a flag announces, read past even where it is not kept. -/
def readTable (there keep : Bool) : IoReader (Option SymbolTableImpl) :=
  if there then do
    let table ← SymbolTableIo.read getHash
    pure (if keep then some table else none)
  else pure none

def readFstHeader (arcType : String) (opts : FstReadOptions) (fstType : String)
    (minVersion : ℤ) : IoReader FstHeaderWithSymbols := do
  let header ← match opts.header with
    | some header => pure header
    | none => FstHeader.read
  if header.fstType ≠ fstType then
    fail (.invalidFstHeader (opts.source ++ ": FST not of type '" ++ fstType ++ "', found '" ++
      header.fstType ++ "'"))
  else if header.arcType ≠ arcType then
    fail (.invalidFstHeader (opts.source ++ ": arc not of type '" ++ arcType ++ "', found '" ++
      header.arcType ++ "'"))
  else if header.version < minVersion then
    fail (.invalidFstHeader (opts.source ++ ": obsolete " ++ fstType ++ " FST version " ++
      toString header.version ++ ", min_version=" ++ toString minVersion))
  else do
    let isymbols ← readTable getHash (header.flags &&& Flags.hasIsymbols ≠ 0) opts.readIsymbols
    let osymbols ← readTable getHash (header.flags &&& Flags.hasOsymbols ≠ 0) opts.readOsymbols
    pure ⟨header, if opts.isymbols.isSome then opts.isymbols else isymbols,
      if opts.osymbols.isSome then opts.osymbols else osymbols⟩

def writeTable : Option SymbolTableImpl → IoWriter
  | some table => SymbolTableIo.write table
  | none => pure []

/- The flags of what is written. -/
def writtenFlags (opts : FstWriteOptions) (isymbols osymbols : Option SymbolTableImpl) :
    BitVec 32 :=
  (if (isymbols.filter fun _ => opts.writeIsymbols).isSome then Flags.hasIsymbols else 0) |||
    (if (osymbols.filter fun _ => opts.writeOsymbols).isSome then Flags.hasOsymbols else 0) |||
      (if opts.align then Flags.isAligned else 0)

def writeFstHeader (opts : FstWriteOptions) (header : FstHeader)
    (isymbols osymbols : Option SymbolTableImpl) :
    ExceptT OpenFstError Option (FstHeader × List UInt8) := do
  let header := { header with flags := writtenFlags opts isymbols osymbols }
  let bytes ← if opts.writeHeader then header.write else pure []
  let ibytes ← writeTable (isymbols.filter fun _ => opts.writeIsymbols)
  let obytes ← writeTable (osymbols.filter fun _ => opts.writeOsymbols)
  pure (header, bytes ++ (ibytes ++ obytes))

variable {getHash}

/- A table no operation of which has gone wrong, and which a vector holds. -/
def SoundTable (getHash : String → ℕ) (table : Option SymbolTableImpl) : Prop :=
  ∀ t, table = some t → Consistent getHash t ∧ FitsVec t

theorem soundTable_none : SoundTable getHash none := fun t ht => by cases ht

/- The tables say the same, or there is none. -/
def SameTable (getHash : String → ℕ) : Option SymbolTableImpl → Option SymbolTableImpl → Prop
  | some t, some t' => SameBindings getHash t t' ∧ t'.name = t.name ∧
      t'.availableKey = t.availableKey
  | none, none => True
  | _, _ => False

/- Each bit says what it stands for. -/
theorem writtenFlags_bits (opts : FstWriteOptions) (isymbols osymbols : Option SymbolTableImpl) :
    decide (writtenFlags opts isymbols osymbols &&& Flags.hasIsymbols ≠ 0) =
        (isymbols.filter fun _ => opts.writeIsymbols).isSome ∧
      decide (writtenFlags opts isymbols osymbols &&& Flags.hasOsymbols ≠ 0) =
        (osymbols.filter fun _ => opts.writeOsymbols).isSome ∧
      decide (writtenFlags opts isymbols osymbols &&& Flags.isAligned ≠ 0) = opts.align := by
  unfold writtenFlags
  generalize (isymbols.filter fun _ => opts.writeIsymbols).isSome = i
  generalize (osymbols.filter fun _ => opts.writeOsymbols).isSome = o
  generalize opts.align = a
  revert i o a
  decide

theorem filter_keep (table : Option SymbolTableImpl) : (table.filter fun _ => true) = table := by
  cases table <;> rfl

theorem codes_readTable {table : Option SymbolTableImpl} (h : SoundTable getHash table)
    {bytes : List UInt8} (hwrite : writeTable table = some (.ok bytes)) (keep : Bool) (pos : ℕ) :
    ∃ table', Codes (readTable getHash table.isSome keep) pos bytes table' ∧
      SameTable getHash (table.filter fun _ => keep) table' := by
  cases table with
  | none =>
    cases hwrite
    exact ⟨none, codes_pure _ _, trivial⟩
  | some t =>
    obtain ⟨hcons, hfits⟩ := h t rfl
    obtain ⟨t', hcodes, -, hsame, hrest⟩ := SymbolTableIo.codes_read hcons hfits hwrite pos
    refine ⟨if keep then some t' else none, ?_, ?_⟩
    · unfold readTable
      rw [if_pos (show (some t).isSome = true from rfl)]
      exact hcodes.bind_nil (codes_pure _ _)
    · cases keep with
      | true => exact ⟨hsame, hrest⟩
      | false => trivial

/- What the options to read with take of a file: its own header and no tables but its own. -/
structure OwnHeader (opts : FstReadOptions) : Prop where
  header : opts.header = none
  isymbols : opts.isymbols = none
  osymbols : opts.osymbols = none

theorem codes_readFstHeader {opts : FstReadOptions} (hopts : OwnHeader opts)
    {wopts : FstWriteOptions} (hwopts : wopts.writeHeader = true) {header header' : FstHeader}
    (hrange : header.InRange) {isymbols osymbols : Option SymbolTableImpl}
    (hisymbols : SoundTable getHash isymbols) (hosymbols : SoundTable getHash osymbols) {bytes : List UInt8}
    (hwrite : writeFstHeader wopts header isymbols osymbols = some (.ok (header', bytes)))
    {minVersion : ℤ} (hversion : minVersion ≤ header.version) (pos : ℕ) :
    ∃ isymbols' osymbols',
      Codes (readFstHeader getHash header.arcType opts header.fstType minVersion) pos bytes
        ⟨header', isymbols', osymbols'⟩ ∧
      SameTable getHash ((isymbols.filter fun _ => wopts.writeIsymbols).filter fun _ =>
        opts.readIsymbols) isymbols' ∧
      SameTable getHash ((osymbols.filter fun _ => wopts.writeOsymbols).filter fun _ =>
        opts.readOsymbols) osymbols' ∧
      header' = { header with flags := writtenFlags wopts isymbols osymbols } := by
  unfold writeFstHeader at hwrite
  rw [if_pos hwopts] at hwrite
  obtain ⟨hbytes, hhead, hwrite⟩ := bind_eq_ok.mp hwrite
  obtain ⟨ibytes, hi, hwrite⟩ := bind_eq_ok.mp hwrite
  obtain ⟨obytes, ho, hwrite⟩ := bind_eq_ok.mp hwrite
  cases hwrite
  have hisound : SoundTable getHash (isymbols.filter fun _ => wopts.writeIsymbols) := fun t ht =>
    hisymbols t (Option.eq_some_of_filter_eq_some ht)
  have hosound : SoundTable getHash (osymbols.filter fun _ => wopts.writeOsymbols) := fun t ht =>
    hosymbols t (Option.eq_some_of_filter_eq_some ht)
  obtain ⟨isymbols', hireads, hisame⟩ := codes_readTable hisound hi opts.readIsymbols
    (pos + hbytes.length)
  obtain ⟨osymbols', horeads, hosame⟩ := codes_readTable hosound ho opts.readOsymbols
    (pos + hbytes.length + ibytes.length)
  refine ⟨isymbols', osymbols', ?_, hisame, hosame, rfl⟩
  unfold readFstHeader
  rw [hopts.header]
  have hrange' : FstHeader.InRange { header with flags := writtenFlags wopts isymbols osymbols } :=
    ⟨hrange.1, hrange.2, hrange.3, hrange.4⟩
  apply (FstHeader.codes_read hrange' hhead pos).bind
  dsimp only
  rw [if_neg (by simp), if_neg (by simp), if_neg (not_lt.mpr hversion),
    (writtenFlags_bits wopts isymbols osymbols).1, (writtenFlags_bits wopts isymbols osymbols).2.1]
  apply hireads.bind
  apply horeads.bind_nil
  rw [hopts.isymbols, hopts.osymbols]
  exact codes_pure _ _

end Symbols

end Sicada
