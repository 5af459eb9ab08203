import Sicada.Arc
import Sicada.Library.Codec

namespace Sicada.Io

open Codec

abbrev IoReader (α : Type) := Reader OpenFstError α

/- What a writer makes: the bytes, an error, or `none` for a panic. -/
abbrev IoWriter := ExceptT OpenFstError Option (List UInt8)

def archAlignment : ℕ := 16

def readBytes (n : ℕ) : IoReader (List UInt8) := readExact (.io .unexpectedEof) n

def readU32 : IoReader ℕ := ofBytes <$> readBytes 4

def readU64 : IoReader ℕ := ofBytes <$> readBytes 8

def readI32 : IoReader ℤ := ofBytesSigned <$> readBytes 4

def readI64 : IoReader ℤ := ofBytesSigned <$> readBytes 8

def writeU32 (n : ℕ) : List UInt8 := toBytes 4 n

def writeU64 (n : ℕ) : List UInt8 := toBytes 8 n

def writeI32 (x : ℤ) : List UInt8 := toBytesSigned 4 x

def writeI64 (x : ℤ) : List UInt8 := toBytesSigned 8 x

def asBytes (s : String) : List UInt8 := s.toByteArray.data.toList

def fromUtf8 (bytes : List UInt8) : Except OpenFstError String :=
  if h : (ByteArray.mk bytes.toArray).IsValidUTF8 then .ok ⟨_, h⟩ else .error (.io .invalidData)

def readString : IoReader String := do
  let len ← readI32
  if len ≤ 0 then pure ""
  else do
    let buf ← readBytes len.toNat
    lift (some (fromUtf8 buf))

def writeString (value : String) : Except OpenFstError (List UInt8) :=
  if (asBytes value).length < 2 ^ 31 then
    .ok (writeI32 (asBytes value).length ++ asBytes value)
  else .error (.io .invalidInput)

/- Skips what is left to the next multiple of `align`. -/
def alignInput (align : ℕ) : IoReader Unit := do
  let pos ← position
  if pos % align = 0 then pure ()
  else do
    let _ ← readBytes (align - pos % align)
    pure ()

/- The zeros up to the next multiple of `align` after `written` bytes. -/
def padding (align written : ℕ) : List UInt8 :=
  List.replicate ((align - written % align) % align) 0

theorem codes_readBytes (pos : ℕ) (bytes : List UInt8) {n : ℕ} (hn : bytes.length = n) :
    Codes (readBytes n) pos bytes bytes := by
  subst hn
  exact codes_readExact _ pos bytes

theorem codes_u32 (pos : ℕ) {n : ℕ} (hn : n < 2 ^ 32) : Codes readU32 pos (writeU32 n) n := by
  have h := (codes_readBytes pos (writeU32 n) (length_toBytes 4 n)).map ofBytes
  unfold writeU32 at h
  rwa [ofBytes_toBytes (by norm_num; omega)] at h

theorem codes_u64 (pos : ℕ) {n : ℕ} (hn : n < 2 ^ 64) : Codes readU64 pos (writeU64 n) n := by
  have h := (codes_readBytes pos (writeU64 n) (length_toBytes 8 n)).map ofBytes
  unfold writeU64 at h
  rwa [ofBytes_toBytes (by norm_num; omega)] at h

theorem codes_i32 (pos : ℕ) {x : ℤ} (hlow : -2 ^ 31 ≤ x) (hhigh : x < 2 ^ 31) :
    Codes readI32 pos (writeI32 x) x := by
  have h := (codes_readBytes pos (writeI32 x) (length_toBytes 4 _)).map ofBytesSigned
  unfold writeI32 at h
  rwa [ofBytesSigned_toBytesSigned (by norm_num; omega) (by norm_num; omega)] at h

theorem codes_i64 (pos : ℕ) {x : ℤ} (hlow : -2 ^ 63 ≤ x) (hhigh : x < 2 ^ 63) :
    Codes readI64 pos (writeI64 x) x := by
  have h := (codes_readBytes pos (writeI64 x) (length_toBytes 8 _)).map ofBytesSigned
  unfold writeI64 at h
  rwa [ofBytesSigned_toBytesSigned (by norm_num; omega) (by norm_num; omega)] at h

theorem fromUtf8_asBytes (s : String) : fromUtf8 (asBytes s) = .ok s := by
  unfold fromUtf8 asBytes
  rw [dif_pos (by simpa using s.isValidUTF8)]

theorem codes_string {s : String} {bytes : List UInt8} (pos : ℕ)
    (hwrite : writeString s = .ok bytes) : Codes readString pos bytes s := by
  unfold writeString at hwrite
  split at hwrite
  · next hlen =>
    cases hwrite
    unfold readString
    apply (codes_i32 pos (by omega) (by exact_mod_cast hlen)).bind
    by_cases hzero : ((asBytes s).length : ℤ) ≤ 0
    · have hnil : asBytes s = [] := List.eq_nil_of_length_eq_zero (by omega)
      have hempty : s = "" := by
        have hs := fromUtf8_asBytes s
        rw [hnil] at hs
        exact (Except.ok.inj (hs.symm.trans (fromUtf8_asBytes ""))).symm ▸ rfl
      rw [if_pos hzero, hnil, hempty]
      exact codes_pure _ _
    · rw [if_neg hzero, Int.toNat_natCast]
      apply (codes_readBytes _ (asBytes s) rfl).bind_nil
      exact codes_lift _ (by rw [fromUtf8_asBytes])
  · cases hwrite

theorem codes_alignInput {align : ℕ} (halign : 0 < align) (pos : ℕ) :
    Codes (alignInput align) pos (padding align pos) () := by
  unfold alignInput padding
  have hlt := Nat.mod_lt pos halign
  apply (codes_position pos).nil_bind
  by_cases hzero : pos % align = 0
  · rw [if_pos hzero, hzero, Nat.sub_zero, Nat.mod_self]
    exact codes_pure _ _
  · have hmod : (align - pos % align) % align = align - pos % align :=
      Nat.mod_eq_of_lt (by omega)
    rw [if_neg hzero, hmod]
    exact (codes_readBytes _ _ List.length_replicate).bind_nil (codes_pure _ _)

end Sicada.Io
