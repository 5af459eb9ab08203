import Mathlib

namespace Sicada

inductive LabelStringError where
  | continuationAsLeadByte (byte : UInt8) (offset : ℕ)
  | truncatedSequence (offset : ℕ)
  | missingContinuationByte (byte : UInt8) (offset : ℕ)
  | labelOutOfRange (label : ℤ) (index : ℕ)
  | negativeLabel (label : ℤ) (index : ℕ)
deriving DecidableEq, Repr

/- An integer type for labels: its values, and the unsigned 32-bit integers that are among them. -/
class LabelCode (L : Type) where
  tryFrom : ℕ → Option L
  toI64 : L → ℤ
  tryFrom_eq_some : ∀ code label, tryFrom code = some label ↔ toI64 label = code

/- The integers stand for the types every 32-bit integer fits. -/
instance : LabelCode ℤ where
  tryFrom code := some code
  toI64 label := label
  tryFrom_eq_some code label := by
    rw [Option.some.injEq, eq_comm]

namespace Labels

variable {L : Type} [LabelCode L]

/- Largest label the six-byte Thompson/Pike encoding can represent. -/
def maxLabel : ℕ := 0x7fffffff

section Parsing

/- The number of continuation bytes, from how far into the lead-byte range the byte sits. -/
def continuationCount (lead : UInt8) : ℕ :=
  (if 0xc0 ≤ lead then 1 else 0) + (if 0xe0 ≤ lead then 1 else 0) +
    (if 0xf0 ≤ lead then 1 else 0) + (if 0xf8 ≤ lead then 1 else 0) +
      (if 0xfc ≤ lead then 1 else 0)

/- The code, the offset come to and the bytes left. -/
def readContinuation (offset : ℕ) :
    ℕ → ℕ → ℕ → List UInt8 → Except LabelStringError (ℕ × ℕ × List UInt8)
  | 0, label, i, bytes => .ok (label, i, bytes)
  | _ + 1, _, _, [] => .error (.truncatedSequence offset)
  | count + 1, label, i, byte :: bytes =>
    if byte &&& 0xc0 ≠ 0x80 then .error (.missingContinuationByte byte i)
    else readContinuation offset count ((label <<< 6) ||| (byte &&& 0x3f).toNat) (i + 1) bytes

def readCode (offset : ℕ) (lead : UInt8) (bytes : List UInt8) :
    Except LabelStringError (ℕ × ℕ × List UInt8) :=
  if lead &&& 0x80 = 0 then .ok (lead.toNat, offset + 1, bytes)
  else if lead &&& 0xc0 = 0x80 then .error (.continuationAsLeadByte lead offset)
  else
    let count := continuationCount lead
    readContinuation offset count (lead.toNat &&& ((1 <<< (6 - count)) - 1)) (offset + 1) bytes

theorem readContinuation_length {offset count label i label' i' : ℕ} {bytes bytes' : List UInt8}
    (h : readContinuation offset count label i bytes = .ok (label', i', bytes')) :
    bytes'.length ≤ bytes.length := by
  induction count generalizing label i bytes with
  | zero =>
    cases h
    exact le_rfl
  | succ count ih =>
    cases bytes with
    | nil => cases h
    | cons byte bytes =>
      rw [readContinuation] at h
      split at h
      · cases h
      · exact (ih h).trans (Nat.le_succ _)

theorem readCode_length {offset label i : ℕ} {lead : UInt8} {bytes bytes' : List UInt8}
    (h : readCode offset lead bytes = .ok (label, i, bytes')) : bytes'.length ≤ bytes.length := by
  unfold readCode at h
  split at h
  · cases h
    exact le_rfl
  · split at h
    · cases h
    · exact readContinuation_length h

/- On an error the labels read so far are there. -/
def readLabels (offset : ℕ) (labels : List L) (bytes : List UInt8) :
    Except LabelStringError Unit × List L :=
  match bytes with
  | [] => (.ok (), labels)
  | lead :: rest =>
    match h : readCode offset lead rest with
    | .error error => (.error error, labels)
    | .ok (code, i, rest') =>
      match LabelCode.tryFrom code with
      | some label => readLabels i (labels ++ [label]) rest'
      | none => (.error (.labelOutOfRange code offset), labels)
termination_by bytes.length
decreasing_by exact Nat.lt_succ_of_le (readCode_length h)

def utf8StringToLabels (bytes : List UInt8) (labels : List L) :
    Except LabelStringError Unit × List L := readLabels 0 labels bytes

end Parsing

section Serializing

def continuationByte (label shift : ℕ) : UInt8 :=
  UInt8.ofNat (((label >>> shift) &&& 0x3f) ||| 0x80)

def encodeOne (label : ℕ) : List UInt8 :=
  if label ≤ 0x7f then [UInt8.ofNat label]
  else if label ≤ 0x7ff then
    [UInt8.ofNat ((label >>> 6) ||| 0xc0), continuationByte label 0]
  else if label ≤ 0xffff then
    [UInt8.ofNat ((label >>> 12) ||| 0xe0), continuationByte label 6, continuationByte label 0]
  else if label ≤ 0x1fffff then
    [UInt8.ofNat ((label >>> 18) ||| 0xf0), continuationByte label 12, continuationByte label 6,
      continuationByte label 0]
  else if label ≤ 0x3ffffff then
    [UInt8.ofNat ((label >>> 24) ||| 0xf8), continuationByte label 18, continuationByte label 12,
      continuationByte label 6, continuationByte label 0]
  else
    [UInt8.ofNat ((label >>> 30) ||| 0xfc), continuationByte label 24, continuationByte label 18,
      continuationByte label 12, continuationByte label 6, continuationByte label 0]

/- On an error the bytes written so far are there; epsilons are skipped. -/
def writeLabels : ℕ → List L → List UInt8 → Except LabelStringError Unit × List UInt8
  | _, [], bytes => (.ok (), bytes)
  | index, label :: labels, bytes =>
    let code := LabelCode.toI64 label
    if code = 0 then writeLabels (index + 1) labels bytes
    else if code < 0 then (.error (.negativeLabel code index), bytes)
    else if (maxLabel : ℤ) < code then (.error (.labelOutOfRange code index), bytes)
    else writeLabels (index + 1) labels (bytes ++ encodeOne code.toNat)

def labelsToUtf8String (labels : List L) (bytes : List UInt8) :
    Except LabelStringError Unit × List UInt8 := writeLabels 0 labels bytes

end Serializing

end Labels

end Sicada
