import Sicada.Decode.Trellis

namespace Sicada

/- Which transition each cell took, packed to the bits a code needs. -/
structure Traceback where
  plane : ℕ → BitVec 8
  stride : ℕ
  bits : ℕ
  perByte : ℕ

/- A byte of codes is filled before it is stored; `base` is where the row begins in the plane. -/
structure RowWriter where
  plane : ℕ → BitVec 8
  base : ℕ
  bits : ℕ
  perByte : ℕ
  packed : BitVec 8
  index : ℕ
  pending : Bool

def codeBits (degree : ℕ) : ℕ :=
  if degree ≤ 2 then 1 else if degree ≤ 4 then 2 else if degree ≤ 16 then 4 else 8

namespace RowWriter

def put (w : RowWriter) (position : ℕ) (code : BitVec 8) : RowWriter :=
  let within := position % w.perByte
  let packed := w.packed ||| (code <<< (w.bits * within))
  let index := position / w.perByte
  if within = w.perByte - 1 then
    { w with
      plane := Function.update w.plane (w.base + index) packed
      packed := 0#8
      index := index
      pending := false }
  else { w with packed := packed, index := index, pending := true }

def finish (w : RowWriter) : ℕ → BitVec 8 :=
  if w.pending then Function.update w.plane (w.base + w.index) w.packed else w.plane

end RowWriter

namespace Traceback

def new (numFrames numPositions degree : ℕ) : Except String Traceback :=
  let bits := codeBits degree
  let perByte := 8 / bits
  let stride := numPositions / perByte + 1
  if usizeMax < numFrames * stride then
    .error (s!"trellis: a traceback for {numFrames} frames of {numPositions} positions does " ++
      "not fit")
  else .ok ⟨fun _ => 0, stride, bits, perByte⟩

def row (tb : Traceback) (frame : ℕ) : RowWriter :=
  ⟨tb.plane, frame * tb.stride, tb.bits, tb.perByte, 0#8, 0, false⟩

def mask (bits : ℕ) : BitVec 8 := BitVec.ofNat 8 (2 ^ bits - 1)

def get (tb : Traceback) (frame position : ℕ) : BitVec 8 :=
  let byte := tb.plane (frame * tb.stride + position / tb.perByte)
  (byte >>> (tb.bits * (position % tb.perByte))) &&& mask tb.bits

/- The code at one place of a byte. -/
def field (bits : ℕ) (byte : BitVec 8) (k : ℕ) : BitVec 8 := (byte >>> (bits * k)) &&& mask bits

theorem getLsbD_mask (bits i : ℕ) : (mask bits).getLsbD i = (decide (i < 8) && decide (i < bits)) := by
  unfold mask
  rw [BitVec.getLsbD_ofNat, Nat.testBit_two_pow_sub_one]

theorem getLsbD_field (bits : ℕ) (byte : BitVec 8) (k i : ℕ) :
    (field bits byte k).getLsbD i =
      (byte.getLsbD (bits * k + i) && decide (i < 8) && decide (i < bits)) := by
  unfold field
  rw [BitVec.getLsbD_and, BitVec.getLsbD_ushiftRight, getLsbD_mask, Bool.and_assoc]

theorem field_zero (bits k : ℕ) : field bits 0#8 k = 0#8 := by
  simp [field]

theorem field_or (bits : ℕ) (x y : BitVec 8) (k : ℕ) :
    field bits (x ||| y) k = field bits x k ||| field bits y k := by
  apply BitVec.eq_of_getLsbD_eq
  intro i hi
  simp only [getLsbD_field, BitVec.getLsbD_or]
  cases x.getLsbD (bits * k + i) <;> cases y.getLsbD (bits * k + i) <;> simp

theorem getLsbD_of_lt {code : BitVec 8} {bits i : ℕ} (hcode : code.toNat < 2 ^ bits)
    (hi : bits ≤ i) : code.getLsbD i = false := by
  rw [BitVec.getLsbD]
  exact Nat.testBit_lt_two_pow (hcode.trans_le (Nat.pow_le_pow_right (by omega) hi))

theorem field_shift_self {bits k : ℕ} {code : BitVec 8} (hcode : code.toNat < 2 ^ bits)
    (hk : bits * k + bits ≤ 8) : field bits (code <<< (bits * k)) k = code := by
  apply BitVec.eq_of_getLsbD_eq
  intro i hi
  rw [getLsbD_field, BitVec.getLsbD_shiftLeft]
  by_cases hlt : i < bits
  · simp [hlt, hi, show bits * k + i < 8 by omega]
  · simp [hlt, getLsbD_of_lt hcode (Nat.le_of_not_lt hlt)]

theorem field_shift_of_ne {bits k k' : ℕ} {code : BitVec 8} (hcode : code.toNat < 2 ^ bits)
    (hne : k ≠ k') : field bits (code <<< (bits * k')) k = 0#8 := by
  apply BitVec.eq_of_getLsbD_eq
  intro i hi
  rw [getLsbD_field, BitVec.getLsbD_shiftLeft]
  by_cases hlt : i < bits
  · rcases Nat.lt_or_gt_of_ne hne with hlt' | hgt
    · have hmul : bits * k + bits ≤ bits * k' := by
        rw [← Nat.mul_succ]
        exact Nat.mul_le_mul_left bits hlt'
      simp [show bits * k + i < bits * k' by omega]
    · have hmul : bits * k' + bits ≤ bits * k := by
        rw [← Nat.mul_succ]
        exact Nat.mul_le_mul_left bits hgt
      simp [getLsbD_of_lt hcode (show bits ≤ bits * k + i - bits * k' by omega)]
  · simp [hlt]

section Rows

variable {bits q : ℕ}

/- A byte holds whole codes only. -/
def Packs (bits q : ℕ) : Prop :=
  (bits = 1 ∧ q = 8) ∨ (bits = 2 ∧ q = 4) ∨ (bits = 4 ∧ q = 2) ∨ (bits = 8 ∧ q = 1)

theorem packs_codeBits (degree : ℕ) : Packs (codeBits degree) (8 / codeBits degree) := by
  unfold Packs codeBits
  split
  · simp
  · split
    · simp
    · split <;> simp

theorem degree_le_of_codeBits {degree : ℕ} (h : degree ≤ 256) : degree ≤ 2 ^ codeBits degree := by
  unfold codeBits
  split
  · simpa
  · split
    · simpa
    · split
      · simpa
      · simpa

theorem Packs.pos (h : Packs bits q) : 0 < q := by
  unfold Packs at h
  omega

theorem Packs.fits (h : Packs bits q) {k : ℕ} (hk : k < q) : bits * k + bits ≤ 8 := by
  rcases h with ⟨rfl, rfl⟩ | ⟨rfl, rfl⟩ | ⟨rfl, rfl⟩ | ⟨rfl, rfl⟩ <;> omega

theorem Packs.step_last (h : Packs bits q) {p : ℕ} (hlast : p % q = q - 1) :
    (p + 1) / q = p / q + 1 ∧ (p + 1) % q = 0 := by
  rcases h with ⟨-, rfl⟩ | ⟨-, rfl⟩ | ⟨-, rfl⟩ | ⟨-, rfl⟩ <;> omega

theorem Packs.step_inner (h : Packs bits q) {p : ℕ} (hinner : p % q ≠ q - 1) :
    (p + 1) / q = p / q ∧ (p + 1) % q = p % q + 1 := by
  rcases h with ⟨-, rfl⟩ | ⟨-, rfl⟩ | ⟨-, rfl⟩ | ⟨-, rfl⟩ <;> omega

/- Two places of one byte are told apart by the remainder. -/
theorem mod_ne_of_div_eq {i p : ℕ} (hdiv : i / q = p / q) (hne : i ≠ p) : i % q ≠ p % q := by
  intro hmod
  have hi := Nat.div_add_mod i q
  have hp := Nat.div_add_mod p q
  rw [hdiv, hmod] at hi
  omega

/- A row whose positions from `lo` up to `p` are written: whole bytes in the plane, the rest in
the byte being filled. -/
structure Written (plane : ℕ → BitVec 8) (base bits q lo : ℕ) (code : ℕ → BitVec 8) (p : ℕ)
    (w : RowWriter) : Prop where
  base_eq : w.base = base
  bits_eq : w.bits = bits
  perByte_eq : w.perByte = q
  stored : ∀ i, lo ≤ i → i < p → i / q < p / q → field bits (w.plane (base + i / q)) (i % q) = code i
  packed : ∀ i, lo ≤ i → i < p → i / q = p / q → field bits w.packed (i % q) = code i
  blank : ∀ k, p % q ≤ k → k < q → field bits w.packed k = 0#8
  pending : w.pending = true → w.index = p / q ∧ lo < p ∧ (p - 1) / q = p / q
  stopped : w.pending = false → ∀ i, lo ≤ i → i < p → i / q ≠ p / q
  outside : ∀ b, (∀ i, lo ≤ i → i < p → b ≠ base + i / q) → w.plane b = plane b

variable {code : ℕ → BitVec 8} {w : RowWriter} {tb : Traceback}

theorem written_put (hpacks : Packs bits q) {plane : ℕ → BitVec 8} {base lo p : ℕ}
    (hcode : ∀ i, (code i).toNat < 2 ^ bits) (hlo : lo ≤ p)
    (h : Written plane base bits q lo code p w) :
    Written plane base bits q lo code (p + 1) (w.put p (code p)) := by
  obtain ⟨rfl, rfl, rfl, hstored, hpacked, hblank, hpending, hstopped, houtside⟩ := h
  have hpos := hpacks.pos
  have hmod : p % w.perByte < w.perByte := Nat.mod_lt _ hpos
  have hfield : ∀ i, lo ≤ i → i ≤ p → i / w.perByte = p / w.perByte →
      field w.bits (w.packed ||| code p <<< (w.bits * (p % w.perByte))) (i % w.perByte) = code i := by
    intro i hi hip hdiv
    rw [field_or]
    rcases Nat.lt_or_eq_of_le hip with hlt | rfl
    · have hne := mod_ne_of_div_eq hdiv (Nat.ne_of_lt hlt)
      rw [hpacked i hi hlt hdiv, field_shift_of_ne (hcode p) hne, BitVec.or_zero]
    · rw [hblank _ le_rfl hmod, field_shift_self (hcode i) (hpacks.fits hmod), BitVec.zero_or]
  unfold RowWriter.put
  dsimp only
  by_cases hlast : p % w.perByte = w.perByte - 1
  · obtain ⟨hdiv, hmod'⟩ := hpacks.step_last hlast
    rw [if_pos hlast]
    refine ⟨rfl, rfl, rfl, ?_, ?_, ?_, ?_, ?_, ?_⟩
    · intro i hi hip hbyte
      dsimp only
      rw [hdiv] at hbyte
      by_cases hsame : i / w.perByte = p / w.perByte
      · rw [hsame, Function.update_self]
        exact hfield i hi (by omega) hsame
      · rw [Function.update_of_ne (by omega)]
        have hne : i ≠ p := fun heq => hsame (congrArg (· / w.perByte) heq)
        exact hstored i hi (by omega) (by omega)
    · intro i hi hip hbyte
      rw [hdiv] at hbyte
      have hle := Nat.div_le_div_right (c := w.perByte) (Nat.le_of_lt_succ hip)
      omega
    · intro k _ _
      exact field_zero _ _
    · intro hp
      cases hp
    · intro _ i hi hip hbyte
      rw [hdiv] at hbyte
      have hle := Nat.div_le_div_right (c := w.perByte) (Nat.le_of_lt_succ hip)
      omega
    · intro b hb
      dsimp only
      rw [Function.update_of_ne (hb p hlo (Nat.lt_succ_self p))]
      exact houtside b fun i hi hip => hb i hi (by omega)
  · obtain ⟨hdiv, hmod'⟩ := hpacks.step_inner hlast
    rw [if_neg hlast]
    refine ⟨rfl, rfl, rfl, ?_, ?_, ?_, ?_, ?_, ?_⟩
    · intro i hi hip hbyte
      rw [hdiv] at hbyte
      have hne : i ≠ p := by
        rintro rfl
        omega
      exact hstored i hi (by omega) hbyte
    · intro i hi hip hbyte
      rw [hdiv] at hbyte
      exact hfield i hi (by omega) hbyte
    · intro k hk hkq
      rw [hmod'] at hk
      dsimp only
      rw [field_or, hblank k (by omega) hkq, field_shift_of_ne (hcode p) (by omega),
        BitVec.or_zero]
    · intro _
      exact ⟨hdiv.symm, Nat.lt_succ_of_le hlo, by rw [Nat.add_sub_cancel, hdiv]⟩
    · intro hp
      cases hp
    · intro b hb
      exact houtside b fun i hi hip => hb i hi (by omega)

theorem written_row (frame lo : ℕ) (code : ℕ → BitVec 8) :
    Written tb.plane (frame * tb.stride) tb.bits tb.perByte lo code lo (tb.row frame) := by
  refine ⟨rfl, rfl, rfl, ?_, ?_, ?_, ?_, ?_, ?_⟩
  · intro i hi hlt
    omega
  · intro i hi hlt
    omega
  · intro k _ _
    exact field_zero _ _
  · intro hp
    cases hp
  · intro _ i hi hlt
    omega
  · intro b _
    rfl

/- The row stored: each position written reads back as its code, and no other row has changed. -/
theorem get_finish {frame lo p : ℕ}
    (h : Written tb.plane (frame * tb.stride) tb.bits tb.perByte lo code p w) {i : ℕ} (hi : lo ≤ i)
    (hip : i < p) : ({ tb with plane := w.finish } : Traceback).get frame i = code i := by
  obtain ⟨hbase, hbits, hper, hstored, hpacked, hblank, hpending, hstopped, houtside⟩ := h
  change field tb.bits (w.finish (frame * tb.stride + i / tb.perByte)) (i % tb.perByte) = code i
  have hle := Nat.div_le_div_right (c := tb.perByte) (Nat.le_of_lt hip)
  unfold RowWriter.finish
  cases hp : w.pending with
  | true =>
    rw [if_pos rfl, hbase, (hpending hp).1]
    by_cases hsame : i / tb.perByte = p / tb.perByte
    · rw [hsame, Function.update_self]
      exact hpacked i hi hip hsame
    · rw [Function.update_of_ne (by omega)]
      exact hstored i hi hip (by omega)
  | false =>
    rw [if_neg (by simp)]
    have hne := hstopped hp i hi hip
    exact hstored i hi hip (by omega)

theorem row_ne {stride frame frame' a b : ℕ} (ha : a < stride) (hb : b < stride)
    (hne : frame' ≠ frame) : frame' * stride + b ≠ frame * stride + a := by
  intro heq
  have hdiv := congrArg (· / stride) heq
  rw [Nat.mul_comm, Nat.mul_comm frame, Nat.mul_add_div (by omega), Nat.mul_add_div (by omega),
    Nat.div_eq_of_lt ha, Nat.div_eq_of_lt hb] at hdiv
  exact hne hdiv

theorem get_finish_of_ne {frame lo p : ℕ}
    (h : Written tb.plane (frame * tb.stride) tb.bits tb.perByte lo code p w)
    (hfits : ∀ i, i < p → i / tb.perByte < tb.stride) {frame' i : ℕ} (hne : frame' ≠ frame)
    (hi : i / tb.perByte < tb.stride) :
    ({ tb with plane := w.finish } : Traceback).get frame' i = tb.get frame' i := by
  change field tb.bits (w.finish (frame' * tb.stride + i / tb.perByte)) (i % tb.perByte) =
    field tb.bits (tb.plane (frame' * tb.stride + i / tb.perByte)) (i % tb.perByte)
  have houtside : w.plane (frame' * tb.stride + i / tb.perByte) =
      tb.plane (frame' * tb.stride + i / tb.perByte) :=
    h.outside _ fun j _ hj => row_ne (hfits j hj) hi hne
  congr 1
  unfold RowWriter.finish
  cases hp : w.pending with
  | true =>
    obtain ⟨hindex, hlt, hlast⟩ := h.pending hp
    have hfit := hfits (p - 1) (by omega)
    rw [if_pos rfl, h.base_eq, hindex, Function.update_of_ne, houtside]
    exact row_ne (hlast ▸ hfit) hi hne
  | false => rw [if_neg (by simp), houtside]

end Rows

end Traceback

end Sicada

namespace Sicada

/- Positions are kept in 32 bits. -/
structure Path (C : Type) where
  codes : List ℕ
  positions : List ℕ
  cost : C
deriving DecidableEq

/- The two rows of scores, which are swapped from frame to frame and not cleared, and the codes
taken. -/
structure BestRows (C : Type) where
  cur : ℕ → C
  next : ℕ → C
  trace : Traceback

section Solver

variable {C : Type} {degree : ℕ} [LinearOrderedAddCommMonoidWithTop C]

/- The best transition into a cell; `none` is an index before the row. -/
def bestInto (width : ℕ) (cur : ℕ → C) (steps : Fin degree → Trellis.Step C) (i : ℕ) : Option (C × ℕ) :=
  (List.finRange degree).foldlM (fun best candidate =>
    let step := steps candidate
    if width + i < step.advance then none
    else
      let total := cur (width + i - step.advance) + step.cost
      some (if total < best.1 then (total, (candidate : ℕ)) else best)) (⊤, 0)

namespace Trellis

variable (tr : Trellis C degree)

def fillCell (t : ℕ) (cur : ℕ → C) (l : (ℕ → C) × RowWriter) (i : ℕ) :
    Option ((ℕ → C) × RowWriter) :=
  (bestInto tr.width cur (tr.stepsInto t i) i).map fun best =>
    (Function.update l.1 (tr.width + i) best.1, l.2.put i (BitVec.ofNat 8 best.2))

def fillFrame (rows : BestRows C) (t : ℕ) : Option (BestRows C) :=
  ((tr.cells (t + 1)).foldlM (tr.fillCell t rows.cur) (rows.next, rows.trace.row t)).map fun l =>
    ⟨l.1, rows.cur, { rows.trace with plane := l.2.finish }⟩

/- The transitions taken on the way back from a cell; `none` is a code or a position that is out
of range. -/
def readBack (trace : Traceback) : ℕ → ℕ → Option (List (ℕ × ℕ))
  | 0, _ => some []
  | t + 1, i =>
    let code := (trace.get t i).toNat
    if h : code < degree then
      let advance := (tr.stepsInto t i ⟨code, h⟩).advance
      if i < advance then none
      else (readBack trace t (i - advance)).map fun before => before ++ [(code, i)]
    else none

/- Padded in front, so that a transition need not be checked against the start of the row. -/
def startRow : ℕ → C := Function.update (fun _ => ⊤) tr.width 0

/- `none` is a panic. -/
def bestPath : Option (Except String (Option (Path C))) :=
  match checkDegree degree with
  | .error e => some (.error e)
  | .ok () =>
    if (tr.band 0).2 ≤ (tr.band 0).1 then some (.ok none)
    else
      match Traceback.new tr.numFrames tr.numPositions degree with
      | .error e => some (.error e)
      | .ok trace =>
        ((List.range tr.numFrames).foldlM tr.fillFrame ⟨tr.startRow, fun _ => ⊤, trace⟩).bind
          fun rows =>
            let cost := rows.cur (tr.width + tr.numPositions)
            if cost = ⊤ then some (.ok none)
            else (tr.readBack rows.trace tr.numFrames tr.numPositions).map fun moves =>
              .ok (some ⟨moves.map Prod.fst, moves.map (fun move => move.2 % 2 ^ 32), cost⟩)

end Trellis

end Solver

end Sicada
