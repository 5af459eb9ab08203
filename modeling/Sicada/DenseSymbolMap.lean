import Sicada.Library.Probing

namespace Sicada

open Probing

/- The floats' reading of a fraction with a whole part of 24 bits or more: the nearest number of
24 bits, the even one of two. -/
def roundedF32 (num den : ℕ) : ℕ :=
  let unit := den * 2 ^ ((num / den).log2 - 23)
  let q := num / unit
  let r := num % unit
  (if unit < 2 * r ∨ 2 * r = unit ∧ q % 2 = 1 then q + 1 else q) * 2 ^ ((num / den).log2 - 23)

/- `n as f32` -/
def asF32 (n : ℕ) : ℕ := roundedF32 n 1

theorem le_roundedF32 (num den : ℕ) :
    num / den ≤ roundedF32 num den + num / den / 2 ^ 23 := by
  have hround : num / den / 2 ^ ((num / den).log2 - 23) * 2 ^ ((num / den).log2 - 23) ≤
      roundedF32 num den := by
    unfold roundedF32
    dsimp only
    rw [← Nat.div_div_eq_div_mul]
    apply Nat.mul_le_mul_right
    split <;> omega
  generalize num / den = v at *
  have hmod := Nat.div_add_mod v (2 ^ (v.log2 - 23))
  rw [Nat.mul_comm] at hmod
  have hlt := Nat.mod_lt v (Nat.two_pow_pos (v.log2 - 23))
  by_cases hsmall : v.log2 ≤ 23
  · rw [show v.log2 - 23 = 0 by omega] at *
    omega
  · have hv : v ≠ 0 := by
      rintro rfl
      simp at hsmall
    have hlog : 2 ^ v.log2 ≤ v := Nat.log2_self_le hv
    have hsplit : 2 ^ v.log2 = 2 ^ (v.log2 - 23) * 2 ^ 23 := by
      rw [← Nat.pow_add]
      congr 1
      omega
    have hunit : 2 ^ (v.log2 - 23) ≤ v / 2 ^ 23 := by
      rw [Nat.le_div_iff_mul_le (Nat.two_pow_pos _), ← hsplit]
      exact hlog
    omega

theorem le_asF32 {n m k : ℕ} (hm : m < 2 ^ 24) (hle : m * 2 ^ k ≤ n) : m * 2 ^ k ≤ asF32 n := by
  have hround : n / 2 ^ (n.log2 - 23) * 2 ^ (n.log2 - 23) ≤ asF32 n := by
    unfold asF32 roundedF32
    simp only [Nat.div_one, Nat.one_mul]
    apply Nat.mul_le_mul_right
    split <;> omega
  apply le_trans _ hround
  by_cases hk : n.log2 - 23 ≤ k
  · obtain ⟨j, rfl⟩ := Nat.exists_eq_add_of_le hk
    have hpow : m * 2 ^ (n.log2 - 23 + j) = m * 2 ^ j * 2 ^ (n.log2 - 23) := by
      rw [Nat.pow_add]
      ring
    rw [hpow] at hle ⊢
    apply Nat.mul_le_mul_right
    rw [Nat.le_div_iff_mul_le (Nat.two_pow_pos _)]
    exact hle
  · have hn : n ≠ 0 := by
      rintro rfl
      simp at hk
    have hlog : 2 ^ n.log2 ≤ n := Nat.log2_self_le hn
    have hsplit : 2 ^ n.log2 = 2 ^ 23 * 2 ^ (n.log2 - 23) := by
      rw [← Nat.pow_add]
      congr 1
      omega
    have hdiv : 2 ^ 23 ≤ n / 2 ^ (n.log2 - 23) := by
      rw [Nat.le_div_iff_mul_le (Nat.two_pow_pos _), ← hsplit]
      exact hlog
    have hpow : 2 * 2 ^ k ≤ 2 ^ (n.log2 - 23) := by
      rw [← Nat.pow_succ']
      exact Nat.pow_le_pow_right (by omega) (by omega)
    calc m * 2 ^ k ≤ 2 ^ 24 * 2 ^ k := Nat.mul_le_mul_right _ hm.le
      _ = 2 ^ 23 * (2 * 2 ^ k) := by ring
      _ ≤ n / 2 ^ (n.log2 - 23) * 2 ^ (n.log2 - 23) := Nat.mul_le_mul hdiv hpow

/- `None` in a bucket is `K_EMPTY_BUCKET`. -/
structure DenseSymbolMap where
  symbols : List String
  buckets : List (Option ℕ)
  hashMask : ℕ

namespace DenseSymbolMap

variable (getHash : String → ℕ)

def new : DenseSymbolMap := ⟨[], List.replicate 16 none, 15⟩

/- Where the symbols from the `i`th on go. -/
def rehashFrom (hashMask : ℕ) :
    List String → ℕ → List (Option ℕ) → Option (List (Option ℕ))
  | [], _, buckets => some buckets
  | symbol :: symbols, i, buckets => do
    let (idx, _) ← probe (fun _ => some false) buckets hashMask buckets.length
      (getHash symbol &&& hashMask)
    rehashFrom hashMask symbols (i + 1) (buckets.set idx (some i))

/- The assertion of a power of two is `none` where it fails. -/
def rehash (m : DenseSymbolMap) (numBuckets : ℕ) : Option DenseSymbolMap :=
  if numBuckets = 2 ^ numBuckets.log2 then do
    let buckets ← rehashFrom getHash (numBuckets - 1) m.symbols 0 (List.replicate numBuckets none)
    some { m with buckets := buckets, hashMask := numBuckets - 1 }
  else none

/- The loop of `insert_or_find` and `find`. -/
def lookFor (m : DenseSymbolMap) (key : String) : Option (ℕ × Option ℕ) :=
  probe (fun stored => m.symbols[stored]?.map (· = key)) m.buckets m.hashMask m.buckets.length
    (getHash key &&& m.hashMask)

/- Three quarters of a power of two are exact in floats. -/
def isCrowded (m : DenseSymbolMap) : Bool :=
  3 * asF32 m.buckets.length ≤ 4 * asF32 m.symbols.length

def makeRoom (m : DenseSymbolMap) : Option DenseSymbolMap :=
  if m.isCrowded then m.rehash getHash (m.buckets.length * 2) else some m

def insertOrFind (m : DenseSymbolMap) (key : String) : Option ((ℕ × Bool) × DenseSymbolMap) := do
  let m ← m.makeRoom getHash
  match ← m.lookFor getHash key with
  | (_, some stored) => some ((stored, false), m)
  | (idx, none) =>
    let next := m.symbols.length
    some ((next, true),
      { m with buckets := m.buckets.set idx (some next), symbols := m.symbols ++ [key] })

def find (m : DenseSymbolMap) (key : String) : Option (Option ℕ) := do
  let (_, stored) ← m.lookFor getHash key
  some stored

def size (m : DenseSymbolMap) : ℕ := m.symbols.length

def removeSymbol (m : DenseSymbolMap) (idx : ℕ) : Option DenseSymbolMap :=
  if idx < m.symbols.length then
    rehash getHash { m with symbols := m.symbols.eraseIdx idx } m.buckets.length
  else none

/- The quotient of two floats, cut to a whole number: below 2^23 rounding a third leaves the
whole part as it is. -/
def requiredCapacity (n : ℕ) : ℕ :=
  let num := 4 * asF32 n
  if num < 3 * 2 ^ 23 then num / 3 else roundedF32 num 3

/- `while new_buckets < required_capacity`, from a number of buckets on. -/
def grown (required buckets : ℕ) : ℕ :=
  if h : 0 < buckets ∧ buckets < required then grown required (buckets * 2) else buckets
termination_by required - buckets
decreasing_by omega

def shrinkToFit (m : DenseSymbolMap) : Option DenseSymbolMap :=
  let newBuckets := grown (requiredCapacity m.symbols.length) 16
  if newBuckets < m.buckets.length then m.rehash getHash newBuckets else some m

theorem lt_requiredCapacity {n : ℕ} (hn : 16 ≤ n) : n < requiredCapacity n := by
  have hfloat : n ≤ asF32 n + n / 2 ^ 23 := by
    have hle := le_roundedF32 n 1
    rwa [Nat.div_one] at hle
  unfold requiredCapacity
  dsimp only
  split
  · omega
  · have hle := le_roundedF32 (4 * asF32 n) 3
    omega

theorem grown_spec (required k : ℕ) :
    ∃ j, grown required (2 ^ k) = 2 ^ j ∧ k ≤ j ∧ required ≤ 2 ^ j := by
  induction hgap : required - 2 ^ k using Nat.strong_induction_on generalizing k with
  | _ gap ih =>
    rw [grown]
    have hpos := Nat.two_pow_pos k
    by_cases hlt : 0 < 2 ^ k ∧ 2 ^ k < required
    · obtain ⟨j, hj, hkj, hle⟩ := ih (required - 2 ^ (k + 1))
        (by rw [Nat.pow_succ]; omega) (k + 1) rfl
      refine ⟨j, ?_, by omega, hle⟩
      rw [dif_pos hlt, ← Nat.pow_succ, hj]
    · exact ⟨k, dif_neg hlt, le_refl k, by omega⟩

/- Every symbol once, where a probe finds it, and room left for another probe to end. -/
structure Sound (m : DenseSymbolMap) : Prop where
  chained : Chained getHash m.symbols m.buckets m.hashMask
  nodup : m.symbols.Nodup
  room : m.symbols.length < m.buckets.length
  many : 16 ≤ m.buckets.length

variable {getHash}

theorem sound_new : Sound getHash new :=
  ⟨chained_empty 4, List.nodup_nil, by decide, by decide⟩

theorem start_eq {buckets : List (Option ℕ)} {mask : ℕ}
    (h : Masks buckets mask) (key : String) :
    getHash key &&& mask = slot buckets (getHash key) 0 := by
  rw [h.and]
  rfl

theorem rehashFrom_chained {done symbols : List String} {buckets : List (Option ℕ)} {mask : ℕ}
    (h : Chained getHash done buckets mask)
    (hroom : done.length + symbols.length < buckets.length) :
    ∃ buckets', rehashFrom getHash mask symbols done.length buckets = some buckets' ∧
      Chained getHash (done ++ symbols) buckets' mask ∧ buckets'.length = buckets.length := by
  induction symbols generalizing done buckets with
  | nil => exact ⟨buckets, rfl, by rwa [List.append_nil], rfl⟩
  | cons symbol symbols ih =>
    rw [List.length_cons] at hroom
    have hnone : ∀ i < done.length, (fun _ => some false) i = some false := fun _ _ => rfl
    obtain ⟨d, hd, hempty, hpath, hprobe⟩ := h.probe_new (by omega) (getHash symbol) hnone
    have hplaced := h.place hd hempty hpath
    obtain ⟨buckets', hrest, hchained, hlen⟩ := ih hplaced (by
      rw [List.length_append, List.length_singleton, List.length_set]
      omega)
    refine ⟨buckets', ?_, ?_, ?_⟩
    · rw [rehashFrom, h.masks.and]
      rw [show getHash symbol % buckets.length = slot buckets (getHash symbol) 0 from rfl, hprobe]
      rw [List.length_append, List.length_singleton] at hrest
      exact hrest
    · rwa [List.append_assoc] at hchained
    · rwa [List.length_set] at hlen

variable {m : DenseSymbolMap}

theorem rehash_sound {numBuckets k : ℕ} (hpow : numBuckets = 2 ^ k) (hmany : 16 ≤ numBuckets)
    (hroom : m.symbols.length < numBuckets) (hnodup : m.symbols.Nodup) :
    ∃ m', m.rehash getHash numBuckets = some m' ∧ m'.symbols = m.symbols ∧
      m'.buckets.length = numBuckets ∧ Sound getHash m' := by
  subst hpow
  have hempty : Chained getHash [] (List.replicate (2 ^ k) none) (2 ^ k - 1) := chained_empty k
  obtain ⟨buckets', hrun, hchained, hlen⟩ := rehashFrom_chained hempty
    (show [].length + m.symbols.length < _ by simpa using hroom)
  rw [List.length_replicate] at hlen
  refine ⟨⟨m.symbols, buckets', 2 ^ k - 1⟩, ?_, rfl, hlen, ?_⟩
  · unfold rehash
    rw [if_pos (by rw [Nat.log2_two_pow])]
    rw [List.length_nil] at hrun
    rw [hrun]
    rfl
  · exact ⟨by simpa using hchained, hnodup, by rwa [hlen], by rwa [hlen]⟩

theorem makeRoom_sound (h : Sound getHash m) :
    ∃ m', m.makeRoom getHash = some m' ∧ m'.symbols = m.symbols ∧ Sound getHash m' ∧
      m.symbols.length + 1 < m'.buckets.length := by
  obtain ⟨k, hlen, -⟩ := h.chained.masks
  have hmany := h.many
  have hroom := h.room
  unfold makeRoom
  by_cases hcrowded : m.isCrowded = true
  · rw [if_pos hcrowded]
    have hdouble : m.buckets.length * 2 = 2 ^ (k + 1) := by rw [hlen, Nat.pow_succ]
    obtain ⟨m', hrun, hsymbols, hlen', hsound⟩ := rehash_sound hdouble (by omega)
      (show m.symbols.length < m.buckets.length * 2 by omega) h.nodup
    exact ⟨m', hrun, hsymbols, hsound, by omega⟩
  · rw [if_neg hcrowded]
    refine ⟨m, rfl, rfl, h, ?_⟩
    by_contra hfull
    apply hcrowded
    -- three quarters of the buckets are a float, so a count beyond them does not round below
    obtain ⟨j, rfl⟩ : ∃ j, k = j + 4 := by
      have hk : 4 ≤ k := by
        by_contra hk
        have hlt : 2 ^ k < 2 ^ 4 := Nat.pow_lt_pow_right (by omega) (by omega)
        omega
      exact ⟨k - 4, by omega⟩
    have hpow : 2 ^ (j + 4) = 16 * 2 ^ j := by
      rw [Nat.pow_add]
      ring
    have hle : 3 * (4 * 2 ^ j) ≤ asF32 m.symbols.length := by
      have hthree := @le_asF32 m.symbols.length 3 (j + 2) (by norm_num)
      rw [Nat.pow_add] at hthree
      have := hthree (by omega)
      omega
    have hexact : asF32 m.buckets.length = 16 * 2 ^ j := by
      rw [hlen, ← hpow]
      unfold asF32 roundedF32
      simp only [Nat.div_one, Nat.one_mul, Nat.log2_two_pow]
      have hdvd : 2 ^ (j + 4 - 23) ∣ 2 ^ (j + 4) := Nat.pow_dvd_pow 2 (by omega)
      rw [Nat.mod_eq_zero_of_dvd hdvd]
      have hpos := Nat.two_pow_pos (j + 4 - 23)
      rw [if_neg (by omega), Nat.div_mul_cancel hdvd]
    unfold isCrowded
    rw [hexact]
    simp only [decide_eq_true_eq]
    omega

theorem lookFor_mem (h : Sound getHash m) {i : ℕ} {key : String} (hi : m.symbols[i]? = some key) :
    ∃ b, m.lookFor getHash key = some (b, some i) := by
  unfold lookFor
  rw [start_eq h.chained.masks]
  apply h.chained.probe_mem hi
  · rw [hi]
    simp
  · intro j hj hne
    rw [List.getElem?_eq_getElem hj]
    have hkey : m.symbols[j] ≠ key := by
      intro heq
      apply hne
      rw [← List.getElem?_inj hj h.nodup, List.getElem?_eq_getElem hj, heq, hi]
    simp [hkey]

theorem lookFor_new (h : Sound getHash m) {key : String} (hkey : key ∉ m.symbols) :
    ∃ d < m.buckets.length, m.buckets[slot m.buckets (getHash key) d]? = some none ∧
      (∀ e < d, ∃ j, m.buckets[slot m.buckets (getHash key) e]? = some (some j)) ∧
      m.lookFor getHash key = some (slot m.buckets (getHash key) d, none) := by
  unfold lookFor
  rw [start_eq h.chained.masks]
  apply h.chained.probe_new h.room
  intro j hj
  rw [List.getElem?_eq_getElem hj]
  have hne : m.symbols[j] ≠ key := by
    rintro rfl
    exact hkey (List.getElem_mem hj)
  simp [hne]

theorem find_eq (h : Sound getHash m) (key : String) :
    m.find getHash key = some (m.symbols.idxOf? key) := by
  unfold find
  cases hidx : m.symbols.idxOf? key with
  | none =>
    have hkey : key ∉ m.symbols := List.idxOf?_eq_none_iff.mp hidx
    obtain ⟨d, -, -, -, hlook⟩ := lookFor_new h hkey
    rw [hlook]
    rfl
  | some i =>
    have hi : m.symbols[i]? = some key := by
      obtain ⟨hlt, hget, -⟩ := List.findIdx?_eq_some_iff_getElem.mp hidx
      rw [List.getElem?_eq_getElem hlt]
      simpa using hget
    obtain ⟨b, hlook⟩ := lookFor_mem h hi
    rw [hlook]
    rfl

theorem insertOrFind_mem (h : Sound getHash m) {i : ℕ} {key : String}
    (hi : m.symbols[i]? = some key) :
    ∃ m', m.insertOrFind getHash key = some ((i, false), m') ∧ m'.symbols = m.symbols ∧
      Sound getHash m' := by
  obtain ⟨m', hroom, hsymbols, hsound, -⟩ := makeRoom_sound h
  rw [← hsymbols] at hi
  obtain ⟨b, hlook⟩ := lookFor_mem hsound hi
  refine ⟨m', ?_, hsymbols, hsound⟩
  unfold insertOrFind
  rw [hroom]
  simp only [Option.bind_eq_bind, Option.bind_some, hlook]

theorem insertOrFind_new (h : Sound getHash m) {key : String} (hkey : key ∉ m.symbols) :
    ∃ m', m.insertOrFind getHash key = some ((m.symbols.length, true), m') ∧
      m'.symbols = m.symbols ++ [key] ∧ Sound getHash m' := by
  obtain ⟨m', hroom, hsymbols, hsound, hlen⟩ := makeRoom_sound h
  rw [← hsymbols] at hkey hlen
  obtain ⟨d, hd, hempty, hpath, hlook⟩ := lookFor_new hsound hkey
  refine ⟨⟨m'.symbols ++ [key], m'.buckets.set (slot m'.buckets (getHash key) d)
    (some m'.symbols.length), m'.hashMask⟩, ?_, by rw [hsymbols], ?_⟩
  · unfold insertOrFind
    rw [hroom]
    simp only [Option.bind_eq_bind, Option.bind_some, hlook, hsymbols]
  · constructor
    · exact hsound.chained.place hd hempty hpath
    · rw [List.nodup_append]
      refine ⟨hsound.nodup, List.nodup_singleton _, ?_⟩
      intro a ha b hb heq
      obtain rfl := List.mem_singleton.mp hb
      exact hkey (heq ▸ ha)
    · rw [List.length_append, List.length_singleton, List.length_set]
      exact hlen
    · rw [List.length_set]
      exact hsound.many

theorem removeSymbol_sound (h : Sound getHash m) {idx : ℕ} (hidx : idx < m.symbols.length) :
    ∃ m', m.removeSymbol getHash idx = some m' ∧ m'.symbols = m.symbols.eraseIdx idx ∧
      Sound getHash m' := by
  obtain ⟨k, hlen, -⟩ := h.chained.masks
  have hroom := h.room
  have hnodup := h.nodup.sublist (List.eraseIdx_sublist m.symbols idx)
  have hfewer : (m.symbols.eraseIdx idx).length < m.buckets.length := by
    rw [List.length_eraseIdx_of_lt hidx]
    omega
  obtain ⟨m', hrun, hsymbols, -, hsound⟩ := rehash_sound
    (m := { m with symbols := m.symbols.eraseIdx idx }) hlen h.many hfewer hnodup
  refine ⟨m', ?_, hsymbols, hsound⟩
  unfold removeSymbol
  rw [if_pos hidx, hrun]

theorem shrinkToFit_sound (h : Sound getHash m) :
    ∃ m', m.shrinkToFit getHash = some m' ∧ m'.symbols = m.symbols ∧ Sound getHash m' := by
  unfold shrinkToFit
  obtain ⟨j, hj, hle, hrequired⟩ := grown_spec (requiredCapacity m.symbols.length) 4
  rw [show 2 ^ 4 = 16 from rfl] at hj
  dsimp only
  rw [hj]
  by_cases hsmaller : 2 ^ j < m.buckets.length
  · rw [if_pos hsmaller]
    have hmany : 16 ≤ 2 ^ j := by
      calc 16 = 2 ^ 4 := rfl
        _ ≤ 2 ^ j := Nat.pow_le_pow_right (by omega) hle
    have hroom : m.symbols.length < 2 ^ j := by
      by_cases hlen : 16 ≤ m.symbols.length
      · have hlt := lt_requiredCapacity hlen
        omega
      · omega
    obtain ⟨m', hrun, hsymbols, -, hsound⟩ := rehash_sound rfl hmany hroom h.nodup
    exact ⟨m', hrun, hsymbols, hsound⟩
  · rw [if_neg hsmaller]
    exact ⟨m, rfl, rfl, h⟩

end DenseSymbolMap

end Sicada
