import Mathlib

namespace Probing

variable {α : Type*} {check : ℕ → Option Bool} {buckets : List (Option ℕ)} {mask : ℕ}

/- From a slot on, the first bucket that is empty or whose content `check` accepts; `none` is a
loop that never ends, or an access out of bounds. -/
def probe (check : ℕ → Option Bool) (buckets : List (Option ℕ)) (mask : ℕ) :
    ℕ → ℕ → Option (ℕ × Option ℕ)
  | 0, _ => none
  | fuel + 1, idx => do
    match ← buckets[idx]? with
    | none => some (idx, none)
    | some stored =>
      if ← check stored then some (idx, some stored)
      else probe check buckets mask fuel ((idx + 1) &&& mask)

/- A number of buckets that the mask takes remainders by. -/
def Masks (buckets : List (Option ℕ)) (mask : ℕ) : Prop :=
  ∃ k, buckets.length = 2 ^ k ∧ mask = 2 ^ k - 1

theorem Masks.and (h : Masks buckets mask) (n : ℕ) : n &&& mask = n % buckets.length := by
  obtain ⟨k, hlen, rfl⟩ := h
  rw [hlen, Nat.and_two_pow_sub_one_eq_mod]

theorem Masks.pos (h : Masks buckets mask) : 0 < buckets.length := by
  obtain ⟨k, hlen, -⟩ := h
  rw [hlen]
  exact Nat.two_pow_pos k

theorem Masks.set (h : Masks buckets mask) (i : ℕ) (b : Option ℕ) :
    Masks (buckets.set i b) mask := by
  obtain ⟨k, hlen, hmask⟩ := h
  exact ⟨k, by rw [List.length_set, hlen], hmask⟩

/- The bucket `d` steps on from where the probe of a hash starts. -/
def slot (buckets : List (Option ℕ)) (hash d : ℕ) : ℕ := (hash + d) % buckets.length

theorem slot_lt (h : Masks buckets mask) (hash d : ℕ) : slot buckets hash d < buckets.length :=
  Nat.mod_lt _ h.pos

theorem slot_succ (hash d : ℕ) : slot buckets (hash + 1) d = slot buckets hash (d + 1) := by
  unfold slot
  congr 1
  omega

theorem slot_zero_succ (h : Masks buckets mask) (hash : ℕ) :
    (slot buckets hash 0 + 1) &&& mask = slot buckets (hash + 1) 0 := by
  rw [h.and]
  simp [slot]

/- Every slot is met within one round. -/
theorem exists_slot (h : Masks buckets mask) (hash : ℕ) {b : ℕ} (hb : b < buckets.length) :
    ∃ d < buckets.length, slot buckets hash d = b := by
  have hpos := h.pos
  have hlt := Nat.mod_lt hash hpos
  refine ⟨(b + (buckets.length - hash % buckets.length)) % buckets.length,
    Nat.mod_lt _ hpos, ?_⟩
  have hsum : hash + (b + (buckets.length - hash % buckets.length)) =
      b + buckets.length * (hash / buckets.length + 1) := by
    have hdiv := Nat.div_add_mod hash buckets.length
    rw [Nat.mul_add, Nat.mul_one]
    omega
  unfold slot
  rw [Nat.add_mod_mod, hsum, Nat.add_mul_mod_self_left, Nat.mod_eq_of_lt hb]

/- A bucket the probe goes past. -/
def Passed (check : ℕ → Option Bool) (buckets : List (Option ℕ)) (b : ℕ) : Prop :=
  ∃ stored, buckets[b]? = some (some stored) ∧ check stored = some false

/- A bucket the probe ends at, with what it holds. -/
def Ends (check : ℕ → Option Bool) (buckets : List (Option ℕ)) (b : ℕ) (found : Option ℕ) : Prop :=
  buckets[b]? = some found ∧ ∀ stored, found = some stored → check stored = some true

theorem probe_eq (h : Masks buckets mask) {hash d fuel : ℕ} {found : Option ℕ}
    (hbefore : ∀ e < d, Passed check buckets (slot buckets hash e))
    (hend : Ends check buckets (slot buckets hash d) found) (hfuel : d < fuel) :
    probe check buckets mask fuel (slot buckets hash 0) = some (slot buckets hash d, found) := by
  induction d generalizing hash fuel with
  | zero =>
    obtain ⟨fuel, rfl⟩ : ∃ n, fuel = n + 1 := ⟨fuel - 1, by omega⟩
    obtain ⟨hget, hcheck⟩ := hend
    cases found with
    | none => simp [probe, hget]
    | some stored => simp [probe, hget, hcheck stored rfl]
  | succ d ih =>
    obtain ⟨fuel, rfl⟩ : ∃ n, fuel = n + 1 := ⟨fuel - 1, by omega⟩
    obtain ⟨stored, hget, hcheck⟩ := hbefore 0 (by omega)
    have hrest := @ih (hash + 1) fuel
      (fun e he => by rw [slot_succ]; exact hbefore (e + 1) (by omega))
      (by rw [slot_succ]; exact hend) (by omega)
    rw [probe]
    simp only [hget, hcheck, Option.bind_eq_bind, Option.bind_some, Bool.false_eq_true, if_false]
    rw [slot_zero_succ h, hrest, slot_succ]

/- The buckets hold the entries of a list, each where the probe of its hash comes by. -/
structure Chained (hash : α → ℕ) (entries : List α) (buckets : List (Option ℕ)) (mask : ℕ) :
    Prop where
  masks : Masks buckets mask
  held : ∀ b i : ℕ, buckets[b]? = some (some i) → i < entries.length
  reach : ∀ (i : ℕ) (a : α), entries[i]? = some a → ∃ d < buckets.length,
    buckets[slot buckets (hash a) d]? = some (some i) ∧
      ∀ e < d, ∃ j, buckets[slot buckets (hash a) e]? = some (some j)
  vacant : buckets.count none + entries.length = buckets.length

variable {hash : α → ℕ} {entries : List α}

theorem chained_empty (k : ℕ) :
    Chained hash [] (List.replicate (2 ^ k) none) (2 ^ k - 1) := by
  constructor
  · exact ⟨k, List.length_replicate, rfl⟩
  · intro b i hb
    have hmem := List.mem_of_getElem? hb
    simp at hmem
  · intro i a ha
    simp at ha
  · simp

/- A chain that is not full has an empty bucket on the way of every hash. -/
theorem Chained.exists_vacant (h : Chained hash entries buckets mask)
    (hroom : entries.length < buckets.length) (key : ℕ) :
    ∃ d < buckets.length, buckets[slot buckets key d]? = some none ∧
      ∀ e < d, ∃ j, buckets[slot buckets key e]? = some (some j) := by
  have hmem : none ∈ buckets := by
    apply List.count_pos_iff.mp
    have hvacant := h.vacant
    omega
  obtain ⟨b, hb⟩ := List.mem_iff_getElem?.mp hmem
  obtain ⟨d, hd, hslot⟩ := exists_slot h.masks key (List.getElem?_eq_some_iff.mp hb).1
  have hex : ∃ d, buckets[slot buckets key d]? = some none := ⟨d, by rw [hslot, hb]⟩
  refine ⟨Nat.find hex, ?_, Nat.find_spec hex, ?_⟩
  · exact lt_of_le_of_lt (Nat.find_min' hex (by rw [hslot, hb])) hd
  · intro e he
    have hnot := Nat.find_min hex he
    have hlt := slot_lt h.masks key e
    rw [List.getElem?_eq_getElem hlt] at hnot ⊢
    cases hget : buckets[slot buckets key e] with
    | none => exact absurd (congrArg some hget) hnot
    | some j => exact ⟨j, rfl⟩

/- What a probe that accepts nothing finds: the first empty bucket, and what to put there. -/
theorem Chained.place (h : Chained hash entries buckets mask) {a : α} {d : ℕ}
    (hd : d < buckets.length) (hempty : buckets[slot buckets (hash a) d]? = some none)
    (hbefore : ∀ e < d, ∃ j, buckets[slot buckets (hash a) e]? = some (some j)) :
    Chained hash (entries ++ [a])
      (buckets.set (slot buckets (hash a) d) (some entries.length)) mask := by
  have hslot : ∀ x y b c, slot (buckets.set b c) x y = slot buckets x y := by
    intro x y b c
    simp [slot]
  have hkept : ∀ b i : ℕ, buckets[b]? = some (some i) →
      (buckets.set (slot buckets (hash a) d) (some entries.length))[b]? = some (some i) := by
    intro b i hb
    rw [List.getElem?_set_ne, hb]
    rintro rfl
    rw [hempty] at hb
    cases hb
  constructor
  · exact h.masks.set _ _
  · intro b i hb
    rw [List.length_append, List.length_singleton]
    by_cases heq : slot buckets (hash a) d = b
    · subst heq
      rw [List.getElem?_set_self (slot_lt h.masks _ _)] at hb
      obtain rfl : entries.length = i := by simpa using hb
      omega
    · rw [List.getElem?_set_ne heq] at hb
      have hlt := h.held b i hb
      omega
  · intro i c hc
    rw [List.length_set]
    by_cases hi : i < entries.length
    · rw [List.getElem?_append_left hi] at hc
      obtain ⟨d', hd', hget, hpath⟩ := h.reach i c hc
      refine ⟨d', hd', by rw [hslot]; exact hkept _ _ hget, ?_⟩
      intro e he
      obtain ⟨j, hj⟩ := hpath e he
      exact ⟨j, by rw [hslot]; exact hkept _ _ hj⟩
    · have hlt := (List.getElem?_eq_some_iff.mp hc).1
      rw [List.length_append, List.length_singleton] at hlt
      obtain rfl : i = entries.length := by omega
      obtain rfl : a = c := by simpa using hc
      refine ⟨d, hd, ?_, ?_⟩
      · rw [hslot, List.getElem?_set_self (slot_lt h.masks _ _)]
      · intro e he
        obtain ⟨j, hj⟩ := hbefore e he
        exact ⟨j, by rw [hslot]; exact hkept _ _ hj⟩
  · have hlt := slot_lt h.masks (hash a) d
    have hget : buckets[slot buckets (hash a) d] = none := by
      rw [List.getElem?_eq_getElem hlt] at hempty
      simpa using hempty
    have hpos : 0 < buckets.count none :=
      List.count_pos_iff.mpr (List.mem_of_getElem? hempty)
    have hvacant := h.vacant
    rw [List.count_set hlt, hget, List.length_append, List.length_set, List.length_singleton]
    simp
    omega

/- The probe of an entry that is there ends at its place. -/
theorem Chained.probe_mem (h : Chained hash entries buckets mask) {i : ℕ} {a : α}
    (hi : entries[i]? = some a) (hself : check i = some true)
    (hother : ∀ j < entries.length, j ≠ i → check j = some false) :
    ∃ b, probe check buckets mask buckets.length (slot buckets (hash a) 0) = some (b, some i) := by
  obtain ⟨d, hd, hget, hpath⟩ := h.reach i a hi
  have hex : ∃ d, buckets[slot buckets (hash a) d]? = some (some i) := ⟨d, hget⟩
  have hle : Nat.find hex ≤ d := Nat.find_min' hex hget
  refine ⟨_, probe_eq h.masks (d := Nat.find hex) (fun e he => ?_)
    ⟨Nat.find_spec hex, ?_⟩ (lt_of_le_of_lt hle hd)⟩
  · obtain ⟨j, hj⟩ := hpath e (lt_of_lt_of_le he hle)
    refine ⟨j, hj, hother j (h.held _ _ hj) ?_⟩
    rintro rfl
    exact Nat.find_min hex he hj
  · intro stored hstored
    cases hstored
    exact hself

/- The probe of what is not there ends at the bucket it would go to. -/
theorem Chained.probe_new (h : Chained hash entries buckets mask)
    (hroom : entries.length < buckets.length) (key : ℕ)
    (hother : ∀ j < entries.length, check j = some false) :
    ∃ d < buckets.length, buckets[slot buckets key d]? = some none ∧
      (∀ e < d, ∃ j, buckets[slot buckets key e]? = some (some j)) ∧
      probe check buckets mask buckets.length (slot buckets key 0) =
        some (slot buckets key d, none) := by
  obtain ⟨d, hd, hempty, hpath⟩ := h.exists_vacant hroom key
  refine ⟨d, hd, hempty, hpath, probe_eq h.masks (fun e he => ?_) ⟨hempty, ?_⟩ hd⟩
  · obtain ⟨j, hj⟩ := hpath e he
    exact ⟨j, hj, hother j (h.held _ _ hj)⟩
  · intro stored hstored
    cases hstored

end Probing
