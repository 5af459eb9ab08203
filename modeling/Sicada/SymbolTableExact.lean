import Sicada.SymbolTable

namespace Sicada.SymbolTableExact

open SymbolTableImpl InPlace

variable {getHash : String → ℕ} {t : SymbolTableImpl}

theorem wrapI64_eq {x : ℤ} (hlow : -2 ^ 63 ≤ x) (hhigh : x ≤ maxI64) : wrapI64 x = x := by
  unfold wrapI64 maxI64 at *
  apply Int.bmod_eq_of_le <;> omega

/- A number after which comes one that is not negative is not the last. -/
theorem wrapI64_succ {key : ℤ} (hlow : -2 ^ 63 ≤ key) (hhigh : key ≤ maxI64)
    (hnext : 0 ≤ wrapI64 (key + 1)) : wrapI64 (key + 1) = key + 1 := by
  rcases eq_or_ne key maxI64 with rfl | hne
  · exact absurd hnext (by decide)
  · exact wrapI64_eq (by omega) (by omega)

theorem consistent_new (name : String) : Consistent getHash (.new name) := by
  constructor
  · exact DenseSymbolMap.sound_new
  · rfl
  · exact List.nodup_nil
  · intro k i
    simp [SymbolTableImpl.new, keys]
  · intro k hk
    simp [SymbolTableImpl.new, keys] at hk
  · simp [SymbolTableImpl.new, keys]
  · simp [SymbolTableImpl.new, keys, maxI64]

/- What adding a symbol that is there does: nothing to any binding. -/
theorem addSymbol_old (h : Consistent getHash t) {i : ℕ} {s : String} {k : ℤ} (key : ℤ)
    (hk : t.keys[i]? = some k) (hs : t.symbols.symbols[i]? = some s) (hkey : key ≠ kNoSymbol) :
    ∃ m, t.addSymbol getHash s key = some (k, { t with symbols := m }) ∧
      Consistent getHash { t with symbols := m } ∧ m.symbols = t.symbols.symbols := by
  obtain ⟨m, hrun, hsymbols, hsound⟩ := DenseSymbolMap.insertOrFind_mem h.sound hs
  have hcons : Consistent getHash { t with symbols := m } := by
    refine ⟨hsound, ?_, h.nodup, h.mapped, h.below, h.named, h.inRange⟩
    dsimp only
    rw [hsymbols]
    exact h.length
  refine ⟨m, ?_, hcons, hsymbols⟩
  have hnth : ({ t with symbols := m } : SymbolTableImpl).getNthKey getHash i = some k := by
    rw [hcons.keyed.getNthKey_eq (by
      dsimp only
      rw [hsymbols]
      exact (List.getElem?_eq_some_iff.mp hs).1)]
    exact hk
  unfold addSymbol
  rw [if_neg hkey, hrun]
  simp only [Option.bind_eq_bind, Option.bind_some, Bool.false_eq_true, if_false, hnth]
  congr 2
  by_cases heq : k = key
  · rw [if_pos heq, heq]
  · rw [if_neg heq]

section Bind

variable {m : DenseSymbolMap} {s : String} {key : ℤ}

theorem keys_bindKey (hlength : t.denseKeyLimit + t.idxKey.length = t.symbols.symbols.length)
    (hm : m.symbols = t.symbols.symbols ++ [s]) (hlow : -2 ^ 63 ≤ key) (hhigh : key ≤ maxI64) :
    (({ t with symbols := m } : SymbolTableImpl).bindKey key).keys = t.keys ++ [key] := by
  unfold bindKey size DenseSymbolMap.size
  dsimp only
  rw [hm, List.length_append, List.length_singleton]
  split
  · next hdense =>
    obtain ⟨hsize, hkey⟩ := hdense
    have hnext := wrapI64_succ hlow hhigh (by omega)
    have hnil : t.idxKey = [] := List.eq_nil_of_length_eq_zero (by omega)
    unfold keys
    dsimp only
    rw [List.range_succ, hnil, hkey]
    simp
  · unfold keys
    dsimp only
    rw [List.append_assoc]

theorem mapped_bindKey (hlength : t.denseKeyLimit + t.idxKey.length = t.symbols.symbols.length)
    (hmapped : ∀ (k : ℤ) (i : ℕ),
      t.keyMap[k]? = some i ↔ t.denseKeyLimit ≤ i ∧ t.keys[i]? = some k)
    (hm : m.symbols = t.symbols.symbols ++ [s]) (hlow : -2 ^ 63 ≤ key) (hhigh : key ≤ maxI64)
    (hnew : key ∉ t.keys) (k : ℤ) (i : ℕ) :
    (({ t with symbols := m } : SymbolTableImpl).bindKey key).keyMap[k]? = some i ↔
      (({ t with symbols := m } : SymbolTableImpl).bindKey key).denseKeyLimit ≤ i ∧
        (t.keys ++ [key])[i]? = some k := by
  have hkeys : t.keys.length = t.symbols.symbols.length := by rw [t.length_keys, hlength]
  unfold bindKey size DenseSymbolMap.size
  dsimp only
  rw [hm, List.length_append, List.length_singleton]
  split
  · next hdense =>
    have hnext := wrapI64_succ hlow hhigh (by omega)
    dsimp only
    rw [hmapped]
    constructor
    · rintro ⟨hle, hget⟩
      have hlt := (List.getElem?_eq_some_iff.mp hget).1
      omega
    · rintro ⟨hle, hget⟩
      have hlt := (List.getElem?_eq_some_iff.mp hget).1
      rw [List.length_append, List.length_singleton] at hlt
      omega
  · dsimp only
    rw [Std.TreeMap.getElem?_insert]
    simp only [Std.LawfulEqCmp.compare_eq_iff_eq]
    by_cases heq : key = k
    · subst heq
      rw [if_pos rfl]
      constructor
      · intro hi
        obtain rfl : t.symbols.symbols.length = i := by simpa using hi
        refine ⟨by omega, ?_⟩
        rw [List.getElem?_append_right (by omega), hkeys, Nat.sub_self]
        rfl
      · rintro ⟨-, hget⟩
        by_cases hi : i < t.keys.length
        · rw [List.getElem?_append_left hi] at hget
          exact absurd (List.mem_of_getElem? hget) hnew
        · have hlt := (List.getElem?_eq_some_iff.mp hget).1
          rw [List.length_append, List.length_singleton] at hlt
          congr 1
          omega
    · rw [if_neg heq, hmapped]
      by_cases hi : i < t.keys.length
      · rw [List.getElem?_append_left hi]
      · rw [List.getElem?_append_right (by omega), List.getElem?_eq_none (by omega)]
        constructor
        · rintro ⟨-, hget⟩
          cases hget
        · rintro ⟨-, hget⟩
          have hmem := List.mem_of_getElem? hget
          exact absurd (List.mem_singleton.mp hmem).symm heq

/- The next key after one has been used. -/
def nextAvailable (available key : ℤ) : ℤ :=
  if available ≤ key then wrapI64 (key + 1) else available

/- A table after a symbol that is new to it has been put last. -/
structure Appended (getHash : String → ℕ) (t : SymbolTableImpl) (s : String) (key : ℤ)
    (t' : SymbolTableImpl) : Prop where
  filled : Filled getHash t'
  keys_eq : t'.keys = t.keys ++ [key]
  symbols_eq : t'.symbols.symbols = t.symbols.symbols ++ [s]
  availableKey_eq : t'.availableKey = nextAvailable t.availableKey key
  name_eq : t'.name = t.name
  finalized_eq : t'.checkSumFinalized = false
  mapped : key ∉ t.keys → (∀ (k : ℤ) (i : ℕ),
      t.keyMap[k]? = some i ↔ t.denseKeyLimit ≤ i ∧ t.keys[i]? = some k) →
    ∀ (k : ℤ) (i : ℕ), t'.keyMap[k]? = some i ↔ t'.denseKeyLimit ≤ i ∧ t'.keys[i]? = some k

/- Whether the key is used already is not looked at. -/
theorem addSymbol_appends (h : Filled getHash t) (hs : s ∉ t.symbols.symbols)
    (hkey : key ≠ kNoSymbol) (hlow : -2 ^ 63 ≤ key) (hhigh : key ≤ maxI64) :
    ∃ t', t.addSymbol getHash s key = some (key, t') ∧ Appended getHash t s key t' := by
  obtain ⟨m, hrun, hsymbols, hsound'⟩ := DenseSymbolMap.insertOrFind_new h.sound hs
  have hkeys := keys_bindKey h.length hsymbols hlow hhigh
  have hmapped := fun hold => mapped_bindKey h.length hold hsymbols hlow hhigh
  set u := ({ t with symbols := m } : SymbolTableImpl).bindKey key with hu
  have hbound : u.symbols = m ∧ u.availableKey = t.availableKey ∧ u.name = t.name := by
    rw [hu]
    unfold bindKey
    split <;> exact ⟨rfl, rfl, rfl⟩
  have hraised : u.raiseAvailable key =
      { u with availableKey := nextAvailable t.availableKey key } := by
    unfold raiseAvailable nextAvailable
    rw [hbound.2.1]
    by_cases hle : t.availableKey ≤ key
    · rw [if_pos hle, if_pos hle]
    · rw [if_neg hle, if_neg hle, ← hbound.2.1]
  refine ⟨{ u.raiseAvailable key with checkSumFinalized := false }, ?_, ?_⟩
  · unfold addSymbol
    rw [if_neg hkey, hrun]
    rfl
  · rw [hraised]
    refine ⟨⟨?_, ?_⟩, hkeys, ?_, rfl, hbound.2.2, rfl, ?_⟩
    · dsimp only
      rw [hbound.1]
      exact hsound'
    · dsimp only
      rw [← u.length_keys, hkeys, hbound.1, hsymbols, List.length_append, List.length_append,
        h.length_keys]
      rfl
    · dsimp only
      rw [hbound.1, hsymbols]
    · intro hnew hold k i
      change u.keyMap[k]? = some i ↔ u.denseKeyLimit ≤ i ∧ u.keys[i]? = some k
      rw [hkeys]
      exact hmapped hold hnew k i

theorem Appended.keyed {t' : SymbolTableImpl} (h : Appended getHash t s key t')
    (ht : Keyed getHash t) (hkey : key ≠ kNoSymbol) (hnew : key ∉ t.keys) : Keyed getHash t' := by
  refine ⟨h.filled, ?_, h.mapped hnew ht.mapped, ?_⟩
  · rw [h.keys_eq, List.nodup_append]
    refine ⟨ht.nodup, List.nodup_singleton _, ?_⟩
    intro a ha b hb heq
    obtain rfl := List.mem_singleton.mp hb
    exact hnew (heq ▸ ha)
  · rw [h.keys_eq]
    intro hmem
    rcases List.mem_append.mp hmem with hmem | hmem
    · exact ht.named hmem
    · exact hkey (List.mem_singleton.mp hmem).symm

theorem addSymbol_new (h : Consistent getHash t) (hs : s ∉ t.symbols.symbols)
    (hkey : key ≠ kNoSymbol) (hnew : key ∉ t.keys) (hlow : -2 ^ 63 ≤ key) (hhigh : key < maxI64) :
    ∃ t', t.addSymbol getHash s key = some (key, t') ∧ Consistent getHash t' ∧
      t'.keys = t.keys ++ [key] ∧ t'.symbols.symbols = t.symbols.symbols ++ [s] ∧
      t'.availableKey = max t.availableKey (key + 1) ∧ t'.name = t.name ∧
      t'.checkSumFinalized = false := by
  obtain ⟨t', hrun, happended⟩ := addSymbol_appends h.keyed.toFilled hs hkey hlow hhigh.le
  have havailable : t'.availableKey = max t.availableKey (key + 1) := by
    rw [happended.availableKey_eq, nextAvailable]
    by_cases hle : t.availableKey ≤ key
    · rw [if_pos hle, wrapI64_eq (by omega) (by omega), max_eq_right (by omega)]
    · rw [if_neg hle, max_eq_left (by omega)]
  obtain ⟨⟨hsound, hlength⟩, hnodup, hmapped, hnamed⟩ := happended.keyed h.keyed hkey hnew
  obtain ⟨hmin, hmax, hrange⟩ := h.inRange
  refine ⟨t', hrun, ⟨hsound, hlength, hnodup, hmapped, ?_, hnamed, ?_⟩, happended.keys_eq,
    happended.symbols_eq, havailable, happended.name_eq, happended.finalized_eq⟩
  · intro k hk
    rw [happended.keys_eq] at hk
    rw [havailable]
    rcases List.mem_append.mp hk with hk | hk
    · have hlt := h.below k hk
      omega
    · obtain rfl := List.mem_singleton.mp hk
      omega
  · rw [havailable]
    refine ⟨by omega, by omega, fun k hk => ?_⟩
    rw [happended.keys_eq] at hk
    rcases List.mem_append.mp hk with hk | hk
    · exact hrange k hk
    · obtain rfl := List.mem_singleton.mp hk
      exact hlow

end Bind

section Remove

variable {key : ℤ} {i : ℕ}

theorem found_eq (h : Consistent getHash t) (hi : t.keys[i]? = some key) :
    (if key < 0 ∨ t.denseKeyLimit ≤ key then
      t.keyMap[key]?.map fun mappedIdx => (mappedIdx, t.keyMap.erase key)
    else some (key.toNat, t.keyMap)) =
      some (i, if i < t.denseKeyLimit then t.keyMap else t.keyMap.erase key) := by
  by_cases hdense : i < t.denseKeyLimit
  · have hkey : (i : ℤ) = key := by
      rw [t.getElem?_keys_dense hdense] at hi
      exact Option.some.inj hi
    rw [if_pos hdense, if_neg (by omega)]
    congr 2
    omega
  · have hsparse : key < 0 ∨ t.denseKeyLimit ≤ key := by
      by_contra hcon
      have hget := t.findIdx_dense hcon
      have heq := h.keyed.idx_eq hi hget
      omega
    rw [if_neg hdense, if_pos hsparse, (h.mapped key i).mpr ⟨by omega, hi⟩]
    rfl

theorem removeSymbol_absent (h : Consistent getHash t) (hkey : key ∉ t.keys) :
    t.removeSymbol getHash key = some t := by
  have hsparse : key < 0 ∨ t.denseKeyLimit ≤ key := by
    by_contra hcon
    exact hkey (List.mem_of_getElem? (t.findIdx_dense hcon))
  have hnone : t.keyMap[key]? = none := by
    cases hget : t.keyMap[key]? with
    | none => rfl
    | some i => exact absurd (List.mem_of_getElem? ((h.mapped key i).mp hget).2) hkey
  unfold removeSymbol
  rw [if_pos hsparse, hnone]
  rfl

/- The entries after the removed one move down by one. -/
theorem mapped_decrement {keyMap : Std.TreeMap ℤ ℕ} {ks : List ℤ} {limit : ℕ}
    (hnodup : ks.Nodup)
    (hmapped : ∀ (k : ℤ) (j : ℕ), keyMap[k]? = some j ↔ k ≠ key ∧ limit ≤ j ∧ ks[j]? = some k)
    (hi : ks[i]? = some key) (k : ℤ) (j : ℕ) :
    (keyMap.map fun _ mappedIdx => if i < mappedIdx then mappedIdx - 1 else mappedIdx)[k]? =
        some j ↔ (limit ≤ j ∧ j < i ∨ limit ≤ j + 1 ∧ i ≤ j) ∧ (ks.eraseIdx i)[j]? = some k := by
  have hunique : ∀ j : ℕ, ks[j]? = some key → j = i := fun j hj =>
    (List.getElem?_inj (List.getElem?_eq_some_iff.mp hj).1 hnodup).mp (hj.trans hi.symm)
  rw [Std.TreeMap.getElem?_map, Option.map_eq_some_iff]
  simp only [hmapped, List.getElem?_eraseIdx]
  constructor
  · rintro ⟨j', ⟨hne, hle, hget⟩, hdec⟩
    have hji : j' ≠ i := by
      rintro rfl
      rw [hi] at hget
      exact hne (Option.some.inj hget).symm
    by_cases hlt : i < j'
    · rw [if_pos hlt] at hdec
      subst hdec
      refine ⟨Or.inr ⟨by omega, by omega⟩, ?_⟩
      rw [if_neg (by omega), Nat.sub_add_cancel (by omega)]
      exact hget
    · rw [if_neg hlt] at hdec
      subst hdec
      refine ⟨Or.inl ⟨hle, by omega⟩, ?_⟩
      rw [if_pos (by omega)]
      exact hget
  · rintro ⟨hplace, hget⟩
    by_cases hlt : j < i
    · rw [if_pos hlt] at hget
      refine ⟨j, ⟨?_, by omega, hget⟩, by rw [if_neg (by omega)]⟩
      rintro rfl
      have heq := hunique j hget
      omega
    · rw [if_neg hlt] at hget
      refine ⟨j + 1, ⟨?_, by omega, hget⟩, by rw [if_pos (by omega)]; omega⟩
      rintro rfl
      have heq := hunique (j + 1) hget
      omega

theorem getElem?_rebound (is : List ℕ) (keyMap : Std.TreeMap ℤ ℕ) (k : ℤ) :
    (is.foldl (fun keyMap (i : ℕ) => keyMap.insert (i : ℤ) (i - 1)) keyMap)[k]? =
      if 0 ≤ k ∧ k.toNat ∈ is then some (k.toNat - 1) else keyMap[k]? := by
  induction is using List.reverseRecOn with
  | nil => simp
  | append_singleton is i ih =>
    rw [List.foldl_append, List.foldl_cons, List.foldl_nil, Std.TreeMap.getElem?_insert]
    simp only [Std.LawfulEqCmp.compare_eq_iff_eq, List.mem_append, List.mem_singleton, ih]
    by_cases hik : (i : ℤ) = k
    · subst hik
      rw [if_pos rfl, if_pos ⟨by omega, Or.inr (by omega)⟩]
      rfl
    · rw [if_neg hik]
      by_cases hmem : 0 ≤ k ∧ k.toNat ∈ is
      · rw [if_pos hmem, if_pos ⟨hmem.1, Or.inl hmem.2⟩]
      · rw [if_neg hmem, if_neg]
        rintro ⟨hk, hin | heq⟩
        · exact hmem ⟨hk, hin⟩
        · omega

theorem idxKey_undense {key : ℕ} (hdense : key < t.denseKeyLimit)
    (hlen : t.denseKeyLimit + t.idxKey.length = t.size + 1) :
    (t.undense key).idxKey =
      (List.range (t.denseKeyLimit - 1 - key)).map (fun i => ((key + i + 1 : ℕ) : ℤ)) ++
        t.idxKey := by
  have htake : t.idxKey.take (t.size - key) = t.idxKey := List.take_of_length_le (by omega)
  have hcount : t.size + 1 - t.denseKeyLimit = t.idxKey.length := by omega
  have hgap : t.size - key - t.idxKey.length = t.denseKeyLimit - key - 1 := by omega
  unfold undense
  dsimp only
  rw [htake, hcount, hgap, moveUp_eq, overwrite_eq _ (by simp; omega)]
  rw [List.drop_append_of_le_length (by simp; omega), List.drop_eq_nil_of_le (by simp; omega),
    List.nil_append]
  simp

theorem keys_undense {key : ℕ} (hdense : key < t.denseKeyLimit)
    (hlen : t.denseKeyLimit + t.idxKey.length = t.size + 1) :
    (t.undense key).keys = t.keys.eraseIdx key := by
  have hkeys : (t.undense key).keys = (List.range key).map (↑) ++ (t.undense key).idxKey := rfl
  rw [hkeys, idxKey_undense hdense hlen, ← List.append_assoc]
  unfold keys
  rw [List.eraseIdx_append_of_lt_length (by simpa using hdense)]
  congr 1
  apply List.ext_getElem
  · simp [List.length_eraseIdx, hdense]
    omega
  · intro j hj hj'
    simp only [List.getElem_append, List.getElem_eraseIdx, List.length_map, List.length_range,
      List.getElem_map, List.getElem_range]
    split
    · rfl
    · push_cast
      omega

theorem consistent_removed (h : Consistent getHash t) (hi : t.keys[i]? = some key)
    {u : SymbolTableImpl} (hsound : u.symbols.Sound getHash)
    (hsymbols : u.symbols.symbols = t.symbols.symbols.eraseIdx i)
    (havailable : u.availableKey = if key = t.availableKey - 1 then key else t.availableKey)
    (hkeys : u.keys = t.keys.eraseIdx i)
    (hmapped : ∀ (k : ℤ) (j : ℕ), u.keyMap[k]? = some j ↔
      u.denseKeyLimit ≤ j ∧ u.keys[j]? = some k) : Consistent getHash u := by
  have hlt : i < t.keys.length := (List.getElem?_eq_some_iff.mp hi).1
  have hsub : ∀ k ∈ u.keys, k ∈ t.keys := by
    intro k hk
    rw [hkeys] at hk
    exact List.mem_of_mem_eraseIdx hk
  have hne : ∀ k ∈ u.keys, k ≠ key := by
    rintro k hk rfl
    rw [hkeys] at hk
    obtain ⟨j, hj⟩ := List.mem_iff_getElem?.mp hk
    rw [List.getElem?_eraseIdx] at hj
    split at hj
    · have heq := h.keyed.idx_eq hj hi
      omega
    · have heq := h.keyed.idx_eq hj hi
      omega
  refine ⟨hsound, ?_, ?_, hmapped, ?_, fun hmem => h.named (hsub _ hmem), ?_⟩
  · rw [← u.length_keys, hkeys, hsymbols, List.length_eraseIdx_of_lt hlt,
      List.length_eraseIdx_of_lt (by rw [← h.keyed.length_keys]; exact hlt), h.keyed.length_keys]
  · rw [hkeys]
    exact h.nodup.sublist (List.eraseIdx_sublist _ _)
  · intro k hk
    have hbelow := h.below k (hsub k hk)
    have hneq := hne k hk
    rw [havailable]
    split
    · omega
    · exact hbelow
  · have hbelow := h.below key (List.mem_of_getElem? hi)
    obtain ⟨hmin, hmax, hrange⟩ := h.inRange
    have hlow := hrange key (List.mem_of_getElem? hi)
    rw [havailable]
    refine ⟨?_, ?_, fun k hk => hrange k (hsub k hk)⟩
    · split <;> omega
    · split <;> omega

theorem mapped_sparse (h : Consistent getHash t) (hi : t.keys[i]? = some key)
    (hsparse : t.denseKeyLimit ≤ i) (k : ℤ) (j : ℕ) :
    ((t.keyMap.erase key).map fun _ mappedIdx =>
        if i < mappedIdx then mappedIdx - 1 else mappedIdx)[k]? = some j ↔
      t.denseKeyLimit ≤ j ∧ (t.keys.eraseIdx i)[j]? = some k := by
  rw [@mapped_decrement _ _ _ _ t.denseKeyLimit h.nodup _ hi]
  · constructor
    · rintro ⟨hplace, hget⟩
      exact ⟨by omega, hget⟩
    · rintro ⟨hle, hget⟩
      exact ⟨by omega, hget⟩
  · intro k j
    rw [Std.TreeMap.getElem?_erase]
    simp only [Std.LawfulEqCmp.compare_eq_iff_eq]
    by_cases heq : key = k
    · rw [if_pos heq]
      constructor
      · intro hj
        cases hj
      · rintro ⟨hne, -⟩
        exact absurd heq.symm hne
    · rw [if_neg heq, h.mapped]
      exact ⟨fun hj => ⟨Ne.symm heq, hj⟩, fun hj => hj.2⟩

theorem mapped_dense (h : Consistent getHash t) (hi : t.keys[i]? = some key)
    (hdense : i < t.denseKeyLimit) (k : ℤ) (j : ℕ) :
    ((List.range' (i + 1) (t.denseKeyLimit - (i + 1))).foldl
        (fun keyMap (i : ℕ) => keyMap.insert (i : ℤ) (i - 1))
        (t.keyMap.map fun _ mappedIdx => if i < mappedIdx then mappedIdx - 1 else mappedIdx))[k]? =
      some j ↔ i ≤ j ∧ (t.keys.eraseIdx i)[j]? = some k := by
  have hleft : ∀ j : ℕ, i ≤ j → j + 1 < t.denseKeyLimit →
      (t.keys.eraseIdx i)[j]? = some ((j + 1 : ℕ) : ℤ) := by
    intro j hij hlt
    rw [List.getElem?_eraseIdx, if_neg (by omega), t.getElem?_keys_dense hlt]
  rw [getElem?_rebound]
  split
  · next hin =>
    obtain ⟨hk, hmem⟩ := hin
    rw [List.mem_range'_1] at hmem
    constructor
    · intro hj
      obtain rfl : k.toNat - 1 = j := by simpa using hj
      refine ⟨by omega, ?_⟩
      rw [hleft _ (by omega) (by omega)]
      congr 1
      omega
    · rintro ⟨hij, hget⟩
      rw [List.getElem?_eraseIdx, if_neg (by omega)] at hget
      have hdirect := t.findIdx_dense (k := k) (by omega)
      have heq := h.keyed.idx_eq hget hdirect
      congr 1
      omega
  · next hout =>
    rw [@mapped_decrement _ _ _ _ t.denseKeyLimit h.nodup _ hi]
    · constructor
      · rintro ⟨hplace, hget⟩
        exact ⟨by omega, hget⟩
      · rintro ⟨hij, hget⟩
        refine ⟨Or.inr ⟨?_, hij⟩, hget⟩
        by_contra hlt
        rw [hleft j hij (by omega)] at hget
        apply hout
        rw [List.mem_range'_1]
        have hkey : ((j + 1 : ℕ) : ℤ) = k := Option.some.inj hget
        omega
    · intro k j
      rw [h.mapped]
      refine ⟨fun hj => ⟨?_, hj⟩, fun hj => hj.2⟩
      rintro rfl
      have heq := h.keyed.idx_eq hj.2 hi
      omega

theorem unbindKey_eq (h : Consistent getHash t) (hi : t.keys[i]? = some key)
    {u : SymbolTableImpl} (hlimit : u.denseKeyLimit = t.denseKeyLimit)
    (hidx : u.idxKey = t.idxKey) (hsize : u.size + 1 = t.size)
    (hmap : u.keyMap = (if i < t.denseKeyLimit then t.keyMap else t.keyMap.erase key).map
      fun _ mappedIdx => if i < mappedIdx then mappedIdx - 1 else mappedIdx) :
    ∃ v, u.unbindKey key i = some v ∧ v.keys = t.keys.eraseIdx i ∧
      (∀ (k : ℤ) (j : ℕ), v.keyMap[k]? = some j ↔ v.denseKeyLimit ≤ j ∧ v.keys[j]? = some k) ∧
      v.symbols = u.symbols ∧ v.availableKey = u.availableKey ∧ v.name = u.name := by
  have hlen : u.denseKeyLimit + u.idxKey.length = u.size + 1 := by
    rw [hlimit, hidx, hsize, h.length]
    rfl
  have hkeys : u.keys = t.keys := by
    unfold keys
    rw [hlimit, hidx]
  have hlt := (List.getElem?_eq_some_iff.mp hi).1
  unfold unbindKey
  by_cases hdense : i < t.denseKeyLimit
  · obtain rfl : key = i := by
      rw [t.getElem?_keys_dense hdense] at hi
      exact (Option.some.inj hi).symm
    rw [if_pos (by omega), Int.toNat_natCast]
    have hundense : (u.undense i).keys = t.keys.eraseIdx i := by
      rw [keys_undense (by omega) hlen, hkeys]
    refine ⟨_, rfl, hundense, ?_, rfl, rfl, rfl⟩
    intro k j
    have hmapped := mapped_dense h hi hdense k j
    rw [if_pos hdense] at hmap
    rw [← hmap, ← hlimit] at hmapped
    rw [hundense]
    exact hmapped
  · have hsparse : ¬(0 ≤ key ∧ key < u.denseKeyLimit) := by
      rw [hlimit]
      intro hcon
      have heq := h.keyed.idx_eq hi (t.findIdx_dense (k := key) (by omega))
      omega
    have hpos : i - t.denseKeyLimit < t.idxKey.length := by
      rw [t.length_keys] at hlt
      omega
    have hdrop : u.dropNth i = some (t.idxKey.eraseIdx (i - t.denseKeyLimit)) := by
      unfold dropNth
      rw [hidx, hlimit, if_neg, if_neg hdense, moveDown_eq hpos]
      intro hnil
      rw [hnil] at hpos
      simp at hpos
    rw [if_neg hsparse, hdrop]
    have herase : (List.range t.denseKeyLimit).map (fun n : ℕ => (n : ℤ)) ++
        t.idxKey.eraseIdx (i - t.denseKeyLimit) = t.keys.eraseIdx i := by
      unfold keys
      rw [List.eraseIdx_append_of_length_le (by simp; omega)]
      simp
    refine ⟨_, rfl, ?_, ?_, rfl, rfl, rfl⟩
    · rw [← herase, ← hlimit]
      rfl
    · intro k j
      have hmapped := mapped_sparse h hi (by omega) k j
      rw [if_neg hdense] at hmap
      rw [← hmap, ← herase] at hmapped
      rw [← hlimit] at hmapped ⊢
      exact hmapped

/- The available key after a removal. -/
def lowered (available key : ℤ) : ℤ := if key = available - 1 then key else available

theorem lowerAvailable_eq (u : SymbolTableImpl) (key : ℤ) :
    u.lowerAvailable key = { u with availableKey := lowered u.availableKey key } := by
  unfold lowerAvailable lowered
  split <;> rfl

theorem removeSymbol_mem (h : Consistent getHash t) (hi : t.keys[i]? = some key) :
    ∃ t', t.removeSymbol getHash key = some t' ∧ Consistent getHash t' ∧
      t'.keys = t.keys.eraseIdx i ∧ t'.symbols.symbols = t.symbols.symbols.eraseIdx i ∧
      t'.availableKey = lowered t.availableKey key ∧ t'.name = t.name ∧
      t'.checkSumFinalized = false := by
  have hlt : i < t.symbols.symbols.length := by
    rw [← h.keyed.length_keys]
    exact (List.getElem?_eq_some_iff.mp hi).1
  obtain ⟨m, hrun, hsymbols, hsound⟩ := DenseSymbolMap.removeSymbol_sound h.sound hlt
  obtain ⟨v, hunbind, hkeys, hmapped, hsame, havailable, hname⟩ := unbindKey_eq h hi
    (u := { t with
      symbols := m
      keyMap := (if i < t.denseKeyLimit then t.keyMap else t.keyMap.erase key).map
        fun _ mappedIdx => if i < mappedIdx then mappedIdx - 1 else mappedIdx }) rfl rfl
    (by
      unfold size DenseSymbolMap.size
      dsimp only
      rw [hsymbols, List.length_eraseIdx_of_lt hlt]
      omega) rfl
  dsimp only at hsame havailable hname
  refine ⟨{ v.lowerAvailable key with checkSumFinalized := false }, ?_, ?_, ?_, ?_, ?_, ?_, rfl⟩
  · unfold removeSymbol
    dsimp only
    rw [found_eq h hi]
    dsimp only
    rw [if_neg (by unfold size DenseSymbolMap.size; omega), hrun]
    simp only [Option.bind_eq_bind, Option.bind_some, hunbind]
  all_goals rw [lowerAvailable_eq, havailable]
  · apply consistent_removed h hi
    · dsimp only
      rw [hsame]
      exact hsound
    · dsimp only
      rw [hsame, hsymbols]
    · rfl
    · exact hkeys
    · exact hmapped
  · exact hkeys
  · dsimp only
    rw [hsame, hsymbols]
  · exact hname

end Remove

/- What the lookups promise: each other's inverse, all of it listed once, room above. -/
structure Bijective (getHash : String → ℕ) (t : SymbolTableImpl) : Prop where
  defined : ∀ s, ∃ k, t.findKey getHash s = some k
  inverse : ∀ k s, t.findSymbol k = some s ↔ k ≠ kNoSymbol ∧ t.findKey getHash s = some k
  listed : ∃ items, t.iter getHash = some items ∧ items.Nodup ∧ t.size = items.length ∧
    ∀ k s, (k, s) ∈ items ↔ t.findSymbol k = some s
  below : ∀ k s, t.findSymbol k = some s → k < t.availableKey

theorem bijective_of_consistent (h : Consistent getHash t) : Bijective getHash t := by
  constructor
  · intro s
    by_cases hs : s ∈ t.symbols.symbols
    · obtain ⟨i, hi⟩ := List.mem_iff_getElem?.mp hs
      have hlt := (List.getElem?_eq_some_iff.mp hi).1
      have hkey := List.getElem?_eq_getElem (l := t.keys) (i := i) (by rw [h.keyed.length_keys]; exact hlt)
      exact ⟨_, h.keyed.findKey_mem hkey hi⟩
    · exact ⟨_, h.keyed.findKey_not_mem hs⟩
  · intro k s
    constructor
    · intro hfind
      obtain ⟨i, hi, hs⟩ := h.keyed.findSymbol_iff.mp hfind
      have hne : k ≠ kNoSymbol := by
        rintro rfl
        exact h.named (List.mem_of_getElem? hi)
      exact ⟨hne, h.keyed.findKey_mem hi hs⟩
    · rintro ⟨hne, hfind⟩
      exact h.keyed.findSymbol_iff.mpr ((h.keyed.findKey_iff hne).mp hfind)
  · refine ⟨t.entries, h.keyed.iter_eq, h.keyed.nodup_entries, ?_, ?_⟩
    · unfold entries
      rw [List.length_zip, h.keyed.length_keys, Nat.min_self]
      rfl
    · intro k s
      rw [h.keyed.findSymbol_iff]
      exact mem_entries
  · intro k s hfind
    obtain ⟨i, hi, -⟩ := h.keyed.findSymbol_iff.mp hfind
    exact h.below k (List.mem_of_getElem? hi)

inductive Op where
  | addSymbol (symbol : String) (key : ℤ)
  | addSymbolAuto (symbol : String)
  | removeSymbol (key : ℤ)
  | addTable (table : SymbolTableImpl)

def step (getHash : String → ℕ) (t : SymbolTableImpl) : Op → Option SymbolTableImpl
  | .addSymbol symbol key => (t.addSymbol getHash symbol key).map (·.2)
  | .addSymbolAuto symbol => (t.addSymbolAuto getHash symbol).map (·.2)
  | .removeSymbol key => t.removeSymbol getHash key
  | .addTable table => t.addTable getHash table

/- A new symbol goes to a key that no symbol has, and leaves a key above it. -/
def Free (t : SymbolTableImpl) (symbol : String) (key : ℤ) : Prop :=
  symbol ∉ t.symbols.symbols → key ∉ t.keys ∧ key < maxI64

/- The condition of each operation; keys are 64-bit numbers. -/
def Admits (t : SymbolTableImpl) : Op → Prop
  | .addSymbol symbol key => -2 ^ 63 ≤ key ∧ (key ≠ kNoSymbol → Free t symbol key)
  | .addSymbolAuto symbol => Free t symbol t.availableKey
  | .removeSymbol _ => True
  | .addTable table =>
    t.availableKey + (table.symbols.symbols.countP (· ∉ t.symbols.symbols) : ℕ) ≤ maxI64

/- The tables that runs of the operations reach when every step meets its condition; a table
added is one of them too. -/
inductive Reached (getHash : String → ℕ) : SymbolTableImpl → Prop
  | new (name : String) : Reached getHash (.new name)
  | step {t t' : SymbolTableImpl} (op : Op) (h : Reached getHash t)
      (htable : ∀ table, op = .addTable table → Reached getHash table) (hop : Admits t op)
      (hstep : step getHash t op = some t') : Reached getHash t'

theorem addSymbol_consistent (h : Consistent getHash t) {s : String} {key : ℤ}
    (hlow : -2 ^ 63 ≤ key) (hfree : key ≠ kNoSymbol → Free t s key) :
    ∃ r t', t.addSymbol getHash s key = some (r, t') ∧ Consistent getHash t' := by
  by_cases hkey : key = kNoSymbol
  · refine ⟨key, t, ?_, h⟩
    unfold addSymbol
    rw [if_pos hkey]
  · by_cases hs : s ∈ t.symbols.symbols
    · obtain ⟨i, hi⟩ := List.mem_iff_getElem?.mp hs
      have hlt := (List.getElem?_eq_some_iff.mp hi).1
      have hk := List.getElem?_eq_getElem (l := t.keys) (i := i) (by rw [h.keyed.length_keys]; exact hlt)
      obtain ⟨m, hrun, hcons, -⟩ := addSymbol_old h key hk hi hkey
      exact ⟨_, _, hrun, hcons⟩
    · obtain ⟨hnew, hhigh⟩ := hfree hkey hs
      obtain ⟨t', hrun, hcons, -⟩ := addSymbol_new h hs hkey hnew hlow hhigh
      exact ⟨_, _, hrun, hcons⟩

theorem addSymbolAuto_consistent (h : Consistent getHash t) {s : String}
    (hfree : Free t s t.availableKey) :
    ∃ r t', t.addSymbolAuto getHash s = some (r, t') ∧ Consistent getHash t' :=
  addSymbol_consistent h h.inRange.1 fun _ => hfree

/- Each symbol of the list that is new takes the available key, which goes up by one. -/
theorem addAll_consistent (h : Consistent getHash t) (items : List (ℤ × String))
    (hroom : t.availableKey + (items.countP (·.2 ∉ t.symbols.symbols) : ℕ) ≤ maxI64) :
    ∃ t', items.foldlM (fun t item => (t.addSymbolAuto getHash item.2).map (·.2)) t = some t' ∧
      Consistent getHash t' := by
  induction items generalizing t with
  | nil => exact ⟨t, rfl, h⟩
  | cons item items ih =>
    rw [List.countP_cons] at hroom
    rw [List.foldlM_cons]
    unfold addSymbolAuto
    by_cases hkey : t.availableKey = kNoSymbol
    · have hsame : t.addSymbol getHash item.2 t.availableKey = some (t.availableKey, t) := by
        unfold addSymbol
        rw [if_pos hkey]
      rw [hsame]
      refine ih h ?_
      dsimp only
      omega
    · by_cases hs : item.2 ∈ t.symbols.symbols
      · obtain ⟨i, hi⟩ := List.mem_iff_getElem?.mp hs
        have hlt := (List.getElem?_eq_some_iff.mp hi).1
        have hk := List.getElem?_eq_getElem (l := t.keys) (i := i) (by
          rw [h.keyed.length_keys]
          exact hlt)
        obtain ⟨m, hrun, hcons, hsymbols⟩ := addSymbol_old h t.availableKey hk hi hkey
        rw [hrun]
        refine ih hcons ?_
        dsimp only
        rw [hsymbols]
        omega
      · have hfresh : t.availableKey ∉ t.keys := fun hmem => lt_irrefl _ (h.below _ hmem)
        rw [if_pos (by simpa using hs)] at hroom
        obtain ⟨t', hrun, hcons, -, hsymbols, havailable, -⟩ := addSymbol_new h hs hkey hfresh
          h.inRange.1 (by omega)
        rw [hrun]
        refine ih hcons ?_
        have hfewer : items.countP (·.2 ∉ t'.symbols.symbols) ≤
            items.countP (·.2 ∉ t.symbols.symbols) := by
          apply List.countP_mono_left
          intro x _ hx
          rw [hsymbols] at hx
          simp at hx ⊢
          exact hx.1
        dsimp only
        rw [havailable]
        omega

theorem step_consistent (h : Consistent getHash t) {op : Op}
    (htable : ∀ table, op = .addTable table → Consistent getHash table) (hop : Admits t op) :
    ∃ t', step getHash t op = some t' ∧ Consistent getHash t' := by
  cases op with
  | addSymbol symbol key =>
    obtain ⟨r, t', hrun, hcons⟩ := addSymbol_consistent h hop.1 hop.2
    refine ⟨t', ?_, hcons⟩
    rw [step, hrun]
    rfl
  | addSymbolAuto symbol =>
    obtain ⟨r, t', hrun, hcons⟩ := addSymbolAuto_consistent h hop
    refine ⟨t', ?_, hcons⟩
    rw [step, hrun]
    rfl
  | removeSymbol key =>
    by_cases hkey : key ∈ t.keys
    · obtain ⟨i, hi⟩ := List.mem_iff_getElem?.mp hkey
      obtain ⟨t', hrun, hcons, -⟩ := removeSymbol_mem h hi
      exact ⟨t', hrun, hcons⟩
    · exact ⟨t, removeSymbol_absent h hkey, h⟩
  | addTable table =>
    have hother := htable table rfl
    have hitems : table.entries.countP (·.2 ∉ t.symbols.symbols) =
        table.symbols.symbols.countP (· ∉ t.symbols.symbols) := by
      have hmap : table.symbols.symbols = table.entries.map Prod.snd := by
        unfold entries
        rw [List.map_snd_zip (by rw [hother.keyed.length_keys])]
      rw [hmap, List.countP_map]
      rfl
    rw [Admits, ← hitems] at hop
    obtain ⟨t', hrun, hcons⟩ := addAll_consistent h table.entries hop
    refine ⟨t', ?_, hcons⟩
    rw [step, addTable, hother.keyed.iter_eq]
    exact hrun

theorem consistent_of_reached (h : Reached getHash t) : Consistent getHash t := by
  induction h with
  | new name => exact consistent_new name
  | step op _ _ hop hstep ih ihtable =>
    obtain ⟨t', hrun, hcons⟩ := step_consistent ih ihtable hop
    rw [hrun] at hstep
    cases hstep
    exact hcons

/- In every run whose steps meet their conditions no operation panics, and the table is a
bijection at every step. -/
theorem symbolTable_bijective (getHash : String → ℕ) :
    (∀ t, Reached getHash t → Bijective getHash t) ∧
      ∀ t op, Reached getHash t → (∀ table, op = .addTable table → Reached getHash table) →
        Admits t op → ∃ t', step getHash t op = some t' ∧ Reached getHash t' := by
  constructor
  · exact fun t h => bijective_of_consistent (consistent_of_reached h)
  · intro t op h htable hop
    obtain ⟨t', hrun, -⟩ := step_consistent (consistent_of_reached h)
      (fun table heq => consistent_of_reached (htable table heq)) hop
    exact ⟨t', hrun, .step op h htable hop hrun⟩

theorem symbolTable_bijective_added : ∃ t, step String.length (.new "") (.addSymbol "a" 5) = some t ∧
    Bijective String.length t := by
  have hstart : Reached String.length (.new "") := .new ""
  have hop : Admits (.new "") (.addSymbol "a" 5) :=
    ⟨by decide, fun _ _ => ⟨by decide, by decide⟩⟩
  obtain ⟨hbijective, hruns⟩ := symbolTable_bijective String.length
  obtain ⟨t, hstep, hreached⟩ := hruns _ _ hstart (fun table heq => by cases heq) hop
  exact ⟨t, hstep, hbijective t hreached⟩

/- Two symbols under one key: the key finds the second only. -/
theorem shared_key_lost : ∃ t,
    [Op.addSymbol "a" 5, Op.addSymbol "b" 5].foldlM (step String.length) (.new "") = some t ∧
      t.findSymbol 5 = some "b" ∧ t.findKey String.length "a" = some 5 ∧
      ¬Bijective String.length t := by
  refine ⟨_, rfl, by decide, by decide, ?_⟩
  intro h
  have hfound := (h.inverse 5 "a").mpr ⟨by decide, by decide⟩
  revert hfound
  decide

end Sicada.SymbolTableExact
