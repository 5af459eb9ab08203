import Sicada.DenseSymbolMap
import Sicada.Library.InPlace
import Sicada.Library.ListLemmas

namespace Sicada

def kNoSymbol : ℤ := -1

def maxI64 : ℤ := 2 ^ 63 - 1

/- What 64 bits hold of a sum; a build with overflow checks stops where this wraps around. -/
def wrapI64 (x : ℤ) : ℤ := x.bmod (2 ^ 64)

structure SymbolTableImpl where
  name : String
  availableKey : ℤ
  denseKeyLimit : ℕ
  symbols : DenseSymbolMap
  idxKey : List ℤ
  keyMap : Std.TreeMap ℤ ℕ
  checkSumFinalized : Bool
  checkSumString : String
  labeledCheckSumString : String

/- `none` is a panic, or a probe that never ends. -/
namespace SymbolTableImpl

open InPlace

variable (getHash : String → ℕ)

def new (name : String) : SymbolTableImpl :=
  ⟨name, 0, 0, .new, [], ∅, false, "", ""⟩

def size (t : SymbolTableImpl) : ℕ := t.symbols.size

def findSymbol (t : SymbolTableImpl) (key : ℤ) : Option String := do
  let idx ← if key < 0 ∨ t.denseKeyLimit ≤ key then t.keyMap[key]? else some key.toNat
  t.symbols.symbols[idx]?

def findKey (t : SymbolTableImpl) (symbol : String) : Option ℤ := do
  match ← t.symbols.find getHash symbol with
  | none => some kNoSymbol
  | some idx =>
    if idx < t.denseKeyLimit then some idx else t.idxKey[idx - t.denseKeyLimit]?

def getNthKey (t : SymbolTableImpl) (pos : ℕ) : Option ℤ :=
  if t.size ≤ pos then some kNoSymbol
  else if pos < t.denseKeyLimit then some pos
  else do
    let symbol ← t.symbols.symbols[pos]?
    t.findKey getHash symbol

/- The key of a symbol that is new to the table and has just been put last. -/
def bindKey (t : SymbolTableImpl) (key : ℤ) : SymbolTableImpl :=
  if wrapI64 (key + 1) = t.size ∧ key = t.denseKeyLimit then
    { t with denseKeyLimit := t.denseKeyLimit + 1 }
  else
    { t with idxKey := t.idxKey ++ [key], keyMap := t.keyMap.insert key (t.size - 1) }

def raiseAvailable (t : SymbolTableImpl) (key : ℤ) : SymbolTableImpl :=
  if t.availableKey ≤ key then { t with availableKey := wrapI64 (key + 1) } else t

def addSymbol (t : SymbolTableImpl) (symbol : String) (key : ℤ) :
    Option (ℤ × SymbolTableImpl) :=
  if key = kNoSymbol then some (key, t)
  else do
    let ((insertIdx, inserted), symbols) ← t.symbols.insertOrFind getHash symbol
    let t := { t with symbols := symbols }
    if inserted then
      let t := (t.bindKey key).raiseAvailable key
      some (key, { t with checkSumFinalized := false })
    else
      let keyAlready ← t.getNthKey getHash insertIdx
      some (if keyAlready = key then key else keyAlready, t)

def addSymbolAuto (t : SymbolTableImpl) (symbol : String) : Option (ℤ × SymbolTableImpl) :=
  t.addSymbol getHash symbol t.availableKey

/- The keys from the removed one to the dense limit leave the dense part. -/
def undense (t : SymbolTableImpl) (key : ℕ) : SymbolTableImpl :=
  let rest := List.range' (key + 1) (t.denseKeyLimit - (key + 1))
  let resized := t.idxKey.take (t.size - key) ++
    List.replicate (t.size - key - t.idxKey.length) 0
  let shifted := moveUp resized t.idxKey.length (t.denseKeyLimit - key - 1)
    (t.size + 1 - t.denseKeyLimit)
  { t with
    keyMap := rest.foldl (fun keyMap (i : ℕ) => keyMap.insert (i : ℤ) (i - 1)) t.keyMap
    idxKey := overwrite shifted (fun i => key + i + 1) (t.denseKeyLimit - 1 - key)
    denseKeyLimit := key }

/- An element that is not there panics; one before the dense part's end only takes the last. -/
def dropNth (t : SymbolTableImpl) (idx : ℕ) : Option (List ℤ) :=
  if t.idxKey = [] then none
  else if idx < t.denseKeyLimit then some t.idxKey.dropLast
  else some (moveDown t.idxKey (idx - t.denseKeyLimit))

/- What is left of the keys when the one of a symbol already gone goes. -/
def unbindKey (t : SymbolTableImpl) (key : ℤ) (idx : ℕ) : Option SymbolTableImpl :=
  if 0 ≤ key ∧ key < t.denseKeyLimit then some (t.undense key.toNat)
  else (t.dropNth idx).map fun idxKey => { t with idxKey := idxKey }

def lowerAvailable (t : SymbolTableImpl) (key : ℤ) : SymbolTableImpl :=
  if key = t.availableKey - 1 then { t with availableKey := key } else t

def removeSymbol (t : SymbolTableImpl) (key : ℤ) : Option SymbolTableImpl :=
  let found := if key < 0 ∨ t.denseKeyLimit ≤ key then
      t.keyMap[key]?.map fun mappedIdx => (mappedIdx, t.keyMap.erase key)
    else some (key.toNat, t.keyMap)
  match found with
  | none => some t
  | some (idx, keyMap) =>
    if t.size ≤ idx then some { t with keyMap := keyMap }
    else do
      let symbols ← t.symbols.removeSymbol getHash idx
      let t ← unbindKey { t with
        symbols := symbols
        keyMap := keyMap.map fun _ mappedIdx => if idx < mappedIdx then mappedIdx - 1 else mappedIdx }
        key idx
      some { t.lowerAvailable key with checkSumFinalized := false }

/- The iterator unwraps the symbol of each key it meets. -/
def iter (t : SymbolTableImpl) : Option (List (ℤ × String)) :=
  (List.range t.size).mapM fun pos => do
    let key ← t.getNthKey getHash pos
    let symbol ← t.findSymbol key
    some (key, symbol)

def addTable (t table : SymbolTableImpl) : Option SymbolTableImpl := do
  let items ← table.iter getHash
  items.foldlM (fun t item => (t.addSymbolAuto getHash item.2).map (·.2)) t

/- The keys in the order of the symbols. -/
def keys (t : SymbolTableImpl) : List ℤ := (List.range t.denseKeyLimit).map (↑) ++ t.idxKey

def entries (t : SymbolTableImpl) : List (ℤ × String) := t.keys.zip t.symbols.symbols

/- Every symbol has a place for its key, which need not be its own. -/
structure Filled (t : SymbolTableImpl) : Prop where
  sound : t.symbols.Sound getHash
  length : t.denseKeyLimit + t.idxKey.length = t.symbols.symbols.length

/- Every symbol has a key of its own, and both ways of looking it up know it. -/
structure Keyed (t : SymbolTableImpl) : Prop extends Filled getHash t where
  nodup : t.keys.Nodup
  mapped : ∀ (k : ℤ) (i : ℕ), t.keyMap[k]? = some i ↔ t.denseKeyLimit ≤ i ∧ t.keys[i]? = some k
  named : kNoSymbol ∉ t.keys

/- The next key is above all that are there. -/
structure Consistent (t : SymbolTableImpl) : Prop where
  sound : DenseSymbolMap.Sound getHash t.symbols
  length : t.denseKeyLimit + t.idxKey.length = t.symbols.symbols.length
  nodup : t.keys.Nodup
  mapped : ∀ (k : ℤ) (i : ℕ), t.keyMap[k]? = some i ↔ t.denseKeyLimit ≤ i ∧ t.keys[i]? = some k
  below : ∀ k ∈ t.keys, k < t.availableKey
  named : kNoSymbol ∉ t.keys
  inRange : -2 ^ 63 ≤ t.availableKey ∧ t.availableKey ≤ maxI64 ∧ ∀ k ∈ t.keys, -2 ^ 63 ≤ k

variable {getHash}

variable {t : SymbolTableImpl} {k : ℤ} {s : String}

theorem Consistent.keyed (h : Consistent getHash t) : Keyed getHash t :=
  ⟨⟨h.sound, h.length⟩, h.nodup, h.mapped, h.named⟩

theorem getElem?_keys_dense (t : SymbolTableImpl) {i : ℕ} (hi : i < t.denseKeyLimit) :
    t.keys[i]? = some (i : ℤ) := by
  unfold keys
  rw [List.getElem?_append_left (by simpa using hi), List.getElem?_map, List.getElem?_range hi]
  rfl

theorem getElem?_keys_sparse (t : SymbolTableImpl) {i : ℕ} (hi : t.denseKeyLimit ≤ i) :
    t.keys[i]? = t.idxKey[i - t.denseKeyLimit]? := by
  unfold keys
  rw [List.getElem?_append_right (by simpa using hi), List.length_map, List.length_range]

theorem length_keys (t : SymbolTableImpl) :
    t.keys.length = t.denseKeyLimit + t.idxKey.length := by
  unfold keys
  rw [List.length_append, List.length_map, List.length_range]

theorem Filled.length_keys (h : Filled getHash t) :
    t.keys.length = t.symbols.symbols.length := by
  rw [t.length_keys, h.length]

theorem Keyed.idx_eq (h : Keyed getHash t) {i j : ℕ} (hi : t.keys[i]? = some k)
    (hj : t.keys[j]? = some k) : i = j :=
  (List.getElem?_inj (List.getElem?_eq_some_iff.mp hi).1 h.nodup).mp (hi.trans hj.symm)

theorem findIdx_dense (t : SymbolTableImpl) (hk : ¬(k < 0 ∨ t.denseKeyLimit ≤ k)) :
    t.keys[k.toNat]? = some k := by
  rw [not_or, Int.not_lt, Int.not_le] at hk
  rw [t.getElem?_keys_dense (by omega), Int.toNat_of_nonneg hk.1]

theorem Keyed.findSymbol_iff (h : Keyed getHash t) : t.findSymbol k = some s ↔
      ∃ i : ℕ, t.keys[i]? = some k ∧ t.symbols.symbols[i]? = some s := by
  unfold findSymbol
  by_cases hk : k < 0 ∨ t.denseKeyLimit ≤ k
  · rw [if_pos hk]
    simp only [Option.bind_eq_bind, Option.bind_eq_some_iff, h.mapped]
    constructor
    · rintro ⟨i, ⟨-, hi⟩, hs⟩
      exact ⟨i, hi, hs⟩
    · rintro ⟨i, hi, hs⟩
      refine ⟨i, ⟨?_, hi⟩, hs⟩
      by_contra hdense
      rw [t.getElem?_keys_dense (by omega)] at hi
      have hik : (i : ℤ) = k := by simpa using hi
      omega
  · rw [if_neg hk]
    simp only [Option.bind_eq_bind, Option.bind_some]
    constructor
    · exact fun hs => ⟨k.toNat, t.findIdx_dense hk, hs⟩
    · rintro ⟨i, hi, hs⟩
      rwa [h.idx_eq (t.findIdx_dense hk) hi]

theorem Filled.findKey_eq (h : Filled getHash t) (s : String) :
    t.findKey getHash s = match t.symbols.symbols.idxOf? s with
      | none => some kNoSymbol
      | some i => t.keys[i]? := by
  unfold findKey
  rw [DenseSymbolMap.find_eq h.sound]
  simp only [Option.bind_eq_bind, Option.bind_some]
  cases t.symbols.symbols.idxOf? s with
  | none => rfl
  | some i =>
    dsimp only
    by_cases hi : i < t.denseKeyLimit
    · rw [if_pos hi, t.getElem?_keys_dense hi]
    · rw [if_neg hi, t.getElem?_keys_sparse (by omega)]

theorem Filled.findKey_mem (h : Filled getHash t) {i : ℕ} (hk : t.keys[i]? = some k)
    (hs : t.symbols.symbols[i]? = some s) :
    t.findKey getHash s = some k := by
  obtain ⟨hlt, hget⟩ := List.getElem?_eq_some_iff.mp hs
  rw [h.findKey_eq]
  have hidx : t.symbols.symbols.idxOf? s = some i := by
    rw [List.idxOf?_eq_some_iff]
    refine ⟨hlt, hget, ?_⟩
    intro j hj heq
    have hji := (h.sound.nodup.getElem_inj_iff).mp (heq.trans hget.symm)
    omega
  rw [hidx]
  exact hk

theorem Filled.findKey_not_mem (h : Filled getHash t) (hs : s ∉ t.symbols.symbols) :
    t.findKey getHash s = some kNoSymbol := by
  rw [h.findKey_eq, List.idxOf?_eq_none_iff.mpr hs]

theorem Filled.findKey_iff (h : Filled getHash t) (hk : k ≠ kNoSymbol) :
    t.findKey getHash s = some k ↔
      ∃ i : ℕ, t.keys[i]? = some k ∧ t.symbols.symbols[i]? = some s := by
  constructor
  · intro hfind
    by_cases hs : s ∈ t.symbols.symbols
    · obtain ⟨i, hi⟩ := List.mem_iff_getElem?.mp hs
      have hlt := (List.getElem?_eq_some_iff.mp hi).1
      have hkey := List.getElem?_eq_getElem (l := t.keys) (i := i) (by rw [h.length_keys]; exact hlt)
      have hsame := hfind.symm.trans (h.findKey_mem hkey hi)
      exact ⟨i, by rw [hkey, hsame], hi⟩
    · rw [h.findKey_not_mem hs] at hfind
      exact absurd (Option.some.inj hfind).symm hk
  · rintro ⟨i, hi, hs⟩
    exact h.findKey_mem hi hs

theorem Filled.getNthKey_eq (h : Filled getHash t) {i : ℕ} (hi : i < t.symbols.symbols.length) :
    t.getNthKey getHash i = t.keys[i]? := by
  unfold getNthKey size DenseSymbolMap.size
  rw [if_neg (by omega)]
  by_cases hdense : i < t.denseKeyLimit
  · rw [if_pos hdense, t.getElem?_keys_dense hdense]
  · rw [if_neg hdense]
    have hkey := List.getElem?_eq_getElem (l := t.keys) (i := i) (by rw [h.length_keys]; exact hi)
    have hsymbol := List.getElem?_eq_getElem hi
    rw [hsymbol]
    exact (h.findKey_mem hkey hsymbol).trans hkey.symm

theorem mem_entries :
    (k, s) ∈ t.entries ↔ ∃ i : ℕ, t.keys[i]? = some k ∧ t.symbols.symbols[i]? = some s := by
  unfold entries
  rw [List.mem_iff_getElem?]
  simp only [List.getElem?_zip_eq_some]

theorem Filled.entries_fst (h : Filled getHash t) :
    t.entries.map Prod.fst = t.keys := by
  unfold entries
  rw [List.map_fst_zip (by rw [h.length_keys])]

theorem Filled.entries_snd (h : Filled getHash t) :
    t.entries.map Prod.snd = t.symbols.symbols := by
  unfold entries
  rw [List.map_snd_zip (by rw [h.length_keys])]

theorem Keyed.nodup_entries (h : Keyed getHash t) :
    t.entries.Nodup := by
  have hkeys : (t.entries.map Prod.fst).Nodup := by
    unfold entries
    rw [List.map_fst_zip (by rw [h.length_keys])]
    exact h.nodup
  exact hkeys.of_map

theorem Keyed.iter_eq (h : Keyed getHash t) :
    t.iter getHash = some t.entries := by
  have hlen := h.length_keys
  unfold iter size DenseSymbolMap.size
  rw [ListLemmas.mapM_eq_pure (m := Option)
    (g := fun pos => (t.keys.getD pos 0, t.symbols.symbols.getD pos ""))]
  · congr 1
    apply List.ext_getElem
    · simp [entries, hlen]
    · intro i hi hi'
      rw [List.length_map, List.length_range] at hi
      simp [entries, hlen, hi]
  · intro pos hpos
    rw [List.mem_range] at hpos
    have hkey := List.getElem?_eq_getElem (l := t.keys) (i := pos) (by omega)
    have hsymbol := List.getElem?_eq_getElem hpos
    rw [h.getNthKey_eq hpos, hkey]
    simp only [Option.bind_eq_bind, Option.bind_some]
    rw [h.findSymbol_iff.mpr ⟨pos, hkey, hsymbol⟩, List.getD_eq_getElem _ _ (by omega),
      List.getD_eq_getElem _ _ hpos]
    rfl

theorem filled_new (name : String) : Filled getHash (.new name) :=
  ⟨DenseSymbolMap.sound_new, rfl⟩

theorem Filled.getNthKey (h : Filled getHash t) {i : ℕ} (hi : i < t.symbols.symbols.length) :
    ∃ k, t.getNthKey getHash i = some k := by
  have hlen := h.length
  unfold SymbolTableImpl.getNthKey size DenseSymbolMap.size
  rw [if_neg (by omega)]
  by_cases hdense : i < t.denseKeyLimit
  · exact ⟨i, if_pos hdense⟩
  · rw [if_neg hdense, List.getElem?_eq_getElem hi]
    simp only [Option.bind_eq_bind, Option.bind_some]
    unfold findKey
    rw [DenseSymbolMap.find_eq h.sound]
    simp only [Option.bind_eq_bind, Option.bind_some]
    cases hidx : t.symbols.symbols.idxOf? t.symbols.symbols[i] with
    | none => exact ⟨_, rfl⟩
    | some j =>
      obtain ⟨hj, -⟩ := List.idxOf?_eq_some_iff.mp hidx
      dsimp only
      by_cases hlt : j < t.denseKeyLimit
      · exact ⟨j, if_pos hlt⟩
      · rw [if_neg hlt, List.getElem?_eq_getElem (by omega)]
        exact ⟨_, rfl⟩

/- Adding a symbol never panics, whatever the keys. -/
theorem Filled.addSymbol (h : Filled getHash t) (s : String) (key : ℤ) :
    ∃ r t', t.addSymbol getHash s key = some (r, t') ∧ Filled getHash t' := by
  unfold SymbolTableImpl.addSymbol
  by_cases hkey : key = kNoSymbol
  · exact ⟨key, t, if_pos hkey, h⟩
  · rw [if_neg hkey]
    by_cases hs : s ∈ t.symbols.symbols
    · obtain ⟨i, hi⟩ := List.mem_iff_getElem?.mp hs
      obtain ⟨m, hrun, hsymbols, hsound⟩ := DenseSymbolMap.insertOrFind_mem h.sound hi
      have hfilled : Filled getHash { t with symbols := m } := by
        refine ⟨hsound, ?_⟩
        dsimp only
        rw [hsymbols]
        exact h.length
      obtain ⟨k, hnth⟩ := hfilled.getNthKey (i := i) (by
        dsimp only
        rw [hsymbols]
        exact (List.getElem?_eq_some_iff.mp hi).1)
      rw [hrun]
      simp only [Option.bind_eq_bind, Option.bind_some, Bool.false_eq_true, if_false, hnth]
      exact ⟨_, _, rfl, hfilled⟩
    · obtain ⟨m, hrun, hsymbols, hsound⟩ := DenseSymbolMap.insertOrFind_new h.sound hs
      rw [hrun]
      refine ⟨_, _, rfl, ?_⟩
      set u := ({ t with symbols := m } : SymbolTableImpl).bindKey key with hu
      have hbound : u.symbols = m ∧ u.denseKeyLimit + u.idxKey.length = m.symbols.length := by
        have hlen := h.length
        rw [hu, hsymbols, List.length_append, List.length_singleton]
        unfold bindKey
        split
        · refine ⟨rfl, ?_⟩
          dsimp only
          omega
        · refine ⟨rfl, ?_⟩
          dsimp only
          rw [List.length_append, List.length_singleton]
          omega
      have hraised : (u.raiseAvailable key).symbols = u.symbols ∧
          (u.raiseAvailable key).denseKeyLimit = u.denseKeyLimit ∧
          (u.raiseAvailable key).idxKey = u.idxKey := by
        unfold raiseAvailable
        split <;> exact ⟨rfl, rfl, rfl⟩
      refine ⟨?_, ?_⟩
      · dsimp only
        rw [hraised.1, hbound.1]
        exact hsound
      · dsimp only
        rw [hraised.1, hraised.2.1, hraised.2.2, hbound.2, hbound.1]

end SymbolTableImpl

end Sicada
