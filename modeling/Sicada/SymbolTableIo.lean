import Sicada.Io
import Sicada.SymbolTableExact

namespace Sicada.SymbolTableIo

open Codec Io SymbolTableImpl SymbolTableExact

variable (getHash : String → ℕ)

def kSymbolTableMagicNumber : ℤ := 2125658996

/- One `(symbol, key)` pair. -/
def writeEntry (symbol : Option String) (key : ℤ) : IoWriter := do
  let symbol ← ExceptT.lift symbol
  let bytes ← ExceptT.mk (some (writeString symbol))
  pure (bytes ++ writeI64 key)

def write (t : SymbolTableImpl) : IoWriter := do
  let name ← ExceptT.mk (some (writeString t.name))
  let dense ← (List.range t.denseKeyLimit).mapM fun (i : ℕ) =>
    writeEntry t.symbols.symbols[i]? i
  let sparse ← t.keyMap.toList.mapM fun entry =>
    writeEntry t.symbols.symbols[entry.2]? entry.1
  pure (writeI32 kSymbolTableMagicNumber ++ (name ++ (writeI64 t.availableKey ++
    (writeI64 t.size ++ (dense.flatten ++ sparse.flatten)))))

def magicMessage (magic : ℤ) : String :=
  "Invalid symbol table magic number: expected " ++ toString kSymbolTableMagicNumber ++
    ", found " ++ toString magic

def sizeMessage (size : ℤ) : String := "Invalid symbol table size: " ++ toString size

/- A panic of the table ends the reader. -/
def readEntries : ℕ → SymbolTableImpl → IoReader SymbolTableImpl
  | 0, table => pure table
  | n + 1, table => do
    let symbol ← readString
    let key ← readI64
    let (_, table) ← lift ((table.addSymbol getHash symbol key).map Except.ok)
    readEntries n table

def read : IoReader SymbolTableImpl := do
  let magic ← readI32
  if magic ≠ kSymbolTableMagicNumber then fail (.symbolTable (magicMessage magic))
  else do
    let name ← readString
    let availableKey ← readI64
    let size ← readI64
    if size < 0 then fail (.symbolTable (sizeMessage size))
    else do
      let table ← readEntries getHash size.toNat
        { SymbolTableImpl.new name with availableKey := availableKey }
      lift ((table.symbols.shrinkToFit getHash).map fun symbols =>
        .ok { table with symbols := symbols })

variable {getHash} {t : SymbolTableImpl}

def encodeEntry (entry : ℤ × String) : List UInt8 :=
  writeI32 (asBytes entry.2).length ++ asBytes entry.2 ++ writeI64 entry.1

variable {bytes : List UInt8} {entries : List (ℤ × String)}

theorem writeEntry_ok {symbol : Option String} {key : ℤ}
    (h : writeEntry symbol key = some (.ok bytes)) : ∃ s, symbol = some s ∧
      (asBytes s).length < 2 ^ 31 ∧ bytes = encodeEntry (key, s) := by
  unfold writeEntry at h
  obtain ⟨s, hs, h⟩ := bind_eq_ok.mp h
  obtain ⟨text, htext, h⟩ := bind_eq_ok.mp h
  cases h
  cases symbol with
  | none => cases hs
  | some s' =>
    cases hs
    have hwrite : writeString s = .ok text := Option.some.inj htext
    unfold writeString at hwrite
    split at hwrite
    · next hlen =>
      cases hwrite
      exact ⟨s, rfl, hlen, rfl⟩
    · cases hwrite

/- The entries in the order of the file. -/
def written (t : SymbolTableImpl) : List (ℤ × String) :=
  (List.range t.denseKeyLimit).map (fun i : ℕ => ((i : ℤ), t.symbols.symbols.getD i "")) ++
    t.keyMap.toList.map fun entry => (entry.1, t.symbols.symbols.getD entry.2 "")

theorem mapM_writeEntry {α : Type} {xs : List α} {symbol : α → Option String} {key : α → ℤ}
    {bytes : List (List UInt8)}
    (h : xs.mapM (fun x => writeEntry (symbol x) (key x)) = some (.ok bytes)) :
    bytes.flatten = (xs.map fun x => (key x, (symbol x).getD "")).flatMap encodeEntry ∧
      ∀ x ∈ xs, (asBytes ((symbol x).getD "")).length < 2 ^ 31 := by
  have hall := mapM_eq_ok.mp h
  clear h
  induction hall with
  | nil => exact ⟨rfl, fun x hx => by simp at hx⟩
  | cons hfirst _ ih =>
    obtain ⟨s, hs, hlen, rfl⟩ := writeEntry_ok hfirst
    refine ⟨?_, ?_⟩
    · rw [List.flatten_cons, List.map_cons, List.flatMap_cons, ih.1, hs]
      rfl
    · intro x hx
      rcases List.mem_cons.mp hx with rfl | hx
      · rw [hs]
        exact hlen
      · exact ih.2 x hx

theorem codes_entry {entry : ℤ × String} (pos : ℕ) (hlen : (asBytes entry.2).length < 2 ^ 31)
    (hlow : -2 ^ 63 ≤ entry.1) (hhigh : entry.1 < 2 ^ 63) {β : Type} {f : String → ℤ → IoReader β}
    {b : β} (hrest : Codes (f entry.2 entry.1) (pos + (encodeEntry entry).length) bytes b) :
    Codes (do
      let symbol ← readString
      let key ← readI64
      f symbol key) pos (encodeEntry entry ++ bytes) b := by
  have hwrite : writeString entry.2 =
      .ok (writeI32 (asBytes entry.2).length ++ asBytes entry.2) := by
    unfold writeString
    rw [if_pos hlen]
  unfold encodeEntry at hrest ⊢
  rw [List.append_assoc]
  apply (codes_string pos hwrite).bind
  apply (codes_i64 _ hlow hhigh).bind
  rw [List.length_append] at hrest
  rwa [← Nat.add_assoc] at hrest

/- Entries that a table can take one after the other, each under its own key. -/
structure Bindable (t : SymbolTableImpl) (entries : List (ℤ × String)) : Prop where
  keys : (entries.map Prod.fst).Nodup
  symbols : (entries.map Prod.snd).Nodup
  newKey : ∀ e ∈ entries, e.1 ∉ t.keys
  newSymbol : ∀ e ∈ entries, e.2 ∉ t.symbols.symbols
  key : ∀ e ∈ entries, e.1 ≠ kNoSymbol ∧ -2 ^ 63 ≤ e.1 ∧ e.1 < maxI64

theorem Bindable.add {e : ℤ × String} (hentries : Bindable t (e :: entries))
    (h : Consistent getHash t) :
    ∃ u, t.addSymbol getHash e.2 e.1 = some (e.1, u) ∧ Consistent getHash u ∧
      Bindable u entries ∧ u.keys = t.keys ++ [e.1] ∧
      u.symbols.symbols = t.symbols.symbols ++ [e.2] ∧
      u.availableKey = max t.availableKey (e.1 + 1) ∧ u.name = t.name := by
  have hmem := List.mem_cons_self (a := e) (l := entries)
  obtain ⟨hne, hlow, hhigh⟩ := hentries.key e hmem
  obtain ⟨u, hrun, hcons, hkeys, hsymbols, havailable, hname, -⟩ := addSymbol_new h
    (hentries.newSymbol e hmem) hne (hentries.newKey e hmem) hlow hhigh
  have hnodup := List.nodup_cons.mp hentries.keys
  have hnodup' := List.nodup_cons.mp hentries.symbols
  refine ⟨u, hrun, hcons, ?_, hkeys, hsymbols, havailable, hname⟩
  constructor
  · exact hnodup.2
  · exact hnodup'.2
  · intro e' he' hin
    rw [hkeys, List.mem_append, List.mem_singleton] at hin
    rcases hin with hin | heq
    · exact hentries.newKey e' (List.mem_cons_of_mem e he') hin
    · exact hnodup.1 (heq ▸ List.mem_map_of_mem he')
  · intro e' he' hin
    rw [hsymbols, List.mem_append, List.mem_singleton] at hin
    rcases hin with hin | heq
    · exact hentries.newSymbol e' (List.mem_cons_of_mem e he') hin
    · exact hnodup'.1 (heq ▸ List.mem_map_of_mem he')
  · exact fun e' he' => hentries.key e' (List.mem_cons_of_mem e he')

theorem codes_readEntries (h : Consistent getHash t) (hentries : Bindable t entries)
    (hshort : ∀ e ∈ entries, (asBytes e.2).length < 2 ^ 31)
    (hbelow : ∀ e ∈ entries, e.1 < t.availableKey) (pos : ℕ) :
    ∃ t', Codes (readEntries getHash entries.length t) pos (entries.flatMap encodeEntry) t' ∧
      Consistent getHash t' ∧ t'.keys = t.keys ++ entries.map Prod.fst ∧
      t'.symbols.symbols = t.symbols.symbols ++ entries.map Prod.snd ∧
      t'.availableKey = t.availableKey ∧ t'.name = t.name := by
  induction entries generalizing t pos with
  | nil => exact ⟨t, codes_pure pos t, h, by simp, by simp, rfl, rfl⟩
  | cons e entries ih =>
    have hmem := List.mem_cons_self (a := e) (l := entries)
    obtain ⟨-, hlow, hhigh⟩ := hentries.key e hmem
    have hlt := hbelow e hmem
    obtain ⟨u, hrun, hcons, hrest, hkeys, hsymbols, havailable, hname⟩ := hentries.add h
    rw [max_eq_left (by omega)] at havailable
    obtain ⟨t', hcodes, hcons', hkeys', hsymbols', havailable', hname'⟩ := ih hcons hrest
      (fun e' he' => hshort e' (List.mem_cons_of_mem e he'))
      (fun e' he' => by
        rw [havailable]
        exact hbelow e' (List.mem_cons_of_mem e he'))
      (pos + (encodeEntry e).length)
    refine ⟨t', ?_, hcons', ?_, ?_, ?_, ?_⟩
    · rw [List.flatMap_cons]
      apply codes_entry pos (hshort e hmem) hlow (by unfold maxI64 at hhigh; omega)
        (f := fun symbol key => do
          let (_, table) ← lift ((t.addSymbol getHash symbol key).map Except.ok)
          readEntries getHash entries.length table)
      exact (codes_lift _ (by rw [hrun]; rfl)).nil_bind hcodes
    · rw [hkeys', hkeys, List.append_assoc]
      rfl
    · rw [hsymbols', hsymbols, List.append_assoc]
      rfl
    · rw [havailable', havailable]
    · rw [hname', hname]

theorem keys_cast_nodup (n : ℕ) : ((List.range n).map fun i : ℕ => (i : ℤ)).Nodup :=
  List.nodup_range.map fun _ _ h => by exact_mod_cast h

theorem mem_written (h : Consistent getHash t) {k : ℤ} {s : String} :
    (k, s) ∈ written t ↔ (k, s) ∈ t.entries := by
  have hlen := h.length
  rw [mem_entries]
  unfold written
  rw [List.mem_append, List.mem_map, List.mem_map]
  constructor
  · rintro (⟨i, hi, heq⟩ | ⟨e, he, heq⟩)
    · rw [List.mem_range] at hi
      obtain ⟨rfl, rfl⟩ := Prod.mk.inj heq
      have hlt : i < t.symbols.symbols.length := by omega
      refine ⟨i, t.getElem?_keys_dense hi, ?_⟩
      rw [List.getD_eq_getElem _ _ hlt, List.getElem?_eq_getElem hlt]
    · obtain ⟨rfl, rfl⟩ := Prod.mk.inj heq
      have hmapped := Std.TreeMap.mem_toList_iff_getElem?_eq_some.mp he
      obtain ⟨-, hkey⟩ := (h.mapped _ _).mp hmapped
      have hlt : e.2 < t.symbols.symbols.length := by
        rw [← h.keyed.length_keys]
        exact (List.getElem?_eq_some_iff.mp hkey).1
      refine ⟨e.2, hkey, ?_⟩
      rw [List.getD_eq_getElem _ _ hlt, List.getElem?_eq_getElem hlt]
  · rintro ⟨i, hk, hs⟩
    have hget : t.symbols.symbols.getD i "" = s := by
      rw [List.getD_eq_getElem?_getD, hs]
      rfl
    by_cases hi : i < t.denseKeyLimit
    · rw [t.getElem?_keys_dense hi] at hk
      exact Or.inl ⟨i, List.mem_range.mpr hi, Prod.ext (Option.some.inj hk) hget⟩
    · refine Or.inr ⟨(k, i), ?_, Prod.ext rfl hget⟩
      apply Std.TreeMap.mem_toList_iff_getElem?_eq_some.mpr
      exact (h.mapped k i).mpr ⟨by omega, hk⟩

theorem nodup_written_keys (h : Consistent getHash t) : ((written t).map Prod.fst).Nodup := by
  unfold written
  rw [List.map_append, List.map_map, List.map_map, List.nodup_append]
  refine ⟨keys_cast_nodup _, ?_, ?_⟩
  · have hdistinct := Std.TreeMap.distinct_keys_toList (t := t.keyMap)
    unfold List.Nodup
    rw [List.pairwise_map]
    exact hdistinct.imp fun hne heq => hne (by rw [Std.LawfulEqCmp.compare_eq_iff_eq]; exact heq)
  · intro k hk k' hk' heq
    subst heq
    obtain ⟨i, hi, rfl⟩ := List.mem_map.mp hk
    obtain ⟨e, he, heq⟩ := List.mem_map.mp hk'
    have hmapped := Std.TreeMap.mem_toList_iff_getElem?_eq_some.mp he
    obtain ⟨hle, hkey⟩ := (h.mapped _ _).mp hmapped
    rw [List.mem_range] at hi
    have hdense := t.getElem?_keys_dense hi
    have heq' : e.1 = (i : ℤ) := heq
    rw [heq'] at hkey
    have hidx := h.keyed.idx_eq hkey hdense
    omega

theorem written_perm (h : Consistent getHash t) : (written t).Perm t.entries := by
  apply (List.perm_ext_iff_of_nodup (nodup_written_keys h).of_map h.keyed.nodup_entries).mpr
  rintro ⟨k, s⟩
  exact mem_written h

/- The lookups of two tables answer alike. -/
def SameBindings (getHash : String → ℕ) (t t' : SymbolTableImpl) : Prop :=
  (∀ k, t'.findSymbol k = t.findSymbol k) ∧ ∀ s, t'.findKey getHash s = t.findKey getHash s

theorem sameBindings_of_perm {t' : SymbolTableImpl} (h : Consistent getHash t)
    (h' : Consistent getHash t') (hperm : t'.entries.Perm t.entries) :
    SameBindings getHash t t' := by
  have hmem : ∀ k s, (k, s) ∈ t'.entries ↔ (k, s) ∈ t.entries := fun k s => hperm.mem_iff
  refine ⟨?_, ?_⟩
  · intro k
    apply Option.ext
    intro s
    rw [h.keyed.findSymbol_iff, h'.keyed.findSymbol_iff, ← mem_entries, ← mem_entries, hmem]
  · intro s
    by_cases hs : s ∈ t.symbols.symbols
    · have hin := hs
      rw [← h.keyed.entries_snd] at hin
      obtain ⟨⟨k, s'⟩, he, rfl⟩ := List.mem_map.mp hin
      obtain ⟨i, hk, hsym⟩ := mem_entries.mp he
      obtain ⟨j, hk', hsym'⟩ := mem_entries.mp ((hmem _ _).mpr he)
      rw [h.keyed.findKey_mem hk hsym, h'.keyed.findKey_mem hk' hsym']
    · have hs' : s ∉ t'.symbols.symbols := by
        rw [← h.keyed.entries_snd, ← (hperm.map Prod.snd).mem_iff, h'.keyed.entries_snd] at hs
        exact hs
      rw [h.keyed.findKey_not_mem hs, h'.keyed.findKey_not_mem hs']

theorem write_ok (hwrite : write t = some (.ok bytes)) :
    ∃ name, writeString t.name = .ok name ∧
      bytes = writeI32 kSymbolTableMagicNumber ++ (name ++ (writeI64 t.availableKey ++
        (writeI64 t.size ++ (written t).flatMap encodeEntry))) ∧
      ∀ e ∈ written t, (asBytes e.2).length < 2 ^ 31 := by
  unfold write at hwrite
  obtain ⟨name, hname, hwrite⟩ := bind_eq_ok.mp hwrite
  obtain ⟨dense, hdense, hwrite⟩ := bind_eq_ok.mp hwrite
  obtain ⟨sparse, hsparse, hwrite⟩ := bind_eq_ok.mp hwrite
  cases hwrite
  obtain ⟨hdense, hshort⟩ := mapM_writeEntry hdense
  obtain ⟨hsparse, hshort'⟩ := mapM_writeEntry hsparse
  refine ⟨name, Option.some.inj hname, ?_, ?_⟩
  · rw [hdense, hsparse, ← List.flatMap_append]
    rfl
  · intro e he
    rcases List.mem_append.mp he with he | he
    · obtain ⟨i, hi, rfl⟩ := List.mem_map.mp he
      rw [List.getD_eq_getElem?_getD]
      exact hshort i hi
    · obtain ⟨entry, hentry, rfl⟩ := List.mem_map.mp he
      rw [List.getD_eq_getElem?_getD]
      exact hshort' entry hentry

theorem writeEntry_short {s : String} (hshort : (asBytes s).length < 2 ^ 31) (key : ℤ) :
    writeEntry (some s) key = some (.ok (encodeEntry (key, s))) := by
  have hwrite : writeString s = .ok (writeI32 (asBytes s).length ++ asBytes s) := by
    unfold writeString
    rw [if_pos hshort]
  exact bind_eq_ok.mpr ⟨s, rfl, bind_eq_ok.mpr ⟨_, congrArg some hwrite, rfl⟩⟩

/- Only a string too long for its length prefix keeps a table from being written. -/
theorem write_total (h : Consistent getHash t) (hname : (asBytes t.name).length < 2 ^ 31)
    (hshort : ∀ s ∈ t.symbols.symbols, (asBytes s).length < 2 ^ 31) :
    ∃ bytes, write t = some (.ok bytes) := by
  have hlen := h.length
  have hwrite : writeString t.name = .ok (writeI32 (asBytes t.name).length ++ asBytes t.name) := by
    unfold writeString
    rw [if_pos hname]
  have hentry : ∀ (i : ℕ) (key : ℤ), i < t.symbols.symbols.length →
      writeEntry t.symbols.symbols[i]? key =
        some (.ok (encodeEntry (key, t.symbols.symbols.getD i ""))) := by
    intro i key hi
    rw [List.getElem?_eq_getElem hi, List.getD_eq_getElem _ _ hi]
    exact writeEntry_short (hshort _ (List.getElem_mem hi)) key
  have hdense := ListLemmas.mapM_eq_pure (m := ExceptT OpenFstError Option)
    (f := fun i : ℕ => writeEntry t.symbols.symbols[i]? i)
    (l := List.range t.denseKeyLimit) (fun i hi => hentry i i (by
      rw [List.mem_range] at hi
      omega))
  have hsparse := ListLemmas.mapM_eq_pure (m := ExceptT OpenFstError Option)
    (f := fun e : ℤ × ℕ => writeEntry t.symbols.symbols[e.2]? e.1)
    (l := t.keyMap.toList) (fun e he => hentry e.2 e.1 (by
      have hmapped := Std.TreeMap.mem_toList_iff_getElem?_eq_some.mp he
      rw [← h.keyed.length_keys]
      exact (List.getElem?_eq_some_iff.mp ((h.mapped _ _).mp hmapped).2).1))
  unfold write
  rw [hwrite, hdense, hsparse]
  exact ⟨_, rfl⟩

theorem consistent_empty {name : String} {available : ℤ} (hlow : -2 ^ 63 ≤ available)
    (hhigh : available ≤ maxI64) :
    Consistent getHash { SymbolTableImpl.new name with availableKey := available } := by
  have h : Consistent getHash (.new name) := consistent_new name
  refine ⟨h.sound, h.length, h.nodup, h.mapped, ?_, h.named, hlow, hhigh, ?_⟩
  · intro k hk
    simp [SymbolTableImpl.new, keys] at hk
  · intro k hk
    simp [SymbolTableImpl.new, keys] at hk

theorem bindable_of_perm (h : Consistent getHash t) (hperm : entries.Perm t.entries)
    {u : SymbolTableImpl} (hkeys : u.keys = []) (hsymbols : u.symbols.symbols = []) :
    Bindable u entries := by
  constructor
  · rw [(hperm.map Prod.fst).nodup_iff, h.keyed.entries_fst]
    exact h.nodup
  · rw [(hperm.map Prod.snd).nodup_iff, h.keyed.entries_snd]
    exact h.sound.nodup
  · intro e _
    rw [hkeys]
    exact List.not_mem_nil
  · intro e _
    rw [hsymbols]
    exact List.not_mem_nil
  · intro e he
    have hkey : e.1 ∈ t.keys := by
      rw [← h.keyed.entries_fst]
      exact List.mem_map_of_mem (hperm.mem_iff.mp he)
    obtain ⟨-, hmax, hlow⟩ := h.inRange
    have hbelow := h.below _ hkey
    refine ⟨?_, hlow _ hkey, by omega⟩
    intro heq
    rw [heq] at hkey
    exact h.named hkey

/- A vector has no more than `isize::MAX` elements. -/
def FitsVec (t : SymbolTableImpl) : Prop := t.size < 2 ^ 63

/- What is read back of a table that was written, with nothing more taken of the stream. -/
theorem codes_read (h : Consistent getHash t) (hsize : FitsVec t)
    (hwrite : write t = some (.ok bytes)) (pos : ℕ) :
    ∃ t', Codes (read getHash) pos bytes t' ∧ Consistent getHash t' ∧
      SameBindings getHash t t' ∧ t'.name = t.name ∧ t'.availableKey = t.availableKey := by
  obtain ⟨name, hname, rfl, hshort⟩ := write_ok hwrite
  obtain ⟨hlow, hhigh, -⟩ := h.inRange
  have hlen : (written t).length = t.size := by
    have hsnd := congrArg List.length (h.keyed.entries_snd)
    rw [List.length_map] at hsnd
    rw [(written_perm h).length_eq, hsnd]
    rfl
  obtain ⟨u, hcodes, hcons, hkeys, hsymbols, havailable, hnamed⟩ := codes_readEntries
    (consistent_empty hlow hhigh) (bindable_of_perm h (written_perm h) rfl rfl) hshort
    (fun e he => h.below _ (by
      rw [← h.keyed.entries_fst]
      exact List.mem_map_of_mem ((written_perm h).mem_iff.mp he)))
    (pos + (writeI32 kSymbolTableMagicNumber).length + name.length +
      (writeI64 t.availableKey).length + (writeI64 t.size).length)
  obtain ⟨m, hshrink, hsame, hsound⟩ := DenseSymbolMap.shrinkToFit_sound hcons.sound
  have hcons' : Consistent getHash { u with symbols := m } := by
    refine ⟨hsound, ?_, hcons.nodup, hcons.mapped, hcons.below, hcons.named, hcons.inRange⟩
    dsimp only
    rw [hsame]
    exact hcons.length
  refine ⟨{ u with symbols := m }, ?_, hcons', ?_, hnamed, havailable⟩
  · unfold read
    apply (codes_i32 pos (by decide) (by decide)).bind
    rw [if_neg (fun hne => hne rfl)]
    apply (codes_string _ hname).bind
    apply (codes_i64 _ hlow (by unfold maxI64 at hhigh; omega)).bind
    have hfits : t.size < 2 ^ 63 := hsize
    apply (codes_i64 _ (by omega) (by exact_mod_cast hfits)).bind
    rw [if_neg (by omega), Int.toNat_natCast, ← hlen]
    apply hcodes.bind_nil
    exact codes_lift _ (by rw [hshrink]; rfl)
  · apply sameBindings_of_perm h hcons'
    have hentries : ({ u with symbols := m } : SymbolTableImpl).entries = written t := by
      have hkeys' : ({ u with symbols := m } : SymbolTableImpl).keys =
          (written t).map Prod.fst := hkeys
      unfold entries
      dsimp only
      rw [hkeys', hsame, hsymbols]
      exact (List.zip_of_prod rfl rfl).symm
    rw [hentries]
    exact written_perm h

end Sicada.SymbolTableIo
