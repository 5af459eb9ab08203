import Sicada.SymbolTableRoundTrip

namespace Sicada.CheckSums

open Codec Io SymbolTableImpl SymbolTableExact SymbolTableIo SymbolTableText

variable (digest : List UInt8 → String)

/- `{symbol}\t{key}` -/
def labeledLine (entry : ℤ × String) : List UInt8 :=
  asBytes (String.ofList (entry.2.toList ++ '\t' :: (toString entry.1).toList))

/- A key outside the dense part, below it or above. -/
def isSparse (limit : ℕ) (key : ℤ) : Bool := key < 0 ∨ limit ≤ key

/- The bytes the labeled checksum is taken of, nothing between two entries. -/
def labeledText (t : SymbolTableImpl) : Option (List UInt8) := do
  let dense ← (List.range t.denseKeyLimit).mapM fun (i : ℕ) =>
    t.symbols.symbols[i]?.map fun symbol => labeledLine (i, symbol)
  let sparse ← (t.keyMap.toList.filter fun entry =>
      isSparse t.denseKeyLimit entry.1).mapM fun entry =>
    t.symbols.symbols[entry.2]?.map fun symbol => labeledLine (entry.1, symbol)
  some (dense.flatten ++ sparse.flatten)

def plainText (t : SymbolTableImpl) : List UInt8 :=
  t.symbols.symbols.flatMap fun symbol => asBytes symbol ++ [0]

def maybeRecomputeCheckSum (t : SymbolTableImpl) : Option SymbolTableImpl :=
  if t.checkSumFinalized then some t
  else do
    let text ← labeledText t
    some { t with
      checkSumString := digest (plainText t)
      labeledCheckSumString := digest text
      checkSumFinalized := true }

def checkSum (t : SymbolTableImpl) : Option (String × SymbolTableImpl) :=
  (maybeRecomputeCheckSum digest t).map fun t => (t.checkSumString, t)

def labeledCheckSum (t : SymbolTableImpl) : Option (String × SymbolTableImpl) :=
  (maybeRecomputeCheckSum digest t).map fun t => (t.labeledCheckSumString, t)

/- The tables come back with their checksums worked out. -/
def compatSymbols : Option SymbolTableImpl → Option SymbolTableImpl →
    Option (Bool × Option SymbolTableImpl × Option SymbolTableImpl)
  | some syms1, some syms2 => do
    let (sum1, syms1) ← labeledCheckSum digest syms1
    let (sum2, syms2) ← labeledCheckSum digest syms2
    some (sum1 = sum2, some syms1, some syms2)
  | syms1, syms2 => some (true, syms1, syms2)

/- A key finds a place that holds a symbol, and no two keys the same. -/
structure InBounds (t : SymbolTableImpl) : Prop where
  dense : t.denseKeyLimit ≤ t.symbols.symbols.length
  mapped : ∀ (k : ℤ) (i : ℕ), t.keyMap[k]? = some i →
    t.denseKeyLimit ≤ i ∧ i < t.symbols.symbols.length
  injective : ∀ (k k' : ℤ) (i : ℕ), t.keyMap[k]? = some i → t.keyMap[k']? = some i → k = k'

/- What a checksum that is kept was taken of. -/
def Current (digest : List UInt8 → String) (t : SymbolTableImpl) : Prop :=
  t.checkSumFinalized = true →
    ∃ text, labeledText t = some text ∧ t.labeledCheckSumString = digest text

variable {digest} {getHash : String → ℕ} {t : SymbolTableImpl}

variable {s : String} {t' : SymbolTableImpl}

section Entries

/- The entries in the order the checksum takes them. -/
def hashed (t : SymbolTableImpl) : List (ℤ × String) :=
  (List.range t.denseKeyLimit).map (fun i : ℕ => ((i : ℤ), t.symbols.symbols.getD i "")) ++
    (t.keyMap.toList.filter fun entry => isSparse t.denseKeyLimit entry.1).map
      fun entry => (entry.1, t.symbols.symbols.getD entry.2 "")

theorem labeledText_eq (h : InBounds t) :
    labeledText t = some ((hashed t).flatMap labeledLine) := by
  have hentry : ∀ (i : ℕ) (key : ℤ), i < t.symbols.symbols.length →
      (t.symbols.symbols[i]?.map fun symbol => labeledLine (key, symbol)) =
        some (labeledLine (key, t.symbols.symbols.getD i "")) := by
    intro i key hi
    rw [List.getElem?_eq_getElem hi, List.getD_eq_getElem _ _ hi]
    rfl
  have hdense := ListLemmas.mapM_eq_pure (m := Option)
    (f := fun i : ℕ => t.symbols.symbols[i]?.map fun symbol => labeledLine (i, symbol))
    (l := List.range t.denseKeyLimit) (fun i hi => hentry i i (by
      have hle := h.dense
      rw [List.mem_range] at hi
      omega))
  have hsparse := ListLemmas.mapM_eq_pure (m := Option)
    (f := fun e : ℤ × ℕ => t.symbols.symbols[e.2]?.map fun symbol => labeledLine (e.1, symbol))
    (l := t.keyMap.toList.filter fun entry => isSparse t.denseKeyLimit entry.1)
    (fun e he => hentry e.2 e.1 (by
      have hmem := (List.mem_filter.mp he).1
      exact (h.mapped _ _ (Std.TreeMap.mem_toList_iff_getElem?_eq_some.mp hmem)).2))
  unfold labeledText
  rw [hdense, hsparse]
  unfold hashed
  simp only [Option.pure_def, Option.bind_eq_bind, Option.bind_some]
  rw [List.flatMap_append, List.flatMap_map, List.flatMap_map]
  rfl

theorem mem_hashed (h : InBounds t) {k : ℤ} :
    (k, s) ∈ hashed t ↔ t.findSymbol k = some s := by
  unfold hashed findSymbol
  rw [List.mem_append, List.mem_map, List.mem_map]
  by_cases hk : k < 0 ∨ t.denseKeyLimit ≤ k
  · rw [if_pos hk]
    simp only [Option.bind_eq_bind, Option.bind_eq_some_iff]
    constructor
    · rintro (⟨i, hi, heq⟩ | ⟨e, he, heq⟩)
      · rw [List.mem_range] at hi
        obtain ⟨rfl, -⟩ := Prod.mk.inj heq
        omega
      · obtain ⟨rfl, rfl⟩ := Prod.mk.inj heq
        have hget := Std.TreeMap.mem_toList_iff_getElem?_eq_some.mp (List.mem_filter.mp he).1
        have hlt := (h.mapped _ _ hget).2
        refine ⟨e.2, hget, ?_⟩
        rw [List.getElem?_eq_getElem hlt, List.getD_eq_getElem _ _ hlt]
    · rintro ⟨i, hi, hs⟩
      refine Or.inr ⟨(k, i), List.mem_filter.mpr
        ⟨Std.TreeMap.mem_toList_iff_getElem?_eq_some.mpr hi, ?_⟩, ?_⟩
      · simpa [isSparse] using hk
      · rw [List.getD_eq_getElem?_getD, hs]
        rfl
  · rw [if_neg hk]
    simp only [Option.bind_eq_bind, Option.bind_some]
    rw [not_or, Int.not_lt, Int.not_le] at hk
    have hle := h.dense
    have hlt : k.toNat < t.symbols.symbols.length := by omega
    constructor
    · rintro (⟨i, hi, heq⟩ | ⟨e, he, heq⟩)
      · obtain ⟨rfl, rfl⟩ := Prod.mk.inj heq
        rw [Int.toNat_natCast] at hlt ⊢
        rw [List.getElem?_eq_getElem hlt, List.getD_eq_getElem _ _ hlt]
      · obtain ⟨rfl, -⟩ := Prod.mk.inj heq
        have hsparse := (List.mem_filter.mp he).2
        simp [isSparse] at hsparse
        omega
    · intro hs
      refine Or.inl ⟨k.toNat, List.mem_range.mpr (by omega), ?_⟩
      rw [List.getD_eq_getElem?_getD, hs]
      exact Prod.ext (Int.toNat_of_nonneg hk.1) rfl

def SamePairs (t t' : SymbolTableImpl) : Prop := ∀ k, t.findSymbol k = t'.findSymbol k

/- The entries stand in the same order: the dense parts end alike, or no key is negative. -/
def SameOrder (t t' : SymbolTableImpl) : Prop :=
  t.denseKeyLimit = t'.denseKeyLimit ∨ ∀ k s, t.findSymbol k = some s → 0 ≤ k

def Ascending (entries : List (ℤ × String)) : Prop := entries.Pairwise fun e e' => e.1 < e'.1

theorem eq_of_ascending {es es' : List (ℤ × String)} (h : Ascending es) (h' : Ascending es')
    (hmem : ∀ e, e ∈ es ↔ e ∈ es') : es = es' := by
  have hnodup : ∀ l : List (ℤ × String), Ascending l → l.Nodup := by
    intro l hl
    have hpairs : l.Pairwise fun e e' => e.1 < e'.1 := hl
    refine hpairs.imp ?_
    rintro e _ hlt rfl
    exact lt_irrefl _ hlt
  have hperm := (List.perm_ext_iff_of_nodup (hnodup es h) (hnodup es' h')).mpr hmem
  refine hperm.eq_of_pairwise ?_ h h'
  intro e e' _ _ hlt hlt'
  omega

def densePart (t : SymbolTableImpl) : List (ℤ × String) :=
  (List.range t.denseKeyLimit).map fun i : ℕ => ((i : ℤ), t.symbols.symbols.getD i "")

def sparsePart (t : SymbolTableImpl) : List (ℤ × String) :=
  (t.keyMap.toList.filter fun entry => isSparse t.denseKeyLimit entry.1).map
    fun entry => (entry.1, t.symbols.symbols.getD entry.2 "")

theorem hashed_eq (t : SymbolTableImpl) : hashed t = densePart t ++ sparsePart t := rfl

theorem ascending_dense (t : SymbolTableImpl) : Ascending (densePart t) := by
  unfold Ascending densePart
  rw [List.pairwise_map]
  exact List.pairwise_lt_range.imp fun hlt => by
    dsimp only
    exact_mod_cast hlt

theorem ascending_sparse (t : SymbolTableImpl) : Ascending (sparsePart t) := by
  unfold Ascending sparsePart
  rw [List.pairwise_map]
  apply List.Pairwise.filter
  exact (Std.TreeMap.ordered_keys_toList (t := t.keyMap)).imp fun hlt =>
    compare_lt_iff_lt.mp hlt

variable {e : ℤ × String}

theorem key_of_mem_dense (h : e ∈ densePart t) :
    0 ≤ e.1 ∧ e.1 < t.denseKeyLimit := by
  obtain ⟨i, hi, rfl⟩ := List.mem_map.mp h
  rw [List.mem_range] at hi
  dsimp only
  omega

theorem key_of_mem_sparse (h : e ∈ sparsePart t) :
    e.1 < 0 ∨ t.denseKeyLimit ≤ e.1 := by
  obtain ⟨entry, hentry, rfl⟩ := List.mem_map.mp h
  simpa [isSparse] using (List.mem_filter.mp hentry).2

theorem mem_part (h : InBounds t) :
    (e ∈ densePart t ↔ t.findSymbol e.1 = some e.2 ∧ 0 ≤ e.1 ∧ e.1 < t.denseKeyLimit) ∧
      (e ∈ sparsePart t ↔ t.findSymbol e.1 = some e.2 ∧ (e.1 < 0 ∨ t.denseKeyLimit ≤ e.1)) := by
  have hboth : t.findSymbol e.1 = some e.2 ↔ e ∈ densePart t ∨ e ∈ sparsePart t := by
    rw [← mem_hashed h, hashed_eq, List.mem_append]
  constructor
  · constructor
    · exact fun he => ⟨hboth.mpr (Or.inl he), key_of_mem_dense he⟩
    · rintro ⟨hfind, hkey⟩
      rcases hboth.mp hfind with he | he
      · exact he
      · have hsparse := key_of_mem_sparse he
        omega
  · constructor
    · exact fun he => ⟨hboth.mpr (Or.inr he), key_of_mem_sparse he⟩
    · rintro ⟨hfind, hkey⟩
      rcases hboth.mp hfind with he | he
      · have hdense := key_of_mem_dense he
        omega
      · exact he

theorem hashed_ascending (hnonneg : ∀ k s, t.findSymbol k = some s → 0 ≤ k) (h : InBounds t) :
    Ascending (hashed t) := by
  rw [hashed_eq]
  unfold Ascending
  rw [List.pairwise_append]
  refine ⟨ascending_dense t, ascending_sparse t, ?_⟩
  intro e he e' he'
  have hdense := key_of_mem_dense he
  obtain ⟨hfind, hsparse⟩ := (mem_part h).2.mp he'
  have hpos := hnonneg _ _ hfind
  omega

theorem length_dense (t : SymbolTableImpl) : (densePart t).length = t.denseKeyLimit := by
  unfold densePart
  rw [List.length_map, List.length_range]

/- A dense part that goes further puts a key before the negative ones. -/
theorem hashed_ne {t : SymbolTableImpl} (h : InBounds t) {k : ℤ} (hk : k < 0)
    (hfind : t.findSymbol k = some s) (hlt : t.denseKeyLimit < t'.denseKeyLimit) :
    hashed t ≠ hashed t' := by
  intro heq
  have hin : (k, s) ∈ sparsePart t := (mem_part h).2.mpr ⟨hfind, Or.inl hk⟩
  cases hsparse : sparsePart t with
  | nil =>
    rw [hsparse] at hin
    simp at hin
  | cons e es =>
    have hfirst : (hashed t)[t.denseKeyLimit]? = some e := by
      rw [hashed_eq, List.getElem?_append_right (by rw [length_dense]), length_dense, hsparse,
        Nat.sub_self]
      rfl
    have hother : (hashed t')[t.denseKeyLimit]? =
        some ((t.denseKeyLimit : ℤ), t'.symbols.symbols.getD t.denseKeyLimit "") := by
      rw [hashed_eq, List.getElem?_append_left (by rw [length_dense]; exact hlt)]
      unfold densePart
      rw [List.getElem?_map, List.getElem?_range hlt]
      rfl
    have hneg : e.1 < 0 := by
      rw [hsparse] at hin
      rcases List.mem_cons.mp hin with rfl | hin
      · exact hk
      · have hasc := ascending_sparse t
        rw [hsparse] at hasc
        have hle := (List.pairwise_cons.mp hasc).1 _ hin
        dsimp only at hle
        omega
    rw [heq, hother] at hfirst
    have hkey : (t.denseKeyLimit : ℤ) = e.1 := congrArg Prod.fst (Option.some.inj hfirst)
    omega

theorem hashed_eq_iff {t : SymbolTableImpl} (h : InBounds t) (h' : InBounds t')
    (hsame : SamePairs t t') : hashed t = hashed t' ↔ SameOrder t t' := by
  have hmem : ∀ e, e ∈ hashed t ↔ e ∈ hashed t' := by
    rintro ⟨k, s⟩
    rw [mem_hashed h, mem_hashed h', hsame]
  constructor
  · intro heq
    by_cases hlimit : t.denseKeyLimit = t'.denseKeyLimit
    · exact Or.inl hlimit
    · refine Or.inr fun k s hfind => ?_
      by_contra hk
      rcases Nat.lt_or_gt_of_ne hlimit with hlt | hlt
      · exact hashed_ne h (by omega) hfind hlt heq
      · rw [hsame] at hfind
        exact hashed_ne h' (by omega) hfind hlt heq.symm
  · rintro (hlimit | hnonneg)
    · have hdense : densePart t = densePart t' := by
        apply eq_of_ascending (ascending_dense t) (ascending_dense t')
        intro e
        rw [(mem_part h).1, (mem_part h').1, hsame, hlimit]
      have hsparse : sparsePart t = sparsePart t' := by
        apply eq_of_ascending (ascending_sparse t) (ascending_sparse t')
        intro e
        rw [(mem_part h).2, (mem_part h').2, hsame, hlimit]
      rw [hashed_eq, hashed_eq, hdense, hsparse]
    · apply eq_of_ascending (hashed_ascending hnonneg h)
        (hashed_ascending (fun k s hfind => hnonneg k s (by rw [hsame, hfind])) h')
      exact hmem

end Entries

section Texts

/- A symbol that a text of entries shows the bounds of. -/
def Clean (t : SymbolTableImpl) : Prop :=
  ∀ k s, t.findSymbol k = some s → '\t' ∉ s.toList ∧ ∀ c ∈ s.toList.head?, ¬c.isDigit

def CleanEntries (es : List (ℤ × String)) : Prop :=
  ∀ e ∈ es, '\t' ∉ e.2.toList ∧ ∀ c ∈ e.2.toList.head?, ¬c.isDigit

def labeledChars (e : ℤ × String) : List Char := e.2.toList ++ '\t' :: (toString e.1).toList

theorem asBytes_injective : Function.Injective asBytes := by
  intro s s' heq
  have h := fromUtf8_asBytes s
  rw [heq, fromUtf8_asBytes] at h
  exact (Except.ok.inj h).symm

theorem flatMap_labeledLine (es : List (ℤ × String)) :
    es.flatMap labeledLine = asBytes (String.ofList (es.flatMap labeledChars)) := by
  rw [asBytes_ofList, List.flatMap_assoc]
  unfold labeledLine
  simp only [asBytes_ofList]
  rfl

theorem key_cons (k : ℤ) : ∃ c cs, (toString k).toList = c :: cs ∧ ∀ d ∈ cs, d.isDigit := by
  rw [toList_toString]
  split
  · exact ⟨_, _, rfl, fun d hd => isDigit_of_mem hd⟩
  · cases hdigits : Nat.toDigits 10 k.natAbs with
    | nil => exact absurd hdigits Nat.toDigits_ne_nil
    | cons c cs =>
      refine ⟨c, cs, rfl, fun d hd => isDigit_of_mem (n := k.natAbs) ?_⟩
      rw [hdigits]
      exact List.mem_cons_of_mem c hd

/- Two texts cut at the first character of a kind are cut alike. -/
theorem cut_eq {p : Char → Bool} {xs xs' ys ys' : List Char} (h : xs ++ ys = xs' ++ ys')
    (hxs : ∀ c ∈ xs, p c) (hxs' : ∀ c ∈ xs', p c) (hys : ∀ c ∈ ys.head?, ¬p c)
    (hys' : ∀ c ∈ ys'.head?, ¬p c) : xs = xs' ∧ ys = ys' := by
  have htake : ∀ xs ys : List Char, (∀ c ∈ xs, p c) → (∀ c ∈ ys.head?, ¬p c) →
      (xs ++ ys).takeWhile p = xs := by
    intro xs ys hxs hys
    rw [List.takeWhile_append_of_pos hxs]
    cases ys with
    | nil => simp
    | cons c cs =>
      have hc := hys c rfl
      rw [List.takeWhile_cons_of_neg hc, List.append_nil]
  have heq : xs = xs' := by
    rw [← htake xs ys hxs hys, h, htake xs' ys' hxs' hys']
  subst heq
  exact ⟨rfl, List.append_cancel_left h⟩

theorem head_not_digit {es : List (ℤ × String)} (h : CleanEntries es) :
    ∀ c ∈ (es.flatMap labeledChars).head?, ¬c.isDigit := by
  cases es with
  | nil => simp
  | cons e es =>
    obtain ⟨-, hhead⟩ := h e List.mem_cons_self
    rw [List.flatMap_cons]
    unfold labeledChars
    cases hchars : e.2.toList with
    | nil =>
      intro c hc
      obtain rfl : '\t' = c := by simpa using hc
      decide
    | cons d ds =>
      intro c hc
      apply hhead c
      rw [hchars]
      simpa using hc

/- Tab-free symbols that begin with no digit: the text of the entries gives them back. -/
theorem entries_eq_of_text {es es' : List (ℤ × String)} (h : CleanEntries es)
    (h' : CleanEntries es') (heq : es.flatMap labeledChars = es'.flatMap labeledChars) :
    es = es' := by
  induction es generalizing es' with
  | nil =>
    cases es' with
    | nil => rfl
    | cons e' es' =>
      rw [List.flatMap_cons] at heq
      unfold labeledChars at heq
      simp at heq
  | cons e es ih =>
    cases es' with
    | nil =>
      rw [List.flatMap_cons] at heq
      unfold labeledChars at heq
      simp at heq
    | cons e' es' =>
      have hrest : CleanEntries es := fun x hx => h x (List.mem_cons_of_mem e hx)
      have hrest' : CleanEntries es' := fun x hx => h' x (List.mem_cons_of_mem e' hx)
      rw [List.flatMap_cons, List.flatMap_cons] at heq
      have hsplit : ∀ (e : ℤ × String) (cs : List Char), labeledChars e ++ cs =
          e.2.toList ++ '\t' :: ((toString e.1).toList ++ cs) := by
        intro e cs
        unfold labeledChars
        rw [List.append_assoc, List.cons_append]
      rw [hsplit, hsplit] at heq
      have htab : ∀ s : List Char, '\t' ∉ s → ∀ c ∈ s, (decide (c ≠ '\t')) = true := by
        intro s hs c hc
        rw [decide_eq_true_eq]
        rintro rfl
        exact hs hc
      obtain ⟨hsymbol, hkeys⟩ := cut_eq (p := fun c => decide (c ≠ '\t')) heq
        (htab _ (h e List.mem_cons_self).1) (htab _ (h' e' List.mem_cons_self).1)
        (by simp) (by simp)
      replace hkeys := (List.cons.inj hkeys).2
      obtain ⟨c, cs, hc, hdigits⟩ := key_cons e.1
      obtain ⟨c', cs', hc', hdigits'⟩ := key_cons e'.1
      rw [hc, hc', List.cons_append, List.cons_append] at hkeys
      obtain ⟨rfl, htails⟩ := List.cons.inj hkeys
      obtain ⟨rfl, htail⟩ := cut_eq (p := Char.isDigit) htails hdigits hdigits'
        (head_not_digit hrest) (head_not_digit hrest')
      have hkey : e.1 = e'.1 := by
        have htext : toString e.1 = toString e'.1 := by
          rw [← String.ofList_toList (s := toString e.1), hc, ← hc', String.ofList_toList]
        exact Int.repr_inj.mp htext
      have hsym : e.2 = e'.2 := by
        rw [← String.ofList_toList (s := e.2), hsymbol, String.ofList_toList]
      rw [Prod.ext hkey hsym, ih hrest hrest' htail]

end Texts

section Built

variable {m : DenseSymbolMap}

theorem rehash_symbols {m' : DenseSymbolMap} {n : ℕ} (h : m.rehash getHash n = some m') :
    m'.symbols = m.symbols := by
  unfold DenseSymbolMap.rehash at h
  split at h
  · rw [Option.bind_eq_bind, Option.bind_eq_some_iff] at h
    obtain ⟨buckets, -, h⟩ := h
    cases h
    rfl
  · cases h

theorem insertOrFind_symbols {m' : DenseSymbolMap} {key : String} {r : ℕ × Bool}
    (h : m.insertOrFind getHash key = some (r, m')) :
    m'.symbols = if r.2 then m.symbols ++ [key] else m.symbols := by
  unfold DenseSymbolMap.insertOrFind at h
  rw [Option.bind_eq_bind, Option.bind_eq_some_iff] at h
  obtain ⟨u, hroom, h⟩ := h
  have hu : u.symbols = m.symbols := by
    unfold DenseSymbolMap.makeRoom at hroom
    split at hroom
    · exact rehash_symbols hroom
    · cases hroom
      rfl
  rw [Option.bind_eq_bind, Option.bind_eq_some_iff] at h
  obtain ⟨⟨idx, stored⟩, -, h⟩ := h
  cases stored with
  | none =>
    cases h
    rw [if_pos rfl, hu]
  | some stored =>
    cases h
    rw [if_neg Bool.false_ne_true, hu]

theorem inBounds_of_symbols (h : InBounds t) (hm : m.symbols = t.symbols.symbols) :
    InBounds { t with symbols := m } := by
  refine ⟨?_, ?_, h.injective⟩
  · dsimp only
    rw [hm]
    exact h.dense
  · dsimp only
    rw [hm]
    exact h.mapped

theorem current_of_symbols (h : Current digest t) (hm : m.symbols = t.symbols.symbols) :
    Current digest { t with symbols := m } := by
  intro hfinal
  obtain ⟨text, htext, hsum⟩ := h hfinal
  refine ⟨text, ?_, hsum⟩
  rw [← htext]
  unfold labeledText
  dsimp only
  rw [hm]

theorem inBounds_bindKey (h : InBounds t) (key : ℤ) (hm : m.symbols = t.symbols.symbols ++ [s]) :
    InBounds (({ t with symbols := m } : SymbolTableImpl).bindKey key) := by
  have hlen : m.symbols.length = t.symbols.symbols.length + 1 := by
    rw [hm, List.length_append, List.length_singleton]
  have hdense := h.dense
  unfold bindKey size DenseSymbolMap.size
  dsimp only
  split
  · next hcond =>
    obtain ⟨hsize, rfl⟩ := hcond
    have hwrap : wrapI64 ((t.denseKeyLimit : ℤ) + 1) < 2 ^ 63 := by
      unfold wrapI64
      have hlt := Int.bmod_lt (x := (t.denseKeyLimit : ℤ) + 1) (m := 2 ^ 64) (by norm_num)
      norm_num at hlt ⊢
      exact hlt
    rw [hlen] at hsize
    rw [wrapI64_eq (by omega) (by unfold maxI64; omega)] at hsize
    refine ⟨by dsimp only; omega, ?_, h.injective⟩
    intro k i hget
    have hplace := h.mapped k i hget
    omega
  · have hvalue : ∀ (k : ℤ) (i : ℕ), (t.keyMap.insert key (m.symbols.length - 1))[k]? = some i →
        key = k ∧ i = t.symbols.symbols.length ∨ key ≠ k ∧ t.keyMap[k]? = some i := by
      intro k i hget
      rw [Std.TreeMap.getElem?_insert] at hget
      simp only [Std.LawfulEqCmp.compare_eq_iff_eq] at hget
      split at hget
      · next heq =>
        cases hget
        exact Or.inl ⟨heq, by omega⟩
      · next hne => exact Or.inr ⟨hne, hget⟩
    refine ⟨by dsimp only; omega, ?_, ?_⟩
    · intro k i hget
      dsimp only at hget ⊢
      rcases hvalue k i hget with ⟨-, rfl⟩ | ⟨-, hold⟩
      · omega
      · have hplace := h.mapped k i hold
        omega
    · intro k k' i hget hget'
      rcases hvalue k i hget with ⟨rfl, rfl⟩ | ⟨-, hold⟩
      · rcases hvalue k' _ hget' with ⟨rfl, -⟩ | ⟨-, hold'⟩
        · rfl
        · have hplace := h.mapped k' _ hold'
          omega
      · rcases hvalue k' i hget' with ⟨rfl, rfl⟩ | ⟨-, hold'⟩
        · have hplace := h.mapped k _ hold
          omega
        · exact h.injective k k' i hold hold'

theorem addSymbol_inBounds (h : InBounds t) (hcurrent : Current digest t) {key r : ℤ}
    (hrun : t.addSymbol getHash s key = some (r, t')) :
    InBounds t' ∧ Current digest t' := by
  unfold addSymbol at hrun
  split at hrun
  · cases hrun
    exact ⟨h, hcurrent⟩
  · rw [Option.bind_eq_bind, Option.bind_eq_some_iff] at hrun
    obtain ⟨⟨⟨idx, inserted⟩, m⟩, hinsert, hrun⟩ := hrun
    have hm := insertOrFind_symbols hinsert
    cases inserted with
    | true =>
      rw [if_pos rfl] at hm
      have hbind := inBounds_bindKey h key hm
      cases hrun
      refine ⟨?_, fun hfinal => by cases hfinal⟩
      unfold raiseAvailable
      split
      · exact ⟨hbind.dense, hbind.mapped, hbind.injective⟩
      · exact ⟨hbind.dense, hbind.mapped, hbind.injective⟩
    | false =>
      rw [if_neg Bool.false_ne_true] at hm
      dsimp only at hrun
      rw [if_neg Bool.false_ne_true, Option.bind_eq_bind, Option.bind_eq_some_iff] at hrun
      obtain ⟨k, -, hrun⟩ := hrun
      cases hrun
      exact ⟨inBounds_of_symbols h hm, current_of_symbols hcurrent hm⟩

theorem removeSymbol_symbols {m' : DenseSymbolMap} {idx : ℕ}
    (h : m.removeSymbol getHash idx = some m') :
    idx < m.symbols.length ∧ m'.symbols = m.symbols.eraseIdx idx := by
  unfold DenseSymbolMap.removeSymbol at h
  split at h
  · next hidx => exact ⟨hidx, rehash_symbols h⟩
  · cases h

/- What is known of a symbol found for its removal and of the keys that stay mapped. -/
theorem found_inBounds (h : InBounds t) {key : ℤ} {idx : ℕ} {keyMap : Std.TreeMap ℤ ℕ}
    (hfound : (if key < 0 ∨ t.denseKeyLimit ≤ key then
      t.keyMap[key]?.map fun mappedIdx => (mappedIdx, t.keyMap.erase key)
    else some (key.toNat, t.keyMap)) = some (idx, keyMap)) :
    idx < t.symbols.symbols.length ∧
      (if 0 ≤ key ∧ key < t.denseKeyLimit then (idx : ℤ) = key else t.denseKeyLimit ≤ idx) ∧
      ∀ (k : ℤ) (i : ℕ), keyMap[k]? = some i → i ≠ idx ∧ t.keyMap[k]? = some i := by
  have hdense := h.dense
  split at hfound
  · next hsparse =>
    obtain ⟨i, hi, heq⟩ := Option.map_eq_some_iff.mp hfound
    cases heq
    obtain ⟨hle, hlt⟩ := h.mapped _ _ hi
    refine ⟨hlt, by rwa [if_neg (by omega)], ?_⟩
    intro k j hget
    rw [Std.TreeMap.getElem?_erase] at hget
    simp only [Std.LawfulEqCmp.compare_eq_iff_eq] at hget
    split at hget
    · cases hget
    · next hne =>
      refine ⟨?_, hget⟩
      rintro rfl
      exact hne (h.injective _ _ _ hi hget)
  · cases hfound
    refine ⟨by omega, by rw [if_pos (by omega)]; omega, ?_⟩
    intro k i hget
    have hle := (h.mapped k i hget).1
    exact ⟨by omega, hget⟩

theorem removeSymbol_inBounds (h : InBounds t) (hcurrent : Current digest t) {key : ℤ}
    (hrun : t.removeSymbol getHash key = some t') :
    InBounds t' ∧ Current digest t' := by
  have hdense := h.dense
  unfold removeSymbol at hrun
  dsimp only at hrun
  split at hrun
  · cases hrun
    exact ⟨h, hcurrent⟩
  · next idx keyMap hfound =>
    obtain ⟨hlt, hplace, hkept⟩ := found_inBounds h hfound
    rw [if_neg (by unfold size DenseSymbolMap.size; omega), Option.bind_eq_bind,
      Option.bind_eq_some_iff] at hrun
    obtain ⟨m, hm, hrun⟩ := hrun
    have hsymbols := (removeSymbol_symbols hm).2
    have hlen : m.symbols.length = t.symbols.symbols.length - 1 := by
      rw [hsymbols, List.length_eraseIdx_of_lt hlt]
    rw [Option.bind_eq_bind, Option.bind_eq_some_iff] at hrun
    obtain ⟨u, hu, hrun⟩ := hrun
    cases hrun
    refine ⟨?_, fun hfinal => by cases hfinal⟩
    -- a key that stays mapped moves down past the removed place
    have hmoved : ∀ (k : ℤ) (j : ℕ), (keyMap.map fun _ mappedIdx =>
        if idx < mappedIdx then mappedIdx - 1 else mappedIdx)[k]? = some j →
        ∃ i, t.keyMap[k]? = some i ∧ i ≠ idx ∧ j = if idx < i then i - 1 else i := by
      intro k j hget
      rw [Std.TreeMap.getElem?_map] at hget
      obtain ⟨i, hi, hdec⟩ := Option.map_eq_some_iff.mp hget
      obtain ⟨hne, hold⟩ := hkept k i hi
      exact ⟨i, hold, hne, hdec.symm⟩
    have hinjective : ∀ i i' j : ℕ, i ≠ idx → i' ≠ idx → (j = if idx < i then i - 1 else i) →
        (j = if idx < i' then i' - 1 else i') → i = i' := by
      intro i i' j hne hne' hj hj'
      split at hj
      · split at hj' <;> omega
      · split at hj' <;> omega
    have hbounds : InBounds u := by
      unfold unbindKey at hu
      dsimp only at hu
      split at hu
      · next hrange =>
        rw [if_pos hrange] at hplace
        cases hu
        have hrebound : ∀ (k : ℤ) (j : ℕ), (SymbolTableImpl.undense { t with
            symbols := m
            keyMap := keyMap.map fun _ mappedIdx =>
              if idx < mappedIdx then mappedIdx - 1 else mappedIdx } key.toNat).keyMap[k]? =
              some j → (key < k ∧ k < t.denseKeyLimit ∧ (j : ℤ) = k - 1) ∨
              t.denseKeyLimit ≤ j + 1 ∧ j < m.symbols.length ∧
                ∃ i, t.keyMap[k]? = some i ∧ i ≠ idx ∧ j = if idx < i then i - 1 else i := by
          intro k j hget
          unfold undense at hget
          dsimp only at hget
          rw [getElem?_rebound] at hget
          split at hget
          · next hin =>
            obtain ⟨hk, hmem⟩ := hin
            rw [List.mem_range'_1] at hmem
            have hj : k.toNat - 1 = j := by simpa using hget
            exact Or.inl ⟨by omega, by omega, by omega⟩
          · obtain ⟨i, hi, hne, hj⟩ := hmoved k j hget
            have hrange := h.mapped k i hi
            rw [if_pos (by omega)] at hj
            refine Or.inr ⟨by omega, by omega, i, hi, hne, ?_⟩
            rw [if_pos (by omega)]
            exact hj
        refine ⟨?_, ?_, ?_⟩
        · change key.toNat ≤ m.symbols.length
          omega
        · intro k j hget
          change key.toNat ≤ j ∧ j < m.symbols.length
          rcases hrebound k j hget with ⟨hlow, hhigh, hj⟩ | ⟨hle, hhigh, -⟩ <;> omega
        · intro k k' j hget hget'
          rcases hrebound k j hget with ⟨hlow, hhigh, hj⟩ | ⟨hle, -, i, hi, hne, hj⟩
          · rcases hrebound k' j hget' with ⟨hlow', hhigh', hj'⟩ | ⟨hle', -⟩ <;> omega
          · rcases hrebound k' j hget' with ⟨hlow', hhigh', hj'⟩ | ⟨-, -, i', hi', hne', hj'⟩
            · omega
            · obtain rfl := hinjective i i' j hne hne' hj hj'
              exact h.injective k k' i hi hi'
      · next hrange =>
        rw [if_neg hrange] at hplace
        obtain ⟨idxKey, -, rfl⟩ := Option.map_eq_some_iff.mp hu
        refine ⟨?_, ?_, ?_⟩
        · dsimp only
          omega
        · intro k j hget
          obtain ⟨i, hi, hne, hj⟩ := hmoved k j hget
          have hrange := h.mapped k i hi
          dsimp only
          split at hj <;> omega
        · intro k k' j hget hget'
          obtain ⟨i, hi, hne, hj⟩ := hmoved k j hget
          obtain ⟨i', hi', hne', hj'⟩ := hmoved k' j hget'
          obtain rfl := hinjective i i' j hne hne' hj hj'
          exact h.injective k k' i hi hi'
    rw [lowerAvailable_eq]
    exact ⟨hbounds.dense, hbounds.mapped, hbounds.injective⟩

/- Tables as the public operations make them, whatever the keys. -/
inductive Built (digest : List UInt8 → String) (getHash : String → ℕ) : SymbolTableImpl → Prop
  | new (name : String) : Built digest getHash (.new name)
  | step {t t' : SymbolTableImpl} (op : Op) (h : Built digest getHash t)
      (hstep : step getHash t op = some t') : Built digest getHash t'
  | setName {t : SymbolTableImpl} (name : String) (h : Built digest getHash t) :
      Built digest getHash { t with name := name }
  | checkSum {t t' : SymbolTableImpl} (h : Built digest getHash t)
      (hsum : maybeRecomputeCheckSum digest t = some t') : Built digest getHash t'
  | read {t : SymbolTableImpl} {s s' : Stream} (hread : read getHash s = some (.ok (t, s'))) :
      Built digest getHash t
  | readText {t : SymbolTableImpl} {bytes : List UInt8} {name sep : String}
      (hread : readText getHash bytes name sep = some (.ok t)) : Built digest getHash t

theorem foldlM_inBounds {items : List (ℤ × String)} {t : SymbolTableImpl} (h : InBounds t)
    (hcurrent : Current digest t)
    (hrun : items.foldlM (fun t item => (t.addSymbolAuto getHash item.2).map (·.2)) t =
      some t') : InBounds t' ∧ Current digest t' := by
  induction items generalizing t with
  | nil =>
    cases hrun
    exact ⟨h, hcurrent⟩
  | cons item items ih =>
    rw [List.foldlM_cons, Option.bind_eq_bind, Option.bind_eq_some_iff] at hrun
    obtain ⟨u, hu, hrun⟩ := hrun
    obtain ⟨⟨r, v⟩, hadd, rfl⟩ := Option.map_eq_some_iff.mp hu
    obtain ⟨hbounds, hcur⟩ := addSymbol_inBounds h hcurrent hadd
    exact ih hbounds hcur hrun

theorem inBounds_new (name : String) (available : ℤ) :
    InBounds { SymbolTableImpl.new name with availableKey := available } ∧
      Current digest { SymbolTableImpl.new name with availableKey := available } := by
  refine ⟨⟨by simp [SymbolTableImpl.new], ?_, ?_⟩, fun hfinal => by cases hfinal⟩
  · intro k i hget
    simp [SymbolTableImpl.new] at hget
  · intro k k' i hget
    simp [SymbolTableImpl.new] at hget

theorem shrinkToFit_symbols {m' : DenseSymbolMap} (h : m.shrinkToFit getHash = some m') :
    m'.symbols = m.symbols := by
  unfold DenseSymbolMap.shrinkToFit at h
  dsimp only at h
  split at h
  · exact rehash_symbols h
  · cases h
    rfl

theorem readEntries_inBounds {n : ℕ} {t : SymbolTableImpl} {s s' : Stream} (h : InBounds t)
    (hcurrent : Current digest t) (hrun : readEntries getHash n t s = some (.ok (t', s'))) :
    InBounds t' ∧ Current digest t' := by
  induction n generalizing t s with
  | zero =>
    cases hrun
    exact ⟨h, hcurrent⟩
  | succ n ih =>
    rw [readEntries] at hrun
    obtain ⟨symbol, s₁, -, hrun⟩ := Reader.bind_eq_ok.mp hrun
    obtain ⟨key, s₂, -, hrun⟩ := Reader.bind_eq_ok.mp hrun
    obtain ⟨⟨r, u⟩, s₃, hadd, hrun⟩ := Reader.bind_eq_ok.mp hrun
    unfold lift at hadd
    obtain ⟨x, hx, heq⟩ := Option.map_eq_some_iff.mp hadd
    obtain ⟨y, hy, rfl⟩ := Option.map_eq_some_iff.mp hx
    cases heq
    obtain ⟨hbounds, hcur⟩ := addSymbol_inBounds h hcurrent hy
    exact ih hbounds hcur hrun

theorem readLines_inBounds {separator : List Char} {ls : List (List UInt8)} {nline : ℕ}
    {t : SymbolTableImpl} (h : InBounds t) (hcurrent : Current digest t)
    (hrun : readLines getHash separator ls nline t = some (.ok t')) :
    InBounds t' ∧ Current digest t' := by
  induction ls generalizing t nline with
  | nil =>
    cases hrun
    exact ⟨h, hcurrent⟩
  | cons line ls ih =>
    rw [readLines] at hrun
    split at hrun
    · cases hrun
      exact ⟨h, hcurrent⟩
    · split at hrun
      · cases hrun
      · exact ih h hcurrent hrun
      · rw [Option.bind_eq_bind, Option.bind_eq_some_iff] at hrun
        obtain ⟨⟨r, u⟩, hadd, hrun⟩ := hrun
        obtain ⟨hbounds, hcur⟩ := addSymbol_inBounds h hcurrent hadd
        exact ih hbounds hcur hrun

theorem labeledText_kept (sum labeled : String) (final : Bool) :
    labeledText { t with
      checkSumString := sum
      labeledCheckSumString := labeled
      checkSumFinalized := final } = labeledText t := rfl

theorem inBounds_of_built (h : Built digest getHash t) : InBounds t ∧ Current digest t := by
  induction h with
  | new name => exact inBounds_new name 0
  | step op _ hstep ih =>
    obtain ⟨hbounds, hcur⟩ := ih
    cases op with
    | addSymbol symbol key =>
      obtain ⟨⟨r, u⟩, hadd, rfl⟩ := Option.map_eq_some_iff.mp hstep
      exact addSymbol_inBounds hbounds hcur hadd
    | addSymbolAuto symbol =>
      obtain ⟨⟨r, u⟩, hadd, rfl⟩ := Option.map_eq_some_iff.mp hstep
      exact addSymbol_inBounds hbounds hcur hadd
    | removeSymbol key => exact removeSymbol_inBounds hbounds hcur hstep
    | addTable table =>
      rw [step, addTable, Option.bind_eq_bind, Option.bind_eq_some_iff] at hstep
      obtain ⟨items, -, hstep⟩ := hstep
      exact foldlM_inBounds hbounds hcur hstep
  | setName name _ ih => exact ⟨⟨ih.1.dense, ih.1.mapped, ih.1.injective⟩, ih.2⟩
  | checkSum _ hsum ih =>
    unfold maybeRecomputeCheckSum at hsum
    split at hsum
    · cases hsum
      exact ih
    · rw [Option.bind_eq_bind, Option.bind_eq_some_iff] at hsum
      obtain ⟨text, htext, hsum⟩ := hsum
      cases hsum
      exact ⟨⟨ih.1.dense, ih.1.mapped, ih.1.injective⟩,
        fun _ => ⟨text, by rw [labeledText_kept, htext], rfl⟩⟩
  | read hread =>
    unfold SymbolTableIo.read at hread
    obtain ⟨magic, s₁, -, hread⟩ := Reader.bind_eq_ok.mp hread
    split at hread
    · cases hread
    · obtain ⟨name, s₂, -, hread⟩ := Reader.bind_eq_ok.mp hread
      obtain ⟨available, s₃, -, hread⟩ := Reader.bind_eq_ok.mp hread
      obtain ⟨size, s₄, -, hread⟩ := Reader.bind_eq_ok.mp hread
      split at hread
      · cases hread
      · obtain ⟨u, s₅, hentries, hread⟩ := Reader.bind_eq_ok.mp hread
        obtain ⟨hbounds, hcur⟩ : InBounds _ ∧ Current digest _ := inBounds_new name available
        obtain ⟨hbounds, hcur⟩ := readEntries_inBounds hbounds hcur hentries
        obtain ⟨x, hx, heq⟩ := Option.map_eq_some_iff.mp hread
        obtain ⟨m, hm, rfl⟩ := Option.map_eq_some_iff.mp hx
        cases heq
        have hsymbols := shrinkToFit_symbols hm
        exact ⟨inBounds_of_symbols hbounds hsymbols, current_of_symbols hcur hsymbols⟩
  | readText hread =>
    unfold SymbolTableText.readText at hread
    rw [Option.bind_eq_bind, Option.bind_eq_some_iff] at hread
    obtain ⟨r, hlines, hread⟩ := hread
    cases r with
    | error e => cases hread
    | ok u =>
      obtain ⟨m, hm, heq⟩ := Option.map_eq_some_iff.mp hread
      cases heq
      obtain ⟨hbounds, hcur⟩ : InBounds _ ∧ Current digest _ := inBounds_new _ 0
      obtain ⟨hbounds, hcur⟩ := readLines_inBounds hbounds hcur hlines
      have hsymbols := shrinkToFit_symbols hm
      exact ⟨inBounds_of_symbols hbounds hsymbols, current_of_symbols hcur hsymbols⟩

end Built

/- The digest tells apart the bytes of the two tables. -/
def CollisionFree (digest : List UInt8 → String) (t t' : SymbolTableImpl) : Prop :=
  ∀ text text', labeledText t = some text → labeledText t' = some text' →
    digest text = digest text' → text = text'

theorem labeledCheckSum_eq (h : Built digest getHash t) :
    ∃ u, labeledCheckSum digest t = some (digest ((hashed t).flatMap labeledLine), u) := by
  obtain ⟨hbounds, hcurrent⟩ := inBounds_of_built h
  have htext := labeledText_eq hbounds
  unfold labeledCheckSum maybeRecomputeCheckSum
  by_cases hfinal : t.checkSumFinalized = true
  · obtain ⟨text, htext', hsum⟩ := hcurrent hfinal
    rw [htext] at htext'
    cases htext'
    rw [if_pos hfinal]
    exact ⟨t, by rw [Option.map_some, hsum]⟩
  · rw [if_neg hfinal, htext]
    exact ⟨_, rfl⟩

theorem cleanEntries_hashed (h : InBounds t) (hclean : Clean t) : CleanEntries (hashed t) :=
  fun e he => hclean e.1 e.2 ((mem_hashed h).mp he)

/- The digests of the two texts below. -/
def digestOfTwo (bytes : List UInt8) : String :=
  if bytes = [97, 9, 49] then "b99a14bc765bd683c576d5787155b25c" else "d43dafadbfe3137d849460ae2c461626"

/- A digest that loses nothing. -/
def spelled (bytes : List UInt8) : String :=
  String.ofList (bytes.map fun byte => Char.ofNat byte.toNat)

end Sicada.CheckSums
