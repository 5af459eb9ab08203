import Sicada.SymbolTableExact

namespace Sicada.SymbolTableOps

open SymbolTableImpl SymbolTableExact

variable (getHash : String → ℕ)

/- The symbols of left, and whether right has had each of them so far under the same key. -/
def mergeLeft (right : SymbolTableImpl) :
    List (ℤ × String) → SymbolTableImpl → Bool → Bool → Option (SymbolTableImpl × Bool × Bool)
  | [], merged, rightHasAll, relabel => some (merged, rightHasAll, relabel)
  | (label, symbol) :: items, merged, rightHasAll, relabel => do
    let (_, merged) ← merged.addSymbol getHash symbol label
    if rightHasAll then
      let key ← right.findKey getHash symbol
      if key = kNoSymbol then mergeLeft right items merged false relabel
      else if key ≠ label then mergeLeft right items merged false true
      else mergeLeft right items merged true relabel
    else mergeLeft right items merged false relabel

/- The symbols of right; those whose key is taken are put off. -/
def mergeRight : List (ℤ × String) → SymbolTableImpl → Bool → Bool → List String →
    Option (SymbolTableImpl × Bool × Bool × List String)
  | [], merged, leftHasAll, relabel, conflicts => some (merged, leftHasAll, relabel, conflicts)
  | (label, symbol) :: items, merged, leftHasAll, relabel, conflicts => do
    let key ← merged.findKey getHash symbol
    if key ≠ kNoSymbol then
      mergeRight items merged leftHasAll (relabel || decide (key ≠ label)) conflicts
    else if (merged.findSymbol label).isSome then
      mergeRight items merged false true (conflicts ++ [symbol])
    else do
      let (_, merged) ← merged.addSymbol getHash symbol label
      mergeRight items merged false relabel conflicts

def addConflicts : List String → SymbolTableImpl → Option SymbolTableImpl
  | [], merged => some merged
  | conflict :: conflicts, merged => do
    let (_, merged) ← merged.addSymbolAuto getHash conflict
    addConflicts conflicts merged

def mergeSymbolTable (left right : SymbolTableImpl) : Option (SymbolTableImpl × Bool) := do
  let leftItems ← left.iter getHash
  let (merged, rightHasAll, relabel) ← mergeLeft getHash right leftItems
    (.new ("merge_" ++ left.name ++ "_" ++ right.name)) true false
  if rightHasAll then some (right, relabel)
  else do
    let rightItems ← right.iter getHash
    let (merged, leftHasAll, relabel, conflicts) ← mergeRight getHash rightItems merged true
      relabel []
    if leftHasAll then some (left, relabel)
    else do
      let merged ← addConflicts getHash conflicts merged
      some (merged, relabel)

/- What a merged table owes to the two. -/
structure MergesWithoutLoss (left right merged : SymbolTableImpl) (relabel : Bool) : Prop where
  left_kept : ∀ k s, k ≠ kNoSymbol → left.findKey getHash s = some k →
    merged.findKey getHash s = some k ∧ merged.findSymbol k = some s
  right_there : ∀ k s, k ≠ kNoSymbol → right.findKey getHash s = some k →
    ∃ k', k' ≠ kNoSymbol ∧ merged.findKey getHash s = some k'
  apart : ∀ k s s', k ≠ kNoSymbol → merged.findKey getHash s = some k →
    merged.findKey getHash s' = some k → s = s'
  right_kept : ∀ k s, k ≠ kNoSymbol → right.findKey getHash s = some k →
    left.findKey getHash s = some kNoSymbol → left.findSymbol k = none →
    merged.findKey getHash s = some k
  relabel_iff : relabel = true ↔ ∃ k s, k ≠ kNoSymbol ∧ right.findKey getHash s = some k ∧
    merged.findKey getHash s ≠ some k

section Numbers

/- The symbols of right that left does not have, with a key that left does not use, or uses. -/
def kept (left right : List (ℤ × String)) : List (ℤ × String) :=
  right.filter fun e => e.2 ∉ left.map Prod.snd ∧ e.1 ∉ left.map Prod.fst

def clashing (left right : List (ℤ × String)) : List (ℤ × String) :=
  right.filter fun e => e.2 ∉ left.map Prod.snd ∧ e.1 ∈ left.map Prod.fst

/- The keys used before any symbol is numbered anew. -/
def usedKeys (left right : List (ℤ × String)) : List ℤ := (left ++ kept left right).map Prod.fst

def firstNumber (left right : List (ℤ × String)) : ℤ :=
  (usedKeys left right).foldl nextAvailable 0

/- The numbers that the clashing symbols are given, counting on as 64 bits do, are free. -/
def NumbersFree (left right : List (ℤ × String)) : Prop :=
  ∀ j < (clashing left right).length,
    wrapI64 (firstNumber left right + j) ∉ kNoSymbol :: usedKeys left right

/- A key that is not to be taken ends the numbering. -/
def autoKeys : ℕ → ℤ → List ℤ
  | 0, _ => []
  | n + 1, a => if a = kNoSymbol then [] else a :: autoKeys n (wrapI64 (a + 1))

def newKeys (left right : List (ℤ × String)) : List ℤ :=
  autoKeys (clashing left right).length (firstNumber left right)

/- What a merged table of its own has. -/
def mergedEntries (left right : List (ℤ × String)) : List (ℤ × String) :=
  left ++ kept left right ++ (newKeys left right).zip ((clashing left right).map Prod.snd)

theorem wrapI64_wrapI64 (x : ℤ) : wrapI64 (wrapI64 x) = wrapI64 x := Int.bmod_bmod

theorem wrapI64_add (x y : ℤ) : wrapI64 (wrapI64 x + y) = wrapI64 (x + y) := Int.bmod_add_bmod

theorem wrapI64_succ_add (a : ℤ) (j : ℕ) :
    wrapI64 (wrapI64 (a + 1) + j) = wrapI64 (a + (j + 1 : ℕ)) := by
  rw [wrapI64_add]
  congr 1
  push_cast
  ring

variable {a : ℤ}

theorem inRange_of_wrapI64 (ha : wrapI64 a = a) : -2 ^ 63 ≤ a ∧ a ≤ maxI64 := by
  have hlow := Int.le_bmod (x := a) (m := 2 ^ 64) (by norm_num)
  have hhigh := Int.bmod_lt (x := a) (m := 2 ^ 64) (by norm_num)
  rw [show a.bmod (2 ^ 64) = a from ha] at hlow hhigh
  norm_num at hlow hhigh
  unfold maxI64
  omega

theorem wrapI64_nextAvailable {k : ℤ} (ha : wrapI64 a = a) :
    wrapI64 (nextAvailable a k) = nextAvailable a k := by
  unfold nextAvailable
  split
  · exact wrapI64_wrapI64 _
  · exact ha

theorem wrapI64_foldl (ks : List ℤ) (ha : wrapI64 a = a) :
    wrapI64 (ks.foldl nextAvailable a) = ks.foldl nextAvailable a := by
  induction ks generalizing a with
  | nil => exact ha
  | cons k ks ih => exact ih (wrapI64_nextAvailable ha)

theorem length_autoKeys_le (n : ℕ) (a : ℤ) : (autoKeys n a).length ≤ n := by
  induction n generalizing a with
  | zero => exact Nat.le_refl 0
  | succ n ih =>
    unfold autoKeys
    split
    · exact Nat.zero_le _
    · exact Nat.succ_le_succ (ih _)

theorem autoKeys_kNoSymbol (n : ℕ) : autoKeys n kNoSymbol = [] := by
  cases n with
  | zero => rfl
  | succ n => rw [autoKeys, if_pos rfl]

theorem autoKeys_eq {n : ℕ} (ha : wrapI64 a = a) (h : ∀ j < n, wrapI64 (a + (j : ℕ)) ≠ kNoSymbol) :
    autoKeys n a = (List.range n).map fun j : ℕ => wrapI64 (a + j) := by
  induction n generalizing a with
  | zero => rfl
  | succ n ih =>
    have hfirst : a ≠ kNoSymbol := by
      have hne := h 0 (Nat.zero_lt_succ n)
      rwa [Nat.cast_zero, add_zero, ha] at hne
    have hrest : ∀ j < n, wrapI64 (wrapI64 (a + 1) + (j : ℕ)) ≠ kNoSymbol := by
      intro j hj
      rw [wrapI64_succ_add]
      exact h (j + 1) (Nat.succ_lt_succ hj)
    rw [autoKeys, if_neg hfirst, ih (wrapI64_wrapI64 _) hrest, List.range_succ_eq_map,
      List.map_cons, List.map_map, Nat.cast_zero, add_zero, ha]
    refine congrArg (a :: ·) (List.map_congr_left fun j _ => ?_)
    exact wrapI64_succ_add a j

theorem ne_of_length_autoKeys {n : ℕ} (ha : wrapI64 a = a) (h : (autoKeys n a).length = n) :
    ∀ j < n, wrapI64 (a + (j : ℕ)) ≠ kNoSymbol := by
  induction n generalizing a with
  | zero => nofun
  | succ n ih =>
    unfold autoKeys at h
    split at h
    · cases h
    · next hfirst =>
      intro j hj
      cases j with
      | zero =>
        rw [Nat.cast_zero, add_zero, ha]
        exact hfirst
      | succ j =>
        rw [← wrapI64_succ_add]
        exact ih (wrapI64_wrapI64 _) (Nat.succ.inj h) j (Nat.lt_of_succ_lt_succ hj)

theorem nodup_numbers {n : ℕ} (hn : n ≤ 2 ^ 63) (a : ℤ) :
    ((List.range n).map fun j : ℕ => wrapI64 (a + j)).Nodup := by
  refine List.Nodup.map_on ?_ List.nodup_range
  intro i hi j hj heq
  rw [List.mem_range] at hi hj
  have hbmod := (Int.bmod_add_cancel_left a).mp heq
  have hi' := wrapI64_eq (x := i) (by omega) (by unfold maxI64; omega)
  have hj' := wrapI64_eq (x := j) (by omega) (by unfold maxI64; omega)
  unfold wrapI64 at hi' hj'
  omega

end Numbers

variable {es items : List (ℤ × String)} {e : ℤ × String}

section Entries

variable {getHash} {t t' : SymbolTableImpl} {k : ℤ} {s : String}

theorem mem_keys_of_entry (h : Filled getHash t) (hmem : (k, s) ∈ t.entries) : k ∈ t.keys := by
  rw [← h.entries_fst]
  exact List.mem_map.mpr ⟨_, hmem, rfl⟩

theorem mem_symbols_of_entry (h : Filled getHash t) (hmem : (k, s) ∈ t.entries) :
    s ∈ t.entries.map Prod.snd := List.mem_map.mpr ⟨_, hmem, rfl⟩

theorem findKey_of_entry (h : Filled getHash t) (hmem : (k, s) ∈ t.entries) :
    t.findKey getHash s = some k := by
  obtain ⟨i, hk, hs⟩ := mem_entries.mp hmem
  exact h.findKey_mem hk hs

theorem findKey_absent (h : Filled getHash t) (hs : s ∉ t.entries.map Prod.snd) :
    t.findKey getHash s = some kNoSymbol := by
  rw [h.entries_snd] at hs
  exact h.findKey_not_mem hs

theorem entry_of_findKey (h : Filled getHash t) (hk : k ≠ kNoSymbol)
    (hfind : t.findKey getHash s = some k) : (k, s) ∈ t.entries :=
  mem_entries.mpr ((h.findKey_iff hk).mp hfind)

theorem findSymbol_iff_entry (h : Keyed getHash t) :
    t.findSymbol k = some s ↔ (k, s) ∈ t.entries :=
  h.findSymbol_iff.trans mem_entries.symm

theorem findSymbol_isSome (h : Keyed getHash t) :
    (t.findSymbol k).isSome ↔ k ∈ t.entries.map Prod.fst := by
  rw [Option.isSome_iff_exists, List.mem_map]
  constructor
  · rintro ⟨s, hs⟩
    exact ⟨_, (findSymbol_iff_entry h).mp hs, rfl⟩
  · rintro ⟨⟨_, s⟩, hmem, rfl⟩
    exact ⟨s, (findSymbol_iff_entry h).mpr hmem⟩

theorem ne_kNoSymbol_of_entry (h : Keyed getHash t) (hmem : (k, s) ∈ t.entries) :
    k ≠ kNoSymbol := by
  rintro rfl
  exact h.named (mem_keys_of_entry h.toFilled hmem)

theorem nodup_symbols (h : Filled getHash t) : (t.entries.map Prod.snd).Nodup := by
  rw [h.entries_snd]
  exact h.sound.nodup

theorem nodup_keys (h : Keyed getHash t) : (t.entries.map Prod.fst).Nodup := by
  rw [h.entries_fst]
  exact h.nodup

theorem entries_appended (h : Filled getHash t) (ht : Appended getHash t s k t') :
    t'.entries = t.entries ++ [(k, s)] := by
  unfold entries
  rw [ht.keys_eq, ht.symbols_eq, List.zip_append h.length_keys]
  rfl

theorem entry_inj (hkeys : (es.map Prod.fst).Nodup) {s s' : String} (h : (k, s) ∈ es)
    (h' : (k, s') ∈ es) : s = s' :=
  congrArg Prod.snd (List.inj_on_of_nodup_map hkeys h h' rfl)

theorem entry_inj_symbol (hsymbols : (es.map Prod.snd).Nodup) {k k' : ℤ} (h : (k, s) ∈ es)
    (h' : (k', s) ∈ es) : k = k' :=
  congrArg Prod.fst (List.inj_on_of_nodup_map hsymbols h h' rfl)

/- Symbols and keys that a table does not have yet, each of them once. -/
structure Unused (es : List (ℤ × String)) (items : List (ℤ × String)) : Prop where
  symbols : (es.map Prod.snd ++ items.map Prod.snd).Nodup
  keys : (es.map Prod.fst ++ items.map Prod.fst).Nodup
  inRange : ∀ e ∈ items, 0 ≤ e.1 ∧ e.1 ≤ maxI64

theorem Unused.head (h : Unused es (e :: items)) :
    e.2 ∉ es.map Prod.snd ∧ e.1 ∉ es.map Prod.fst := by
  obtain ⟨-, -, hsymbols⟩ := List.nodup_append.mp h.symbols
  obtain ⟨-, -, hkeys⟩ := List.nodup_append.mp h.keys
  exact ⟨fun hmem => hsymbols _ hmem _ (List.mem_cons_self ..) rfl,
    fun hmem => hkeys _ hmem _ (List.mem_cons_self ..) rfl⟩

theorem Unused.tail (h : Unused es (e :: items)) : Unused (es ++ [e]) items := by
  refine ⟨?_, ?_, fun e he => h.inRange e (List.mem_cons_of_mem _ he)⟩
  · have hsymbols := h.symbols
    rwa [List.map_append, List.append_assoc]
  · have hkeys := h.keys
    rwa [List.map_append, List.append_assoc]

/- A symbol that is new to a table goes to a key that is. -/
theorem addSymbol_unused (h : Keyed getHash t) (hsymbol : e.2 ∉ t.entries.map Prod.snd)
    (hkey : e.1 ∉ t.entries.map Prod.fst) (hrange : 0 ≤ e.1 ∧ e.1 ≤ maxI64) :
    ∃ t', t.addSymbol getHash e.2 e.1 = some (e.1, t') ∧ Keyed getHash t' ∧
      t'.entries = t.entries ++ [e] ∧ t'.availableKey = nextAvailable t.availableKey e.1 := by
  rw [h.entries_snd] at hsymbol
  rw [h.entries_fst] at hkey
  have hne : e.1 ≠ kNoSymbol := by
    unfold kNoSymbol
    omega
  obtain ⟨t', hrun, hnew⟩ := addSymbol_appends h.toFilled hsymbol hne (by omega) hrange.2
  exact ⟨t', hrun, hnew.keyed h hne hkey, entries_appended h.toFilled hnew, hnew.availableKey_eq⟩

end Entries

section Phases

variable {getHash} {right merged : SymbolTableImpl}

/- What is known of right after a symbol of left decides how the loop goes on. -/
theorem mergeLeft_step (hright : Keyed getHash right) (items : List (ℤ × String))
    {merged₁ : SymbolTableImpl} {key : ℤ}
    (hadd : merged.addSymbol getHash e.2 e.1 = some (key, merged₁)) (rightHasAll relabel : Bool) :
    ∃ hasAll₁ relabel₁, mergeLeft getHash right (e :: items) merged rightHasAll relabel =
        mergeLeft getHash right items merged₁ hasAll₁ relabel₁ ∧
      (hasAll₁ = true ↔ rightHasAll = true ∧ e ∈ right.entries) ∧
      (hasAll₁ = true → relabel₁ = relabel) ∧
      (relabel₁ = true → relabel = true ∨ ∃ k, (k, e.2) ∈ right.entries ∧ k ≠ e.1) := by
  obtain ⟨label, symbol⟩ := e
  rw [mergeLeft, hadd]
  cases rightHasAll with
  | false => exact ⟨false, relabel, rfl, by simp, nofun, Or.inl⟩
  | true =>
    by_cases hmem : symbol ∈ right.entries.map Prod.snd
    · obtain ⟨⟨k, _⟩, hentry, rfl⟩ := List.mem_map.mp hmem
      have hne := ne_kNoSymbol_of_entry hright hentry
      simp only [Option.bind_eq_bind, Option.bind_some, if_true,
        findKey_of_entry hright.toFilled hentry]
      rw [if_neg hne]
      by_cases hk : k = label
      · subst hk
        exact ⟨true, relabel, if_neg (not_not.mpr rfl), by simp [hentry], fun _ => rfl, Or.inl⟩
      · refine ⟨false, true, if_pos hk, ⟨nofun, ?_⟩, nofun, fun _ => Or.inr ⟨k, hentry, hk⟩⟩
        rintro ⟨-, hsame⟩
        exact absurd (entry_inj_symbol (nodup_symbols hright.toFilled) hentry hsame) hk
    · simp only [Option.bind_eq_bind, Option.bind_some, if_true,
        findKey_absent hright.toFilled hmem]
      refine ⟨false, relabel, rfl, ⟨nofun, ?_⟩, nofun, Or.inl⟩
      rintro ⟨-, hentry⟩
      exact absurd (mem_symbols_of_entry hright.toFilled hentry) hmem

theorem mergeLeft_runs (hright : Keyed getHash right) (hmerged : Keyed getHash merged)
    (hitems : Unused merged.entries items) (rightHasAll relabel : Bool) :
    ∃ merged' hasAll relabel', mergeLeft getHash right items merged rightHasAll relabel =
        some (merged', hasAll, relabel') ∧
      Keyed getHash merged' ∧ merged'.entries = merged.entries ++ items ∧
      merged'.availableKey = (items.map Prod.fst).foldl nextAvailable merged.availableKey ∧
      (hasAll = true ↔ rightHasAll = true ∧ items ⊆ right.entries) ∧
      (hasAll = true → relabel' = relabel) ∧
      (relabel' = true → relabel = true ∨ ∃ e ∈ items, ∃ k, (k, e.2) ∈ right.entries ∧ k ≠ e.1) := by
  induction items generalizing merged rightHasAll relabel with
  | nil =>
    refine ⟨merged, rightHasAll, relabel, rfl, hmerged, by rw [List.append_nil], rfl, ?_,
      fun _ => rfl, fun h => Or.inl h⟩
    simp only [List.nil_subset, and_true]
  | cons e items ih =>
    obtain ⟨hsymbol, hkey⟩ := hitems.head
    obtain ⟨merged₁, hadd, hkeyed, hentries, havailable⟩ := addSymbol_unused hmerged hsymbol hkey
      (hitems.inRange e (List.mem_cons_self ..))
    have hitems' : Unused merged₁.entries items := hentries ▸ hitems.tail
    obtain ⟨hasAll₁, relabel₁, hstep, hall, hsame, hrelabel⟩ :=
      mergeLeft_step hright items hadd rightHasAll relabel
    obtain ⟨merged', hasAll, relabel', hrun, hkeyed', hentries', havailable', hall', hsame',
      hrelabel'⟩ := ih hkeyed hitems' hasAll₁ relabel₁
    refine ⟨merged', hasAll, relabel', hstep.trans hrun, hkeyed', ?_, ?_, ?_, ?_, ?_⟩
    · rw [hentries', hentries, List.append_assoc]
      rfl
    · rw [havailable', havailable]
      rfl
    · rw [hall', hall, List.cons_subset, and_assoc]
    · intro h
      rw [hsame' h, hsame (hall'.mp h).1]
    · intro h
      rcases hrelabel' h with h | ⟨e', he', hk⟩
      · exact (hrelabel h).imp_right fun hk => ⟨e, List.mem_cons_self .., hk⟩
      · exact Or.inr ⟨e', List.mem_cons_of_mem _ he', hk⟩

/- `base` is what left has put into the merged table. -/
theorem mergeRight_runs (base added : List (ℤ × String)) (hmerged : Keyed getHash merged)
    (hentries : merged.entries = base ++ added)
    (hsymbols : (added.map Prod.snd ++ items.map Prod.snd).Nodup)
    (hkeys : (added.map Prod.fst ++ items.map Prod.fst).Nodup)
    (hrange : ∀ e ∈ items, 0 ≤ e.1 ∧ e.1 ≤ maxI64) (leftHasAll relabel : Bool)
    (conflicts : List String) :
    ∃ merged' hasAll relabel', mergeRight getHash items merged leftHasAll relabel conflicts =
        some (merged', hasAll, relabel', conflicts ++ (clashing base items).map Prod.snd) ∧
      Keyed getHash merged' ∧ merged'.entries = base ++ added ++ kept base items ∧
      merged'.availableKey =
        ((kept base items).map Prod.fst).foldl nextAvailable merged.availableKey ∧
      (hasAll = true ↔ leftHasAll = true ∧ ∀ e ∈ items, e.2 ∈ base.map Prod.snd) ∧
      (relabel' = true ↔ relabel = true ∨ (∃ e ∈ items, ∃ k, (k, e.2) ∈ base ∧ k ≠ e.1) ∨
        clashing base items ≠ []) := by
  induction items generalizing merged added leftHasAll relabel conflicts with
  | nil =>
    refine ⟨merged, leftHasAll, relabel, ?_, hmerged, ?_, rfl, ?_, ?_⟩
    · rw [mergeRight, clashing, List.filter_nil, List.map_nil, List.append_nil]
    · rw [hentries, kept, List.filter_nil, List.append_nil]
    · simp
    · simp [clashing]
  | cons e items ih =>
    obtain ⟨label, symbol⟩ := e
    have hrange' : ∀ e ∈ items, 0 ≤ e.1 ∧ e.1 ≤ maxI64 :=
      fun e he => hrange e (List.mem_cons_of_mem _ he)
    have hskipSymbols := hsymbols.sublist ((List.sublist_cons_self ..).append_left _)
    have hskipKeys := hkeys.sublist ((List.sublist_cons_self ..).append_left _)
    have hfst := congrArg (List.map Prod.fst) hentries
    have hsnd := congrArg (List.map Prod.snd) hentries
    rw [List.map_append] at hfst hsnd
    by_cases hold : symbol ∈ base.map Prod.snd
    · obtain ⟨⟨k, name⟩, hentry, hname⟩ := List.mem_map.mp hold
      obtain rfl : name = symbol := hname
      have hthere := hentries ▸ List.mem_append_left added hentry
      have hne := ne_kNoSymbol_of_entry hmerged hthere
      obtain ⟨merged', hasAll, relabel', hrun, hkeyed, hentries', havailable, hall, hrelabel⟩ :=
        ih added hmerged hentries hskipSymbols hskipKeys hrange' leftHasAll
          (relabel || decide (k ≠ label)) conflicts
      have hkept : kept base ((label, name) :: items) = kept base items :=
        List.filter_cons_of_neg fun h => (of_decide_eq_true h).1 hold
      have hclashing : clashing base ((label, name) :: items) = clashing base items :=
        List.filter_cons_of_neg fun h => (of_decide_eq_true h).1 hold
      rw [hkept, hclashing]
      refine ⟨merged', hasAll, relabel', ?_, hkeyed, hentries', havailable, ?_, ?_⟩
      · rw [mergeRight, findKey_of_entry hmerged.toFilled hthere]
        simp only [Option.bind_eq_bind, Option.bind_some]
        rw [if_pos hne, hrun]
      · rw [hall, List.forall_mem_cons]
        exact ⟨fun h => ⟨h.1, hold, h.2⟩, fun h => ⟨h.1, h.2.2⟩⟩
      · rw [hrelabel, Bool.or_eq_true, decide_eq_true_eq, or_assoc]
        refine or_congr_right ?_
        rw [List.exists_mem_cons_iff, or_assoc]
        refine or_congr_left ⟨fun h => ⟨k, hentry, h⟩, ?_⟩
        rintro ⟨k', hentry', h⟩
        have hbase : k' = k := entry_inj_symbol (nodup_symbols hmerged.toFilled)
          (hentries ▸ List.mem_append_left added hentry') hthere
        exact hbase ▸ h
    · have hadded : symbol ∉ added.map Prod.snd := fun hmem =>
        (List.nodup_append.mp hsymbols).2.2 _ hmem _ (List.mem_cons_self ..) rfl
      have hlabel : label ∉ added.map Prod.fst := fun hmem =>
        (List.nodup_append.mp hkeys).2.2 _ hmem _ (List.mem_cons_self ..) rfl
      have habsent : symbol ∉ merged.entries.map Prod.snd := by
        rw [hsnd, List.mem_append]
        exact not_or.mpr ⟨hold, hadded⟩
      have hfind := findKey_absent hmerged.toFilled habsent
      have hbase : ¬∃ k, (k, symbol) ∈ base := by
        rintro ⟨k, hentry⟩
        exact hold (List.mem_map.mpr ⟨_, hentry, rfl⟩)
      by_cases htaken : label ∈ base.map Prod.fst
      · have hsome : (merged.findSymbol label).isSome :=
          (findSymbol_isSome hmerged).mpr (hfst ▸ List.mem_append_left _ htaken)
        obtain ⟨merged', hasAll, relabel', hrun, hkeyed, hentries', havailable, hall, hrelabel⟩ :=
          ih added hmerged hentries hskipSymbols hskipKeys hrange' false true (conflicts ++ [symbol])
        have hkept : kept base ((label, symbol) :: items) = kept base items :=
          List.filter_cons_of_neg fun h => (of_decide_eq_true h).2 htaken
        have hclashing : clashing base ((label, symbol) :: items) =
            (label, symbol) :: clashing base items :=
          List.filter_cons_of_pos (decide_eq_true ⟨hold, htaken⟩)
        rw [hkept, hclashing]
        refine ⟨merged', hasAll, relabel', ?_, hkeyed, hentries', havailable, ?_, ?_⟩
        · rw [mergeRight, hfind]
          simp only [Option.bind_eq_bind, Option.bind_some]
          rw [if_neg (not_not.mpr rfl), if_pos hsome, hrun, List.append_assoc]
          rfl
        · rw [hall]
          exact ⟨fun h => absurd h.1 Bool.false_ne_true, fun h => absurd (h.2 _ (List.mem_cons_self ..)) hold⟩
        · rw [hrelabel]
          exact ⟨fun _ => Or.inr (Or.inr (List.cons_ne_nil _ _)), fun _ => Or.inl rfl⟩
      · have hfree : label ∉ merged.entries.map Prod.fst := by
          rw [hfst, List.mem_append]
          exact not_or.mpr ⟨htaken, hlabel⟩
        have hnone : ¬(merged.findSymbol label).isSome :=
          fun h => hfree ((findSymbol_isSome hmerged).mp h)
        obtain ⟨merged₁, hadd, hkeyed₁, hentries₁, havailable₁⟩ := addSymbol_unused
          (e := (label, symbol)) hmerged habsent hfree (hrange _ (List.mem_cons_self ..))
        have hadded₁ : merged₁.entries = base ++ (added ++ [(label, symbol)]) := by
          rw [hentries₁, hentries, List.append_assoc]
        obtain ⟨merged', hasAll, relabel', hrun, hkeyed, hentries', havailable, hall, hrelabel⟩ :=
          ih (added ++ [(label, symbol)]) hkeyed₁ hadded₁ (by rwa [List.map_append, List.append_assoc])
            (by rwa [List.map_append, List.append_assoc]) hrange' false relabel conflicts
        have hkept : kept base ((label, symbol) :: items) =
            (label, symbol) :: kept base items :=
          List.filter_cons_of_pos (decide_eq_true ⟨hold, htaken⟩)
        have hclashing : clashing base ((label, symbol) :: items) = clashing base items :=
          List.filter_cons_of_neg fun h => htaken (of_decide_eq_true h).2
        rw [hkept, hclashing]
        refine ⟨merged', hasAll, relabel', ?_, hkeyed, ?_, ?_, ?_, ?_⟩
        · rw [mergeRight, hfind]
          simp only [Option.bind_eq_bind, Option.bind_some]
          rw [if_neg (not_not.mpr rfl), if_neg hnone, hadd]
          exact hrun
        · rw [hentries']
          simp only [List.append_assoc, List.singleton_append]
        · rw [havailable, havailable₁]
          rfl
        · rw [hall]
          exact ⟨fun h => absurd h.1 Bool.false_ne_true, fun h => absurd (h.2 _ (List.mem_cons_self ..)) hold⟩
        · rw [hrelabel, List.exists_mem_cons_iff]
          refine or_congr_right (or_congr_left ⟨Or.inr, ?_⟩)
          rintro (⟨k, hentry, -⟩ | h)
          · exact absurd ⟨k, hentry⟩ hbase
          · exact h

theorem addConflicts_runs {conflicts : List String} (h : Filled getHash merged)
    (ha : wrapI64 merged.availableKey = merged.availableKey)
    (hnew : (merged.entries.map Prod.snd ++ conflicts).Nodup) :
    ∃ merged', addConflicts getHash conflicts merged = some merged' ∧ Filled getHash merged' ∧
      merged'.entries = merged.entries ++
        (autoKeys conflicts.length merged.availableKey).zip conflicts ∧
      (Keyed getHash merged →
        (merged.keys ++ autoKeys conflicts.length merged.availableKey).Nodup →
        Keyed getHash merged') := by
  induction conflicts generalizing merged with
  | nil => exact ⟨merged, rfl, h, by rw [List.zip_nil_right, List.append_nil], fun hm _ => hm⟩
  | cons s conflicts ih =>
    by_cases hnone : merged.availableKey = kNoSymbol
    · have hadd : merged.addSymbolAuto getHash s = some (merged.availableKey, merged) := if_pos hnone
      obtain ⟨merged', hrun, hfilled, hentries, hkeyed⟩ :=
        ih h ha (hnew.sublist ((List.sublist_cons_self ..).append_left _))
      rw [hnone, autoKeys_kNoSymbol] at hentries hkeyed ⊢
      refine ⟨merged', ?_, hfilled, hentries, hkeyed⟩
      rw [addConflicts, hadd]
      exact hrun
    · have hs : s ∉ merged.symbols.symbols := by
        rw [← h.entries_snd]
        exact fun hmem => (List.nodup_append.mp hnew).2.2 _ hmem _ (List.mem_cons_self ..) rfl
      obtain ⟨hlow, hhigh⟩ := inRange_of_wrapI64 ha
      obtain ⟨merged₁, hadd, happended⟩ := addSymbol_appends h hs hnone hlow hhigh
      have hentries₁ := entries_appended h happended
      have havailable : merged₁.availableKey = wrapI64 (merged.availableKey + 1) := by
        rw [happended.availableKey_eq, nextAvailable, if_pos le_rfl]
      have hnew₁ : (merged₁.entries.map Prod.snd ++ conflicts).Nodup := by
        rwa [hentries₁, List.map_append, List.append_assoc]
      obtain ⟨merged', hrun, hfilled, hentries, hkeyed⟩ := ih happended.filled
        (by rw [havailable, wrapI64_wrapI64]) hnew₁
      rw [havailable] at hentries hkeyed
      rw [List.length_cons, autoKeys, if_neg hnone, List.zip_cons_cons]
      refine ⟨merged', ?_, hfilled, ?_, fun hm hnodup => ?_⟩
      · rw [addConflicts, addSymbolAuto, hadd]
        exact hrun
      · rw [hentries, hentries₁, List.append_assoc, List.singleton_append]
      · refine hkeyed (happended.keyed hm hnone ?_) ?_
        · exact fun hmem => (List.nodup_append.mp hnodup).2.2 _ hmem _ (List.mem_cons_self ..) rfl
        · rwa [happended.keys_eq, List.append_assoc]

end Phases

section Merge

variable {getHash} {left right : SymbolTableImpl}

/- Keys that are not negative, and that 64 bits hold. -/
def NonNegative (t : SymbolTableImpl) : Prop := ∀ e ∈ t.entries, 0 ≤ e.1 ∧ e.1 ≤ maxI64

/- A symbol of right that left has under another key. -/
def Differs (left right : List (ℤ × String)) : Prop :=
  ∃ e ∈ right, ∃ k, (k, e.2) ∈ left ∧ k ≠ e.1

variable {fs : List (ℤ × String)}

theorem mem_kept :
    e ∈ kept es fs ↔ e ∈ fs ∧ e.2 ∉ es.map Prod.snd ∧ e.1 ∉ es.map Prod.fst := by
  rw [kept, List.mem_filter, decide_eq_true_eq]

theorem mem_clashing :
    e ∈ clashing es fs ↔ e ∈ fs ∧ e.2 ∉ es.map Prod.snd ∧ e.1 ∈ es.map Prod.fst := by
  rw [clashing, List.mem_filter, decide_eq_true_eq]

theorem clashing_eq_nil_of_subset (hfs : (fs.map Prod.fst).Nodup) (hsub : es ⊆ fs) :
    clashing es fs = [] := by
  refine List.eq_nil_iff_forall_not_mem.mpr fun e he => ?_
  obtain ⟨hmem, hsymbol, hkey⟩ := mem_clashing.mp he
  obtain ⟨e', he', hsame⟩ := List.mem_map.mp hkey
  have heq : e' = e := List.inj_on_of_nodup_map hfs (hsub he') hmem hsame
  exact hsymbol (List.mem_map.mpr ⟨e', he', heq ▸ rfl⟩)

theorem clashing_eq_nil_of_symbols (hall : ∀ e ∈ fs, e.2 ∈ es.map Prod.snd) :
    clashing es fs = [] :=
  List.eq_nil_iff_forall_not_mem.mpr fun e he =>
    (mem_clashing.mp he).2.1 (hall e (mem_clashing.mp he).1)

theorem numbersFree_of_nil (h : clashing es fs = []) :
    NumbersFree es fs := by
  intro j hj
  rw [h] at hj
  cases hj

/- What is given back is right, or left, or a table of its own. -/
theorem merge_cases (hleft : Keyed getHash left) (hright : Keyed getHash right)
    (hl : NonNegative left) (hr : NonNegative right) :
    (left.entries ⊆ right.entries ∧
      mergeSymbolTable getHash left right = some (right, false)) ∨
    (∃ relabel, (∀ e ∈ right.entries, e.2 ∈ left.entries.map Prod.snd) ∧
      mergeSymbolTable getHash left right = some (left, relabel) ∧
      (relabel = true ↔ Differs left.entries right.entries)) ∨
    ∃ merged relabel, mergeSymbolTable getHash left right = some (merged, relabel) ∧
      Filled getHash merged ∧
      merged.entries = mergedEntries left.entries right.entries ∧
      (relabel = true ↔ Differs left.entries right.entries ∨
        clashing left.entries right.entries ≠ []) ∧
      ((usedKeys left.entries right.entries ++ newKeys left.entries right.entries).Nodup →
        Keyed getHash merged) := by
  have hempty : Keyed getHash (.new ("merge_" ++ left.name ++ "_" ++ right.name)) :=
    (consistent_new _).keyed
  have hleftItems : Unused (SymbolTableImpl.new ("merge_" ++ left.name ++ "_" ++
      right.name)).entries left.entries :=
    ⟨nodup_symbols hleft.toFilled, nodup_keys hleft, hl⟩
  obtain ⟨merged, hasAll, relabel, hrun, hmerged, hentries, havailable, hall, hsame, hrelabel⟩ :=
    mergeLeft_runs hright hempty hleftItems true false
  rw [show (SymbolTableImpl.new _).entries = [] from rfl, List.nil_append] at hentries
  unfold mergeSymbolTable
  rw [hleft.iter_eq, hright.iter_eq]
  simp only [Option.bind_eq_bind, Option.bind_some, hrun]
  cases hasAll with
  | true =>
    left
    obtain rfl : relabel = false := hsame rfl
    exact ⟨(hall.mp rfl).2, rfl⟩
  | false =>
    right
    obtain ⟨merged₁, hasAll₁, relabel₁, hrun₁, hmerged₁, hentries₁, havailable₁, hall₁, hrelabel₁⟩ :=
      mergeRight_runs left.entries [] hmerged
        (by rw [hentries, List.append_nil]) (nodup_symbols hright.toFilled) (nodup_keys hright) hr
        true relabel []
    rw [List.append_nil] at hentries₁
    have hdiffers : relabel₁ = true ↔ Differs left.entries right.entries ∨
        clashing left.entries right.entries ≠ [] := by
      rw [hrelabel₁]
      refine ⟨?_, Or.inr⟩
      rintro (h | h)
      · rcases hrelabel h with hno | ⟨e, he, k, hk, hne⟩
        · cases hno
        · exact Or.inl ⟨(k, e.2), hk, e.1, he, hne.symm⟩
      · exact h
    simp only [Bool.false_eq_true, if_false, hrun₁, Option.bind_some]
    cases hasAll₁ with
    | true =>
      left
      have hthere := (hall₁.mp rfl).2
      refine ⟨relabel₁, hthere, rfl, ?_⟩
      rw [hdiffers, clashing_eq_nil_of_symbols hthere]
      exact or_iff_left fun h => h rfl
    | false =>
      right
      have hfirst : merged₁.availableKey = firstNumber left.entries right.entries := by
        rw [havailable₁, havailable, firstNumber, usedKeys, List.map_append, List.foldl_append]
        rfl
      have hnew : (merged₁.entries.map Prod.snd ++
          (clashing left.entries right.entries).map Prod.snd).Nodup := by
        refine List.nodup_append.mpr ⟨nodup_symbols hmerged₁.toFilled,
          (nodup_symbols hright.toFilled).sublist (List.filter_sublist.map _), ?_⟩
        intro s hs s' hs' heq
        obtain ⟨e', he', rfl⟩ := List.mem_map.mp hs'
        obtain ⟨hmem, hsymbol, hkey⟩ := mem_clashing.mp he'
        rw [hentries₁, List.map_append] at hs
        rcases List.mem_append.mp hs with hs | hs
        · exact hsymbol (heq ▸ hs)
        · obtain ⟨e, he, hname⟩ := List.mem_map.mp hs
          obtain ⟨hmem', -, hfree⟩ := mem_kept.mp he
          have hsame' : e = e' := List.inj_on_of_nodup_map (nodup_symbols hright.toFilled) hmem'
            hmem (hname.trans heq)
          exact hfree (hsame' ▸ hkey)
      obtain ⟨merged₂, hrun₂, hfilled₂, hentries₂, hkeyed₂⟩ :=
        addConflicts_runs hmerged₁.toFilled (by rw [hfirst]; exact wrapI64_foldl _ rfl) hnew
      rw [hfirst, List.length_map] at hentries₂ hkeyed₂
      refine ⟨merged₂, relabel₁, ?_, hfilled₂, ?_, hdiffers, fun hnodup => hkeyed₂ hmerged₁ ?_⟩
      · rw [List.nil_append, hrun₂]
        rfl
      · rw [hentries₂, hentries₁]
        rfl
      · rwa [← hmerged₁.entries_fst, hentries₁]

theorem merges_right (hleft : Keyed getHash left) (hright : Keyed getHash right)
    (hsub : left.entries ⊆ right.entries) :
    MergesWithoutLoss getHash left right right false where
  left_kept k s hk hfind := by
    have hentry := hsub (entry_of_findKey hleft.toFilled hk hfind)
    exact ⟨findKey_of_entry hright.toFilled hentry, (findSymbol_iff_entry hright).mpr hentry⟩
  right_there k s hk hfind := ⟨k, hk, hfind⟩
  apart k s s' hk hfind hfind' := entry_inj (nodup_keys hright)
    (entry_of_findKey hright.toFilled hk hfind) (entry_of_findKey hright.toFilled hk hfind')
  right_kept k s hk hfind _ _ := hfind
  relabel_iff := ⟨nofun, fun ⟨_, _, _, hfind, hne⟩ => absurd hfind hne⟩

variable {relabel : Bool} {merged : SymbolTableImpl}

theorem merges_left (hleft : Keyed getHash left) (hright : Keyed getHash right)
    (hall : ∀ e ∈ right.entries, e.2 ∈ left.entries.map Prod.snd)
    (hrelabel : relabel = true ↔ Differs left.entries right.entries) :
    MergesWithoutLoss getHash left right left relabel where
  left_kept k s hk hfind :=
    ⟨hfind, (findSymbol_iff_entry hleft).mpr (entry_of_findKey hleft.toFilled hk hfind)⟩
  right_there k s hk hfind := by
    obtain ⟨e, he, rfl⟩ :=
      List.mem_map.mp (hall _ (entry_of_findKey hright.toFilled hk hfind))
    exact ⟨e.1, ne_kNoSymbol_of_entry hleft he, findKey_of_entry hleft.toFilled he⟩
  apart k s s' hk hfind hfind' := entry_inj (nodup_keys hleft)
    (entry_of_findKey hleft.toFilled hk hfind) (entry_of_findKey hleft.toFilled hk hfind')
  right_kept k s hk hfind habsent _ := by
    obtain ⟨e, he, rfl⟩ :=
      List.mem_map.mp (hall _ (entry_of_findKey hright.toFilled hk hfind))
    rw [findKey_of_entry hleft.toFilled he] at habsent
    exact absurd (Option.some.inj habsent) (ne_kNoSymbol_of_entry hleft he)
  relabel_iff := by
    rw [hrelabel]
    constructor
    · rintro ⟨e, he, k, hentry, hne⟩
      refine ⟨e.1, e.2, ne_kNoSymbol_of_entry hright he, findKey_of_entry hright.toFilled he, ?_⟩
      rw [findKey_of_entry hleft.toFilled hentry]
      exact fun h => hne (Option.some.inj h)
    · rintro ⟨k, s, hk, hfind, hne⟩
      have hentry := entry_of_findKey hright.toFilled hk hfind
      obtain ⟨⟨k', s'⟩, he, rfl⟩ := List.mem_map.mp (hall _ hentry)
      refine ⟨_, hentry, k', he, ?_⟩
      rintro rfl
      exact hne (findKey_of_entry hleft.toFilled he)

/- Each symbol of right is one of left, or keeps its key, or is numbered anew. -/
theorem right_cases (left : SymbolTableImpl) (he : e ∈ right.entries) :
    e.2 ∈ left.entries.map Prod.snd ∨ e ∈ kept left.entries right.entries ∨
      e ∈ clashing left.entries right.entries := by
  by_cases hsymbol : e.2 ∈ left.entries.map Prod.snd
  · exact Or.inl hsymbol
  · by_cases hkey : e.1 ∈ left.entries.map Prod.fst
    · exact Or.inr (Or.inr (mem_clashing.mpr ⟨he, hsymbol, hkey⟩))
    · exact Or.inr (Or.inl (mem_kept.mpr ⟨he, hsymbol, hkey⟩))

theorem nodup_usedKeys (hleft : Keyed getHash left) (hright : Keyed getHash right) :
    (usedKeys left.entries right.entries).Nodup := by
  rw [usedKeys, List.map_append]
  refine List.nodup_append.mpr ⟨nodup_keys hleft,
    (nodup_keys hright).sublist (List.filter_sublist.map _), ?_⟩
  intro k hk k' hk' heq
  obtain ⟨e, he, rfl⟩ := List.mem_map.mp hk'
  exact (mem_kept.mp he).2.2 (heq ▸ hk)

theorem length_clashing_le (hright : Keyed getHash right) (hr : NonNegative right)
    (es : List (ℤ × String)) : (clashing es right.entries).length ≤ 2 ^ 63 := by
  have hnodup : ((clashing es right.entries).map Prod.fst).Nodup :=
    (nodup_keys hright).sublist (List.filter_sublist.map _)
  have hsub : ((clashing es right.entries).map Prod.fst).toFinset ⊆ Finset.Ico (0 : ℤ) (2 ^ 63) := by
    intro k hk
    obtain ⟨e, he, rfl⟩ := List.mem_map.mp (List.mem_toFinset.mp hk)
    obtain ⟨hlow, hhigh⟩ := hr e (mem_clashing.mp he).1
    unfold maxI64 at hhigh
    exact Finset.mem_Ico.mpr ⟨hlow, by omega⟩
  have hcard := Finset.card_le_card hsub
  rw [List.toFinset_card_of_nodup hnodup, List.length_map, Int.card_Ico] at hcard
  omega

theorem wrapI64_firstNumber (es fs : List (ℤ × String)) :
    wrapI64 (firstNumber es fs) = firstNumber es fs := wrapI64_foldl _ rfl

theorem newKeys_of_free (hfree : NumbersFree es fs) :
    newKeys es fs =
      (List.range (clashing es fs).length).map fun j : ℕ => wrapI64 (firstNumber es fs + j) :=
  autoKeys_eq (wrapI64_firstNumber es fs) fun j hj hnone =>
    hfree j hj (hnone ▸ List.mem_cons_self ..)

theorem fresh_of_free (hfree : NumbersFree es fs) :
    ∀ k ∈ newKeys es fs, k ∉ usedKeys es fs := by
  intro k hk hused
  rw [newKeys_of_free hfree] at hk
  obtain ⟨j, hj, rfl⟩ := List.mem_map.mp hk
  exact hfree j (List.mem_range.mp hj) (List.mem_cons_of_mem _ hused)

theorem nodup_of_free (hleft : Keyed getHash left) (hright : Keyed getHash right)
    (hr : NonNegative right) (hfree : NumbersFree left.entries right.entries) :
    (usedKeys left.entries right.entries ++ newKeys left.entries right.entries).Nodup := by
  refine List.nodup_append.mpr ⟨nodup_usedKeys hleft hright, ?_, ?_⟩
  · rw [newKeys_of_free hfree]
    exact nodup_numbers (length_clashing_le hright hr _) _
  · intro k hk k' hk' heq
    exact fresh_of_free hfree k' hk' (heq ▸ hk)

/- A clashing symbol is found under the number it was given. -/
theorem numbered (hlength : (newKeys es fs).length = (clashing es fs).length)
    (he : e ∈ clashing es fs) :
    ∃ k ∈ newKeys es fs, (k, e.2) ∈ mergedEntries es fs := by
  obtain ⟨j, hj, rfl⟩ := List.mem_iff_getElem.mp he
  have hlt : j < (newKeys es fs).length := hlength ▸ hj
  refine ⟨_, List.getElem_mem hlt,
    List.mem_append_right _ (List.mem_iff_getElem?.mpr ⟨j, ?_⟩)⟩
  rw [List.getElem?_zip_eq_some, List.getElem?_map, List.getElem?_eq_getElem hj]
  exact ⟨List.getElem?_eq_getElem hlt, rfl⟩

theorem merges_of_free (hleft : Keyed getHash left) (hright : Keyed getHash right)
    (hfree : NumbersFree left.entries right.entries) (hmerged : Keyed getHash merged)
    (hentries : merged.entries = mergedEntries left.entries right.entries)
    (hrelabel : relabel = true ↔ Differs left.entries right.entries ∨
      clashing left.entries right.entries ≠ []) :
    MergesWithoutLoss getHash left right merged relabel := by
  have hleftIn : ∀ e ∈ left.entries, e ∈ merged.entries := fun e he =>
    hentries ▸ List.mem_append_left _ (List.mem_append_left _ he)
  have hkeptIn : ∀ e ∈ kept left.entries right.entries, e ∈ merged.entries := fun e he =>
    hentries ▸ List.mem_append_left _ (List.mem_append_right _ he)
  have hnumbered : ∀ e ∈ clashing left.entries right.entries,
      ∃ k ∈ newKeys left.entries right.entries, (k, e.2) ∈ merged.entries := by
    intro e he
    rw [hentries]
    refine numbered ?_ he
    rw [newKeys_of_free hfree, List.length_map, List.length_range]
  have hfind : ∀ {k s}, (k, s) ∈ merged.entries → merged.findKey getHash s = some k :=
    findKey_of_entry hmerged.toFilled
  constructor
  · intro k s hk hold
    have hentry := hleftIn _ (entry_of_findKey hleft.toFilled hk hold)
    exact ⟨hfind hentry, (findSymbol_iff_entry hmerged).mpr hentry⟩
  · intro k s hk hold
    have hthere : ∃ k', (k', s) ∈ merged.entries := by
      rcases right_cases left (entry_of_findKey hright.toFilled hk hold) with h | h | h
      · obtain ⟨e, he, rfl⟩ := List.mem_map.mp h
        exact ⟨e.1, hleftIn e he⟩
      · exact ⟨k, hkeptIn _ h⟩
      · obtain ⟨k', -, hentry⟩ := hnumbered _ h
        exact ⟨k', hentry⟩
    obtain ⟨k', hentry⟩ := hthere
    exact ⟨k', ne_kNoSymbol_of_entry hmerged hentry, hfind hentry⟩
  · intro k s s' hk hfound hfound'
    exact entry_inj (nodup_keys hmerged) (entry_of_findKey hmerged.toFilled hk hfound)
      (entry_of_findKey hmerged.toFilled hk hfound')
  · intro k s hk hold habsent hnone
    refine hfind (hkeptIn _ (mem_kept.mpr ⟨entry_of_findKey hright.toFilled hk hold, ?_, ?_⟩))
    · intro hmem
      obtain ⟨e, he, rfl⟩ := List.mem_map.mp hmem
      rw [findKey_of_entry hleft.toFilled he] at habsent
      exact ne_kNoSymbol_of_entry hleft he (Option.some.inj habsent)
    · intro hmem
      have hsome := (findSymbol_isSome hleft).mpr hmem
      rw [hnone] at hsome
      cases hsome
  · rw [hrelabel]
    constructor
    · rintro (⟨e, he, k, hentry, hne⟩ | hclash)
      · refine ⟨e.1, e.2, ne_kNoSymbol_of_entry hright he, findKey_of_entry hright.toFilled he, ?_⟩
        rw [hfind (hleftIn _ hentry)]
        exact fun h => hne (Option.some.inj h)
      · obtain ⟨e, he⟩ := List.exists_mem_of_ne_nil _ hclash
        obtain ⟨hmem, -, hkey⟩ := mem_clashing.mp he
        obtain ⟨k, hk, hentry⟩ := hnumbered e he
        refine ⟨e.1, e.2, ne_kNoSymbol_of_entry hright hmem,
          findKey_of_entry hright.toFilled hmem, ?_⟩
        rw [hfind hentry]
        intro h
        obtain rfl := Option.some.inj h
        refine fresh_of_free hfree _ hk ?_
        rw [usedKeys, List.map_append]
        exact List.mem_append_left _ hkey
    · rintro ⟨k, s, hk, hold, hne⟩
      have hentry := entry_of_findKey hright.toFilled hk hold
      rcases right_cases left hentry with h | h | h
      · obtain ⟨⟨k', s'⟩, he, rfl⟩ := List.mem_map.mp h
        refine Or.inl ⟨_, hentry, k', he, ?_⟩
        rintro rfl
        exact hne (hfind (hleftIn _ he))
      · exact absurd (hfind (hkeptIn _ h)) hne
      · exact Or.inr (List.ne_nil_of_mem h)

theorem clashing_apart (hfs : (fs.map Prod.snd).Nodup) {e' : ℤ × String} (he : e ∈ clashing es fs)
    (he' : e' ∈ es ++ kept es fs) : e'.2 ≠ e.2 := by
  intro heq
  obtain ⟨hmem, hsymbol, hkey⟩ := mem_clashing.mp he
  rcases List.mem_append.mp he' with hold | hkept
  · exact hsymbol (List.mem_map.mpr ⟨e', hold, heq⟩)
  · obtain ⟨hmem', -, hfree⟩ := mem_kept.mp hkept
    have hsame : e' = e := List.inj_on_of_nodup_map hfs hmem' hmem heq
    exact hfree (hsame ▸ hkey)

/- Numbering went on to the end, or the symbol after the last number is lost. -/
theorem length_of_merges (hright : Keyed getHash right) (hmerged : Filled getHash merged)
    (hentries : merged.entries = mergedEntries left.entries right.entries)
    (h : MergesWithoutLoss getHash left right merged relabel) :
    (newKeys left.entries right.entries).length =
      (clashing left.entries right.entries).length := by
  by_contra hne
  have hlt : (newKeys left.entries right.entries).length <
      (clashing left.entries right.entries).length :=
    lt_of_le_of_ne (length_autoKeys_le _ _) hne
  obtain ⟨e, he⟩ : ∃ e, (clashing left.entries right.entries)[
      (newKeys left.entries right.entries).length]? = some e :=
    ⟨_, List.getElem?_eq_getElem hlt⟩
  have hclash := List.mem_of_getElem? he
  have hmem := (mem_clashing.mp hclash).1
  obtain ⟨k, hk, hfind⟩ := h.right_there e.1 e.2 (ne_kNoSymbol_of_entry hright hmem)
    (findKey_of_entry hright.toFilled hmem)
  have hentry := entry_of_findKey hmerged hk hfind
  rw [hentries] at hentry
  rcases List.mem_append.mp hentry with hold | hnew
  · exact clashing_apart (nodup_symbols hright.toFilled) hclash hold rfl
  · obtain ⟨i, hi⟩ := List.mem_iff_getElem?.mp hnew
    obtain ⟨hkey, hsymbol⟩ := List.getElem?_zip_eq_some.mp hi
    have hilt := (List.getElem?_eq_some_iff.mp hkey).1
    have hnodup : ((clashing left.entries right.entries).map Prod.snd).Nodup :=
      (nodup_symbols hright.toFilled).sublist (List.filter_sublist.map _)
    have hlast : ((clashing left.entries right.entries).map Prod.snd)[
        (newKeys left.entries right.entries).length]? = some e.2 := by
      rw [List.getElem?_map, he]
      rfl
    have heq := (List.getElem?_inj (List.getElem?_eq_some_iff.mp hsymbol).1 hnodup).mp
      (hsymbol.trans hlast.symm)
    omega

theorem free_of_merges (hright : Keyed getHash right) (hmerged : Filled getHash merged)
    (hentries : merged.entries = mergedEntries left.entries right.entries)
    (h : MergesWithoutLoss getHash left right merged relabel) :
    NumbersFree left.entries right.entries := by
  have hlength := length_of_merges hright hmerged hentries h
  have hne := ne_of_length_autoKeys (wrapI64_firstNumber _ _) hlength
  have hkeys : newKeys left.entries right.entries = _ :=
    autoKeys_eq (wrapI64_firstNumber left.entries right.entries) hne
  intro j hj hmem
  rcases List.mem_cons.mp hmem with hnone | hused
  · exact hne j hj hnone
  · obtain ⟨e', he', hkey⟩ := List.mem_map.mp hused
    obtain ⟨e, he⟩ : ∃ e, (clashing left.entries right.entries)[j]? = some e :=
      ⟨_, List.getElem?_eq_getElem hj⟩
    have hnew : (wrapI64 (firstNumber left.entries right.entries + j), e.2) ∈ merged.entries := by
      rw [hentries]
      refine List.mem_append_right _ (List.mem_iff_getElem?.mpr ⟨j, ?_⟩)
      rw [List.getElem?_zip_eq_some, hkeys, List.getElem?_map, List.getElem?_map,
        List.getElem?_range hj, he]
      exact ⟨rfl, rfl⟩
    have hold : (wrapI64 (firstNumber left.entries right.entries + j), e'.2) ∈ merged.entries := by
      rw [hentries, ← hkey]
      exact List.mem_append_left _ he'
    exact clashing_apart (nodup_symbols hright.toFilled) (List.mem_of_getElem? he) he'
      (h.apart _ _ _ (hne j hj) (findKey_of_entry hmerged hold) (findKey_of_entry hmerged hnew))

theorem mergeSymbolTable_iff (getHash : String → ℕ) (left right : SymbolTableImpl)
    (hleft : Keyed getHash left) (hright : Keyed getHash right) (hl : NonNegative left)
    (hr : NonNegative right) :
    ∃ merged relabel, mergeSymbolTable getHash left right = some (merged, relabel) ∧
      (MergesWithoutLoss getHash left right merged relabel ↔
        NumbersFree left.entries right.entries) := by
  rcases merge_cases hleft hright hl hr with ⟨hsub, hrun⟩ | ⟨relabel, hall, hrun, hrelabel⟩ |
    ⟨merged, relabel, hrun, hfilled, hentries, hrelabel, hkeyed⟩
  · exact ⟨right, false, hrun,
      fun _ => numbersFree_of_nil (clashing_eq_nil_of_subset (nodup_keys hright) hsub),
      fun _ => merges_right hleft hright hsub⟩
  · exact ⟨left, relabel, hrun, fun _ => numbersFree_of_nil (clashing_eq_nil_of_symbols hall),
      fun _ => merges_left hleft hright hall hrelabel⟩
  · exact ⟨merged, relabel, hrun, free_of_merges hright hfilled hentries,
      fun hfree => merges_of_free hleft hright hfree
        (hkeyed (nodup_of_free hleft hright hr hfree)) hentries hrelabel⟩

/- A table with these symbols and keys, added one after the other. -/
theorem exists_table (getHash : String → ℕ) {t : SymbolTableImpl} (ht : Keyed getHash t)
    (hitems : Unused t.entries items) :
    ∃ t', items.foldlM (fun t e => (t.addSymbol getHash e.2 e.1).map Prod.snd) t = some t' ∧
      Keyed getHash t' ∧ t'.entries = t.entries ++ items := by
  induction items generalizing t with
  | nil => exact ⟨t, rfl, ht, (List.append_nil _).symm⟩
  | cons e items ih =>
    obtain ⟨hsymbol, hkey⟩ := hitems.head
    obtain ⟨t₁, hadd, hkeyed, hentries, -⟩ := addSymbol_unused ht hsymbol hkey
      (hitems.inRange e (List.mem_cons_self ..))
    obtain ⟨t', hrun, hkeyed', hentries'⟩ := ih hkeyed (hentries ▸ hitems.tail)
    refine ⟨t', ?_, hkeyed', ?_⟩
    · rw [List.foldlM_cons, hadd]
      exact hrun
    · rw [hentries', hentries, List.append_assoc]
      rfl

theorem exists_table_of_nodup (getHash : String → ℕ) (items : List (ℤ × String))
    (hsymbols : (items.map Prod.snd).Nodup) (hkeys : (items.map Prod.fst).Nodup)
    (hrange : ∀ e ∈ items, 0 ≤ e.1 ∧ e.1 ≤ maxI64) :
    ∃ t, items.foldlM (fun t e => (t.addSymbol getHash e.2 e.1).map Prod.snd) (.new "") = some t ∧
      Keyed getHash t ∧ t.entries = items :=
  exists_table getHash (consistent_new "").keyed ⟨hsymbols, hkeys, hrange⟩

theorem mergeSymbolTable_iff_clashing : ∃ left right,
    left.entries = [(0, "a"), (3, "b")] ∧ right.entries = [(3, "c"), (4, "a")] ∧
    ∃ merged relabel, mergeSymbolTable String.length left right = some (merged, relabel) ∧
      (MergesWithoutLoss String.length left right merged relabel ↔
        NumbersFree left.entries right.entries) := by
  obtain ⟨left, -, hleft, hl⟩ := exists_table_of_nodup String.length [(0, "a"), (3, "b")]
    (by decide) (by decide) (by decide)
  obtain ⟨right, -, hright, hr⟩ := exists_table_of_nodup String.length [(3, "c"), (4, "a")]
    (by decide) (by decide) (by decide)
  exact ⟨left, right, hl, hr, mergeSymbolTable_iff String.length left right hleft hright
    (by rw [NonNegative, hl]; decide) (by rw [NonNegative, hr]; decide)⟩

/- After the last key of all the next one wraps around, and a key in use is given out again. -/
theorem key_bound_twice : ∃ left right merged relabel,
    [((7 : ℤ), "x"), (maxI64, "y"), (5, "z")].foldlM
      (fun t e => (addSymbol String.length t e.2 e.1).map Prod.snd) (.new "") = some left ∧
    [((7 : ℤ), "p"), (5, "q")].foldlM
      (fun t e => (addSymbol String.length t e.2 e.1).map Prod.snd) (.new "") = some right ∧
    Keyed String.length left ∧ Keyed String.length right ∧ NonNegative left ∧
    NonNegative right ∧ mergeSymbolTable String.length left right = some (merged, relabel) ∧
    ¬MergesWithoutLoss String.length left right merged relabel := by
  obtain ⟨left, hbuilt, hleft, hl⟩ := exists_table_of_nodup String.length
    [(7, "x"), (maxI64, "y"), (5, "z")] (by decide) (by decide) (by decide)
  obtain ⟨right, hbuilt', hright, hr⟩ := exists_table_of_nodup String.length [(7, "p"), (5, "q")]
    (by decide) (by decide) (by decide)
  have hnl : NonNegative left := by
    rw [NonNegative, hl]
    decide
  have hnr : NonNegative right := by
    rw [NonNegative, hr]
    decide
  have hnot : ¬NumbersFree left.entries right.entries := by
    rw [hl, hr]
    intro hfree
    exact hfree 1 (by decide) (by decide)
  rcases merge_cases hleft hright hnl hnr with ⟨hsub, -⟩ | ⟨-, hall, -⟩ |
    ⟨merged, relabel, hrun, hfilled, hentries, -⟩
  · exact absurd (numbersFree_of_nil (clashing_eq_nil_of_subset (nodup_keys hright) hsub)) hnot
  · exact absurd (numbersFree_of_nil (clashing_eq_nil_of_symbols hall)) hnot
  · exact ⟨left, right, merged, relabel, hbuilt, hbuilt', hleft, hright, hnl, hnr, hrun,
      fun h => hnot (free_of_merges hright hfilled hentries h)⟩

end Merge

end Sicada.SymbolTableOps
