import Sicada.BiTable

namespace Sicada.BiTablesExact

variable {T : Type} [DecidableEq T]

section Registry

variable {entries : List T} {entry e : T} {k : ℕ}

/- Where an entry stands. -/
def idOf (entries : List T) (entry : T) : Option ℕ := entries.findIdx? (· = entry)

theorem idOf_eq_some (hnodup : entries.Nodup) :
    idOf entries entry = some k ↔ entries[k]? = some entry := by
  unfold idOf
  rw [List.findIdx?_eq_some_iff_getElem]
  constructor
  · rintro ⟨hlt, hk, -⟩
    rw [List.getElem?_eq_getElem hlt, of_decide_eq_true hk]
  · intro hk
    obtain ⟨hlt, hget⟩ := List.getElem?_eq_some_iff.mp hk
    refine ⟨hlt, decide_eq_true hget, fun j hj => ?_⟩
    rw [decide_eq_true_eq]
    exact fun heq => hj.ne ((hnodup.getElem_inj_iff).mp (heq.trans hget.symm))

theorem idOf_eq_none : idOf entries entry = none ↔ entry ∉ entries := by
  unfold idOf
  rw [List.findIdx?_eq_none_iff]
  constructor
  · intro hall hmem
    simpa using hall entry hmem
  · intro hout x hx
    rw [decide_eq_false_iff_not]
    rintro rfl
    exact hout hx

theorem idOf_append_self (hout : entry ∉ entries) :
    idOf (entries ++ [entry]) entry = some entries.length := by
  have hnone := idOf_eq_none.mpr hout
  unfold idOf at hnone ⊢
  rw [List.findIdx?_append, hnone]
  simp

theorem idOf_append_of_ne (hne : e ≠ entry) : idOf (entries ++ [entry]) e = idOf entries e := by
  unfold idOf
  rw [List.findIdx?_append]
  simp [hne.symm]

/- What every table does: entries are numbered in the order they are first inserted in. -/
def lookup (entries : List T) (entry : T) (insert : Bool) : Option ℕ × List T :=
  match idOf entries entry with
  | some id => (some id, entries)
  | none => if insert then (some entries.length, entries ++ [entry]) else (none, entries)

def registry : List (T × Bool) → List T → List (Option ℕ) × List T
  | [], entries => ([], entries)
  | (entry, insert) :: calls, entries =>
    let (id, entries) := lookup entries entry insert
    let (ids, entries) := registry calls entries
    (id :: ids, entries)

theorem lookup_nodup (hnodup : entries.Nodup) (insert : Bool) :
    (lookup entries entry insert).2.Nodup := by
  unfold lookup
  split
  · exact hnodup
  · next hnone =>
    split
    · have hout := idOf_eq_none.mp hnone
      exact List.nodup_append.mpr ⟨hnodup, List.nodup_singleton _, fun x hx y hy heq =>
        hout (List.mem_singleton.mp hy ▸ heq ▸ hx)⟩
    · exact hnodup

theorem registry_nodup (calls : List (T × Bool)) (hnodup : entries.Nodup) :
    (registry calls entries).2.Nodup := by
  induction calls generalizing entries with
  | nil => exact hnodup
  | cons call calls ih => exact ih (lookup_nodup hnodup call.2)

end Registry

section Contract

variable {I Table : Type} [BiTableId I] {ops : BiTableOps I T Table} {given : Set T}
  {Holds : Table → List T → Prop} {table : Table} {entries : List T} {entry : T}

/- The ids below a bound come back as they were. -/
def Wide (I : Type) [BiTableId I] (n : ℕ) : Prop := ∀ k < n, asUsize (fromUsize k : I) = k

/- The answers are those of the registry, an id and its entry lead to each other, and a lookup that
may not insert changes nothing. -/
def Contract (ops : BiTableOps I T Table) (given : Set T) (start : Table) : Prop :=
  ∀ calls : List (T × Bool), (∀ call ∈ calls, call.1 ∈ given) →
    Wide I (registry calls []).2.length →
    (ops.run calls start).1 = (registry calls []).1.map (Option.map fromUsize) ∧
    ops.size (ops.run calls start).2 = (registry calls []).2.length ∧
    (∀ i, ops.findEntry (ops.run calls start).2 i = (registry calls []).2[asUsize i]?) ∧
    ∀ entry ∈ given,
      (∀ i, (ops.findId (ops.run calls start).2 entry false).1 = some i ↔
        ops.findEntry (ops.run calls start).2 i = some entry) ∧
      (ops.findId (ops.run calls start).2 entry false).2 = (ops.run calls start).2

/- A table that stands for the entries it was given. -/
structure Implements (ops : BiTableOps I T Table) (given : Set T)
    (Holds : Table → List T → Prop) : Prop where
  findId : ∀ table entries entry insert, Holds table entries → entries.Nodup → entry ∈ given →
    (ops.findId table entry insert).1 = (lookup entries entry insert).1.map fromUsize ∧
      Holds (ops.findId table entry insert).2 (lookup entries entry insert).2
  quiet : ∀ table entries entry, Holds table entries → entries.Nodup → entry ∈ given →
    (ops.findId table entry false).2 = table
  findEntry : ∀ table entries i, Holds table entries →
    ops.findEntry table i = entries[asUsize i]?
  size : ∀ table entries, Holds table entries → ops.size table = entries.length

theorem run_spec (himplements : Implements ops given Holds) (calls : List (T × Bool))
    (hgiven : ∀ call ∈ calls, call.1 ∈ given) (hnodup : entries.Nodup)
    (hholds : Holds table entries) :
    (ops.run calls table).1 = (registry calls entries).1.map (Option.map fromUsize) ∧
      Holds (ops.run calls table).2 (registry calls entries).2 := by
  induction calls generalizing table entries with
  | nil => exact ⟨rfl, hholds⟩
  | cons call calls ih =>
    obtain ⟨hid, hholds'⟩ := himplements.findId table entries call.1 call.2 hholds hnodup
      (hgiven call List.mem_cons_self)
    obtain ⟨hids, hfinal⟩ := ih (fun call hcall => hgiven call (List.mem_cons_of_mem _ hcall))
      (lookup_nodup hnodup call.2) hholds'
    exact ⟨congrArg₂ List.cons hid hids, hfinal⟩

/- An id is wide enough for what it is compared with. -/
theorem fromUsize_eq_iff {n k : ℕ} (hwide : Wide I n) (hk : k < n) (i : I) :
    fromUsize k = i ↔ k = asUsize i := by
  constructor
  · rintro rfl
    exact (hwide k hk).symm
  · rintro rfl
    exact BiTableId.from_as i

theorem contract (himplements : Implements ops given Holds) {start : Table}
    (hstart : Holds start []) : Contract ops given start := by
  intro calls hgiven hwide
  obtain ⟨hids, hholds⟩ := run_spec himplements calls hgiven List.nodup_nil hstart
  have hnodup := registry_nodup calls (List.nodup_nil (α := T))
  refine ⟨hids, himplements.size _ _ hholds, fun i => himplements.findEntry _ _ i hholds,
    fun entry hentry => ⟨fun i => ?_, himplements.quiet _ _ entry hholds hnodup hentry⟩⟩
  rw [himplements.findEntry _ _ i hholds,
    (himplements.findId _ _ entry false hholds hnodup hentry).1]
  unfold lookup
  constructor
  · intro hid
    split at hid
    · next id hsome =>
      have hget := (idOf_eq_some hnodup).mp hsome
      have hlt := (List.getElem?_eq_some_iff.mp hget).1
      rw [← (fromUsize_eq_iff hwide hlt i).mp (Option.some.inj hid)]
      exact hget
    · cases hid
  · intro hget
    rw [(idOf_eq_some hnodup).mpr hget]
    exact congrArg some (BiTableId.from_as i)

end Contract

section Tables

variable {I : Type} [BiTableId I] {entries : List T} {entry : T} {hash fp : T → ℕ}
  {selector : T → Bool} {given : Set T}

theorem lookup_of_some {id : ℕ} (h : idOf entries entry = some id) (insert : Bool) :
    lookup entries entry insert = (some id, entries) := by
  unfold lookup
  rw [h]

theorem lookup_of_none (h : idOf entries entry = none) (insert : Bool) :
    lookup entries entry insert =
      if insert then (some entries.length, entries ++ [entry]) else (none, entries) := by
  unfold lookup
  rw [h]

theorem hash_implements :
    Implements (HashBiTable.ops : BiTableOps I T (HashBiTable I T)) Set.univ fun table entries =>
      table.id2entry = entries ∧
        ∀ entry, table.entry2id entry = (idOf entries entry).map fromUsize := by
  have hfind : ∀ (table : HashBiTable I T) entries entry insert,
      (table.id2entry = entries ∧
        ∀ entry, table.entry2id entry = (idOf entries entry).map fromUsize) → entries.Nodup →
      (table.findId entry insert).1 = (lookup entries entry insert).1.map fromUsize ∧
        ((table.findId entry insert).2.id2entry = (lookup entries entry insert).2 ∧
          ∀ e, (table.findId entry insert).2.entry2id e =
            (idOf (lookup entries entry insert).2 e).map fromUsize) ∧
        (insert = false → (table.findId entry insert).2 = table) := by
    rintro table entries entry insert ⟨rfl, hids⟩ hnodup
    unfold HashBiTable.findId
    rw [hids entry]
    cases hid : idOf table.id2entry entry with
    | some id =>
      rw [lookup_of_some hid]
      exact ⟨rfl, ⟨rfl, hids⟩, fun _ => rfl⟩
    | none =>
      rw [lookup_of_none hid]
      cases insert with
      | false => exact ⟨rfl, ⟨rfl, hids⟩, fun _ => rfl⟩
      | true =>
        refine ⟨rfl, ⟨rfl, fun e => ?_⟩, nofun⟩
        change Function.update table.entry2id entry (some (fromUsize table.id2entry.length)) e =
          (idOf (table.id2entry ++ [entry]) e).map fromUsize
        by_cases he : e = entry
        · subst he
          rw [Function.update_self, idOf_append_self (idOf_eq_none.mp hid)]
          rfl
        · rw [Function.update_of_ne he, idOf_append_of_ne he]
          exact hids e
  refine ⟨fun table entries entry insert hholds hnodup _ => ?_,
    fun table entries entry hholds hnodup _ =>
      (hfind table entries entry false hholds hnodup).2.2 rfl,
    fun table entries i hholds => ?_, fun table entries hholds => congrArg List.length hholds.1⟩
  · obtain ⟨hid, hholds', -⟩ := hfind table entries entry insert hholds hnodup
    exact ⟨hid, hholds'⟩
  · rw [← hholds.1]
    rfl

/- The entries that are kept under their hashes. -/
def Keyed (keys : HashTable) (hash : T → ℕ) (entries : List T) (chosen : T → Prop) : Prop :=
  ∀ h k, (h, k) ∈ keys.entries ↔ ∃ e, entries[k]? = some e ∧ chosen e ∧ hash e = h

variable {keys : HashTable} {chosen : T → Prop}

theorem find_eq (hkeys : Keyed keys hash entries chosen) (hnodup : entries.Nodup)
    (hchosen : chosen entry) :
    keys.find (hash entry) (fun id => decide (entries[id]? = some entry)) = idOf entries entry := by
  unfold HashTable.find
  cases hfind : keys.entries.find? fun e =>
      decide (e.1 = hash entry) && decide (entries[e.2]? = some entry) with
  | some found =>
    have hfound := List.find?_some hfind
    rw [Bool.and_eq_true, decide_eq_true_eq, decide_eq_true_eq] at hfound
    exact ((idOf_eq_some hnodup).mpr hfound.2).symm
  | none =>
    refine (idOf_eq_none.mpr fun hmem => ?_).symm
    obtain ⟨k, hk⟩ := List.mem_iff_getElem?.mp hmem
    have hnone := List.find?_eq_none.mp hfind (hash entry, k)
      ((hkeys (hash entry) k).mpr ⟨entry, hk, hchosen, rfl⟩)
    simp [hk] at hnone

theorem Keyed.insert (hkeys : Keyed keys hash entries chosen) (hchosen : chosen entry) :
    Keyed (keys.insertUnique (hash entry) entries.length) hash (entries ++ [entry]) chosen := by
  intro h k
  unfold HashTable.insertUnique
  rw [List.mem_cons, hkeys h k, Prod.mk.injEq]
  constructor
  · rintro (⟨rfl, rfl⟩ | ⟨e, hk, he, heq⟩)
    · exact ⟨entry, by simp, hchosen, rfl⟩
    · refine ⟨e, ?_, he, heq⟩
      rw [List.getElem?_append_left (List.getElem?_eq_some_iff.mp hk).1]
      exact hk
  · rintro ⟨e, hk, he, heq⟩
    by_cases hlt : k < entries.length
    · rw [List.getElem?_append_left hlt] at hk
      exact Or.inr ⟨e, hk, he, heq⟩
    · have hbound := (List.getElem?_eq_some_iff.mp hk).1
      rw [List.length_append, List.length_singleton] at hbound
      obtain rfl : k = entries.length := by omega
      rw [List.getElem?_concat_length] at hk
      exact Or.inl ⟨by rw [← heq, Option.some.inj hk], rfl⟩

/- An entry that is not chosen is not kept under its hash. -/
theorem Keyed.append (hkeys : Keyed keys hash entries chosen) (hchosen : ¬chosen entry) :
    Keyed keys hash (entries ++ [entry]) chosen := by
  intro h k
  rw [hkeys h k]
  refine exists_congr fun e => ?_
  by_cases hlt : k < entries.length
  · rw [List.getElem?_append_left hlt]
  · refine iff_of_false (fun hk => hlt (List.getElem?_eq_some_iff.mp hk.1).1) ?_
    rintro ⟨hk, he, -⟩
    have hbound := (List.getElem?_eq_some_iff.mp hk).1
    rw [List.length_append, List.length_singleton] at hbound
    obtain rfl : k = entries.length := by omega
    rw [List.getElem?_concat_length] at hk
    exact hchosen (Option.some.inj hk ▸ he)

theorem compact_implements (hash : T → ℕ) :
    Implements (CompactHashBiTable.ops hash : BiTableOps I T (CompactHashBiTable T)) Set.univ
      fun table entries =>
        table.id2entry = entries ∧ Keyed table.keys hash entries fun _ => True := by
  refine ⟨?_, ?_, ?_, fun table entries hholds => congrArg List.length hholds.1⟩
  · rintro table entries entry insert ⟨rfl, hkeys⟩ hnodup -
    dsimp only [CompactHashBiTable.ops, CompactHashBiTable.findId]
    rw [find_eq hkeys hnodup trivial]
    cases hid : idOf table.id2entry entry with
    | some id =>
      rw [lookup_of_some hid]
      exact ⟨rfl, rfl, hkeys⟩
    | none =>
      rw [lookup_of_none hid]
      cases insert with
      | false => exact ⟨rfl, rfl, hkeys⟩
      | true => exact ⟨rfl, rfl, hkeys.insert trivial⟩
  · rintro table entries entry ⟨rfl, hkeys⟩ hnodup -
    dsimp only [CompactHashBiTable.ops, CompactHashBiTable.findId]
    split <;> rfl
  · rintro table entries i ⟨rfl, -⟩
    rfl

/- The ids that are found under the fingerprints of their entries. -/
def Slotted (fp2id : List (Option I)) (fp : T → ℕ) (entries : List T) (chosen : Set T) : Prop :=
  ∀ e ∈ chosen, fp2id[fp e]?.join = (idOf entries e).map fromUsize

theorem grow_getElem? (fp2id : List (Option I)) (len j : ℕ) :
    (grow fp2id len none)[j]?.join = fp2id[j]?.join := by
  unfold grow
  by_cases hlt : j < fp2id.length
  · rw [List.getElem?_append_left hlt]
  · rw [List.getElem?_append_right (not_lt.mp hlt), List.getElem?_eq_none (not_lt.mp hlt)]
    cases hj : (List.replicate (len - fp2id.length) (none : Option I))[j - fp2id.length]? with
    | none => rfl
    | some a =>
      rw [List.eq_of_mem_replicate (List.mem_of_getElem? hj)]
      rfl

variable {fp2id : List (Option I)} {chosen : Set T}

theorem grow_self {len : ℕ} (hle : len ≤ fp2id.length) :
    grow fp2id len none = fp2id := by
  unfold grow
  rw [Nat.sub_eq_zero_of_le hle, List.replicate_zero, List.append_nil]

theorem Slotted.grow (hslots : Slotted fp2id fp entries chosen) (len : ℕ) :
    Slotted (grow fp2id len none) fp entries chosen :=
  fun e he => (grow_getElem? fp2id len (fp e)).trans (hslots e he)

theorem Slotted.outside (hslots : Slotted fp2id fp entries chosen) (hentry : entry ∈ chosen)
    (hshort : fp2id.length ≤ fp entry) : idOf entries entry = none := by
  have hslot := hslots entry hentry
  rw [List.getElem?_eq_none hshort, Option.join_none, eq_comm, Option.map_eq_none_iff] at hslot
  exact hslot

theorem Slotted.insert (hslots : Slotted fp2id fp entries chosen) (hinj : Set.InjOn fp chosen)
    (hentry : entry ∈ chosen) (hout : entry ∉ entries) :
    Slotted ((Sicada.grow fp2id (fp entry + 1) none).set (fp entry)
      (some (fromUsize entries.length))) fp (entries ++ [entry]) chosen := by
  intro e he
  by_cases heq : e = entry
  · subst heq
    have hlt : fp e < (Sicada.grow fp2id (fp e + 1) none).length := by
      unfold Sicada.grow
      rw [List.length_append, List.length_replicate]
      omega
    rw [List.getElem?_set_self hlt, idOf_append_self hout]
    rfl
  · rw [List.getElem?_set_ne fun hfp => heq (hinj he hentry hfp.symm), idOf_append_of_ne heq]
    exact hslots.grow _ e he

theorem Slotted.append (hslots : Slotted fp2id fp entries chosen) (hentry : entry ∉ chosen) :
    Slotted fp2id fp (entries ++ [entry]) chosen := by
  intro e he
  have hne : e ≠ entry := fun heq => hentry (heq ▸ he)
  rw [idOf_append_of_ne hne]
  exact hslots e he

theorem vector_implements (hinj : Set.InjOn fp given) :
    Implements (BiTables.VectorBiTable.ops fp : BiTableOps I T (BiTables.VectorBiTable I T)) given
      fun table entries => table.id2entry = entries ∧ Slotted table.fp2id fp entries given := by
  refine ⟨?_, ?_, ?_, fun table entries hholds => congrArg List.length hholds.1⟩
  · rintro table entries entry insert ⟨rfl, hslots⟩ - hentry
    dsimp only [BiTables.VectorBiTable.ops, BiTables.VectorBiTable.findId]
    by_cases hshort : table.fp2id.length ≤ fp entry ∧ insert = false
    · rw [if_pos hshort, lookup_of_none (hslots.outside hentry hshort.1), hshort.2]
      exact ⟨rfl, rfl, hslots⟩
    · rw [if_neg hshort, grow_getElem?, hslots entry hentry]
      cases hid : idOf table.id2entry entry with
      | some id =>
        rw [lookup_of_some hid]
        exact ⟨rfl, rfl, hslots.grow _⟩
      | none =>
        rw [lookup_of_none hid]
        cases insert with
        | false => exact ⟨rfl, rfl, hslots.grow _⟩
        | true => exact ⟨rfl, rfl, hslots.insert hinj hentry (idOf_eq_none.mp hid)⟩
  · rintro table entries entry ⟨rfl, -⟩ - -
    dsimp only [BiTables.VectorBiTable.ops, BiTables.VectorBiTable.findId]
    by_cases hshort : table.fp2id.length ≤ fp entry
    · rw [if_pos ⟨hshort, rfl⟩]
    · rw [if_neg fun h => hshort h.1, grow_self (by omega)]
      split <;> rfl
  · rintro table entries i ⟨rfl, -⟩
    rfl

theorem vectorHash_implements (hinj : Set.InjOn fp {e | e ∈ given ∧ selector e = true}) :
    Implements (VectorHashBiTable.ops selector fp hash : BiTableOps I T (VectorHashBiTable I T))
      given fun table entries => table.id2entry = entries ∧
        Slotted table.fp2id fp entries {e | e ∈ given ∧ selector e = true} ∧
        Keyed table.keys hash entries fun e => selector e = false := by
  refine ⟨?_, ?_, ?_, fun table entries hholds => congrArg List.length hholds.1⟩
  · rintro table entries entry insert ⟨rfl, hslots, hkeys⟩ hnodup hgiven
    dsimp only [VectorHashBiTable.ops, VectorHashBiTable.findId]
    cases hselect : selector entry with
    | true =>
      have hentry : entry ∈ {e | e ∈ given ∧ selector e = true} := ⟨hgiven, hselect⟩
      rw [if_pos rfl]
      by_cases hshort : table.fp2id.length ≤ fp entry ∧ insert = false
      · rw [if_pos hshort, lookup_of_none (hslots.outside hentry hshort.1), hshort.2]
        exact ⟨rfl, rfl, hslots, hkeys⟩
      · rw [if_neg hshort, grow_getElem?, hslots entry hentry]
        cases hid : idOf table.id2entry entry with
        | some id =>
          rw [lookup_of_some hid]
          exact ⟨rfl, rfl, hslots.grow _, hkeys⟩
        | none =>
          rw [lookup_of_none hid]
          cases insert with
          | false => exact ⟨rfl, rfl, hslots.grow _, hkeys⟩
          | true =>
            exact ⟨rfl, rfl, hslots.insert hinj hentry (idOf_eq_none.mp hid),
              hkeys.append (by rw [hselect]; exact nofun)⟩
    | false =>
      rw [if_neg nofun, find_eq hkeys hnodup hselect]
      cases hid : idOf table.id2entry entry with
      | some id =>
        rw [lookup_of_some hid]
        exact ⟨rfl, rfl, hslots, hkeys⟩
      | none =>
        rw [lookup_of_none hid]
        cases insert with
        | false => exact ⟨rfl, rfl, hslots, hkeys⟩
        | true =>
          refine ⟨rfl, rfl, hslots.append fun hin => ?_, hkeys.insert hselect⟩
          exact nomatch hselect.symm.trans hin.2
  · rintro table entries entry ⟨rfl, -, -⟩ - -
    dsimp only [VectorHashBiTable.ops, VectorHashBiTable.findId]
    split
    · by_cases hshort : table.fp2id.length ≤ fp entry
      · rw [if_pos ⟨hshort, rfl⟩]
      · rw [if_neg fun h => hshort h.1, grow_self (by omega)]
        split <;> rfl
    · split <;> rfl
  · rintro table entries i ⟨rfl, -⟩
    rfl

end Tables

section Erasable

variable {I : Type} [BiTableId I] {table : ErasableBiTable I T} {slots : List (Option T)}
  {entry e : T} {s i : I} {k : ℕ}

/- What an erasable table stands for: the entry of each id given out, unless it was erased. -/
structure Erasable (table : ErasableBiTable I T) (slots : List (Option T)) : Prop where
  window : table.id2entry = (slots.drop table.first).map (·.getD table.emptyEntry)
  first_le : table.first ≤ slots.length
  erased : ∀ k < table.first, slots[k]? = some none
  entry2id : ∀ (e : T) (i : I), table.entry2id e = some i ↔
    ∃ k : ℕ, slots[k]? = some (some e) ∧ fromUsize k = i
  real : ∀ (k : ℕ) (e : T), slots[k]? = some (some e) → e ≠ table.emptyEntry
  unique : ∀ (k k' : ℕ) (e : T), slots[k]? = some (some e) → slots[k']? = some (some e) → k = k'

theorem new_erasable (emptyEntry : T) :
    Erasable (ErasableBiTable.new emptyEntry : ErasableBiTable I T) [] :=
  ⟨rfl, le_rfl, nofun, fun _ _ => ⟨nofun, nofun⟩, nofun, nofun⟩

theorem Erasable.entry2id_eq_none (h : Erasable table slots) :
    table.entry2id e = none ↔ ∀ k : ℕ, slots[k]? ≠ some (some e) := by
  constructor
  · intro hnone k hk
    exact nomatch hnone.symm.trans ((h.entry2id e _).mpr ⟨k, hk, rfl⟩)
  · intro hout
    rw [Option.eq_none_iff_forall_ne_some]
    intro i hi
    obtain ⟨k, hk, -⟩ := (h.entry2id e i).mp hi
    exact hout k hk

theorem findId_false (table : ErasableBiTable I T) (e : T) :
    table.findId e false = (table.entry2id e, table) := by
  unfold ErasableBiTable.findId
  cases table.entry2id e <;> rfl

theorem Erasable.length (h : Erasable table slots) :
    table.id2entry.length + table.first = slots.length := by
  rw [h.window, List.length_map, List.length_drop, Nat.sub_add_cancel h.first_le]

theorem Erasable.getElem? (h : Erasable table slots) (hle : table.first ≤ k) :
    table.id2entry[k - table.first]? = slots[k]?.map (·.getD table.emptyEntry) := by
  rw [h.window, List.getElem?_map, List.getElem?_drop, Nat.add_sub_cancel' hle]

theorem Erasable.findEntry (h : Erasable table slots) (he : e ≠ table.emptyEntry) (i : I) :
    table.findEntry i = some e ↔ slots[asUsize i]? = some (some e) := by
  unfold ErasableBiTable.findEntry
  by_cases hle : table.first ≤ asUsize i
  · rw [if_pos hle, h.getElem? hle]
    cases slots[asUsize i]? with
    | none => exact ⟨nofun, nofun⟩
    | some slot =>
      cases slot with
      | none => exact ⟨fun heq => absurd (Option.some.inj heq).symm he, nofun⟩
      | some e' => exact ⟨fun heq => congrArg (some ∘ some) (Option.some.inj heq),
          fun heq => Option.some.inj heq⟩
  · rw [if_neg hle, h.erased _ (not_le.mp hle)]
    exact ⟨nofun, nofun⟩

/- A new id goes to an entry that has none. -/
theorem Erasable.insert (h : Erasable table slots) (hnone : table.entry2id e = none)
    (he : e ≠ table.emptyEntry) :
    (table.findId e true).1 = some (fromUsize slots.length) ∧
      (table.findId e true).2.emptyEntry = table.emptyEntry ∧
      Erasable (table.findId e true).2 (slots ++ [some e]) := by
  have hout := h.entry2id_eq_none.mp hnone
  have hcases : ∀ (k : ℕ) (e' : T), (slots ++ [some e])[k]? = some (some e') ↔
      slots[k]? = some (some e') ∨ k = slots.length ∧ e' = e := by
    intro k e'
    rcases lt_trichotomy k slots.length with hlt | rfl | hgt
    · rw [List.getElem?_append_left hlt]
      exact (or_iff_left fun hk => hlt.ne hk.1).symm
    · rw [List.getElem?_concat_length, List.getElem?_eq_none le_rfl]
      simp [eq_comm]
    · rw [List.getElem?_eq_none (by simpa using hgt), List.getElem?_eq_none hgt.le]
      simp [hgt.ne']
  unfold ErasableBiTable.findId
  rw [hnone]
  refine ⟨by rw [← h.length]; rfl, rfl, ?_, ?_, fun k hk => ?_, fun e' i => ?_, fun k e' hk => ?_,
    fun k k' e' hk hk' => ?_⟩
  · dsimp only [if_true]
    rw [if_pos rfl]
    dsimp only
    rw [List.drop_append_of_le_length h.first_le, List.map_append, h.window]
    rfl
  · rw [List.length_append]
    exact h.first_le.trans (Nat.le_add_right _ _)
  · have hk' : k < table.first := hk
    rw [List.getElem?_append_left (hk'.trans_le h.first_le)]
    exact h.erased k hk
  · change Function.update table.entry2id e (some (fromUsize _)) e' = some i ↔ _
    rw [h.length]
    simp only [hcases]
    by_cases heq : e' = e
    · subst heq
      rw [Function.update_self, Option.some.injEq]
      simp [hout]
    · rw [Function.update_of_ne heq, h.entry2id]
      simp [heq]
  · rcases (hcases k e').mp hk with hk | ⟨-, rfl⟩
    · exact h.real k e' hk
    · exact he
  · rcases (hcases k e').mp hk with hold | ⟨rfl, rfl⟩
    · rcases (hcases k' e').mp hk' with hold' | ⟨rfl, rfl⟩
      · exact h.unique k k' e' hold hold'
      · exact absurd hold (hout k)
    · rcases (hcases k' e').mp hk' with hold' | ⟨rfl, -⟩
      · exact absurd hold' (hout k')
      · rfl

/- Taking placeholders off the front loses nothing. -/
theorem trim_window {emptyEntry : T} (xs : List T) (first : ℕ)
    (hreal : ∀ (k : ℕ) (e : T), slots[k]? = some (some e) → e ≠ emptyEntry)
    (hwindow : xs = (slots.drop first).map (·.getD emptyEntry)) (hle : first ≤ slots.length)
    (herased : ∀ k < first, slots[k]? = some none) :
    (ErasableBiTable.trim emptyEntry xs first).1 =
        (slots.drop (ErasableBiTable.trim emptyEntry xs first).2).map (·.getD emptyEntry) ∧
      (ErasableBiTable.trim emptyEntry xs first).2 ≤ slots.length ∧
      ∀ k < (ErasableBiTable.trim emptyEntry xs first).2, slots[k]? = some none := by
  induction xs generalizing first with
  | nil => exact ⟨hwindow, hle, herased⟩
  | cons front rest ih =>
    rw [ErasableBiTable.trim]
    split
    · next hfront =>
      have hslot : slots[first]?.map (·.getD emptyEntry) = some front := by
        have hhead := congrArg (·[0]?) hwindow
        rw [List.getElem?_cons_zero, List.getElem?_map, List.getElem?_drop, Nat.add_zero] at hhead
        exact hhead.symm
      have hlt : first < slots.length := by
        by_contra hge
        rw [List.getElem?_eq_none (not_lt.mp hge)] at hslot
        cases hslot
      have hnone : slots[first]? = some none := by
        rw [List.getElem?_eq_getElem hlt] at hslot ⊢
        cases hget : slots[first] with
        | none => rfl
        | some e =>
          rw [hget] at hslot
          refine absurd ?_ (hreal first e (by rw [List.getElem?_eq_getElem hlt, hget]))
          rw [← hfront]
          exact Option.some.inj hslot
      refine ih (first + 1) ?_ hlt fun k hk => ?_
      · have htail := congrArg List.tail hwindow
        rw [List.tail_cons, ← List.map_tail, List.tail_drop] at htail
        exact htail
      · rcases Nat.lt_succ_iff_lt_or_eq.mp hk with hk | rfl
        · exact herased k hk
        · exact hnone
    · exact ⟨hwindow, hle, herased⟩

theorem Erasable.erase (h : Erasable table slots) (s : I) :
    (table.erase s).emptyEntry = table.emptyEntry ∧
      Erasable (table.erase s) (slots.set (asUsize s) none) := by
  have hself : slots.length ≤ asUsize s ∨ slots[asUsize s]? = some none →
      slots.set (asUsize s) none = slots := by
    rintro (hge | hnone)
    · exact List.set_eq_of_length_le hge
    · obtain ⟨hlt, hget⟩ := List.getElem?_eq_some_iff.mp hnone
      rw [← hget]
      exact List.set_getElem_self hlt
  unfold ErasableBiTable.erase
  by_cases hle : table.first ≤ asUsize s
  · rw [if_pos hle]
    dsimp only
    cases hentry : table.id2entry[asUsize s - table.first]? with
    | none =>
      rw [h.getElem? hle, Option.map_eq_none_iff, List.getElem?_eq_none_iff] at hentry
      rw [hself (Or.inl hentry)]
      exact ⟨rfl, h⟩
    | some entry =>
      rw [h.getElem? hle] at hentry
      obtain ⟨slot, hslot, hgetD⟩ := Option.map_eq_some_iff.mp hentry
      have hlt := (List.getElem?_eq_some_iff.mp hslot).1
      have hset : ∀ (k : ℕ) (e : T), (slots.set (asUsize s) none)[k]? = some (some e) ↔
          slots[k]? = some (some e) ∧ k ≠ asUsize s := by
        intro k e
        by_cases hk : k = asUsize s
        · subst hk
          rw [List.getElem?_set_self hlt]
          exact ⟨nofun, fun hk => absurd rfl hk.2⟩
        · rw [List.getElem?_set_ne (Ne.symm hk)]
          exact (and_iff_left hk).symm
      have hreal : ∀ (k : ℕ) (e : T), (slots.set (asUsize s) none)[k]? = some (some e) →
          e ≠ table.emptyEntry := fun k e hk => h.real k e ((hset k e).mp hk).1
      obtain ⟨hwindow, hfirst, herased⟩ := trim_window
        (table.id2entry.set (asUsize s - table.first) table.emptyEntry) table.first hreal (by
          rw [h.window, List.drop_set, if_neg (not_lt.mpr hle), List.map_set]
          rfl)
        (by rw [List.length_set]; exact h.first_le) (fun k hk => by
          rw [List.getElem?_set_ne (hk.trans_le hle).ne']
          exact h.erased k hk)
      refine ⟨rfl, hwindow, hfirst, herased, fun e i => ?_, hreal, fun k k' e hk hk' =>
        h.unique k k' e ((hset k e).mp hk).1 ((hset k' e).mp hk').1⟩
      change Function.update table.entry2id entry none e = some i ↔ _
      simp only [hset]
      by_cases heq : e = entry
      · subst heq
        rw [Function.update_self]
        refine iff_of_false nofun ?_
        rintro ⟨k, ⟨hk, hne⟩, -⟩
        cases slot with
        | none => exact h.real k e hk hgetD.symm
        | some e' =>
          obtain rfl : e' = e := hgetD
          exact hne (h.unique k (asUsize s) e' hk hslot)
      · rw [Function.update_of_ne heq, h.entry2id]
        refine exists_congr fun k => and_congr_left fun _ => (and_iff_left_of_imp ?_).symm
        rintro hk rfl
        obtain rfl : slot = some e := Option.some.inj (hslot.symm.trans hk)
        exact heq hgetD
  · rw [if_neg hle, hself (Or.inr (h.erased _ (not_le.mp hle)))]
    exact ⟨rfl, h⟩

/- The entries looked up are not the placeholder. -/
def Proper (emptyEntry : T) : ErasableOp I T → Prop
  | .findId entry _ => entry ≠ emptyEntry
  | .erase _ => True

theorem step_erasable (h : Erasable table slots) (op : ErasableOp I T)
    (hop : Proper table.emptyEntry op) :
    ∃ slots', Erasable (op.apply table) slots' ∧
      (op.apply table).emptyEntry = table.emptyEntry ∧
      slots'.length = slots.length + (op.given table).toList.length ∧
      (op.given table).toList =
        (List.range' slots.length (op.given table).toList.length).map fromUsize := by
  cases op with
  | findId e insert =>
    cases hid : table.entry2id e with
    | some i =>
      have hsame : table.findId e insert = (some i, table) := by
        unfold ErasableBiTable.findId
        rw [hid]
      have hgiven : (ErasableOp.findId e insert).given table = none := by
        cases insert with
        | true =>
          rw [ErasableOp.given, findId_false, hid]
          rfl
        | false => rfl
      refine ⟨slots, ?_, ?_, ?_, ?_⟩
      · rw [ErasableOp.apply, hsame]
        exact h
      · rw [ErasableOp.apply, hsame]
      · rw [hgiven]
        rfl
      · rw [hgiven]
        rfl
    | none =>
      cases insert with
      | true =>
        obtain ⟨hanswer, hempty, hinsert⟩ := h.insert hid hop
        have hgiven : (ErasableOp.findId e true).given table = some (fromUsize slots.length) := by
          rw [ErasableOp.given, findId_false, if_pos hid, hanswer]
        refine ⟨slots ++ [some e], hinsert, hempty, ?_, ?_⟩
        · rw [hgiven, List.length_append]
          rfl
        · rw [hgiven]
          rfl
      | false =>
        refine ⟨slots, ?_, ?_, rfl, rfl⟩
        · rw [ErasableOp.apply, findId_false]
          exact h
        · rw [ErasableOp.apply, findId_false]
  | erase s =>
    obtain ⟨hempty, herase⟩ := h.erase s
    exact ⟨_, herase, hempty, List.length_set, rfl⟩

theorem run_erasable (ops : List (ErasableOp I T)) (h : Erasable table slots)
    (hops : ∀ op ∈ ops, Proper table.emptyEntry op) :
    ∃ slots', Erasable (ErasableOp.run ops table).2 slots' ∧
      (ErasableOp.run ops table).2.emptyEntry = table.emptyEntry ∧
      slots'.length = slots.length + (ErasableOp.run ops table).1.length ∧
      (ErasableOp.run ops table).1 =
        (List.range' slots.length (ErasableOp.run ops table).1.length).map fromUsize := by
  induction ops generalizing table slots with
  | nil => exact ⟨slots, h, rfl, rfl, rfl⟩
  | cons op ops ih =>
    obtain ⟨slots1, h1, hempty1, hlength1, hids1⟩ := step_erasable h op (hops op List.mem_cons_self)
    obtain ⟨slots', h', hempty, hlength, hids⟩ := ih h1 fun op hop => by
      rw [hempty1]
      exact hops op (List.mem_cons_of_mem _ hop)
    refine ⟨slots', h', hempty.trans hempty1, ?_, ?_⟩
    · rw [ErasableOp.run]
      dsimp only
      rw [List.length_append]
      omega
    · rw [ErasableOp.run]
      dsimp only
      rw [List.length_append, ← List.range'_append_1, List.map_append, ← hlength1, ← hids, ← hids1]

/- A live entry and its id lead to each other. -/
theorem Erasable.answers (h : Erasable table slots) (hwide : Wide I slots.length)
    (he : e ≠ table.emptyEntry) :
    (∀ i, (table.findId e false).1 = some i ↔ table.findEntry i = some e) ∧
      (table.findId e false).2 = table := by
  refine ⟨fun i => ?_, by rw [findId_false]⟩
  rw [findId_false, h.entry2id, h.findEntry he]
  constructor
  · rintro ⟨k, hk, hi⟩
    rw [← (fromUsize_eq_iff hwide (List.getElem?_eq_some_iff.mp hk).1 i).mp hi]
    exact hk
  · intro hk
    exact ⟨asUsize i, hk, BiTableId.from_as i⟩

/- An entry loses its id when that is erased, and with no other id. -/
theorem Erasable.erased_answers (h : Erasable table slots) (hwide : Wide I slots.length)
    (he : e ≠ table.emptyEntry) (s : I) :
    (table.findEntry s = some e → ((table.erase s).findId e false).1 = none) ∧
      (table.findEntry s ≠ some e →
        ((table.erase s).findId e false).1 = (table.findId e false).1 ∧
          ∀ i, (table.erase s).findEntry i = some e ↔ table.findEntry i = some e) := by
  obtain ⟨hempty, herase⟩ := h.erase s
  have he' : e ≠ (table.erase s).emptyEntry := by rwa [hempty]
  have hwide' : Wide I (slots.set (asUsize s) none).length := by rwa [List.length_set]
  have hget : ∀ i : I, (table.erase s).findEntry i = some e ↔
      table.findEntry i = some e ∧ asUsize i ≠ asUsize s := by
    intro i
    rw [herase.findEntry he', h.findEntry he]
    by_cases heq : asUsize i = asUsize s
    · rw [heq, List.getElem?_set]
      refine iff_of_false ?_ fun hk => hk.2 rfl
      split
      · split <;> exact nofun
      · exact absurd rfl ‹_›
    · rw [List.getElem?_set_ne (Ne.symm heq)]
      exact (and_iff_left heq).symm
  constructor
  · intro hs
    rw [Option.eq_none_iff_forall_ne_some]
    intro i hi
    obtain ⟨hi', hne⟩ := (hget i).mp (((herase.answers hwide' he').1 i).mp hi)
    rw [h.findEntry he] at hi' hs
    exact hne (h.unique _ _ e hi' hs)
  · intro hs
    have hsame : ∀ i, (table.erase s).findEntry i = some e ↔ table.findEntry i = some e := by
      intro i
      rw [hget i]
      refine and_iff_left_of_imp fun hi heq => hs ?_
      rw [h.findEntry he] at hi ⊢
      rwa [← heq]
    refine ⟨Option.ext fun i => ?_, hsame⟩
    rw [(herase.answers hwide' he').1 i, (h.answers hwide he).1 i, hsame i]

/- The ids are numbered on, and whatever was erased, entries and ids lead to each other. -/
def ErasableContract (I : Type) [BiTableId I] (emptyEntry : T) : Prop :=
  ∀ ops : List (ErasableOp I T), (∀ op ∈ ops, Proper emptyEntry op) →
    ∀ ids table, ErasableOp.run ops (.new emptyEntry) = (ids, table) → Wide I ids.length →
      ids = (List.range ids.length).map fromUsize ∧ ids.Nodup ∧
      ∀ e ≠ emptyEntry,
        (∀ i, (table.findId e false).1 = some i ↔ table.findEntry i = some e) ∧
        (table.findId e false).2 = table ∧
        ∀ s, (table.findEntry s = some e → ((table.erase s).findId e false).1 = none) ∧
          (table.findEntry s ≠ some e →
            ((table.erase s).findId e false).1 = (table.findId e false).1 ∧
              ∀ i, (table.erase s).findEntry i = some e ↔ table.findEntry i = some e)

theorem erasable_contract (emptyEntry : T) : ErasableContract I emptyEntry := by
  intro ops hops ids table hrun hwide
  obtain ⟨slots, h, hempty, hlength, hids⟩ := run_erasable ops (new_erasable emptyEntry) hops
  rw [hrun] at h hempty hlength hids
  dsimp only at h hempty hlength hids
  rw [List.length_nil, Nat.zero_add] at hlength
  rw [← hlength] at hwide
  rw [List.length_nil, ← List.range_eq_range'] at hids
  have hnodup : ids.Nodup := by
    rw [hids]
    refine (List.nodup_map_iff_inj_on List.nodup_range).mpr fun k hk k' hk' heq => ?_
    rw [← hlength, List.mem_range] at hk hk'
    rw [(fromUsize_eq_iff hwide hk _).mp heq]
    exact hwide k' hk'
  refine ⟨hids, hnodup, fun e he => ?_⟩
  have he' : e ≠ table.emptyEntry := fun heq => he (heq.trans hempty)
  obtain ⟨hanswers, hquiet⟩ := h.answers hwide he'
  exact ⟨hanswers, hquiet, h.erased_answers hwide he'⟩

end Erasable

section Tables

variable {I : Type} [BiTableId I]

/- Every entry that is inserted is in the registry, and nothing else. -/
theorem mem_registry (calls : List (T × Bool)) (entries : List T) (entry : T) :
    entry ∈ (registry calls entries).2 ↔ entry ∈ entries ∨ (entry, true) ∈ calls := by
  induction calls generalizing entries with
  | nil => exact (or_iff_left List.not_mem_nil).symm
  | cons call calls ih =>
    have hstep : ∀ e, e ∈ (lookup entries call.1 call.2).2 ↔ e ∈ entries ∨ (e, true) = call := by
      intro e
      obtain ⟨called, insert⟩ := call
      unfold lookup
      split
      · next id hid =>
        have hmem : called ∈ entries := by
          by_contra hout
          rw [idOf_eq_none.mpr hout] at hid
          cases hid
        refine (or_iff_left_of_imp ?_).symm
        rintro heq
        rw [(Prod.mk.inj heq).1]
        exact hmem
      · cases insert with
        | true => simp
        | false => simp
    refine (ih (lookup entries call.1 call.2).2).trans ?_
    rw [hstep entry, List.mem_cons, or_assoc]

end Tables

end Sicada.BiTablesExact
