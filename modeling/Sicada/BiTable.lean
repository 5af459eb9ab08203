import Mathlib

namespace Sicada

namespace BiTable

variable {T : Type} [DecidableEq T]

/- The entries in the order of their ids; an entry not found is added at the end. -/
def findId (table : List T) (entry : T) : ℕ × List T :=
  match table.findIdx? (· = entry) with
  | some id => (id, table)
  | none => (table.length, table ++ [entry])

/- What a lookup leaves: no entry twice, none lost or moved, and the one looked up at its id. -/
theorem findId_spec {table : List T} (hnodup : table.Nodup) (entry : T) :
    table <+: (findId table entry).2 ∧ (findId table entry).2.Nodup ∧
      (findId table entry).2[(findId table entry).1]? = some entry ∧
      ∀ t ∈ (findId table entry).2, t ∈ table ∨ t = entry := by
  unfold findId
  cases hfind : table.findIdx? (· = entry) with
  | some id =>
    obtain ⟨hlt, hid, -⟩ := List.findIdx?_eq_some_iff_getElem.mp hfind
    have hentry : table[id] = entry := by simpa using hid
    refine ⟨List.prefix_rfl, hnodup, ?_, fun t ht => Or.inl ht⟩
    rw [List.getElem?_eq_getElem hlt, hentry]
  | none =>
    have hnot : entry ∉ table := by
      intro hmem
      have hall := List.findIdx?_eq_none_iff.mp hfind entry hmem
      simp at hall
    refine ⟨List.prefix_append _ _, ?_, by simp, by simp⟩
    simpa [List.nodup_append] using ⟨hnodup, fun t ht heq => hnot (heq ▸ ht)⟩

/- The id a lookup gives is the entry's, whatever the table holds. -/
theorem getElem?_findId (table : List T) (entry : T) :
    (findId table entry).2[(findId table entry).1]? = some entry := by
  unfold findId
  cases hfind : table.findIdx? (· = entry) with
  | some id =>
    obtain ⟨hlt, hid, -⟩ := List.findIdx?_eq_some_iff_getElem.mp hfind
    have hentry : table[id] = entry := by simpa using hid
    rw [List.getElem?_eq_getElem hlt, hentry]
  | none => simp

theorem prefix_findId (table : List T) (entry : T) : table <+: (findId table entry).2 := by
  unfold findId
  cases table.findIdx? (· = entry) with
  | some id => exact List.prefix_rfl
  | none => exact List.prefix_append _ _

theorem findId_cases (table : List T) (entry : T) :
    (∃ id < table.length, findId table entry = (id, table)) ∨
      findId table entry = (table.length, table ++ [entry]) := by
  unfold findId
  cases hfind : table.findIdx? (· = entry) with
  | some id =>
    obtain ⟨hlt, -, -⟩ := List.findIdx?_eq_some_iff_getElem.mp hfind
    exact Or.inl ⟨id, hlt, rfl⟩
  | none => exact Or.inr rfl

/- A table whose entries are renamed one to one gives the ids it gave. -/
theorem findId_map {U : Type} [DecidableEq U] {table : List T} {entry : T} {f : T → U}
    (hinj : ∀ t ∈ table, f t = f entry → t = entry) :
    findId (table.map f) (f entry) = ((findId table entry).1, (findId table entry).2.map f) := by
  have hfind : (table.map f).findIdx? (· = f entry) = table.findIdx? (· = entry) := by
    induction table with
    | nil => rfl
    | cons t table ih =>
      have hsame : (f t = f entry) ↔ t = entry :=
        ⟨hinj t List.mem_cons_self, congrArg f⟩
      rw [List.map_cons, List.findIdx?_cons, List.findIdx?_cons,
        ih fun u hu => hinj u (List.mem_cons_of_mem _ hu)]
      simp [hsame]
  unfold findId
  rw [hfind]
  cases table.findIdx? (· = entry) with
  | some id => rfl
  | none => simp

end BiTable

/- An integer type that ids can be of. -/
class BiTableId (I : Type) where
  fromUsize : ℕ → I
  asUsize : I → ℕ
  from_as : ∀ i, fromUsize (asUsize i) = i

export BiTableId (fromUsize asUsize)

instance : BiTableId UInt64 where
  fromUsize := UInt64.ofNat
  asUsize := UInt64.toNat
  from_as _ := UInt64.ofNat_toNat

instance : BiTableId UInt32 where
  fromUsize := UInt32.ofNat
  asUsize := UInt32.toNat
  from_as _ := UInt32.ofNat_toNat

instance : BiTableId Int64 where
  fromUsize := Int64.ofNat
  asUsize i := i.toUInt64.toNat
  from_as i := by
    apply Int64.toBitVec_inj.mp
    rw [Int64.toBitVec_ofNat']
    exact BitVec.ofNat_toNat 64 _

instance : BiTableId Int32 where
  fromUsize := Int32.ofNat
  asUsize i := i.toInt64.toUInt64.toNat
  from_as i := by
    apply Int32.toBitVec_inj.mp
    rw [Int32.toBitVec_ofNat']
    change BitVec.ofNat 32 (i.toBitVec.signExtend 64).toNat = i.toBitVec
    rw [BitVec.ofNat_toNat]
    ext k hk
    have hlt : k < 64 := by omega
    rw [BitVec.getElem_setWidth, BitVec.getLsbD_signExtend]
    simp [hk, hlt]

/- Ids kept under a hash: which of them is meant says `eq`. -/
structure HashTable where
  entries : List (ℕ × ℕ)

namespace HashTable

def empty : HashTable := ⟨[]⟩

def find (table : HashTable) (hash : ℕ) (eq : ℕ → Bool) : Option ℕ :=
  (table.entries.find? fun entry => decide (entry.1 = hash) && eq entry.2).map Prod.snd

def insertUnique (table : HashTable) (hash value : ℕ) : HashTable :=
  ⟨(hash, value) :: table.entries⟩

end HashTable

/- An answer, and the table after it. -/
structure BiTableOps (I T Table : Type) where
  findId : Table → T → Bool → Option I × Table
  findEntry : Table → I → Option T
  size : Table → ℕ

structure HashBiTable (I T : Type) where
  entry2id : T → Option I
  id2entry : List T

structure CompactHashBiTable (T : Type) where
  id2entry : List T
  keys : HashTable

structure BiTables.VectorBiTable (I T : Type) where
  fp2id : List (Option I)
  id2entry : List T

structure VectorHashBiTable (I T : Type) where
  id2entry : List T
  fp2id : List (Option I)
  keys : HashTable

structure ErasableBiTable (I T : Type) where
  entry2id : T → Option I
  id2entry : List T
  emptyEntry : T
  first : ℕ

section Operations

variable {I T : Type} [BiTableId I] [DecidableEq T]

/- `Vec::resize`, which makes a vector longer here. -/
def grow {A : Type} (xs : List A) (len : ℕ) (a : A) : List A :=
  xs ++ List.replicate (len - xs.length) a

namespace HashBiTable

def new : HashBiTable I T := ⟨fun _ => none, []⟩

def findId (table : HashBiTable I T) (entry : T) (insert : Bool) : Option I × HashBiTable I T :=
  match table.entry2id entry with
  | some id => (some id, table)
  | none =>
    if insert then
      let id := fromUsize table.id2entry.length
      (some id, ⟨Function.update table.entry2id entry (some id), table.id2entry ++ [entry]⟩)
    else (none, table)

def findEntry (table : HashBiTable I T) (s : I) : Option T := table.id2entry[asUsize s]?

def ops : BiTableOps I T (HashBiTable I T) :=
  ⟨findId, findEntry, fun table => table.id2entry.length⟩

end HashBiTable

namespace CompactHashBiTable

variable (hash : T → ℕ)

def new : CompactHashBiTable T := ⟨[], .empty⟩

def findId (table : CompactHashBiTable T) (entry : T) (insert : Bool) :
    Option I × CompactHashBiTable T :=
  match table.keys.find (hash entry) fun id => decide (table.id2entry[id]? = some entry) with
  | some id => (some (fromUsize id), table)
  | none =>
    if insert then
      let id := table.id2entry.length
      (some (fromUsize id), ⟨table.id2entry ++ [entry], table.keys.insertUnique (hash entry) id⟩)
    else (none, table)

def findEntry (table : CompactHashBiTable T) (s : I) : Option T := table.id2entry[asUsize s]?

def ops : BiTableOps I T (CompactHashBiTable T) :=
  ⟨findId hash, findEntry, fun table => table.id2entry.length⟩

end CompactHashBiTable

namespace BiTables.VectorBiTable

variable (fp : T → ℕ)

def new : BiTables.VectorBiTable I T := ⟨[], []⟩

def findId (table : BiTables.VectorBiTable I T) (entry : T) (insert : Bool) :
    Option I × BiTables.VectorBiTable I T :=
  let f := fp entry
  if table.fp2id.length ≤ f ∧ insert = false then (none, table)
  else
    let table := { table with fp2id := grow table.fp2id (f + 1) none }
    match table.fp2id[f]?.join with
    | some id => (some id, table)
    | none =>
      if insert then
        let id := fromUsize table.id2entry.length
        (some id, ⟨table.fp2id.set f (some id), table.id2entry ++ [entry]⟩)
      else (none, table)

def findEntry (table : BiTables.VectorBiTable I T) (s : I) : Option T := table.id2entry[asUsize s]?

def ops : BiTableOps I T (BiTables.VectorBiTable I T) :=
  ⟨findId fp, findEntry, fun table => table.id2entry.length⟩

end BiTables.VectorBiTable

namespace VectorHashBiTable

variable (selector : T → Bool) (fp hash : T → ℕ)

def new (vectorSize : ℕ) : VectorHashBiTable I T := ⟨[], List.replicate vectorSize none, .empty⟩

def findId (table : VectorHashBiTable I T) (entry : T) (insert : Bool) :
    Option I × VectorHashBiTable I T :=
  if selector entry then
    let f := fp entry
    if table.fp2id.length ≤ f ∧ insert = false then (none, table)
    else
      let table := { table with fp2id := grow table.fp2id (f + 1) none }
      match table.fp2id[f]?.join with
      | some id => (some id, table)
      | none =>
        if insert then
          let id := fromUsize table.id2entry.length
          (some id, { table with
            id2entry := table.id2entry ++ [entry]
            fp2id := table.fp2id.set f (some id) })
        else (none, table)
  else
    match table.keys.find (hash entry) fun id => decide (table.id2entry[id]? = some entry) with
    | some id => (some (fromUsize id), table)
    | none =>
      if insert then
        let id := table.id2entry.length
        (some (fromUsize id), { table with
          id2entry := table.id2entry ++ [entry]
          keys := table.keys.insertUnique (hash entry) id })
      else (none, table)

def findEntry (table : VectorHashBiTable I T) (s : I) : Option T := table.id2entry[asUsize s]?

def ops : BiTableOps I T (VectorHashBiTable I T) :=
  ⟨findId selector fp hash, findEntry, fun table => table.id2entry.length⟩

end VectorHashBiTable

namespace ErasableBiTable

def new (emptyEntry : T) : ErasableBiTable I T := ⟨fun _ => none, [], emptyEntry, 0⟩

def findId (table : ErasableBiTable I T) (entry : T) (insert : Bool) :
    Option I × ErasableBiTable I T :=
  match table.entry2id entry with
  | some id => (some id, table)
  | none =>
    if insert then
      let id := fromUsize (table.id2entry.length + table.first)
      (some id, { table with
        entry2id := Function.update table.entry2id entry (some id)
        id2entry := table.id2entry ++ [entry] })
    else (none, table)

def findEntry (table : ErasableBiTable I T) (s : I) : Option T :=
  if table.first ≤ asUsize s then table.id2entry[asUsize s - table.first]? else none

/- Takes the placeholders off the front. -/
def trim (emptyEntry : T) : List T → ℕ → List T × ℕ
  | [], first => ([], first)
  | front :: rest, first =>
    if front = emptyEntry then trim emptyEntry rest (first + 1) else (front :: rest, first)

def erase (table : ErasableBiTable I T) (s : I) : ErasableBiTable I T :=
  if table.first ≤ asUsize s then
    let idx := asUsize s - table.first
    match table.id2entry[idx]? with
    | some entry =>
      let (id2entry, first) :=
        trim table.emptyEntry (table.id2entry.set idx table.emptyEntry) table.first
      { table with
        entry2id := Function.update table.entry2id entry none
        id2entry := id2entry
        first := first }
    | none => table
  else table

def ops : BiTableOps I T (ErasableBiTable I T) :=
  ⟨findId, findEntry, fun table => table.id2entry.length⟩

end ErasableBiTable

end Operations

/- The answers to some calls, and the table after them. -/
def BiTableOps.run {I T Table : Type} (ops : BiTableOps I T Table) :
    List (T × Bool) → Table → List (Option I) × Table
  | [], table => ([], table)
  | (entry, insert) :: calls, table =>
    let (id, table) := ops.findId table entry insert
    let (ids, table) := ops.run calls table
    (id :: ids, table)

inductive ErasableOp (I T : Type)
  | findId (entry : T) (insert : Bool)
  | erase (s : I)

namespace ErasableOp

variable {I T : Type} [BiTableId I] [DecidableEq T]

def apply (table : ErasableBiTable I T) : ErasableOp I T → ErasableBiTable I T
  | .findId entry insert => (table.findId entry insert).2
  | .erase s => table.erase s

/- The id that the operation gives out, if it gives out one. -/
def given (table : ErasableBiTable I T) : ErasableOp I T → Option I
  | .findId entry true =>
    if (table.findId entry false).1 = none then (table.findId entry true).1 else none
  | .findId _ false | .erase _ => none

def run : List (ErasableOp I T) → ErasableBiTable I T → List I × ErasableBiTable I T
  | [], table => ([], table)
  | op :: ops, table =>
    let (ids, final) := run ops (op.apply table)
    ((op.given table).toList ++ ids, final)

end ErasableOp

end Sicada
