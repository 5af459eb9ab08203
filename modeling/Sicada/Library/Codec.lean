import Mathlib

namespace Codec

universe u

/- What is left of a stream, and how many bytes have gone by. -/
structure Stream where
  pos : ℕ
  rest : List UInt8
deriving DecidableEq

/- `none` is a reader that stops for a reason other than an error. -/
abbrev Reader (ε : Type) (α : Type) := StateT Stream (ExceptT ε Option) α

variable {ε α β : Type}

def fail (e : ε) : Reader ε α := fun _ => some (.error e)

/- A computation that uses nothing of the stream. -/
def lift (a : Option (Except ε α)) : Reader ε α := fun s => a.map fun r => r.map fun x => (x, s)

def position : Reader ε ℕ := fun s => some (.ok (s.pos, s))

/- The next `n` bytes, all of them or the error. -/
def readExact (eof : ε) (n : ℕ) : Reader ε (List UInt8) := fun s =>
  if n ≤ s.rest.length then some (.ok (s.rest.take n, ⟨s.pos + n, s.rest.drop n⟩))
  else some (.error eof)

/- From `pos` on, the reader takes the bytes, no more and no less, and makes `a` of them; of
fewer of them it makes an error. -/
structure Codes (r : Reader ε α) (pos : ℕ) (bytes : List UInt8) (a : α) : Prop where
  reads : ∀ rest, r ⟨pos, bytes ++ rest⟩ = some (.ok (a, ⟨pos + bytes.length, rest⟩))
  truncated : ∀ part, part <+: bytes → part ≠ bytes → ∃ e, r ⟨pos, part⟩ = some (.error e)

theorem codes_pure (pos : ℕ) (a : α) : Codes (pure a : Reader ε α) pos [] a := by
  constructor
  · intro rest
    rfl
  · intro part hpart hne
    exact absurd (List.prefix_nil.mp hpart) hne

variable {r : Reader ε α} {f : α → Reader ε β} {a : α} {x : Option (Except ε α)}
  {bytes : List UInt8} {pos : ℕ}

theorem bind_of_ok {s s' : Stream} (h : r s = some (.ok (a, s'))) : (r >>= f) s = f a s' := by
  change (ExceptT.bind (r s) fun p => f p.1 p.2) = _
  rw [h]
  rfl

theorem bind_of_error {s : Stream} {e : ε} (h : r s = some (.error e)) :
    (r >>= f) s = some (.error e) := by
  change (ExceptT.bind (r s) fun p => f p.1 p.2) = _
  rw [h]
  rfl

theorem bind_lift_of_ok (h : x = some (.ok a)) (s : Stream) : (lift x >>= f) s = f a s := by
  subst h
  rfl

theorem bind_lift_of_error {e : ε} (h : x = some (.error e)) (s : Stream) :
    (lift x >>= f) s = some (.error e) := by
  subst h
  rfl

theorem prefix_append_cases {part bytes' : List UInt8} (h : part <+: bytes ++ bytes') :
    part <+: bytes ∨ ∃ part', part = bytes ++ part' ∧ part' <+: bytes' := by
  rcases List.prefix_or_prefix_of_prefix h (List.prefix_append bytes bytes') with hle | ⟨part', rfl⟩
  · exact Or.inl hle
  · exact Or.inr ⟨part', rfl, (List.prefix_append_right_inj bytes).mp h⟩

/- A stream cut short is cut short in what the reader takes, or in what is left of it. -/
theorem Codes.cut {bytes' part : List UInt8} (h : Codes r pos bytes a)
    (hpart : part <+: bytes ++ bytes') (hne : part ≠ bytes ++ bytes') :
    (∃ e, r ⟨pos, part⟩ = some (.error e)) ∨ ∃ part', part' <+: bytes' ∧ part' ≠ bytes' ∧
      r ⟨pos, part⟩ = some (.ok (a, ⟨pos + bytes.length, part'⟩)) := by
  rcases prefix_append_cases hpart with hfirst | ⟨part', rfl, hsecond⟩
  · by_cases heq : part = bytes
    · subst heq
      refine Or.inr ⟨[], List.nil_prefix, ?_, ?_⟩
      · rintro rfl
        exact hne (List.append_nil _).symm
      · have hreads := h.reads []
        rwa [List.append_nil] at hreads
    · exact Or.inl (h.truncated part hfirst heq)
  · exact Or.inr ⟨part', hsecond, fun heq => hne (by rw [heq]), h.reads part'⟩

theorem Codes.bind {bytes' : List UInt8} {b : β} (h : Codes r pos bytes a)
    (h' : Codes (f a) (pos + bytes.length) bytes' b) :
    Codes (r >>= f) pos (bytes ++ bytes') b := by
  constructor
  · intro rest
    rw [List.append_assoc, bind_of_ok (h.reads _), h'.reads, List.length_append, Nat.add_assoc]
  · intro part hpart hne
    rcases h.cut hpart hne with ⟨e, he⟩ | ⟨part', hpart', hne', hreads⟩
    · exact ⟨e, bind_of_error he⟩
    · rw [bind_of_ok hreads]
      exact h'.truncated part' hpart' hne'

/- What follows a reader and uses nothing of the stream. -/
theorem Codes.bind_nil {b : β} (h : Codes r pos bytes a)
    (h' : Codes (f a) (pos + bytes.length) [] b) :
    Codes (r >>= f) pos bytes b := by
  have hboth := h.bind h'
  rwa [List.append_nil] at hboth

theorem Codes.nil_bind {b : β} (h : Codes r pos [] a) (h' : Codes (f a) pos bytes b) :
    Codes (r >>= f) pos bytes b :=
  h.bind h'

theorem Codes.map (f : α → β) (h : Codes r pos bytes a) : Codes (f <$> r) pos bytes (f a) := by
  rw [map_eq_pure_bind]
  exact h.bind_nil (codes_pure _ _)

theorem codes_lift (pos : ℕ) (h : x = some (.ok a)) :
    Codes (lift x) pos [] a := by
  subst h
  constructor
  · intro rest
    rfl
  · intro part hpart hne
    exact absurd (List.prefix_nil.mp hpart) hne

theorem codes_position (pos : ℕ) : Codes (position : Reader ε ℕ) pos [] pos := by
  constructor
  · intro rest
    rfl
  · intro part hpart hne
    exact absurd (List.prefix_nil.mp hpart) hne

theorem codes_readExact (eof : ε) (pos : ℕ) (bytes : List UInt8) :
    Codes (readExact eof bytes.length) pos bytes bytes := by
  constructor
  · intro rest
    unfold readExact
    rw [if_pos (by rw [List.length_append]; omega), List.take_left', List.drop_left'] <;> rfl
  · intro part hpart hne
    refine ⟨eof, ?_⟩
    unfold readExact
    rw [if_neg]
    intro hle
    exact hne (hpart.eq_of_length_le hle)

section Attempts

variable {P : β → Prop}

/- A reader whose errors are told rather than made; nothing is taken of the stream then. -/
def attempt (r : Reader ε α) : Reader ε (Option α) := fun s =>
  match r s with
  | some (.ok (a, s')) => some (.ok (some a, s'))
  | some (.error _) => some (.ok (none, s))
  | none => none

/- As `Codes`, but of fewer of the bytes the reader may make something of which `P` holds. -/
structure CodesUnless (P : α → Prop) (r : Reader ε α) (pos : ℕ) (bytes : List UInt8) (a : α) :
    Prop where
  reads : ∀ rest, r ⟨pos, bytes ++ rest⟩ = some (.ok (a, ⟨pos + bytes.length, rest⟩))
  truncated : ∀ part, part <+: bytes → part ≠ bytes →
    (∃ e, r ⟨pos, part⟩ = some (.error e)) ∨ ∃ b s, r ⟨pos, part⟩ = some (.ok (b, s)) ∧ P b

theorem Codes.unless {r : Reader ε α} {pos : ℕ} {bytes : List UInt8} {a : α}
    (h : Codes r pos bytes a) (P : α → Prop) : CodesUnless P r pos bytes a :=
  ⟨h.reads, fun part hpart hne => Or.inl (h.truncated part hpart hne)⟩

theorem Codes.bind_unless {r : Reader ε α} {f : α → Reader ε β} {pos : ℕ}
    {bytes bytes' : List UInt8} {a : α} {b : β} (h : Codes r pos bytes a)
    (h' : CodesUnless P (f a) (pos + bytes.length) bytes' b) :
    CodesUnless P (r >>= f) pos (bytes ++ bytes') b := by
  constructor
  · intro rest
    rw [List.append_assoc, bind_of_ok (h.reads _), h'.reads, List.length_append, Nat.add_assoc]
  · intro part hpart hne
    rcases h.cut hpart hne with ⟨e, he⟩ | ⟨part', hpart', hne', hreads⟩
    · exact Or.inl ⟨e, bind_of_error he⟩
    · rw [bind_of_ok hreads]
      exact h'.truncated part' hpart' hne'

/- A first attempt that fails leaves what `P` holds of; one that does not is as good as the
reader. -/
theorem Codes.attempt_bind {r : Reader ε α} {f : Option α → Reader ε β} {pos : ℕ}
    {bytes bytes' : List UInt8} {a : α} {b c : β} (h : Codes r pos bytes a)
    (hnone : f none = pure c) (hc : P c)
    (h' : CodesUnless P (f (some a)) (pos + bytes.length) bytes' b) :
    CodesUnless P (attempt r >>= f) pos (bytes ++ bytes') b := by
  have hok : ∀ {s s'}, r s = some (.ok (a, s')) → (attempt r >>= f) s = f (some a) s' := by
    intro s s' hs
    apply bind_of_ok
    unfold attempt
    rw [hs]
  constructor
  · intro rest
    rw [List.append_assoc, hok (h.reads _), h'.reads, List.length_append, Nat.add_assoc]
  · intro part hpart hne
    rcases h.cut hpart hne with ⟨e, he⟩ | ⟨part', hpart', hne', hreads⟩
    · have hattempt : attempt r ⟨pos, part⟩ = some (.ok (none, ⟨pos, part⟩)) := by
        unfold attempt
        rw [he]
      refine Or.inr ⟨c, ⟨pos, part⟩, ?_, hc⟩
      rw [bind_of_ok hattempt, hnone]
      rfl
    · rw [hok hreads]
      exact h'.truncated part' hpart' hne'

/- A check that refuses what `P` holds of. -/
theorem CodesUnless.bind {P : α → Prop} {r : Reader ε α} {f : α → Reader ε β} {pos : ℕ}
    {bytes : List UInt8} {a : α} {b : β} (h : CodesUnless P r pos bytes a)
    (h' : Codes (f a) (pos + bytes.length) [] b)
    (hrefused : ∀ c s, P c → ∃ e, f c s = some (.error e)) : Codes (r >>= f) pos bytes b := by
  constructor
  · intro rest
    rw [bind_of_ok (h.reads rest)]
    exact h'.reads rest
  · intro part hpart hne
    rcases h.truncated part hpart hne with ⟨e, he⟩ | ⟨c, s, hc, hP⟩
    · exact ⟨e, bind_of_error he⟩
    · rw [bind_of_ok hc]
      exact hrefused c s hP

end Attempts

/- What is read of the same bytes is the same. -/
theorem Codes.unique {b : α} (h : Codes r pos bytes a) (h' : Codes r pos bytes b) : a = b := by
  have heq := (h.reads []).symm.trans (h'.reads [])
  cases heq
  rfl

/- An encoding of the values that fit, with the reader that undoes it. -/
structure Wire (ε α : Type) where
  Fits : α → Prop
  write : α → List UInt8
  read : Reader ε α
  codes : ∀ pos a, Fits a → Codes read pos (write a) a

/- The bytes a value takes in memory, and the value that bytes are. -/
structure Layout (α : Type) where
  Fits : α → Prop
  size : ℕ
  bytes : α → List UInt8
  value : List UInt8 → α
  length_bytes : ∀ a, (bytes a).length = size
  value_bytes : ∀ a, Fits a → value (bytes a) = a

namespace Layout

variable (layout : Layout α)

/- A block of memory seen as an array of `n` values. -/
def values (n : ℕ) (block : List UInt8) : List α :=
  match n with
  | 0 => []
  | n + 1 => layout.value (block.take layout.size) :: values n (block.drop layout.size)

theorem length_flatMap_bytes (xs : List α) :
    (xs.flatMap layout.bytes).length = xs.length * layout.size := by
  induction xs with
  | nil => simp
  | cons x xs ih =>
    rw [List.flatMap_cons, List.length_append, layout.length_bytes, ih, List.length_cons]
    ring

theorem values_flatMap_bytes {xs : List α} (h : ∀ x ∈ xs, layout.Fits x) :
    layout.values xs.length (xs.flatMap layout.bytes) = xs := by
  induction xs with
  | nil => rfl
  | cons x xs ih =>
    rw [List.length_cons, values, List.flatMap_cons,
      List.take_left' (layout.length_bytes x), List.drop_left' (layout.length_bytes x),
      layout.value_bytes x (h x List.mem_cons_self),
      ih fun y hy => h y (List.mem_cons_of_mem x hy)]

end Layout

section Writers

variable {x : ExceptT ε Option α} {f : α → ExceptT ε Option β}

theorem bind_eq_ok {b : β} : (x >>= f) = (some (.ok b) : Option (Except ε β)) ↔
    ∃ a, x = (some (.ok a) : Option (Except ε α)) ∧ f a = (some (.ok b) : Option (Except ε β)) := by
  change ExceptT.bind x f = _ ↔ _
  constructor
  · intro h
    match x, h with
    | some (.ok a), h => exact ⟨a, rfl, h⟩
    | some (.error _), h => cases h
    | none, h => cases h
  · rintro ⟨a, rfl, h⟩
    exact h

theorem mapM_eq_ok {xs : List α} {ys : List β} :
    xs.mapM f = (some (.ok ys) : Option (Except ε (List β))) ↔
      List.Forall₂ (fun x y => f x = (some (.ok y) : Option (Except ε β))) xs ys := by
  induction xs generalizing ys with
  | nil =>
    rw [List.mapM_nil, List.forall₂_nil_left_iff]
    constructor
    · intro h
      cases h
      rfl
    · rintro rfl
      rfl
  | cons x xs ih =>
    simp only [List.mapM_cons, bind_eq_ok, List.forall₂_cons_left_iff]
    constructor
    · rintro ⟨y, hy, zs, hzs, heq⟩
      cases heq
      exact ⟨y, zs, hy, ih.mp hzs, rfl⟩
    · rintro ⟨y, zs, hy, hzs, rfl⟩
      exact ⟨y, hy, zs, ih.mpr hzs, rfl⟩

theorem Reader.bind_eq_ok {r : Reader ε α} {f : α → Reader ε β} {s s' : Stream} {b : β} :
    (r >>= f) s = some (.ok (b, s')) ↔
      ∃ a u, r s = some (.ok (a, u)) ∧ f a u = some (.ok (b, s')) := by
  change ((r s : ExceptT ε Option (α × Stream)) >>= fun p => f p.1 p.2) = _ ↔ _
  rw [Codec.bind_eq_ok]
  constructor
  · rintro ⟨⟨a, u⟩, hr, hf⟩
    exact ⟨a, u, hr, hf⟩
  · rintro ⟨a, u, hr, hf⟩
    exact ⟨(a, u), hr, hf⟩

end Writers

section LittleEndian

/- The low bytes of a number, the lowest first. -/
def toBytes : ℕ → ℕ → List UInt8
  | 0, _ => []
  | width + 1, n => UInt8.ofNat n :: toBytes width (n / 256)

def ofBytes : List UInt8 → ℕ
  | [] => 0
  | byte :: bytes => byte.toNat + 256 * ofBytes bytes

theorem length_toBytes (width n : ℕ) : (toBytes width n).length = width := by
  induction width generalizing n with
  | zero => rfl
  | succ width ih => rw [toBytes, List.length_cons, ih]

theorem ofBytes_toBytes {width n : ℕ} (h : n < 256 ^ width) : ofBytes (toBytes width n) = n := by
  induction width generalizing n with
  | zero =>
    rw [pow_zero] at h
    rw [toBytes, ofBytes]
    omega
  | succ width ih =>
    rw [pow_succ] at h
    have hdiv : n / 256 < 256 ^ width := Nat.div_lt_of_lt_mul (by omega)
    rw [toBytes, ofBytes, ih hdiv, UInt8.toNat_ofNat']
    omega

/- Numbers with a sign, as the two's complement. -/
def toBytesSigned (width : ℕ) (x : ℤ) : List UInt8 := toBytes width (x % 256 ^ width).toNat

def ofBytesSigned (bytes : List UInt8) : ℤ := (ofBytes bytes : ℤ).bmod (256 ^ bytes.length)

theorem ofBytesSigned_toBytesSigned {width : ℕ} {x : ℤ} (hlow : -256 ^ width ≤ 2 * x)
    (hhigh : 2 * x < 256 ^ width) : ofBytesSigned (toBytesSigned width x) = x := by
  have hpos : (0 : ℤ) < 256 ^ width := by positivity
  have hnonneg := Int.emod_nonneg x hpos.ne'
  have hlt := Int.emod_lt_of_pos x hpos
  have hnat : (x % 256 ^ width).toNat < 256 ^ width := by
    zify
    rw [Int.toNat_of_nonneg hnonneg]
    exact hlt
  unfold ofBytesSigned toBytesSigned
  rw [ofBytes_toBytes hnat, length_toBytes, Int.toNat_of_nonneg hnonneg]
  have hcast : ((256 ^ width : ℕ) : ℤ) = 256 ^ width := by push_cast; rfl
  rw [← hcast, Int.emod_bmod]
  apply Int.bmod_eq_of_le
  · rw [hcast]
    omega
  · rw [hcast]
    omega

end LittleEndian

end Codec
