import Sicada.Labels

namespace Sicada.LabelsExact

open Labels

section Sequences

def IsContinuation (b : UInt8) : Prop := 0x80 ≤ b.toNat ∧ b.toNat < 0xc0

/- The number of continuation bytes that a lead byte announces. -/
def announced (lead : UInt8) : Option ℕ :=
  if lead < 0x80 then some 0
  else if lead < 0xc0 then none
  else if lead < 0xe0 then some 1
  else if lead < 0xf0 then some 2
  else if lead < 0xf8 then some 3
  else if lead < 0xfc then some 4
  else if lead < 0xfe then some 5
  else none

/- The same, where 0xFE and 0xFF lead a sequence too. -/
def announcedAny (lead : UInt8) : Option ℕ :=
  if 0xfe ≤ lead then some 5 else announced lead

/- A lead byte and the continuation bytes it announces. -/
def Sequence (leads : UInt8 → Option ℕ) (s : List UInt8) : Prop :=
  ∃ lead tail, s = lead :: tail ∧ leads lead = some tail.length ∧ ∀ b ∈ tail, IsContinuation b

/- The sequences one after the other are the bytes. -/
def Splits (leads : UInt8 → Option ℕ) (bytes : List UInt8) (seqs : List (List UInt8)) : Prop :=
  seqs.flatten = bytes ∧ ∀ s ∈ seqs, Sequence leads s

def addBits (code : ℕ) (b : UInt8) : ℕ := code * 64 + b.toNat % 64

/- The bits that a sequence carries. -/
def codeOf : List UInt8 → ℕ
  | [] => 0
  | [lead] => lead.toNat
  | lead :: tail => tail.foldl addBits (lead.toNat % 2 ^ (6 - tail.length))

/- No shorter sequence carries the same. -/
def Shortest (s : List UInt8) : Prop :=
  ∀ s', Sequence announced s' → codeOf s' = codeOf s → s.length ≤ s'.length

end Sequences

section Bytes

theorem forall_byte {P : UInt8 → Prop} (h : ∀ n < 256, P (UInt8.ofNat n)) (b : UInt8) : P b := by
  have hb := h b.toNat b.toNat_lt
  rwa [UInt8.ofNat_toNat] at hb

theorem masked_iff (b : UInt8) : b &&& 0xc0 = 0x80 ↔ IsContinuation b := by
  revert b
  refine forall_byte ?_
  unfold IsContinuation
  decide +kernel

theorem addBits_eq (code : ℕ) (b : UInt8) :
    (code <<< 6) ||| (b &&& 0x3f).toNat = addBits code b := by
  have hlow : (b &&& 0x3f).toNat = b.toNat % 64 := by
    rw [UInt8.toNat_and]
    exact Nat.and_two_pow_sub_one_eq_mod b.toNat 6
  have hlt : b.toNat % 64 < 2 ^ 6 := Nat.mod_lt _ (by decide)
  rw [hlow, Nat.shiftLeft_eq, Nat.mul_comm, ← Nat.two_pow_add_eq_or_of_lt hlt, addBits,
    Nat.mul_comm]

theorem payload_eq (n count : ℕ) : n &&& ((1 <<< (6 - count)) - 1) = n % 2 ^ (6 - count) := by
  rw [Nat.one_shiftLeft, Nat.and_two_pow_sub_one_eq_mod]

/- The lead byte of a sequence, as the parser tells it. -/
theorem announcedAny_iff (lead : UInt8) (n : ℕ) : announcedAny lead = some n ↔
    (lead &&& 0x80 = 0 ∧ n = 0) ∨
      (¬ lead &&& 0x80 = 0 ∧ ¬ lead &&& 0xc0 = 0x80 ∧ n = continuationCount lead) := by
  have hread : announcedAny lead = if lead &&& 0x80 = 0 then some 0
      else if lead &&& 0xc0 = 0x80 then none else some (continuationCount lead) := by
    revert lead
    refine forall_byte ?_
    decide +kernel
  rw [hread]
  by_cases hascii : lead &&& 0x80 = 0
  · simp [hascii, eq_comm]
  · by_cases hcont : lead &&& 0xc0 = 0x80
    · simp [hascii, hcont]
    · simp [hascii, hcont, eq_comm]

theorem continuationCount_pos (lead : UInt8) : ¬ lead &&& 0x80 = 0 → ¬ lead &&& 0xc0 = 0x80 →
    0 < continuationCount lead := by
  revert lead
  refine forall_byte ?_
  decide +kernel

theorem announcedAny_of_announced {lead : UInt8} {n : ℕ} (h : announced lead = some n) :
    announcedAny lead = some n := by
  unfold announcedAny
  split
  next hge =>
    have hnone : ∀ lead : UInt8, 0xfe ≤ lead → announced lead = none :=
      forall_byte (by decide +kernel)
    rw [hnone lead hge] at h
    cases h
  next => exact h

theorem announced_of_any {lead : UInt8} {n : ℕ} (h : announcedAny lead = some n)
    (hlt : lead < 0xfe) : announced lead = some n := by
  unfold announcedAny at h
  rwa [if_neg (UInt8.not_le.mpr hlt)] at h

end Bytes

section Reading

variable {offset count code i : ℕ} {bytes rest tail : List UInt8}

theorem readContinuation_append (htail : ∀ b ∈ tail, IsContinuation b) (rest : List UInt8) :
    readContinuation offset tail.length code i (tail ++ rest) =
      .ok (tail.foldl addBits code, i + tail.length, rest) := by
  induction tail generalizing code i with
  | nil => rfl
  | cons b tail ih =>
    have hb := (masked_iff b).mpr (htail b List.mem_cons_self)
    rw [List.length_cons, List.cons_append, readContinuation, if_neg (not_not.mpr hb), addBits_eq,
      ih fun b' hb' => htail b' (List.mem_cons_of_mem b hb'), List.foldl_cons, Nat.add_assoc,
      Nat.add_comm 1]

theorem exists_tail {code' i' : ℕ}
    (h : readContinuation offset count code i bytes = .ok (code', i', rest)) :
    ∃ tail, bytes = tail ++ rest ∧ tail.length = count ∧ ∀ b ∈ tail, IsContinuation b := by
  induction count generalizing code i bytes with
  | zero =>
    cases h
    exact ⟨[], rfl, rfl, by simp⟩
  | succ count ih =>
    cases bytes with
    | nil => cases h
    | cons b bytes =>
      rw [readContinuation] at h
      split at h
      next => cases h
      next hb =>
        obtain ⟨tail, rfl, rfl, htail⟩ := ih h
        refine ⟨b :: tail, rfl, rfl, fun b' hb' => ?_⟩
        rcases List.mem_cons.mp hb' with rfl | hb'
        · exact (masked_iff b').mp (not_not.mp hb)
        · exact htail b' hb'

theorem codeOf_cons {lead : UInt8} (hne : tail ≠ []) :
    codeOf (lead :: tail) = tail.foldl addBits (lead.toNat % 2 ^ (6 - tail.length)) := by
  cases tail with
  | nil => exact absurd rfl hne
  | cons b tail => rfl

theorem readCode_append {lead : UInt8} (hlead : announcedAny lead = some tail.length)
    (htail : ∀ b ∈ tail, IsContinuation b) (rest : List UInt8) :
    readCode offset lead (tail ++ rest) =
      .ok (codeOf (lead :: tail), offset + (lead :: tail).length, rest) := by
  unfold readCode
  rcases (announcedAny_iff lead tail.length).mp hlead with ⟨hascii, hlen⟩ | ⟨hascii, hcont, hlen⟩
  · obtain rfl := List.length_eq_zero_iff.mp hlen
    rw [if_pos hascii]
    rfl
  · have hne : tail ≠ [] := by
      rintro rfl
      have hpos := continuationCount_pos lead hascii hcont
      rw [← hlen] at hpos
      exact absurd hpos (lt_irrefl _)
    rw [if_neg hascii, if_neg hcont]
    dsimp only
    rw [← hlen, payload_eq, readContinuation_append htail, codeOf_cons hne, List.length_cons,
      Nat.add_assoc, Nat.add_comm 1]

/- What is read is a sequence. -/
theorem exists_sequence {lead : UInt8} {code' i' : ℕ}
    (h : readCode offset lead bytes = .ok (code', i', rest)) :
    ∃ tail, bytes = tail ++ rest ∧ announcedAny lead = some tail.length ∧
      ∀ b ∈ tail, IsContinuation b := by
  unfold readCode at h
  split at h
  next hascii =>
    cases h
    exact ⟨[], rfl, (announcedAny_iff lead 0).mpr (Or.inl ⟨hascii, rfl⟩), by simp⟩
  next hascii =>
    split at h
    next => cases h
    next hcont =>
      obtain ⟨tail, hbytes, hlen, htail⟩ := exists_tail h
      exact ⟨tail, hbytes, (announcedAny_iff lead tail.length).mpr
        (Or.inr ⟨hascii, hcont, hlen⟩), htail⟩

variable {L : Type} [LabelCode L] {labels : List L}

/- The labels are the codes of the sequences, one for one. -/
theorem readLabels_splits {seqs : List (List UInt8)} (h : Splits announcedAny bytes seqs)
    {new : List L} (hnew : List.Forall₂ (fun s label => LabelCode.tryFrom (codeOf s) = some label)
      seqs new) : readLabels offset labels bytes = (.ok (), labels ++ new) := by
  induction seqs generalizing bytes offset labels new with
  | nil =>
    obtain ⟨rfl, -⟩ := h
    cases hnew
    rw [List.flatten_nil, readLabels, List.append_nil]
  | cons s seqs ih =>
    obtain ⟨rfl, hall⟩ := h
    cases hnew with
    | cons hlabel hrest =>
      obtain ⟨lead, tail, rfl, hlead, htail⟩ := hall s List.mem_cons_self
      have hread := @readCode_append offset tail lead hlead htail seqs.flatten
      rw [List.flatten_cons, List.cons_append, readLabels]
      split
      next error herror =>
        rw [hread] at herror
        cases herror
      next code i rest hok =>
        rw [hread] at hok
        cases hok
        rw [hlabel]
        dsimp only
        rw [ih ⟨rfl, fun s' hs' => hall s' (List.mem_cons_of_mem _ hs')⟩ hrest,
          List.append_assoc, List.singleton_append]

theorem splits_of_readLabels {result : List L}
    (h : readLabels offset labels bytes = (.ok (), result)) :
    ∃ seqs labels', Splits announcedAny bytes seqs ∧ result = labels ++ labels' ∧
      List.Forall₂ (fun s label => LabelCode.tryFrom (codeOf s) = some label) seqs labels' := by
  induction hn : bytes.length using Nat.strong_induction_on generalizing bytes offset labels with
  | _ n ih =>
    subst hn
    cases bytes with
    | nil =>
      rw [readLabels] at h
      cases h
      exact ⟨[], [], ⟨rfl, by simp⟩, (List.append_nil _).symm, .nil⟩
    | cons lead bytes =>
      rw [readLabels] at h
      split at h
      next => cases h
      next code i rest hok =>
        obtain ⟨tail, rfl, hlead, htail⟩ := exists_sequence hok
        obtain ⟨rfl, -⟩ := Prod.mk.inj
          (Except.ok.inj (hok.symm.trans (readCode_append hlead htail rest)))
        split at h
        next label hlabel =>
          have hlt : rest.length < (lead :: (tail ++ rest)).length := by
            rw [List.length_cons, List.length_append]
            omega
          obtain ⟨seqs, labels', ⟨hflatten, hall⟩, rfl, hcodes⟩ := ih rest.length hlt h rfl
          refine ⟨(lead :: tail) :: seqs, label :: labels',
            ⟨by rw [List.flatten_cons, hflatten]; rfl, fun s hs => ?_⟩,
            by rw [List.append_assoc]; rfl, .cons hlabel hcodes⟩
          rcases List.mem_cons.mp hs with rfl | hs
          · exact ⟨lead, tail, rfl, hlead, htail⟩
          · exact hall s hs
        next => cases h

end Reading

section Codes

variable {s s' tail tail' : List UInt8} {lead lead' : UInt8} {n : ℕ}

/- The lead bytes of a class, as numbers. -/
theorem announced_range (h : announced lead = some n) :
    n = 0 ∧ lead.toNat < 0x80 ∨ n = 1 ∧ 0xc0 ≤ lead.toNat ∧ lead.toNat < 0xe0 ∨
      n = 2 ∧ 0xe0 ≤ lead.toNat ∧ lead.toNat < 0xf0 ∨
      n = 3 ∧ 0xf0 ≤ lead.toNat ∧ lead.toNat < 0xf8 ∨
      n = 4 ∧ 0xf8 ≤ lead.toNat ∧ lead.toNat < 0xfc ∨
      n = 5 ∧ 0xfc ≤ lead.toNat ∧ lead.toNat < 0xfe := by
  unfold announced at h
  simp only [UInt8.lt_iff_toNat_lt, UInt8.reduceToNat] at h
  split_ifs at h <;> cases h <;> omega

theorem announced_of_range (h : n = 0 ∧ lead.toNat < 0x80 ∨
    n = 1 ∧ 0xc0 ≤ lead.toNat ∧ lead.toNat < 0xe0 ∨
      n = 2 ∧ 0xe0 ≤ lead.toNat ∧ lead.toNat < 0xf0 ∨
      n = 3 ∧ 0xf0 ≤ lead.toNat ∧ lead.toNat < 0xf8 ∨
      n = 4 ∧ 0xf8 ≤ lead.toNat ∧ lead.toNat < 0xfc ∨
      n = 5 ∧ 0xfc ≤ lead.toNat ∧ lead.toNat < 0xfe) : announced lead = some n := by
  unfold announced
  simp only [UInt8.lt_iff_toNat_lt, UInt8.reduceToNat]
  split_ifs <;> first | omega | (congr 1; omega)

theorem foldl_addBits_lt (code : ℕ) (tail : List UInt8) :
    tail.foldl addBits code < (code + 1) * 64 ^ tail.length := by
  induction tail generalizing code with
  | nil => simp
  | cons b tail ih =>
    have hlow : b.toNat % 64 < 64 := Nat.mod_lt _ (by decide)
    have hstep : addBits code b + 1 ≤ (code + 1) * 64 := by
      unfold addBits
      omega
    calc (b :: tail).foldl addBits code
        < (addBits code b + 1) * 64 ^ tail.length := ih (addBits code b)
      _ ≤ (code + 1) * 64 * 64 ^ tail.length := Nat.mul_le_mul_right _ hstep
      _ = (code + 1) * 64 ^ (b :: tail).length := by rw [List.length_cons, Nat.pow_succ]; ring

theorem foldl_addBits_injective {code code' : ℕ} (hlen : tail.length = tail'.length)
    (htail : ∀ b ∈ tail, IsContinuation b) (htail' : ∀ b ∈ tail', IsContinuation b)
    (heq : tail.foldl addBits code = tail'.foldl addBits code') : code = code' ∧ tail = tail' := by
  induction tail generalizing tail' code code' with
  | nil =>
    obtain rfl := List.length_eq_zero_iff.mp hlen.symm
    exact ⟨heq, rfl⟩
  | cons b tail ih =>
    cases tail' with
    | nil => cases hlen
    | cons b' tail' =>
      obtain ⟨hcode, rfl⟩ := ih (Nat.succ.inj hlen)
        (fun x hx => htail x (List.mem_cons_of_mem b hx))
        (fun x hx => htail' x (List.mem_cons_of_mem b' hx)) heq
      obtain ⟨hb, hb'⟩ := htail b List.mem_cons_self
      obtain ⟨hc, hc'⟩ := htail' b' List.mem_cons_self
      unfold addBits at hcode
      have hbyte : b = b' := UInt8.toNat_inj.mp (by omega)
      exact ⟨by omega, by rw [hbyte]⟩

/- The codes that fit a lead byte and so many continuation bytes. -/
def codeBound : ℕ → ℕ
  | 0 => 0x80
  | 1 => 0x800
  | 2 => 0x10000
  | 3 => 0x200000
  | 4 => 0x4000000
  | _ => 0x80000000

theorem codeOf_lt (hlead : announced lead = some tail.length) :
    codeOf (lead :: tail) < codeBound tail.length := by
  cases htail : tail with
  | nil =>
    rw [htail] at hlead
    have hrange := announced_range hlead
    simp only [codeOf, codeBound, List.length_nil] at hrange ⊢
    omega
  | cons b rest =>
    rw [← htail, codeOf_cons (by rw [htail]; exact List.cons_ne_nil b rest)]
    have hpos : 0 < tail.length := by
      rw [htail, List.length_cons]
      exact Nat.succ_pos _
    have hlt := foldl_addBits_lt (lead.toNat % 2 ^ (6 - tail.length)) tail
    have hmod : lead.toNat % 2 ^ (6 - tail.length) < 2 ^ (6 - tail.length) :=
      Nat.mod_lt _ (Nat.pow_pos (by decide))
    refine hlt.trans_le ((Nat.mul_le_mul_right _ hmod).trans ?_)
    rcases announced_range hlead with ⟨h, -⟩ | ⟨h, -⟩ | ⟨h, -⟩ | ⟨h, -⟩ | ⟨h, -⟩ | ⟨h, -⟩ <;>
      rw [h] at hpos ⊢ <;> first | exact absurd hpos (lt_irrefl 0) | decide

theorem codeOf_le {s : List UInt8} (h : Sequence announced s) : codeOf s ≤ maxLabel := by
  obtain ⟨lead, tail, rfl, hlead, -⟩ := h
  have hlt := codeOf_lt hlead
  have hmax : codeBound tail.length ≤ 0x80000000 := by
    unfold codeBound
    split <;> decide
  have hmaxLabel : maxLabel = 0x7fffffff := rfl
  omega

/- Sequences of one length that carry the same are the same. -/
theorem sequence_injective (h : Sequence announced s) (h' : Sequence announced s')
    (hlen : s.length = s'.length) (hcode : codeOf s = codeOf s') : s = s' := by
  obtain ⟨lead, tail, rfl, hlead, htail⟩ := h
  obtain ⟨lead', tail', rfl, hlead', htail'⟩ := h'
  have hlen : tail.length = tail'.length := Nat.succ.inj hlen
  have hrange := announced_range hlead
  have hrange' := announced_range hlead'
  cases htails : tail with
  | nil =>
    obtain rfl : tail' = [] := List.length_eq_zero_iff.mp (by rw [← hlen, htails]; rfl)
    subst htails
    exact congrArg (· :: []) (UInt8.toNat_inj.mp hcode)
  | cons b rest =>
    rw [← htails]
    have hne : tail ≠ [] := htails ▸ List.cons_ne_nil b rest
    have hne' : tail' ≠ [] := by
      rintro rfl
      exact hne (List.length_eq_zero_iff.mp hlen)
    rw [codeOf_cons hne, codeOf_cons hne'] at hcode
    obtain ⟨hpayload, rfl⟩ := foldl_addBits_injective hlen htail htail' hcode
    have hbyte : lead.toNat = lead'.toNat := by
      have hpos : tail.length ≠ 0 := fun hzero => hne (List.length_eq_zero_iff.mp hzero)
      rcases hrange with ⟨h, h₁⟩ | ⟨h, h₁⟩ | ⟨h, h₁⟩ | ⟨h, h₁⟩ | ⟨h, h₁⟩ | ⟨h, h₁⟩
      · exact absurd h hpos
      all_goals
        rw [h] at hpayload hrange'
        norm_num at hpayload
        omega
    rw [UInt8.toNat_inj.mp hbyte]

end Codes

section Writing

variable {label : ℕ}

theorem continuationByte_toNat (label shift : ℕ) :
    (continuationByte label shift).toNat = 0x80 + label / 2 ^ shift % 64 := by
  have hlow : (label >>> shift) &&& 0x3f = label / 2 ^ shift % 64 := by
    rw [Nat.shiftRight_eq_div_pow]
    exact Nat.and_two_pow_sub_one_eq_mod _ 6
  have hlt : label / 2 ^ shift % 64 < 2 ^ 7 := (Nat.mod_lt _ (by decide : 0 < 64)).trans (by decide)
  have hor : label / 2 ^ shift % 64 ||| 0x80 = 0x80 + label / 2 ^ shift % 64 := by
    rw [Nat.or_comm]
    exact (Nat.two_pow_add_eq_or_of_lt hlt 1).symm
  unfold continuationByte
  rw [hlow, hor, UInt8.toNat_ofNat']
  omega

theorem leadByte_toNat {shift width high : ℕ} (hlt : label / 2 ^ shift < 2 ^ width)
    (hbyte : 2 ^ width * high + 2 ^ width ≤ 256) :
    (UInt8.ofNat ((label >>> shift) ||| 2 ^ width * high)).toNat =
      2 ^ width * high + label / 2 ^ shift := by
  rw [Nat.shiftRight_eq_div_pow, Nat.or_comm, ← Nat.two_pow_add_eq_or_of_lt hlt, UInt8.toNat_ofNat']
  exact Nat.mod_eq_of_lt (by omega)

theorem isContinuation_byte (label shift : ℕ) : IsContinuation (continuationByte label shift) := by
  unfold IsContinuation
  rw [continuationByte_toNat]
  omega

/- Each length class writes the high bits into the lead byte and six bits a byte after it. -/
theorem encodeOne_spec (hmax : label ≤ maxLabel) :
    Sequence announced (encodeOne label) ∧ codeOf (encodeOne label) = label := by
  have hmax : label ≤ 0x7fffffff := hmax
  unfold encodeOne
  split_ifs with h₁ h₂ h₃ h₄ h₅
  · have hlead : (UInt8.ofNat label).toNat = label := by
      rw [UInt8.toNat_ofNat']
      omega
    refine ⟨⟨_, [], rfl, announced_of_range ?_, by simp⟩, hlead⟩
    exact Or.inl ⟨rfl, by omega⟩
  · have hlead : (UInt8.ofNat ((label >>> 6) ||| 0xc0)).toNat =
        0xc0 + label / 2 ^ 6 :=
      @leadByte_toNat label 6 5 6 (by omega) (by decide)
    refine ⟨⟨_, _, rfl, announced_of_range ?_, by simp [isContinuation_byte]⟩, ?_⟩
    · exact Or.inr (Or.inl ⟨rfl, by omega, by omega⟩)
    · simp only [codeOf, List.foldl_cons, List.foldl_nil, addBits, continuationByte_toNat, hlead,
        List.length_cons, List.length_nil]
      omega
  · have hlead : (UInt8.ofNat ((label >>> 12) ||| 0xe0)).toNat =
        0xe0 + label / 2 ^ 12 :=
      @leadByte_toNat label 12 4 14 (by omega) (by decide)
    refine ⟨⟨_, _, rfl, announced_of_range ?_, by simp [isContinuation_byte]⟩, ?_⟩
    · exact Or.inr (Or.inr (Or.inl ⟨rfl, by omega, by omega⟩))
    · simp only [codeOf, List.foldl_cons, List.foldl_nil, addBits, continuationByte_toNat, hlead,
        List.length_cons, List.length_nil]
      omega
  · have hlead : (UInt8.ofNat ((label >>> 18) ||| 0xf0)).toNat =
        0xf0 + label / 2 ^ 18 :=
      @leadByte_toNat label 18 3 30 (by omega) (by decide)
    refine ⟨⟨_, _, rfl, announced_of_range ?_, by simp [isContinuation_byte]⟩, ?_⟩
    · exact Or.inr (Or.inr (Or.inr (Or.inl ⟨rfl, by omega, by omega⟩)))
    · simp only [codeOf, List.foldl_cons, List.foldl_nil, addBits, continuationByte_toNat, hlead,
        List.length_cons, List.length_nil]
      omega
  · have hlead : (UInt8.ofNat ((label >>> 24) ||| 0xf8)).toNat =
        0xf8 + label / 2 ^ 24 :=
      @leadByte_toNat label 24 2 62 (by omega) (by decide)
    refine ⟨⟨_, _, rfl, announced_of_range ?_, by simp [isContinuation_byte]⟩, ?_⟩
    · exact Or.inr (Or.inr (Or.inr (Or.inr (Or.inl ⟨rfl, by omega, by omega⟩))))
    · simp only [codeOf, List.foldl_cons, List.foldl_nil, addBits, continuationByte_toNat, hlead,
        List.length_cons, List.length_nil]
      omega
  · have hlead : (UInt8.ofNat ((label >>> 30) ||| 0xfc)).toNat =
        0xfc + label / 2 ^ 30 :=
      @leadByte_toNat label 30 1 126 (by omega) (by decide)
    refine ⟨⟨_, _, rfl, announced_of_range ?_, by simp [isContinuation_byte]⟩, ?_⟩
    · exact Or.inr (Or.inr (Or.inr (Or.inr (Or.inr (⟨rfl, by omega, by omega⟩)))))
    · simp only [codeOf, List.foldl_cons, List.foldl_nil, addBits, continuationByte_toNat, hlead,
        List.length_cons, List.length_nil]
      omega

variable {n : ℕ} {s bytes : List UInt8}

theorem encodeOne_length (hlt : label < codeBound n) : (encodeOne label).length ≤ n + 1 := by
  unfold encodeOne
  rcases n with _ | _ | _ | _ | _ | n <;> simp only [codeBound] at hlt <;>
    split_ifs <;> simp only [List.length_cons, List.length_nil] <;> omega

theorem encodeOne_shortest (hs : Sequence announced s) :
    (encodeOne (codeOf s)).length ≤ s.length := by
  obtain ⟨lead, tail, rfl, hlead, -⟩ := hs
  exact encodeOne_length (codeOf_lt hlead)

theorem encodeOne_codeOf (hs : Sequence announced s) (hshort : Shortest s) :
    encodeOne (codeOf s) = s := by
  obtain ⟨hseq, hcode⟩ := encodeOne_spec (codeOf_le hs)
  exact sequence_injective hseq hs
    (le_antisymm (encodeOne_shortest hs) (hshort _ hseq hcode)) hcode

variable {L : Type} [LabelCode L] {labels : List L}

/- A label that the encoding can represent. -/
def Admissible (label : L) : Prop :=
  1 ≤ LabelCode.toI64 label ∧ LabelCode.toI64 label ≤ maxLabel

def encodeLabel (label : L) : List UInt8 := encodeOne (LabelCode.toI64 label).toNat

theorem writeLabels_run (h : ∀ label ∈ labels, Admissible label) (index : ℕ) :
    writeLabels index labels bytes = (.ok (), bytes ++ (labels.map encodeLabel).flatten) := by
  induction labels generalizing index bytes with
  | nil => rw [writeLabels, List.map_nil, List.flatten_nil, List.append_nil]
  | cons label labels ih =>
    obtain ⟨hpos, hmax⟩ := h label List.mem_cons_self
    have hrest : ∀ label ∈ labels, Admissible label :=
      fun label' hlabel' => h label' (List.mem_cons_of_mem label hlabel')
    rw [writeLabels, if_neg (by omega), if_neg (by omega), if_neg (by omega), ih hrest,
      List.map_cons, List.flatten_cons, List.append_assoc, encodeLabel]

theorem encodeLabel_spec {label : L} (h : Admissible label) :
    Sequence announced (encodeLabel label) ∧
      LabelCode.tryFrom (codeOf (encodeLabel label)) = some label := by
  obtain ⟨hpos, hmax⟩ := h
  obtain ⟨hseq, hcode⟩ := @encodeOne_spec (LabelCode.toI64 label).toNat (by omega)
  refine ⟨hseq, (LabelCode.tryFrom_eq_some _ label).mpr ?_⟩
  rw [encodeLabel, hcode]
  omega

theorem sequence_any (hs : Sequence announced s) : Sequence announcedAny s := by
  obtain ⟨lead, tail, hcons, hlead, htail⟩ := hs
  exact ⟨lead, tail, hcons, announcedAny_of_announced hlead, htail⟩

theorem splits_any {seqs : List (List UInt8)} (h : Splits announced bytes seqs) :
    Splits announcedAny bytes seqs :=
  ⟨h.1, fun s hs => sequence_any (h.2 s hs)⟩

/- Labels written and read again. -/
theorem read_encoded (h : ∀ label ∈ labels, Admissible label) :
    utf8StringToLabels (labels.map encodeLabel).flatten [] = (.ok (), labels) := by
  have hsplits : Splits announced (labels.map encodeLabel).flatten (labels.map encodeLabel) := by
    refine ⟨rfl, fun s hs => ?_⟩
    obtain ⟨label, hlabel, rfl⟩ := List.mem_map.mp hs
    exact (encodeLabel_spec (h label hlabel)).1
  have hcodes : List.Forall₂ (fun s label => LabelCode.tryFrom (codeOf s) = some label)
      (labels.map encodeLabel) labels := by
    rw [List.forall₂_map_left_iff, List.forall₂_same]
    exact fun label hlabel => (encodeLabel_spec (h label hlabel)).2
  exact readLabels_splits (splits_any hsplits) hcodes

end Writing

section Splitting

variable {s bytes : List UInt8} {seqs seqs' : List (List UInt8)}

/- The lead bytes tell where every sequence ends. -/
theorem splits_unique (h : Splits announcedAny bytes seqs) (h' : Splits announcedAny bytes seqs') :
    seqs = seqs' := by
  induction seqs generalizing bytes seqs' with
  | nil =>
    cases seqs' with
    | nil => rfl
    | cons s' seqs' =>
      obtain ⟨lead, tail, rfl, -, -⟩ := h'.2 s' List.mem_cons_self
      have hflatten := h.1.trans h'.1.symm
      cases hflatten
  | cons s seqs ih =>
    obtain ⟨lead, tail, rfl, hlead, -⟩ := h.2 s List.mem_cons_self
    cases seqs' with
    | nil =>
      have hflatten := h.1.trans h'.1.symm
      cases hflatten
    | cons s' seqs' =>
      obtain ⟨lead', tail', rfl, hlead', -⟩ := h'.2 s' List.mem_cons_self
      have hflatten : lead :: (tail ++ seqs.flatten) = lead' :: (tail' ++ seqs'.flatten) :=
        h.1.trans h'.1.symm
      obtain ⟨rfl, happend⟩ := List.cons.inj hflatten
      have hlen : tail.length = tail'.length := Option.some.inj (hlead.symm.trans hlead')
      obtain ⟨rfl, hrest⟩ := List.append_inj happend hlen
      rw [ih ⟨rfl, fun s hs => h.2 s (List.mem_cons_of_mem _ hs)⟩
        ⟨hrest.symm, fun s hs => h'.2 s (List.mem_cons_of_mem _ hs)⟩]

theorem codeOf_any_le (hs : Sequence announcedAny s) : codeOf s ≤ maxLabel := by
  obtain ⟨lead, tail, rfl, hlead, htail⟩ := hs
  by_cases hlt : lead < 0xfe
  · exact codeOf_le ⟨lead, tail, rfl, announced_of_any hlead hlt, htail⟩
  · have hge : 0xfe ≤ lead := UInt8.not_lt.mp hlt
    unfold announcedAny at hlead
    rw [if_pos hge] at hlead
    have hlen : tail.length = 5 := (Option.some.inj hlead).symm
    have hne : tail ≠ [] := by
      rintro rfl
      cases hlen
    have hbits := foldl_addBits_lt (lead.toNat % 2 ^ (6 - tail.length)) tail
    rw [codeOf_cons hne]
    rw [hlen] at hbits ⊢
    have hmax : maxLabel = 0x7fffffff := rfl
    have hmod : lead.toNat % 2 ^ (6 - 5) < 2 := Nat.mod_lt _ (by decide)
    omega

/- A lead byte that is none. -/
def BadLead (s : List UInt8) : Prop := ∃ lead ∈ s.head?, 0xfe ≤ lead

/- The bytes are sequences, and 0xFE or 0xFF with five continuation bytes is one of them. -/
def Misled (bytes : List UInt8) : Prop :=
  ∃ seqs, Splits announcedAny bytes seqs ∧ ∃ s ∈ seqs, BadLead s

theorem sequence_iff : Sequence announced s ↔ Sequence announcedAny s ∧ ¬ BadLead s := by
  constructor
  · intro hs
    refine ⟨sequence_any hs, ?_⟩
    rintro ⟨lead, hhead, hge⟩
    obtain ⟨lead', tail, rfl, hlead, -⟩ := hs
    obtain rfl : lead' = lead := Option.some.inj hhead
    have hrange := announced_range hlead
    have hge : 0xfe ≤ lead'.toNat := hge
    omega
  · rintro ⟨⟨lead, tail, rfl, hlead, htail⟩, hgood⟩
    refine ⟨lead, tail, rfl, announced_of_any hlead (UInt8.not_le.mp fun hge => ?_), htail⟩
    exact hgood ⟨lead, rfl, hge⟩

theorem splits_of_not_misled (h : Splits announcedAny bytes seqs) (hgood : ¬ Misled bytes) :
    Splits announced bytes seqs :=
  ⟨h.1, fun s hs => sequence_iff.mpr ⟨h.2 s hs, fun hbad => hgood ⟨seqs, h, s, hs, hbad⟩⟩⟩

end Splitting

section Main

variable {L : Type} [LabelCode L]

/- Serializing what is parsed gives the bytes back. -/
def Restores (L : Type) [LabelCode L] (bytes : List UInt8) : Prop :=
  ∀ seqs, Splits announced bytes seqs → (∀ s ∈ seqs, Shortest s ∧ codeOf s ≠ 0) →
    ∀ labels : List L, utf8StringToLabels bytes [] = (.ok (), labels) →
      labelsToUtf8String labels [] = (.ok (), bytes)

def Parses (L : Type) [LabelCode L] (bytes : List UInt8) : Prop :=
  ∃ labels : List L, utf8StringToLabels bytes [] = (.ok (), labels)

def WellFormed (bytes : List UInt8) : Prop := ∃ seqs, Splits announced bytes seqs

theorem exists_labels {seqs : List (List UInt8)}
    (hfits : ∀ code ≤ maxLabel, (LabelCode.tryFrom code : Option L).isSome)
    (hseqs : ∀ s ∈ seqs, Sequence announcedAny s) :
    ∃ labels : List L,
      List.Forall₂ (fun s label => LabelCode.tryFrom (codeOf s) = some label) seqs labels := by
  induction seqs with
  | nil => exact ⟨[], List.Forall₂.nil⟩
  | cons s seqs ih =>
    obtain ⟨labels, hlabels⟩ := ih fun s hs => hseqs s (List.mem_cons_of_mem _ hs)
    obtain ⟨label, hlabel⟩ := Option.isSome_iff_exists.mp
      (hfits (codeOf s) (codeOf_any_le (hseqs s List.mem_cons_self)))
    exact ⟨label :: labels, hlabels.cons hlabel⟩

theorem parses_iff (hfits : ∀ code ≤ maxLabel, (LabelCode.tryFrom code : Option L).isSome)
    (bytes : List UInt8) : Parses L bytes ↔ ∃ seqs, Splits announcedAny bytes seqs := by
  constructor
  · rintro ⟨labels, hlabels⟩
    obtain ⟨seqs, -, hseqs, -, -⟩ := splits_of_readLabels hlabels
    exact ⟨seqs, hseqs⟩
  · rintro ⟨seqs, hseqs⟩
    obtain ⟨labels, hlabels⟩ := exists_labels hfits hseqs.2
    exact ⟨[] ++ labels, readLabels_splits hseqs hlabels⟩

theorem encodeLabel_eq {s : List UInt8} {label : L} (hs : Sequence announced s)
    (hshort : Shortest s) (hpos : codeOf s ≠ 0)
    (hlabel : LabelCode.tryFrom (codeOf s) = some label) :
    Admissible label ∧ encodeLabel label = s := by
  have hcode : LabelCode.toI64 label = codeOf s :=
    (LabelCode.tryFrom_eq_some (codeOf s) label).mp hlabel
  have hle := codeOf_le hs
  unfold Admissible encodeLabel
  rw [hcode, Int.toNat_natCast]
  exact ⟨by omega, encodeOne_codeOf hs hshort⟩

theorem map_encodeLabel {seqs : List (List UInt8)} {labels : List L}
    (hcodes : List.Forall₂ (fun s label => LabelCode.tryFrom (codeOf s) = some label) seqs labels)
    (hseqs : ∀ s ∈ seqs, Sequence announced s) (hshort : ∀ s ∈ seqs, Shortest s ∧ codeOf s ≠ 0) :
    (∀ label ∈ labels, Admissible label) ∧ labels.map encodeLabel = seqs := by
  induction hcodes with
  | nil => exact ⟨by simp, rfl⟩
  | @cons s label seqs labels hlabel _ ih =>
    obtain ⟨hall, hmap⟩ := ih (fun s hs => hseqs s (List.mem_cons_of_mem _ hs))
      fun s hs => hshort s (List.mem_cons_of_mem _ hs)
    obtain ⟨hfirst, hne⟩ := hshort s List.mem_cons_self
    obtain ⟨hlabel, hbytes⟩ := encodeLabel_eq (hseqs s List.mem_cons_self) hfirst hne hlabel
    refine ⟨fun label' hlabel' => ?_, by rw [List.map_cons, hbytes, hmap]⟩
    rcases List.mem_cons.mp hlabel' with rfl | hlabel'
    · exact hlabel
    · exact hall label' hlabel'

theorem restores (bytes : List UInt8) : Restores L bytes := by
  intro seqs hseqs hshort labels hlabels
  obtain ⟨seqs', labels', hseqs', rfl, hcodes⟩ := splits_of_readLabels hlabels
  obtain rfl := splits_unique (splits_any hseqs) hseqs'
  obtain ⟨hall, hmap⟩ := map_encodeLabel hcodes hseqs.2 hshort
  have hwrite := @writeLabels_run [] L _ labels hall 0
  rw [hmap, hseqs.1] at hwrite
  exact hwrite

/- What labels are written as reads as these labels, and bytes that no bad lead byte misleads
parse exactly when they are well formed. -/
theorem codec_exact (hfits : ∀ code ≤ maxLabel, (LabelCode.tryFrom code : Option L).isSome) :
    (∀ labels : List L, (∀ label ∈ labels, Admissible label) → ∃ bytes,
      labelsToUtf8String labels [] = (.ok (), bytes) ∧
        utf8StringToLabels bytes [] = (.ok (), labels)) ∧
    ∀ bytes, ((Parses L bytes ↔ WellFormed bytes) ∧ Restores L bytes) ↔ ¬ Misled bytes := by
  refine ⟨fun labels hlabels => ⟨_, writeLabels_run hlabels 0, read_encoded hlabels⟩,
    fun bytes => ?_⟩
  constructor
  · rintro ⟨hparses, -⟩ ⟨seqs, hseqs, s, hs, hbad⟩
    obtain ⟨seqs', hseqs'⟩ := hparses.mp ((parses_iff hfits bytes).mpr ⟨seqs, hseqs⟩)
    obtain rfl := splits_unique hseqs (splits_any hseqs')
    exact (sequence_iff.mp (hseqs'.2 s hs)).2 hbad
  · intro hgood
    refine ⟨⟨fun hparses => ?_, ?_⟩, restores bytes⟩
    · obtain ⟨seqs, hseqs⟩ := (parses_iff hfits bytes).mp hparses
      exact ⟨seqs, splits_of_not_misled hseqs hgood⟩
    · rintro ⟨seqs, hseqs⟩
      exact (parses_iff hfits bytes).mpr ⟨seqs, splits_any hseqs⟩

theorem codec_exact_integers :
    (∀ code ≤ maxLabel, (LabelCode.tryFrom code : Option ℤ).isSome) ∧
    (∀ labels : List ℤ, (∀ label ∈ labels, Admissible label) → ∃ bytes,
      labelsToUtf8String labels [] = (.ok (), bytes) ∧
        utf8StringToLabels bytes [] = (.ok (), labels)) ∧
    ∀ bytes, ((Parses ℤ bytes ↔ WellFormed bytes) ∧ Restores ℤ bytes) ↔ ¬ Misled bytes :=
  ⟨fun _ _ => rfl, codec_exact fun _ _ => rfl⟩

/- 0xFE and five continuation bytes are read as a label, and they are no sequence. -/
theorem reads_bad_lead :
    utf8StringToLabels [0xfe, 0x80, 0x80, 0x80, 0x80, 0x81] [] = (.ok (), [(1 : ℤ)]) ∧
      ¬ WellFormed [0xfe, 0x80, 0x80, 0x80, 0x80, 0x81] := by
  have htail : ∀ b ∈ ([0x80, 0x80, 0x80, 0x80, 0x81] : List UInt8), IsContinuation b := by
    unfold IsContinuation
    decide +kernel
  have hseq : Sequence announcedAny [0xfe, 0x80, 0x80, 0x80, 0x80, 0x81] :=
    ⟨0xfe, _, rfl, by decide, htail⟩
  have hsplits : Splits announcedAny [0xfe, 0x80, 0x80, 0x80, 0x80, 0x81]
      [[0xfe, 0x80, 0x80, 0x80, 0x80, 0x81]] :=
    ⟨by decide, by simpa using hseq⟩
  refine ⟨readLabels_splits hsplits (List.Forall₂.cons rfl List.Forall₂.nil), ?_⟩
  rintro ⟨seqs, hseqs⟩
  obtain rfl := splits_unique hsplits (splits_any hseqs)
  have hgood := (sequence_iff.mp (hseqs.2 _ List.mem_cons_self)).2
  exact hgood ⟨0xfe, rfl, by decide⟩

end Main

end Sicada.LabelsExact
