import Sicada.Library.Container

/- What is called one after the other, and what it is promised to be called with. -/
namespace Calls

section Runs

variable {Q P A Op Reply : Type*} (apply : Op → Q → Option (Reply × Q))
  (Proper : A → Op → Prop) (after : A → Op → Reply → A)

/- The calls are proper in view of what the replies have made of the `A` that goes with them. -/
inductive Runs : Q → A → List Op → List Reply → Q → A → Prop
  | nil (q : Q) (a : A) : Runs q a [] [] q a
  | cons {q q' q'' : Q} {a a'' : A} {op : Op} {ops : List Op} {reply : Reply}
      {replies : List Reply} (hproper : Proper a op) (hstep : apply op q = some (reply, q'))
      (hrest : Runs q' (after a op reply) ops replies q'' a'') :
      Runs q a (op :: ops) (reply :: replies) q'' a''

variable {apply} {apply' : Op → P → Option (Reply × P)} {Proper after} {q q' : Q} {a a' : A}
  {ops : List Op} {replies : List Reply}

theorem Runs.invariant (Inv : Q → A → Prop)
    (hstep : ∀ q a op reply q', Inv q a → Proper a op → apply op q = some (reply, q') →
      Inv q' (after a op reply))
    (h : Runs apply Proper after q a ops replies q' a') (hinv : Inv q a) : Inv q' a' := by
  induction h with
  | nil q a => exact hinv
  | cons hproper happly _ ih => exact ih (hstep _ _ _ _ _ hinv hproper happly)

/- What does the same on every proper call does the same on every run. -/
theorem Runs.simulated {R : Q → P → A → Prop}
    (hstep : ∀ q p a op reply q', R q p a → Proper a op → apply op q = some (reply, q') →
      ∃ p', apply' op p = some (reply, p') ∧ R q' p' (after a op reply))
    (h : Runs apply Proper after q a ops replies q' a') {p : P} (hrel : R q p a) :
    ∃ p', Runs apply' Proper after p a ops replies p' a' ∧ R q' p' a' := by
  induction h generalizing p with
  | nil q a => exact ⟨p, .nil p a, hrel⟩
  | cons hproper happly _ ih =>
    obtain ⟨p', happly', hrel'⟩ := hstep _ _ _ _ _ _ hrel hproper happly
    obtain ⟨p'', hrun, hrel''⟩ := ih hrel'
    exact ⟨p'', .cons hproper happly' hrun, hrel''⟩

end Runs

section Restricted

variable {Q P A Op Reply : Type*} [DecidableEq Reply] (silent : Reply)
  (apply : Op → Q → Option (Reply × Q)) (apply' : Op → P → Option (Reply × P))
  (keep : A → Op → Bool) (next : A → Op → A)

/- What is seen of the calls: the replies that say something, or a panic. -/
def seen : List Op → Q → Option (List Reply)
  | [], _ => some []
  | op :: ops, q => (apply op q).bind fun (reply, q) =>
    (seen ops q).map fun replies => if reply = silent then replies else reply :: replies

/- Every call is made where it may be. -/
def Meets (ok : P → Op → Prop) : List Op → P → Prop
  | [], _ => True
  | op :: ops, p => ok p op ∧ ∀ reply p', apply' op p = some (reply, p') → Meets ok ops p'

/- The calls that are kept, in view of those before them. -/
def restrict : List Op → A → List Op
  | [], _ => []
  | op :: ops, a => if keep a op then op :: restrict ops (next a op) else restrict ops (next a op)

/- No calls tell one from the other. -/
def SeenAlike (q p : Q) : Prop := ∀ ops, seen silent apply ops q = seen silent apply ops p

variable {silent apply apply' keep next}

theorem seen_none {op : Op} {ops : List Op} {q : Q} (h : apply op q = none) :
    seen silent apply (op :: ops) q = none := by
  rw [seen, h, Option.bind_none]

theorem seen_some {op : Op} {ops : List Op} {q q' : Q} {reply : Reply}
    (h : apply op q = some (reply, q')) : seen silent apply (op :: ops) q =
      (seen silent apply ops q').map fun replies =>
        if reply = silent then replies else reply :: replies := by
  rw [seen, h, Option.bind_some]

/- What answers a call as the inner one does where the call is kept, and says nothing where it is
not, is seen to do what the inner one does on the calls that are kept. -/
theorem seen_restrict {ok : P → Op → Prop} {R : P → Q → A → Prop}
    (hkept : ∀ p q a op, R p q a → ok p op → keep a op = true →
      (apply' op p = none ∧ apply op q = none) ∨ ∃ reply p' q', apply' op p = some (reply, p') ∧
        apply op q = some (reply, q') ∧ R p' q' (next a op))
    (hdropped : ∀ p q a op, R p q a → ok p op → keep a op = false →
      ∃ p', apply' op p = some (silent, p') ∧ R p' q (next a op))
    {ops : List Op} {p : P} {q : Q} {a : A} (hrel : R p q a) (hmeets : Meets apply' ok ops p) :
    seen silent apply' ops p = seen silent apply (restrict keep next ops a) q := by
  induction ops generalizing p q a with
  | nil => rfl
  | cons op ops ih =>
    obtain ⟨hok, hrest⟩ := hmeets
    unfold restrict
    by_cases hkeep : keep a op = true
    · rw [if_pos hkeep]
      rcases hkept p q a op hrel hok hkeep with ⟨hnone, hnone'⟩ | ⟨reply, p', q', hp, hq, hrel'⟩
      · rw [seen_none hnone, seen_none hnone']
      · rw [seen_some hp, seen_some hq, ih hrel' (hrest reply p' hp)]
    · rw [if_neg hkeep]
      obtain ⟨p', hp, hrel'⟩ := hdropped p q a op hrel hok (Bool.eq_false_iff.mpr hkeep)
      rw [seen_some hp, ih hrel' (hrest silent p' hp)]
      simp only [↓reduceIte, Option.map_id']

omit [DecidableEq Reply] in
/- What is preserved by the calls that are made where they may be. -/
theorem Runs.invariant_meets {Proper : A → Op → Prop} {after : A → Op → Reply → A}
    {ok : Q → Op → Prop} {q q' : Q} {a a' : A} {ops : List Op} {replies : List Reply}
    (Inv : Q → A → Prop)
    (hstep : ∀ q a op reply q', Inv q a → ok q op → Proper a op → apply op q = some (reply, q') →
      Inv q' (after a op reply))
    (h : Runs apply Proper after q a ops replies q' a') (hmeets : Meets apply ok ops q)
    (hinv : Inv q a) : Inv q' a' := by
  induction h with
  | nil q a => exact hinv
  | cons hproper happly _ ih =>
    exact ih (hmeets.2 _ _ happly) (hstep _ _ _ _ _ hinv hmeets.1 hproper happly)

omit [DecidableEq Reply] in
theorem meets_of_forall {ok : P → Op → Prop} (h : ∀ p op, ok p op) (ops : List Op) (p : P) :
    Meets apply' ok ops p := by
  induction ops generalizing p with
  | nil => exact True.intro
  | cons op ops ih => exact ⟨h p op, fun _ p' _ => ih p'⟩

end Restricted

end Calls

namespace Container

open Calls

variable {S Q : Type*} [DecidableEq S]

/- A look at the queue may move something behind the scenes. -/
structure Queue (S Q : Type*) extends Discipline S Q where
  head : Q → Option (Option S × Q)
  isEmpty : Q → Option (Bool × Q)

/- A queue next to something it may look at, which others may change. -/
def Queue.beside {M : Type*} (d : Queue S (Q × M)) (m : M) : Queue S Q where
  enqueue state q := (d.enqueue state (q, m)).map Prod.fst
  dequeue q := (d.dequeue (q, m)).map fun (state, q) => (state, q.1)
  update state q := (d.update state (q, m)).map Prod.fst
  clear q := (d.clear (q, m)).1
  head q := (d.head (q, m)).map fun (state, q) => (state, q.1)
  isEmpty q := (d.isEmpty (q, m)).map fun (answer, q) => (answer, q.1)

inductive Call (S : Type*)
  | head
  | isEmpty
  | enqueue (state : S)
  | dequeue
  | update (state : S)
  | clear
deriving DecidableEq

inductive Reply (S : Type*)
  | state (state : Option S)
  | answer (answer : Bool)
  | done
deriving DecidableEq

def Queue.apply (d : Queue S Q) : Call S → Q → Option (Reply S × Q)
  | .head, q => (d.head q).map fun (state, q) => (.state state, q)
  | .isEmpty, q => (d.isEmpty q).map fun (answer, q) => (.answer answer, q)
  | .enqueue state, q => (d.enqueue state q).map fun q => (.done, q)
  | .dequeue, q => (d.dequeue q).map fun (state, q) => (.state state, q)
  | .update state, q => (d.update state q).map fun q => (.done, q)
  | .clear, q => some (.done, d.clear q)

omit [DecidableEq S] in
theorem Queue.beside_apply {M : Type*} {d : Queue S (Q × M)} {m : M} {call : Call S} {q q' : Q}
    {reply : Reply S} (h : (d.beside m).apply call q = some (reply, q')) :
    ∃ m', d.apply call (q, m) = some (reply, q', m') := by
  have hbeside : (d.beside m).apply call q =
      (d.apply call (q, m)).map fun (reply, q) => (reply, q.1) := by
    cases call with
    | clear => rfl
    | _ =>
      change Option.map _ (Option.map _ _) = Option.map _ (Option.map _ _)
      rw [Option.map_map, Option.map_map]
      rfl
  rw [hbeside] at h
  obtain ⟨⟨reply', q'', m'⟩, happly, heq⟩ := Option.map_eq_some_iff.mp h
  cases heq
  exact ⟨m', happly⟩

/- Nothing is put in that is there, and nothing updated that is not. -/
def Proper (Known : S → Prop) (A : Finset S) : Call S → Prop
  | .enqueue state => Known state ∧ state ∉ A
  | .update state => state ∈ A
  | _ => True

/- What is held after a call. -/
def held (A : Finset S) : Call S → Reply S → Finset S
  | .enqueue state, _ => insert state A
  | .dequeue, .state (some state) => A.erase state
  | .clear, _ => ∅
  | _, _ => A

/- What a queue that holds `A` may reply, where `First` says what may come first. -/
def Allowed (First : S → Prop) (A : Finset S) : Call S → Reply S → Prop
  | .head, reply | .dequeue, reply =>
    (A = ∅ ∧ reply = .state none) ∨ ∃ state ∈ A, First state ∧ reply = .state (some state)
  | .isEmpty, reply => reply = .answer (decide (A = ∅))
  | _, reply => reply = .done

section Contracts

variable (d : Queue S Q) (Known : S → Prop) (Full : Finset S → Call S → Prop)
  (First : Finset S → S → Prop)

/- A queue is a container that announces what it hands out, as far as it has room. -/
structure Contract (Holds : Q → Finset S → Prop) : Prop where
  step : ∀ q A call, Holds q A → Proper Known A call →
    (Full A call ∧ d.apply call q = none) ∨ ¬ Full A call ∧ ∃ reply q',
      d.apply call q = some (reply, q') ∧ Allowed (First A) A call reply ∧
        Holds q' (held A call reply)
  announces : ∀ q A state q', Holds q A → d.head q = some (state, q') →
    ∃ q'', d.dequeue q' = some (state, q'')

/- Two queues that hold the same and cannot be told apart. -/
structure Paired (Alike : Q → Q → Finset S → Prop) : Prop where
  step : ∀ q p A call, Alike q p A → Proper Known A call →
    (Full A call ∧ d.apply call q = none ∧ d.apply call p = none) ∨
    ¬ Full A call ∧ ∃ reply q' p', d.apply call q = some (reply, q') ∧
      d.apply call p = some (reply, p') ∧ Allowed (First A) A call reply ∧
        Alike q' p' (held A call reply)
  announces : ∀ q p A state q', Alike q p A → d.head q = some (state, q') →
    ∃ q'', d.dequeue q' = some (state, q'')

/- What can be said of a queue after any calls: it panics where it has no room and nowhere else,
gives back all it holds, and is as good as new once it is cleared. -/
structure Serves {M : Type*} (new : M → Q) (memory : Q → M) (q : Q) (A : Finset S) : Prop where
  panics : ∀ call, Proper Known A call → (d.apply call q = none ↔ Full A call)
  replies : ∀ call reply q', Proper Known A call → d.apply call q = some (reply, q') →
    Allowed (First A) A call reply
  announces : ∀ state q', d.head q = some (state, q') → ∃ q'', d.dequeue q' = some (state, q'')
  drains : ∃ (states : List S) (q' : Q), states.Nodup ∧ (∀ s, s ∈ states ↔ s ∈ A) ∧
    Runs d.apply (Proper Known) held q A (states.map fun _ => .dequeue)
      (states.map fun s => .state (some s)) q' ∅
  clears : ∀ calls replies,
    (∃ q' A', Runs d.apply (Proper Known) held (d.clear q) ∅ calls replies q' A') ↔
      ∃ q' A', Runs d.apply (Proper Known) held (new (memory q)) ∅ calls replies q' A'

/- After whatever has been asked of a new one. -/
def ServesAlways {M : Type*} (new : M → Q) (memory : Q → M) : Prop :=
  ∀ m calls replies q A, Runs d.apply (Proper Known) held (new m) ∅ calls replies q A →
    Serves d Known Full First new memory q A

end Contracts

variable {d : Queue S Q} {Known : S → Prop} {Full : Finset S → Call S → Prop}
  {First : Finset S → S → Prop} {Holds : Q → Finset S → Prop} {Alike : Q → Q → Finset S → Prop}
  {q p q' : Q} {A A' : Finset S} {calls : List (Call S)} {replies : List (Reply S)}

/- A queue that keeps its contract, with another that holds the same and gives the same replies. -/
theorem Contract.paired {Same : Q → Q → Prop} (h : Contract d Known Full First Holds)
    (hsame : ∀ q p A call reply q', Same q p → Holds q A → Holds p A → Proper Known A call →
      d.apply call q = some (reply, q') → ∃ p', d.apply call p = some (reply, p') ∧ Same q' p') :
    Paired d Known Full First fun q p A => Same q p ∧ Holds q A ∧ Holds p A := by
  refine ⟨?_, fun q p A state q' halike => h.announces q A state q' halike.2.1⟩
  rintro q p A call ⟨hqp, hq, hp⟩ hproper
  rcases h.step q A call hq hproper with ⟨hfull, hnone⟩ | ⟨hroom, reply, q', hsome, hreply, hq'⟩
  · rcases h.step p A call hp hproper with ⟨-, hnone'⟩ | ⟨hroom, -⟩
    · exact Or.inl ⟨hfull, hnone, hnone'⟩
    · exact absurd hfull hroom
  · obtain ⟨p', hsome', hqp'⟩ := hsame q p A call reply q' hqp hq hp hproper hsome
    rcases h.step p A call hp hproper with ⟨hfull, -⟩ | ⟨-, reply', p'', hp'', -, hholds⟩
    · exact absurd hfull hroom
    · obtain ⟨rfl, rfl⟩ := Prod.mk.inj (Option.some.inj (hsome'.symm.trans hp''))
      exact Or.inr ⟨hroom, _, q', _, hsome, hsome', hreply, hqp', hq', hholds⟩

/- A queue that keeps its contract cannot be told from itself. -/
theorem Contract.self (h : Contract d Known Full First Holds) :
    Paired d Known Full First fun q p A => q = p ∧ Holds q A ∧ Holds p A :=
  h.paired fun _ _ _ _ _ q' heq _ _ _ happly => ⟨q', heq ▸ happly, rfl⟩

theorem Paired.simulated (h : Paired d Known Full First Alike) (hqp : Alike q p A)
    (hrun : Runs d.apply (Proper Known) held q A calls replies q' A') :
    ∃ p', Runs d.apply (Proper Known) held p A calls replies p' A' ∧ Alike q' p' A' := by
  refine hrun.simulated (R := Alike) (fun q p A call reply q' hqp hproper happly => ?_) hqp
  rcases h.step q p A call hqp hproper with ⟨-, hnone, -⟩ |
    ⟨-, reply', q'', p', hq, hp, -, hqp'⟩
  · exact absurd (happly.symm.trans hnone) (Option.some_ne_none _)
  · obtain ⟨rfl, rfl⟩ := Prod.mk.inj (Option.some.inj (hq.symm.trans happly))
    exact ⟨p', hp, hqp'⟩

theorem Paired.run (h : Paired d Known Full First Alike) (hq : Alike q q A)
    (hrun : Runs d.apply (Proper Known) held q A calls replies q' A') : Alike q' q' A' := by
  refine hrun.invariant (fun q A => Alike q q A)
    (fun q A call reply q' hq hproper happly => ?_) hq
  rcases h.step q q A call hq hproper with ⟨-, hnone, -⟩ | ⟨-, reply', q'', p', hq', hp, -, hqp'⟩
  · exact absurd (happly.symm.trans hnone) (Option.some_ne_none _)
  · obtain ⟨rfl, rfl⟩ := Prod.mk.inj (Option.some.inj (hq'.symm.trans happly))
    obtain ⟨-, rfl⟩ := Prod.mk.inj (Option.some.inj (hp.symm.trans happly))
    exact hqp'

/- As often as there are states, the next one is among those that are left. -/
theorem Paired.drains (h : Paired d Known Full First Alike)
    (hroom : ∀ A, ¬ Full A Call.dequeue) (hq : Alike q q A) :
    ∃ (states : List S) (q' : Q), states.Nodup ∧ (∀ s, s ∈ states ↔ s ∈ A) ∧
      Runs d.apply (Proper Known) held q A (states.map fun _ => .dequeue)
        (states.map fun s => .state (some s)) q' ∅ := by
  induction hcard : A.card generalizing q A with
  | zero =>
    obtain rfl := Finset.card_eq_zero.mp hcard
    exact ⟨[], q, List.nodup_nil, fun s => by simp, .nil q ∅⟩
  | succ n ih =>
    rcases h.step q q A .dequeue hq True.intro with ⟨hfull, -, -⟩ |
      ⟨-, reply, q', p', happly, happly', hreply, halike⟩
    · exact absurd hfull (hroom A)
    · obtain ⟨-, rfl⟩ := Prod.mk.inj (Option.some.inj (happly'.symm.trans happly))
      rcases hreply with ⟨rfl, -⟩ | ⟨s, hs, -, rfl⟩
      · simp at hcard
      · obtain ⟨states, q'', hnodup, hmem, hrun⟩ := ih halike (by
          change (A.erase s).card = n
          rw [Finset.card_erase_of_mem hs, hcard, Nat.add_sub_cancel])
        have hmem' : ∀ t, t ∈ states ↔ t ∈ A.erase s := hmem
        refine ⟨s :: states, q'', List.nodup_cons.mpr ⟨fun hin => ?_, hnodup⟩, fun t => ?_,
          .cons True.intro happly hrun⟩
        · exact absurd rfl (Finset.mem_erase.mp ((hmem' s).mp hin)).1
        · rw [List.mem_cons, hmem', Finset.mem_erase]
          constructor
          · rintro (rfl | ⟨-, ht⟩)
            · exact hs
            · exact ht
          · intro ht
            exact or_iff_not_imp_left.mpr fun hne => ⟨hne, ht⟩

theorem Paired.serves {M : Type*} {new : M → Q} {memory : Q → M}
    (h : Paired d Known Full First Alike) (hsymm : ∀ q p A, Alike q p A → Alike p q A)
    (hroom : ∀ A, ¬ Full A Call.dequeue) (hnew : ∀ m, Alike (new m) (new m) ∅)
    (hclear : ∀ q A, Alike q q A → Alike (d.clear q) (new (memory q)) ∅) (m : M)
    (hrun : Runs d.apply (Proper Known) held (new m) ∅ calls replies q A) :
    Serves d Known Full First new memory q A := by
  have hq := h.run (hnew m) hrun
  have hcleared := hclear q A hq
  refine ⟨fun call hproper => ?_, fun call reply q' hproper happly => ?_,
    fun state q' hhead => h.announces q q A state q' hq hhead, h.drains hroom hq,
    fun calls replies => ⟨?_, ?_⟩⟩
  · rcases h.step q q A call hq hproper with ⟨hfull, hnone, -⟩ | ⟨hroom, _, _, _, hsome, -, -, -⟩
    · exact iff_of_true hnone hfull
    · exact iff_of_false (by rw [hsome]; exact Option.some_ne_none _) hroom
  · rcases h.step q q A call hq hproper with ⟨-, hnone, -⟩ | ⟨-, _, _, _, hsome, -, hreply, -⟩
    · exact absurd (happly.symm.trans hnone) (Option.some_ne_none _)
    · obtain ⟨rfl, -⟩ := Prod.mk.inj (Option.some.inj (hsome.symm.trans happly))
      exact hreply
  · rintro ⟨q', A', hrun⟩
    obtain ⟨p', hrun', -⟩ := h.simulated hcleared hrun
    exact ⟨p', A', hrun'⟩
  · rintro ⟨q', A', hrun⟩
    obtain ⟨p', hrun', -⟩ := h.simulated (hsymm _ _ _ hcleared) hrun
    exact ⟨p', A', hrun'⟩

end Container
