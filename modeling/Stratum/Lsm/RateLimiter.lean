import Mathlib.Algebra.Ring.Int.Defs
import Mathlib.Data.List.Forall2
import Stratum.Lib.Run

/-!
# The rate limiter of compactions

A token bucket: a goroutine refills it on every tick, up to its size, and `Request` takes tokens out
of it. A request that asks for more than there is takes what there is and waits on the condition
variable, and each tick wakes everybody that waits; so a request may take its tokens **in several
parts**, with others in between.

The tokens are only touched under the mutex, so the machine has one action for what a call does
while it holds it: from `Lock`, or from where `Wait` returns, to the next `Wait` or to its end
(`RateLimiter.grant`). The numbers are the `int64`s of the source.

The source does not count what a request has taken. `Ledger` records it from outside, as what is
missing from the bucket after a critical section of the call; any run has its ledger
(`Ledger.run_sys`). What is available and what was taken is together never more than what was there
at the start and what the ticks have brought (`LedgerInv`).
-/

namespace Stratum.Lsm

open Machine

/-- `RateLimiter`, without what synchronises it. -/
structure RateLimiter where
  bytesPerSec : Int64
  available : Int64
deriving DecidableEq, Repr

/-- `NewRateLimiter`; a nil limiter is no limit. -/
def newRateLimiter (bytesPerSec : Int64) : Option RateLimiter :=
  if bytesPerSec ≤ 0 then none else some ⟨bytesPerSec, bytesPerSec⟩

/-- Where a call of `Request` is: at `Lock` or woken in `Wait`, in `Wait`, or at its end. -/
inductive RequestPc
  | locking
  | waiting
  | returned
deriving DecidableEq, Repr

/-- A call of `Request`, with the variable `bytes`. -/
structure Request where
  bytes : Int64
  pc : RequestPc
deriving DecidableEq, Repr

/-- What `Broadcast` does to a call. -/
def Request.wake (q : Request) : Request :=
  if q.pc = .waiting then { q with pc := .locking } else q

namespace RateLimiter

/-- The amount `refillLoop` starts with. -/
def refillAmount (r : RateLimiter) : Int64 :=
  if r.bytesPerSec / 10 = 0 then 1 else r.bytesPerSec / 10

/-- A tick of `refillLoop`. -/
def refill (r : RateLimiter) : RateLimiter :=
  let available := r.available + r.refillAmount
  { r with available := if available > r.bytesPerSec then r.bytesPerSec else available }

/-- `Request` while it holds the mutex: one round of the loop, to its `Wait` or its `return`. -/
def grant (r : RateLimiter) (bytes : Int64) : RateLimiter × Request :=
  if bytes > 0 then
    if r.available ≥ bytes then
      ({ r with available := r.available - bytes }, ⟨bytes, .returned⟩)
    else if r.available > 0 then
      ({ r with available := 0 }, ⟨bytes - r.available, .waiting⟩)
    else (r, ⟨bytes, .waiting⟩)
  else (r, ⟨bytes, .returned⟩)

end RateLimiter

/-- A limiter with the calls of `Request` so far; whether `stopCh` is closed, and whether
`refillLoop` runs. -/
structure Limited where
  limiter : RateLimiter
  requests : List Request
  stopped : Bool
  refilling : Bool
deriving DecidableEq, Repr

/-- The actions: a call of `Request`, a call that gets the mutex, a tick, `Stop`, and the end of
`refillLoop`. -/
inductive LimiterAct
  | call (bytes : Int64)
  | lock (i : ℕ)
  | tick
  | stop
  | exit
deriving DecidableEq, Repr

/-- The argument of a call. -/
def LimiterAct.asked : LimiterAct → Option Int64
  | .call bytes => some bytes
  | _ => none

namespace Limited

/-- A limiter that was just made. -/
def start (r : RateLimiter) : Limited := ⟨r, [], false, true⟩

/-- One action. -/
def step (s : Limited) : LimiterAct → Option Limited
  | .call bytes => some { s with requests := s.requests ++ [⟨bytes, .locking⟩] }
  | .lock i => do
    let q ← s.requests[i]?
    if q.pc = .locking then
      some { s with
        limiter := (s.limiter.grant q.bytes).1
        requests := s.requests.set i (s.limiter.grant q.bytes).2 }
    else none
  | .tick =>
    -- also after `Stop`, as long as the loop has not taken the other case of its `select`
    if s.refilling then
      some { s with limiter := s.limiter.refill, requests := s.requests.map Request.wake }
    else none
  | .stop => if s.stopped then none else some { s with stopped := true }
  | .exit => if s.stopped ∧ s.refilling then some { s with refilling := false } else none

end Limited

/-! ### The ledger -/

/-- What a call has asked for, and what it has taken so far. -/
structure Account where
  asked : Int64
  taken : ℤ
deriving DecidableEq, Repr

/-- A limiter with an account for each call and the number of ticks. -/
structure Ledger where
  sys : Limited
  accounts : List Account
  ticks : ℕ
deriving DecidableEq, Repr

namespace Ledger

/-- The ledger of a limiter that was just made. -/
def start (r : RateLimiter) : Ledger := ⟨.start r, [], 0⟩

/-- What an action that leads to `s` adds to the ledger. -/
def record (l : Ledger) (s : Limited) : LimiterAct → Ledger
  | .call bytes => ⟨s, l.accounts ++ [⟨bytes, 0⟩], l.ticks⟩
  | .lock i =>
    let grant := l.sys.limiter.available.toInt - s.limiter.available.toInt
    ⟨s, l.accounts.modify i fun a => { a with taken := a.taken + grant }, l.ticks⟩
  | .tick => ⟨s, l.accounts, l.ticks + 1⟩
  | .stop => ⟨s, l.accounts, l.ticks⟩
  | .exit => ⟨s, l.accounts, l.ticks⟩

/-- One action, recorded. -/
def step (l : Ledger) (a : LimiterAct) : Option Ledger :=
  (l.sys.step a).map fun s => l.record s a

/-- What all calls have taken. -/
def taken (l : Ledger) : ℤ := (l.accounts.map Account.taken).sum

@[simp] theorem sys_record (l : Ledger) (s : Limited) (a : LimiterAct) :
    (l.record s a).sys = s := by
  cases a <;> rfl

/-- **The ledger is kept from outside**: recording a run does not change it. -/
theorem run_sys (l : Ledger) (tr : List LimiterAct) :
    (run step l tr).map sys = run Limited.step l.sys tr := by
  induction tr generalizing l with
  | nil => rfl
  | cons a tr ih =>
    rw [run, run, step]
    cases l.sys.step a with
    | none => rfl
    | some s => simpa using ih (l.record s a)

theorem map_asked_modify (accounts : List Account) (i : ℕ) {f : Account → Account}
    (hf : ∀ a, (f a).asked = a.asked) :
    (accounts.modify i f).map Account.asked = accounts.map Account.asked := by
  refine List.ext_getElem? fun j => ?_
  rw [List.getElem?_map, List.getElem?_modify, List.getElem?_map]
  cases accounts[j]? with
  | none => rfl
  | some a =>
    simp only [Option.map_eq_map, Option.map_some, Option.some.injEq]
    split
    · exact hf a
    · rfl

private theorem history_record (l : Ledger) (s : Limited) (a : LimiterAct) :
    (l.record s a).ticks = l.ticks + [a].count .tick ∧
      (l.record s a).accounts.map Account.asked
        = l.accounts.map Account.asked ++ a.asked.toList := by
  cases a with
  | call bytes => exact ⟨rfl, List.map_append⟩
  | lock i =>
    refine ⟨rfl, Eq.trans ?_ (List.append_nil _).symm⟩
    exact map_asked_modify _ _ fun _ => rfl
  | tick | stop | exit => exact ⟨rfl, (List.append_nil _).symm⟩

/-- The ledger has the arguments of the calls, in their order, and the number of the ticks. -/
theorem run_history {l l' : Ledger} {tr : List LimiterAct} (h : run step l tr = some l') :
    l'.ticks = l.ticks + tr.count .tick ∧
      l'.accounts.map Account.asked = l.accounts.map Account.asked
        ++ tr.filterMap LimiterAct.asked := by
  induction tr generalizing l with
  | nil =>
    cases h
    simp
  | cons a tr ih =>
    obtain ⟨l₁, hstep, hrun⟩ := run_cons_eq_some.1 h
    obtain ⟨s, -, rfl⟩ := Option.map_eq_some_iff.1 hstep
    obtain ⟨hticks, hasked⟩ := ih hrun
    obtain ⟨hticks', hasked'⟩ := history_record l s a
    constructor
    · rw [hticks, hticks', Nat.add_assoc, ← List.count_append, List.singleton_append]
    · rw [hasked, hasked', List.append_assoc, List.filterMap_cons]
      cases a.asked <;> rfl

end Ledger

/-! ### What the critical sections do -/

section Arithmetic

variable {a b : Int64}

theorem toInt_add_of_bounds (hlo : 0 ≤ a.toInt + b.toInt) (hhi : a.toInt + b.toInt < 2 ^ 63) :
    (a + b).toInt = a.toInt + b.toInt := by
  rw [Int64.toInt_add]
  exact Int.bmod_eq_of_le (by omega) (by omega)

theorem toInt_sub_of_bounds (hlo : 0 ≤ a.toInt - b.toInt) (hhi : a.toInt - b.toInt < 2 ^ 63) :
    (a - b).toInt = a.toInt - b.toInt := by
  rw [Int64.toInt_sub]
  exact Int.bmod_eq_of_le (by omega) (by omega)

end Arithmetic

namespace RateLimiter

variable {r : RateLimiter}

/-- The refill amount is a tenth of the size, and at least one. -/
theorem toInt_refillAmount (h : 0 < r.bytesPerSec.toInt) :
    r.refillAmount.toInt = max 1 (r.bytesPerSec.toInt / 10) := by
  have hlt := r.bytesPerSec.toInt_lt
  have h10 : (10 : Int64).toInt = 10 := rfl
  have hdiv : (r.bytesPerSec / 10).toInt = r.bytesPerSec.toInt / 10 := by
    rw [Int64.toInt_div, h10, Int.tdiv_eq_ediv_of_nonneg (by omega)]
    exact Int.bmod_eq_of_le (by omega) (by omega)
  rw [refillAmount]
  split
  · rename_i hzero
    rw [hzero, Int64.toInt_zero] at hdiv
    rw [Int64.toInt_one]
    omega
  · rename_i hne
    rw [← Int64.toInt_inj, hdiv, Int64.toInt_zero] at hne
    rw [hdiv]
    omega

/-- A refill adds its amount, up to the size. -/
theorem toInt_refill (hlo : 0 ≤ r.available.toInt) (hhi : r.available.toInt ≤ r.bytesPerSec.toInt)
    (hpos : 0 < r.bytesPerSec.toInt) (hlt : r.bytesPerSec.toInt < 2 ^ 62) :
    r.refill.available.toInt
      = min r.bytesPerSec.toInt (r.available.toInt + r.refillAmount.toInt) := by
  have hamount := toInt_refillAmount hpos
  have hadd : (r.available + r.refillAmount).toInt = r.available.toInt + r.refillAmount.toInt :=
    toInt_add_of_bounds (by omega) (by omega)
  simp only [refill, gt_iff_lt, Int64.lt_iff_toInt_lt, hadd]
  split
  · omega
  · rw [hadd]
    omega

/-- **What a critical section grants**: all that is asked for, if the call returns, and otherwise
what there is, with the rest still to come. -/
theorem grant_spec (h : 0 ≤ r.available.toInt) (bytes : Int64) :
    (r.grant bytes).1.bytesPerSec = r.bytesPerSec ∧
      0 ≤ (r.grant bytes).1.available.toInt ∧
      (r.grant bytes).1.available.toInt ≤ r.available.toInt ∧
      (((r.grant bytes).2.pc = .returned ∧
          r.available.toInt - (r.grant bytes).1.available.toInt = max 0 bytes.toInt) ∨
        ((r.grant bytes).2.pc = .waiting ∧ 0 < (r.grant bytes).2.bytes.toInt ∧
          r.available.toInt - (r.grant bytes).1.available.toInt + (r.grant bytes).2.bytes.toInt
            = bytes.toInt)) := by
  have hbytes := bytes.toInt_lt
  have havailable := r.available.toInt_lt
  simp only [grant, gt_iff_lt, ge_iff_le, Int64.lt_iff_toInt_lt, Int64.le_iff_toInt_le,
    Int64.toInt_zero]
  split_ifs with hpos hall hsome
  · have hsub : (r.available - bytes).toInt = r.available.toInt - bytes.toInt :=
      toInt_sub_of_bounds (by omega) (by omega)
    dsimp only
    exact ⟨rfl, by omega, by omega, .inl ⟨rfl, by omega⟩⟩
  · have hsub : (bytes - r.available).toInt = bytes.toInt - r.available.toInt :=
      toInt_sub_of_bounds (by omega) (by omega)
    have hzero := Int64.toInt_zero
    dsimp only
    exact ⟨rfl, by omega, by omega, .inr ⟨rfl, by omega, by omega⟩⟩
  · dsimp only
    exact ⟨rfl, h, by omega, .inr ⟨rfl, hpos, by omega⟩⟩
  · dsimp only
    exact ⟨rfl, h, by omega, .inl ⟨rfl, by omega⟩⟩

end RateLimiter

/-! ### The accounts balance -/

/-- A call has taken what it asked for when it has returned, and until then what `bytes` no longer
asks for. -/
def Balanced (q : Request) (a : Account) : Prop :=
  0 ≤ a.taken ∧
    if q.pc = .returned then a.taken = max 0 a.asked.toInt
    else a.taken + q.bytes.toInt = a.asked.toInt ∧ (q.bytes.toInt ≤ 0 → a.taken = 0)

theorem Balanced.wake {q : Request} {a : Account} (h : Balanced q a) : Balanced q.wake a := by
  rw [Request.wake]
  split
  · rename_i hpc
    simpa [Balanced, hpc] using h
  · exact h

/-- A critical section, entered in its account. -/
theorem Balanced.grant {q : Request} {a : Account} (h : Balanced q a) (hpc : q.pc = .locking)
    {r : RateLimiter} (hr : 0 ≤ r.available.toInt) :
    Balanced (r.grant q.bytes).2 { a with
      taken := a.taken + (r.available.toInt - (r.grant q.bytes).1.available.toInt) } := by
  obtain ⟨-, -, hle, hcase⟩ := RateLimiter.grant_spec hr q.bytes
  obtain ⟨hnonneg, hpending⟩ := h
  rw [hpc, if_neg (by decide)] at hpending
  refine ⟨by dsimp only; omega, ?_⟩
  rcases hcase with ⟨hreturned, hall⟩ | ⟨hwaiting, hpos, hpart⟩
  · rw [if_pos hreturned]
    dsimp only
    omega
  · rw [if_neg (by rw [hwaiting]; decide)]
    dsimp only
    omega

theorem sum_taken_modify {accounts : List Account} {i : ℕ} {a : Account}
    (h : accounts[i]? = some a) (n : ℤ) :
    ((accounts.modify i fun a => { a with taken := a.taken + n }).map Account.taken).sum
      = (accounts.map Account.taken).sum + n := by
  induction accounts generalizing i with
  | nil => cases h
  | cons b accounts ih =>
    cases i with
    | zero =>
      simp only [List.modify_zero_cons, List.map_cons, List.sum_cons]
      omega
    | succ i =>
      have hsum := ih (by simpa using h)
      simp only [List.modify_succ_cons, List.map_cons, List.sum_cons, hsum]
      omega

/-- One element of each of two lists is changed, at the same place. -/
theorem forall₂_set_modify {α β : Type} {R : α → β → Prop} {as : List α} {bs : List β}
    (h : List.Forall₂ R as bs) {i : ℕ} {a a' : α} {f : β → β} (ha : as[i]? = some a)
    (hR : ∀ b, R a b → R a' (f b)) : List.Forall₂ R (as.set i a') (bs.modify i f) := by
  induction h generalizing i with
  | nil => cases ha
  | cons hab hrest ih =>
    cases i with
    | zero =>
      cases ha
      exact .cons (hR _ hab) hrest
    | succ i => exact .cons hab (ih (by simpa using ha))

/-- **The invariant**: the bucket is between empty and full; every account balances; what is in the
bucket and what was taken out came from the start and the ticks. -/
structure LedgerInv (r : RateLimiter) (l : Ledger) : Prop where
  bytesPerSec_eq : l.sys.limiter.bytesPerSec = r.bytesPerSec
  nonneg : 0 ≤ l.sys.limiter.available.toInt
  le_bytesPerSec : l.sys.limiter.available.toInt ≤ r.bytesPerSec.toInt
  balanced : List.Forall₂ Balanced l.sys.requests l.accounts
  budget : l.sys.limiter.available.toInt + l.taken
    ≤ r.bytesPerSec.toInt + l.ticks * r.refillAmount.toInt

namespace LedgerInv

variable {r : RateLimiter} {l l' : Ledger} {s : Limited}

theorem start (hnonneg : 0 ≤ r.available.toInt)
    (hle : r.available.toInt ≤ r.bytesPerSec.toInt) : LedgerInv r (Ledger.start r) where
  bytesPerSec_eq := rfl
  nonneg := hnonneg
  le_bytesPerSec := hle
  balanced := .nil
  budget := by simpa [Ledger.start, Limited.start, Ledger.taken] using hle

theorem call (h : LedgerInv r l) {bytes : Int64} (hs : l.sys.step (.call bytes) = some s) :
    LedgerInv r (l.record s (.call bytes)) := by
  obtain rfl := Option.some.inj hs
  refine ⟨h.bytesPerSec_eq, h.nonneg, h.le_bytesPerSec, ?_, ?_⟩
  · -- the call that was made has taken nothing
    have hnew : Balanced ⟨bytes, .locking⟩ ⟨bytes, 0⟩ := by simp [Balanced]
    exact List.rel_append h.balanced (.cons hnew .nil)
  · simpa [Ledger.record, Ledger.taken] using h.budget

theorem lock (h : LedgerInv r l) {i : ℕ} (hs : l.sys.step (.lock i) = some s) :
    LedgerInv r (l.record s (.lock i)) := by
  simp only [Limited.step, Option.bind_eq_bind, Option.bind_eq_some_iff] at hs
  obtain ⟨q, hq, hs⟩ := hs
  split at hs
  · rename_i hpc
    obtain rfl := Option.some.inj hs
    obtain ⟨hrate, hnonneg, hle, -⟩ := RateLimiter.grant_spec h.nonneg q.bytes
    refine ⟨hrate.trans h.bytesPerSec_eq, hnonneg, Int.le_trans hle h.le_bytesPerSec, ?_, ?_⟩
    · exact forall₂_set_modify h.balanced hq fun a ha => ha.grant hpc h.nonneg
    · -- what is taken from the bucket is entered in the account
      have hi : i < l.accounts.length := by
        rw [← h.balanced.length_eq]
        exact (List.getElem?_eq_some_iff.1 hq).1
      have hsum := sum_taken_modify (List.getElem?_eq_getElem hi) (l.sys.limiter.available.toInt
        - (l.sys.limiter.grant q.bytes).1.available.toInt)
      have hbudget := h.budget
      simp only [Ledger.taken, Ledger.record, hsum] at hbudget ⊢
      omega
  · cases hs

theorem tick (h : LedgerInv r l) (hpos : 0 < r.bytesPerSec.toInt)
    (hlt : r.bytesPerSec.toInt < 2 ^ 62) (hs : l.sys.step .tick = some s) :
    LedgerInv r (l.record s .tick) := by
  rw [Limited.step] at hs
  split at hs
  · obtain rfl := Option.some.inj hs
    obtain ⟨hrate, hnonneg, hle, hbalanced, hbudget⟩ := h
    have hamount : l.sys.limiter.refillAmount = r.refillAmount := by
      rw [RateLimiter.refillAmount, RateLimiter.refillAmount, hrate]
    have hpositive := RateLimiter.toInt_refillAmount hpos
    have hrefill : l.sys.limiter.refill.available.toInt
        = min r.bytesPerSec.toInt (l.sys.limiter.available.toInt + r.refillAmount.toInt) := by
      rw [← hrate] at hle hpos hlt ⊢
      rw [RateLimiter.toInt_refill hnonneg hle hpos hlt, hamount]
    refine ⟨hrate, ?_, ?_, ?_, ?_⟩
    · change 0 ≤ l.sys.limiter.refill.available.toInt
      omega
    · change l.sys.limiter.refill.available.toInt ≤ _
      omega
    · exact List.forall₂_map_left_iff.2 (hbalanced.imp fun _ _ => Balanced.wake)
    · change l.sys.limiter.refill.available.toInt + l.taken
        ≤ r.bytesPerSec.toInt + ((l.ticks + 1 : ℕ) : ℤ) * r.refillAmount.toInt
      rw [Int.natCast_add, Int.add_mul]
      omega
  · cases hs

/-- **Every action keeps the invariant.** -/
theorem step (h : LedgerInv r l) (hpos : 0 < r.bytesPerSec.toInt)
    (hlt : r.bytesPerSec.toInt < 2 ^ 62) {a : LimiterAct} (hl : l.step a = some l') :
    LedgerInv r l' := by
  obtain ⟨s, hs, rfl⟩ := Option.map_eq_some_iff.1 hl
  cases a with
  | call bytes => exact h.call hs
  | lock i => exact h.lock hs
  | tick => exact h.tick hpos hlt hs
  | stop =>
    rw [Limited.step] at hs
    split at hs
    · cases hs
    · obtain rfl := Option.some.inj hs
      exact ⟨h.bytesPerSec_eq, h.nonneg, h.le_bytesPerSec, h.balanced, h.budget⟩
  | exit =>
    rw [Limited.step] at hs
    split at hs
    · obtain rfl := Option.some.inj hs
      exact ⟨h.bytesPerSec_eq, h.nonneg, h.le_bytesPerSec, h.balanced, h.budget⟩
    · cases hs

end LedgerInv

/-- **The rate limiter conserves tokens.** In every state that a run of a limiter can reach, for any
calls of `Request` in any interleaving with the ticks: the bucket is between empty and full; what
the calls have taken, those that wait included, is at most the size of the bucket and the refill
amount for each tick; and a call that has returned has taken exactly what it asked for. -/
theorem tokens_conserved {bytesPerSec : Int64} (hpos : 0 < bytesPerSec.toInt)
    (hlt : bytesPerSec.toInt < 2 ^ 62) :
    ∃ r, newRateLimiter bytesPerSec = some r ∧
      ∀ tr s, run Limited.step (.start r) tr = some s →
        ∃ l, run Ledger.step (.start r) tr = some l ∧ l.sys = s ∧
          (0 ≤ s.limiter.available.toInt ∧ s.limiter.available.toInt ≤ bytesPerSec.toInt) ∧
          l.taken ≤ bytesPerSec.toInt + tr.count .tick * r.refillAmount.toInt ∧
          ∀ (i : ℕ) q, s.requests[i]? = some q → ∃ a, l.accounts[i]? = some a ∧
            (tr.filterMap LimiterAct.asked)[i]? = some a.asked ∧
            (q.pc = .returned → 0 < a.asked.toInt → a.taken = a.asked.toInt) := by
  have hnew : newRateLimiter bytesPerSec = some ⟨bytesPerSec, bytesPerSec⟩ := by
    rw [newRateLimiter, if_neg]
    rw [Int64.le_iff_toInt_le, Int64.toInt_zero]
    omega
  refine ⟨_, hnew, fun tr s hs => ?_⟩
  obtain ⟨l, hl, rfl⟩ := Option.map_eq_some_iff.1 ((Ledger.run_sys (.start _) tr).trans hs)
  have hinv : LedgerInv ⟨bytesPerSec, bytesPerSec⟩ l :=
    run_invariant (fun _ _ _ h hstep => h.step hpos hlt hstep)
      (LedgerInv.start (Int.le_of_lt hpos) (Int.le_refl _)) hl
  obtain ⟨hticks, hasked⟩ := Ledger.run_history hl
  have hnonneg := hinv.nonneg
  have hbudget := hinv.budget
  refine ⟨l, hl, rfl, ⟨hnonneg, hinv.le_bytesPerSec⟩, ?_, ?_⟩
  · rw [hticks, Ledger.start, Nat.zero_add] at hbudget
    dsimp only at hbudget
    omega
  · intro i q hq
    obtain ⟨hi, hq⟩ := List.getElem?_eq_some_iff.1 hq
    have hi' : i < l.accounts.length := hinv.balanced.length_eq ▸ hi
    have ha : l.accounts[i]? = some l.accounts[i] := List.getElem?_eq_getElem hi'
    refine ⟨l.accounts[i], ha, ?_, fun hreturned hasks => ?_⟩
    · rw [Ledger.start, List.map_nil, List.nil_append] at hasked
      rw [← hasked, List.getElem?_map, ha]
      rfl
    · obtain ⟨-, hbalanced⟩ := hinv.balanced.get hi hi'
      rw [List.get_eq_getElem, List.get_eq_getElem, hq, if_pos hreturned] at hbalanced
      exact hbalanced.trans (Int.max_eq_right (Int.le_of_lt hasks))

/-- A request for seven tokens from a bucket of five takes them in three parts, of five, one and
one, and the last one when the second tick has brought it. -/
theorem tokens_conserved_in_parts :
    ∃ r, newRateLimiter 5 = some r ∧
      ∃ l, run Ledger.step (.start r)
          [.call 7, .lock 0, .tick, .lock 0, .tick, .lock 0] = some l ∧
        l.accounts = [⟨7, 7⟩] ∧ l.taken = 5 + 2 * r.refillAmount.toInt := by
  obtain ⟨r, hr, hall⟩ := @tokens_conserved 5 (by decide) (by decide)
  obtain rfl : (⟨5, 5⟩ : RateLimiter) = r := Option.some.inj hr
  obtain ⟨l, hl, -⟩ := hall [.call 7, .lock 0, .tick, .lock 0, .tick, .lock 0] _ rfl
  refine ⟨_, hr, l, hl, ?_⟩
  cases hl
  decide

end Stratum.Lsm
