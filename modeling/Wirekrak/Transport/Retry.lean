import Mathlib.Tactic.Linarith
import Wirekrak.Lib.Run
import Wirekrak.Transport.Connection

/-!
# Wirekrak.Transport.Retry — the retry schedule in machine integers

The constants of a retry policy, the attempt counter and the time of the next retry as the code has them: `int`,
32 bits without a sign, milliseconds and nanoseconds in 64 bits.  `none` is an overflow or a shift that is not defined.

* `backoff_eq`: the delay, where it is defined.
* `Kept`: what a schedule promises, after any number of failed attempts.
* `schedule_kept_iff`: for which policies, root errors and times it is kept.
* `scheduleNextRetry_represents`: as long as nothing overflows, the schedule is the one in natural numbers by which
  `Connection` goes, and with it the results about its runs.
-/

namespace Wirekrak.Transport

open Wirekrak.Lib

/-! ## Machine integers -/

def Fits64 (x : ℤ) : Prop := -2 ^ 63 ≤ x ∧ x < 2 ^ 63

instance (x : ℤ) : Decidable (Fits64 x) := inferInstanceAs (Decidable (_ ∧ _))

def checked64 (x : ℤ) : Option ℤ := if Fits64 x then some x else none

def checked32 (x : ℤ) : Option ℤ := if -2 ^ 31 ≤ x ∧ x < 2 ^ 31 then some x else none

/-- `static_cast<int>`. -/
def toInt32 (n : ℕ) : ℤ := Int.bmod n (2 ^ 32)

/-- An `int` where 32 bits without a sign are expected. -/
def toUInt32 (a : ℤ) : ℕ := (a % 2 ^ 32).toNat

/-! ## The policy -/

/-- The constants of a retry policy, durations in milliseconds. -/
structure RetryPolicy where
  mode : RetryMode
  maxAttempts : ℕ
  maxExponent : ℕ
  fastBase : ℤ
  normalBase : ℤ
  slowBase : ℤ
  fastCap : ℤ
  normalCap : ℤ
  slowCap : ℤ
  deriving DecidableEq

/-- `retry::Exponential`. -/
def exponential (mode : RetryMode) (maxExponent maxAttempts : ℕ) : RetryPolicy :=
  ⟨mode, maxAttempts, maxExponent, 50, 100, 250, 1000, 5000, 10000⟩

namespace RetryPolicy

variable (r : RetryPolicy)

/-- What the types and `RetryConcept` admit. -/
structure Typed : Prop where
  attempts_lt : r.maxAttempts < 2 ^ 32
  exponent_pos : 0 < r.maxExponent
  exponent_lt : r.maxExponent < 2 ^ 32

def shouldRetry (error : Error) : Bool :=
  match r.mode with
  | .never => false
  | .always => true
  | .retryableOnly =>
    match error with
    | .connectionFailed | .handshakeFailed | .timeout | .remoteClosed | .transportFailure => true
    | _ => false

def computeBackoff (base cap : ℤ) (attempt : ℕ) : Option ℤ :=
  let attempt := if attempt > r.maxExponent then r.maxExponent else attempt
  -- `1u << attempt`
  if attempt < 32 then
    (checked64 (base * 2 ^ attempt)).map fun delay => if delay > cap then cap else delay
  else none

def backoff (error : Error) (attempt : ℤ) : Option ℤ :=
  if r.mode = .never then some millisecondsMax
  else
    let attempt := min attempt (toInt32 r.maxExponent)
    match error with
    | .remoteClosed | .timeout | .backpressure => r.computeBackoff r.fastBase r.fastCap (toUInt32 attempt)
    | .connectionFailed | .handshakeFailed => r.computeBackoff r.normalBase r.normalCap (toUInt32 attempt)
    | .transportFailure => r.computeBackoff r.slowBase r.slowCap (toUInt32 attempt)
    | _ => some millisecondsMax

/-- The timing class of a root error: its base and its cap. -/
def timing : Error → Option (ℤ × ℤ)
  | .remoteClosed | .timeout | .backpressure => some (r.fastBase, r.fastCap)
  | .connectionFailed | .handshakeFailed => some (r.normalBase, r.normalCap)
  | .transportFailure => some (r.slowBase, r.slowCap)
  | _ => none

/-- `now + delay`, in nanoseconds. -/
def retryTime (now delay : ℤ) : Option ℤ := (checked64 (delay * ms)).bind fun ns => checked64 (now + ns)

end RetryPolicy

/-! ## Delays -/

namespace RetryPolicy

variable {r : RetryPolicy} {e : Error} {base cap : ℤ} {j k : ℕ}

/-- What the delay after `k` failed attempts is to be. -/
def delayAt (r : RetryPolicy) (base cap : ℤ) (k : ℕ) : ℤ := min cap (base * 2 ^ min k r.maxExponent)

theorem checked64_eq_some {x y : ℤ} : checked64 x = some y ↔ Fits64 x ∧ y = x := by
  unfold checked64
  split_ifs with h
  · simp only [Option.some.injEq, h, true_and, eq_comm]
  · simp only [h, false_and]

theorem timing_of_shouldRetry (hm : r.mode = .retryableOnly) (h : r.shouldRetry e = true) : (r.timing e).isSome := by
  unfold shouldRetry at h
  rw [hm] at h
  cases e with
  | connectionFailed | handshakeFailed | timeout | remoteClosed | transportFailure => rfl
  | _ => cases h

/-- The attempt number reaches `compute_backoff` as it is, or beyond all shifts. -/
theorem exponent_eq (hr : r.Typed) (hk : 1 ≤ k) (hk31 : k < 2 ^ 31) :
    toUInt32 (min (k : ℤ) (toInt32 r.maxExponent)) = if r.maxExponent < 2 ^ 31 then min k r.maxExponent else r.maxExponent := by
  have hlt := hr.exponent_lt
  unfold toInt32 toUInt32 Int.bmod
  dsimp only
  split_ifs <;> omega

theorem computeBackoff_eq {n : ℕ} (hn : n ≤ r.maxExponent) :
    r.computeBackoff base cap n =
      if n < 32 ∧ Fits64 (base * 2 ^ n) then some (min cap (base * 2 ^ n)) else none := by
  unfold computeBackoff checked64
  dsimp only
  rw [if_neg (not_lt.mpr hn)]
  by_cases h32 : n < 32
  · by_cases hfit : Fits64 (base * 2 ^ n)
    · rw [if_pos h32, if_pos hfit, if_pos ⟨h32, hfit⟩, Option.map_some]
      congr 1
      omega
    · rw [if_pos h32, if_neg hfit, if_neg fun h => hfit h.2, Option.map_none]
  · rw [if_neg h32, if_neg fun h => h32 h.1]

theorem backoff_of_timing (hm : r.mode ≠ .never) (ht : r.timing e = some (base, cap)) (a : ℤ) :
    r.backoff e a = r.computeBackoff base cap (toUInt32 (min a (toInt32 r.maxExponent))) := by
  unfold backoff
  rw [if_neg hm]
  cases e <;> cases ht <;> rfl

theorem backoff_of_no_timing (ht : r.timing e = none) (a : ℤ) : r.backoff e a = some millisecondsMax := by
  unfold backoff
  split_ifs
  · rfl
  · cases e with
    | remoteClosed | timeout | backpressure | connectionFailed | handshakeFailed | transportFailure => cases ht
    | _ => rfl

/-- **The delay**, for a root error with a timing class: where it is defined, and what it is there. -/
theorem backoff_eq (hr : r.Typed) (hm : r.mode ≠ .never) (ht : r.timing e = some (base, cap)) (hk : 1 ≤ k)
    (hk31 : k < 2 ^ 31) :
    r.backoff e k =
      if r.maxExponent < 2 ^ 31 ∧ min k r.maxExponent < 32 ∧ Fits64 (base * 2 ^ min k r.maxExponent) then
        some (r.delayAt base cap k)
      else none := by
  rw [backoff_of_timing hm ht, exponent_eq hr hk hk31]
  by_cases h31 : r.maxExponent < 2 ^ 31
  · rw [if_pos h31, computeBackoff_eq (min_le_right _ _)]
    simp only [h31, true_and]
    rfl
  · rw [if_neg h31, computeBackoff_eq le_rfl, if_neg (by omega), if_neg fun h => h31 h.1]

theorem retryTime_eq_some {now d next : ℤ} :
    retryTime now d = some next ↔ Fits64 (d * ms) ∧ Fits64 (now + d * ms) ∧ next = now + d * ms := by
  unfold retryTime
  simp only [Option.bind_eq_some_iff, checked64_eq_some]
  constructor
  · rintro ⟨ns, ⟨h1, rfl⟩, h2, rfl⟩
    exact ⟨h1, h2, rfl⟩
  · rintro ⟨h1, h2, rfl⟩
    exact ⟨_, ⟨h1, rfl⟩, h2, rfl⟩

/-- Delays go up with the attempts, or are at the cap. -/
theorem delayAt_mono (hup : 0 ≤ base ∨ min k r.maxExponent ≤ 1 ∨ cap ≤ base * 2 ^ min k r.maxExponent) (hj : 1 ≤ j)
    (hr : 0 < r.maxExponent) (hjk : j ≤ k) : r.delayAt base cap j ≤ r.delayAt base cap k := by
  unfold delayAt
  have hle : min j r.maxExponent ≤ min k r.maxExponent := min_le_min_right _ hjk
  rcases hup with hbase | hone | hcap
  · exact min_le_min_left _ (mul_le_mul_of_nonneg_left (pow_le_pow_right₀ (by decide) hle) hbase)
  · rw [show min j r.maxExponent = min k r.maxExponent by omega]
  · rw [min_eq_left hcap]
    exact min_le_left _ _

/-- Where the first delay is not above a later one, the base is not negative, or the cap is below. -/
theorem of_delayAt_le (h : r.delayAt base cap 1 ≤ r.delayAt base cap k) (hr : 0 < r.maxExponent) :
    0 ≤ base ∨ min k r.maxExponent ≤ 1 ∨ cap ≤ base * 2 ^ min k r.maxExponent := by
  by_contra hc
  obtain ⟨hbase, hexp, hcap⟩ : base < 0 ∧ 1 < min k r.maxExponent ∧ base * 2 ^ min k r.maxExponent < cap := by
    simpa only [not_or, not_le] using hc
  unfold delayAt at h
  rw [min_eq_right hcap.le, show min 1 r.maxExponent = 1 by omega, pow_one] at h
  have hpow : (2 : ℤ) ^ 2 ≤ 2 ^ min k r.maxExponent := pow_le_pow_right₀ (by decide) hexp
  have hdown : base * 2 ^ min k r.maxExponent ≤ base * 2 ^ 2 := mul_le_mul_of_nonpos_left hpow hbase.le
  have hmin : base * 2 ^ min k r.maxExponent < base * 2 := by omega
  rcases min_le_iff.mp h with h1 | h2 <;> omega

/-- The retry after `k` failed attempts can be scheduled at `now`: the root error has a timing class, nothing
overflows, and the delay is not below those before it. -/
def Schedulable (r : RetryPolicy) (e : Error) (k : ℕ) (now : ℤ) : Prop :=
  ∃ t ∈ r.timing e,
    (r.maxExponent < 2 ^ 31 ∧ min k r.maxExponent < 32 ∧ Fits64 (t.1 * 2 ^ min k r.maxExponent)) ∧
    (0 ≤ t.1 ∨ min k r.maxExponent ≤ 1 ∨ t.2 ≤ t.1 * 2 ^ min k r.maxExponent) ∧
    k + 1 < 2 ^ 31 ∧ Fits64 (r.delayAt t.1 t.2 k * ms) ∧ Fits64 (now + r.delayAt t.1 t.2 k * ms)

instance (r : RetryPolicy) (e : Error) (k : ℕ) (now : ℤ) : Decidable (r.Schedulable e k now) :=
  inferInstanceAs (Decidable (∃ t ∈ r.timing e, _))

end RetryPolicy

/-! ## The schedule -/

/-- What `Connection` keeps of a retry.  The last three are histories that no function reads: the delays chosen, the
reconnect attempts made, and how often one was due. -/
structure Schedule where
  state : State
  retryRootError : Error
  retryAttempts : ℤ
  nextRetry : ℤ
  signals : List Signal
  delays : List ℤ
  made : ℕ
  due : ℕ
  deriving DecidableEq

/-- A reconnect attempt that is answered with an error, after the user has taken some signals. -/
structure Failure where
  taken : ℕ
  now : ℤ
  error : Error
  deriving DecidableEq

namespace Schedule

/-- Push a signal; a full ring closes the connection, which is waiting. -/
def emit (sig : Signal) (s : Schedule) : Schedule :=
  match Fifo.push signalPlaces s.signals sig with
  | some signals => { s with signals := signals }
  | none => { s with state := .disconnected }

def armImmediateReconnect (error : Error) (s : Schedule) : Schedule :=
  { emit .retryImmediate s with retryRootError := error, retryAttempts := 1, nextRetry := 0 }

def scheduleNextRetry (r : RetryPolicy) (now : ℤ) (s : Schedule) : Option Schedule :=
  if r.mode = .never then some { s with state := .disconnected }
  else if 0 < r.maxAttempts ∧ r.maxAttempts ≤ toUInt32 s.retryAttempts then some { s with state := .disconnected }
  else do
    let s := emit .retryScheduled s
    let delay ← r.backoff s.retryRootError s.retryAttempts
    let attempts ← checked32 (s.retryAttempts + 1)
    let next ← RetryPolicy.retryTime now delay
    return { s with retryAttempts := attempts, nextRetry := next, delays := s.delays ++ [delay] }

/-- `reconnect_` when the transport answers with an error: it is made while the connection waits. -/
def reconnectFailed (r : RetryPolicy) (now : ℤ) (error : Error) (s : Schedule) : Option Schedule :=
  if s.state = .waitingReconnect then
    let s := { s with made := s.made + 1 }
    if r.shouldRetry error then scheduleNextRetry r now s else some { s with state := .disconnected }
  else some s

/-- A retry is due. -/
def retryDue (r : RetryPolicy) (s : Option Schedule) (f : Failure) : Option Schedule :=
  s.bind fun s => reconnectFailed r f.now f.error { s with signals := s.signals.drop f.taken, due := s.due + 1 }

/-- The first retry has been armed. -/
def start (error : Error) (signals : List Signal) : Schedule :=
  armImmediateReconnect error ⟨.waitingReconnect, .none, 0, 0, signals, [], 0, 0⟩

/-- What a schedule promises: delays that do not go down or exceed the cap, and as many attempts as there may be. -/
structure Kept (r : RetryPolicy) (s : Schedule) : Prop where
  sorted : s.delays.Pairwise (· ≤ ·)
  bounded : ∀ d ∈ s.delays, ∃ base cap, r.timing s.retryRootError = some (base, cap) ∧ d ≤ cap
  made : s.made = if r.maxAttempts = 0 then s.due else min s.due r.maxAttempts
  gaveUp : s.state = .disconnected ↔ 0 < r.maxAttempts ∧ r.maxAttempts ≤ s.due

/-! ### One failed attempt -/

/-- A retry that is still to be scheduled can be, and its signal has a place. -/
def Fits (r : RetryPolicy) : Option Schedule → Failure → Prop
  | none, _ => False
  | some s, f => s.state = .waitingReconnect → r.maxAttempts = 0 ∨ s.retryAttempts < r.maxAttempts →
    (s.signals.drop f.taken).length < signalPlaces ∧ r.Schedulable s.retryRootError s.retryAttempts.toNat f.now

instance : ∀ (r : RetryPolicy) (s : Option Schedule) (f : Failure), Decidable (Fits r s f)
  | _, none, _ => inferInstanceAs (Decidable False)
  | _, some _, _ => inferInstanceAs (Decidable (_ → _ → _ ∧ _))

/-- How many retries have been scheduled when one was due so often. -/
def scheduled (r : RetryPolicy) (due : ℕ) : ℕ := if r.maxAttempts = 0 then due else min due (r.maxAttempts - 1)

/-- A schedule in terms of how often a retry was due. -/
structure Shape (r : RetryPolicy) (e : Error) (s : Schedule) : Prop where
  root : s.retryRootError = e
  made : s.made = if r.maxAttempts = 0 then s.due else min s.due r.maxAttempts
  state : s.state = if 0 < r.maxAttempts ∧ r.maxAttempts ≤ s.due then .disconnected else .waitingReconnect
  attempts : s.retryAttempts = (scheduled r s.due + 1 : ℕ)
  attempts_lt : scheduled r s.due + 1 < 2 ^ 31
  delays : ∀ t ∈ r.timing e, s.delays = (List.range (scheduled r s.due)).map fun j => r.delayAt t.1 t.2 (j + 1)
  none : r.timing e = none → s.delays = []

variable {r : RetryPolicy} {e : Error} {s u : Schedule} {f : Failure} {signals : List Signal}

theorem emit_room (h : s.signals.length < signalPlaces) (sig : Signal) :
    emit sig s = { s with signals := s.signals ++ [sig] } := by
  unfold emit
  rw [Fifo.push_some h]

theorem emit_full (h : signalPlaces ≤ s.signals.length) (sig : Signal) :
    emit sig s = { s with state := .disconnected } := by
  unfold emit
  rw [Fifo.push_none h]

/-- The schedule when a retry is due, and after its attempt has been made. -/
def tried (s : Schedule) (f : Failure) : Schedule :=
  { s with signals := s.signals.drop f.taken, due := s.due + 1, made := s.made + 1 }

theorem retryDue_disconnected (h : s.state = .disconnected) :
    retryDue r (some s) f = some { s with signals := s.signals.drop f.taken, due := s.due + 1 } := by
  refine if_neg ?_
  rw [h]
  decide

theorem mode_ne_never (he : r.shouldRetry f.error = true) : r.mode ≠ .never := by
  intro hc
  unfold RetryPolicy.shouldRetry at he
  rw [hc] at he
  cases he

theorem retryDue_waiting (h : s.state = .waitingReconnect) (he : r.shouldRetry f.error = true) :
    retryDue r (some s) f = scheduleNextRetry r f.now (tried s f) := by
  refine (if_pos h).trans (if_pos he)

theorem scheduleNextRetry_last (hm : r.mode ≠ .never) (h : 0 < r.maxAttempts ∧ r.maxAttempts ≤ toUInt32 s.retryAttempts)
    (now : ℤ) : scheduleNextRetry r now s = some { s with state := .disconnected } := by
  unfold scheduleNextRetry
  rw [if_neg hm, if_pos h]

@[simp] theorem emit_root (sig : Signal) : (emit sig s).retryRootError = s.retryRootError := by
  unfold emit
  split <;> rfl

@[simp] theorem emit_attempts (sig : Signal) : (emit sig s).retryAttempts = s.retryAttempts := by
  unfold emit
  split <;> rfl

@[simp] theorem emit_delays (sig : Signal) : (emit sig s).delays = s.delays := by
  unfold emit
  split <;> rfl

/-- A retry is scheduled: its delay, the next attempt and its time are all defined. -/
theorem scheduleNextRetry_eq_some (hm : r.mode ≠ .never)
    (h : ¬ (0 < r.maxAttempts ∧ r.maxAttempts ≤ toUInt32 s.retryAttempts)) {now : ℤ} :
    scheduleNextRetry r now s = some u ↔
      ∃ delay next, r.backoff s.retryRootError s.retryAttempts = some delay ∧
        (-2 ^ 31 ≤ s.retryAttempts + 1 ∧ s.retryAttempts + 1 < 2 ^ 31) ∧
        RetryPolicy.retryTime now delay = some next ∧
        u = { emit .retryScheduled s with
          retryAttempts := s.retryAttempts + 1, nextRetry := next, delays := s.delays ++ [delay] } := by
  unfold scheduleNextRetry checked32
  rw [if_neg hm, if_neg h]
  simp only [bind, Option.bind_eq_some_iff, pure, Option.some.injEq, emit_root, emit_attempts, emit_delays]
  constructor
  · rintro ⟨delay, hd, attempts, ha, next, hn, rfl⟩
    split_ifs at ha with hfit
    cases ha
    exact ⟨delay, next, hd, hfit, hn, rfl⟩
  · rintro ⟨delay, next, hd, hfit, hn, rfl⟩
    exact ⟨delay, hd, _, if_pos hfit, next, hn, rfl⟩

/-! ### The shape of a schedule -/

section Shape

variable (hs : Shape r e s)

include hs

theorem Shape.waiting (h : ¬ (0 < r.maxAttempts ∧ r.maxAttempts ≤ s.due)) :
    s.state = .waitingReconnect ∧ scheduled r s.due = s.due ∧ s.retryAttempts = (s.due + 1 : ℕ) ∧ s.due + 1 < 2 ^ 31 := by
  have hn : scheduled r s.due = s.due := by
    unfold scheduled
    split_ifs <;> omega
  have ha := hs.attempts
  have hlt := hs.attempts_lt
  rw [hn] at ha hlt
  exact ⟨by rw [hs.state, if_neg h], hn, ha, hlt⟩

theorem Shape.kept (hsorted : s.delays.Pairwise (· ≤ ·))
    (hbounded : ∀ d ∈ s.delays, ∃ base cap, r.timing e = some (base, cap) ∧ d ≤ cap) : Kept r s := by
  refine ⟨hsorted, by rw [hs.root]; exact hbounded, hs.made, ?_⟩
  rw [hs.state]
  split_ifs with h
  · exact iff_of_true rfl h
  · exact iff_of_false (by decide) h

/-- Once the connection has given up, a retry that is due changes nothing. -/
theorem Shape.step_disconnected (h : 0 < r.maxAttempts ∧ r.maxAttempts ≤ s.due) :
    ∃ u, retryDue r (some s) f = some u ∧ Shape r e u ∧ u.delays = s.delays := by
  have hn : scheduled r (s.due + 1) = scheduled r s.due := by
    unfold scheduled
    split_ifs <;> omega
  refine ⟨_, retryDue_disconnected (by rw [hs.state, if_pos h]), ⟨hs.root, ?_, ?_, ?_, ?_, ?_, hs.none⟩, rfl⟩
  · show s.made = if r.maxAttempts = 0 then s.due + 1 else min (s.due + 1) r.maxAttempts
    rw [hs.made]
    split_ifs <;> omega
  · show s.state = if 0 < r.maxAttempts ∧ r.maxAttempts ≤ s.due + 1 then .disconnected else .waitingReconnect
    rw [hs.state, if_pos h, if_pos ⟨h.1, by omega⟩]
  · show s.retryAttempts = (scheduled r (s.due + 1) + 1 : ℕ)
    rw [hn, hs.attempts]
  · show scheduled r (s.due + 1) + 1 < 2 ^ 31
    rw [hn]
    exact hs.attempts_lt
  · show ∀ t ∈ r.timing e, s.delays = (List.range (scheduled r (s.due + 1))).map _
    rw [hn]
    exact hs.delays

/-- The last attempt has failed: the connection gives up. -/
theorem Shape.step_last (he : r.shouldRetry f.error = true) (h : r.maxAttempts = s.due + 1) :
    ∃ u, retryDue r (some s) f = some u ∧ Shape r e u ∧ u.delays = s.delays := by
  obtain ⟨hw, hn, ha, hlt⟩ := hs.waiting (by omega)
  have hcast : toUInt32 (tried s f).retryAttempts = s.due + 1 := by
    show toUInt32 s.retryAttempts = s.due + 1
    rw [ha]
    unfold toUInt32
    omega
  have hn' : scheduled r (s.due + 1) = s.due := by
    unfold scheduled
    split_ifs <;> omega
  refine ⟨_, (retryDue_waiting hw he).trans
    (scheduleNextRetry_last (mode_ne_never he) ⟨by omega, by rw [hcast]; omega⟩ _), ⟨hs.root, ?_, ?_, ?_, ?_, ?_, hs.none⟩, rfl⟩
  · show s.made + 1 = if r.maxAttempts = 0 then s.due + 1 else min (s.due + 1) r.maxAttempts
    rw [hs.made]
    split_ifs <;> omega
  · show State.disconnected = if 0 < r.maxAttempts ∧ r.maxAttempts ≤ s.due + 1 then .disconnected else .waitingReconnect
    rw [if_pos ⟨by omega, by omega⟩]
  · show s.retryAttempts = (scheduled r (s.due + 1) + 1 : ℕ)
    rw [hn', ha]
  · show scheduled r (s.due + 1) + 1 < 2 ^ 31
    rw [hn']
    exact hlt
  · show ∀ t ∈ r.timing e, s.delays = (List.range (scheduled r (s.due + 1))).map _
    rw [hn']
    have hd := hs.delays
    rwa [hn] at hd

/-- Below the limit: what a failed attempt leads to. -/
theorem Shape.retryDue_eq_some (he : r.shouldRetry f.error = true) (h : r.maxAttempts = 0 ∨ s.due + 1 < r.maxAttempts) :
    retryDue r (some s) f = some u ↔
      ∃ delay next, r.backoff e (s.due + 1 : ℕ) = some delay ∧ s.due + 2 < 2 ^ 31 ∧
        RetryPolicy.retryTime f.now delay = some next ∧
        u = { emit .retryScheduled (tried s f) with
          retryAttempts := (s.due + 2 : ℕ), nextRetry := next, delays := s.delays ++ [delay] } := by
  obtain ⟨hw, hn, ha, hlt⟩ := hs.waiting (by omega)
  have hlim : ¬ (0 < r.maxAttempts ∧ r.maxAttempts ≤ toUInt32 (tried s f).retryAttempts) := by
    show ¬ (0 < r.maxAttempts ∧ r.maxAttempts ≤ toUInt32 s.retryAttempts)
    rw [ha]
    unfold toUInt32
    omega
  rw [retryDue_waiting hw he, scheduleNextRetry_eq_some (mode_ne_never he) hlim]
  have htried : (tried s f).retryAttempts = (s.due + 1 : ℕ) := ha
  have hroot : (tried s f).retryRootError = e := hs.root
  have hdelays : (tried s f).delays = s.delays := rfl
  have hcast : ((s.due + 1 : ℕ) : ℤ) + 1 = (s.due + 2 : ℕ) := by omega
  have hfit : (-2 ^ 31 ≤ ((s.due + 2 : ℕ) : ℤ) ∧ ((s.due + 2 : ℕ) : ℤ) < 2 ^ 31) ↔ s.due + 2 < 2 ^ 31 := by omega
  rw [htried, hroot, hdelays, hcast]
  simp only [hfit]

/-- Below the limit, a retry that fits is scheduled. -/
theorem Shape.step_scheduled (hr : r.Typed) (he : r.shouldRetry f.error = true)
    (h : r.maxAttempts = 0 ∨ s.due + 1 < r.maxAttempts) (hroom : (s.signals.drop f.taken).length < signalPlaces)
    (hfits : r.Schedulable e (s.due + 1) f.now) :
    ∃ u, retryDue r (some s) f = some u ∧ Shape r e u ∧
      ∃ t, r.timing e = some t ∧ u.delays = s.delays ++ [r.delayAt t.1 t.2 (s.due + 1)] ∧
        ∀ d ∈ s.delays, d ≤ r.delayAt t.1 t.2 (s.due + 1) := by
  obtain ⟨⟨base, cap⟩, ht, hdef, hup, hlt, hns, hnow⟩ := hfits
  obtain ⟨hw, hn, -, -⟩ := hs.waiting (by omega)
  have hback := RetryPolicy.backoff_eq hr (mode_ne_never he) ht (k := s.due + 1) (by omega) (by omega)
  rw [if_pos hdef] at hback
  have hn' : scheduled r (s.due + 1) = s.due + 1 := by
    unfold scheduled
    split_ifs <;> omega
  have hemit : emit .retryScheduled (tried s f) =
      { tried s f with signals := s.signals.drop f.taken ++ [.retryScheduled] } := emit_room hroom _
  have hdelays := hs.delays _ ht
  rw [hn] at hdelays
  refine ⟨_, (hs.retryDue_eq_some he h).mpr ⟨_, _, hback, hlt, RetryPolicy.retryTime_eq_some.mpr ⟨hns, hnow, rfl⟩, rfl⟩,
    ?_, _, ht, rfl, ?_⟩
  · rw [hemit]
    refine ⟨hs.root, ?_, ?_, ?_, ?_, ?_, fun hc => ?_⟩
    · show s.made + 1 = if r.maxAttempts = 0 then s.due + 1 else min (s.due + 1) r.maxAttempts
      rw [hs.made]
      split_ifs <;> omega
    · show s.state = if 0 < r.maxAttempts ∧ r.maxAttempts ≤ s.due + 1 then .disconnected else .waitingReconnect
      rw [hw, if_neg (by omega)]
    · show ((s.due + 2 : ℕ) : ℤ) = (scheduled r (s.due + 1) + 1 : ℕ)
      rw [hn']
    · show scheduled r (s.due + 1) + 1 < 2 ^ 31
      omega
    · intro t ht'
      obtain rfl : (base, cap) = t := Option.some.inj (ht.symm.trans ht')
      show s.delays ++ [_] = (List.range (scheduled r (s.due + 1))).map _
      rw [hn', List.range_succ, List.map_append, ← hdelays]
      rfl
    · rw [hc] at ht
      cases ht
  · intro d hd
    rw [hdelays] at hd
    obtain ⟨j, hj, rfl⟩ := List.mem_map.mp hd
    rw [List.mem_range] at hj
    exact RetryPolicy.delayAt_mono hup (by omega) hr.exponent_pos (by omega)

/-- **One failed attempt that fits** keeps what the schedule promises. -/
theorem Shape.step (hr : r.Typed) (he : r.shouldRetry f.error = true) (hfits : Fits r (some s) f) :
    ∃ u, retryDue r (some s) f = some u ∧ Shape r e u ∧ (Kept r s → Kept r u) := by
  have hsame : ∀ u, Shape r e u → u.delays = s.delays → Kept r s → Kept r u := by
    intro u hu hd hk
    have hbounded := hk.bounded
    rw [hs.root] at hbounded
    exact hu.kept (by rw [hd]; exact hk.sorted) (by rw [hd]; exact hbounded)
  by_cases hdone : 0 < r.maxAttempts ∧ r.maxAttempts ≤ s.due
  · obtain ⟨u, h1, hu, hd⟩ := hs.step_disconnected hdone (f := f)
    exact ⟨u, h1, hu, hsame u hu hd⟩
  by_cases hlast : r.maxAttempts = s.due + 1
  · obtain ⟨u, h1, hu, hd⟩ := hs.step_last he hlast
    exact ⟨u, h1, hu, hsame u hu hd⟩
  obtain ⟨hw, -, ha, -⟩ := hs.waiting hdone
  obtain ⟨hroom, hsch⟩ := hfits hw (by omega)
  rw [hs.root, ha, Int.toNat_natCast] at hsch
  obtain ⟨u, h1, hu, t, ht, hd, hle⟩ := hs.step_scheduled hr he (by omega) hroom hsch
  refine ⟨u, h1, hu, fun hk => hu.kept ?_ ?_⟩
  · rw [hd, List.pairwise_append]
    refine ⟨hk.sorted, List.pairwise_singleton _ _, fun a ha b hb => ?_⟩
    rw [List.mem_singleton.mp hb]
    exact hle a ha
  · intro d hmem
    rw [hd, List.mem_append, List.mem_singleton] at hmem
    rcases hmem with hmem | rfl
    · have hbounded := hk.bounded d hmem
      rwa [hs.root] at hbounded
    · exact ⟨t.1, t.2, ht, min_le_left _ _⟩

/-- A failed attempt that keeps what the schedule promises fits. -/
theorem Shape.fits_of_kept (hr : r.Typed) (he : r.shouldRetry f.error = true)
    (hu : retryDue r (some s) f = some u) (hk : Kept r u) : Fits r (some s) f := by
  intro hw hlim
  have hdone : ¬ (0 < r.maxAttempts ∧ r.maxAttempts ≤ s.due) := by
    intro hc
    rw [hs.state, if_pos hc] at hw
    cases hw
  obtain ⟨-, hn, ha, hlt⟩ := hs.waiting hdone
  rw [ha] at hlim
  obtain ⟨delay, next, hback, h31, hnext, rfl⟩ := (hs.retryDue_eq_some he (by omega)).mp hu
  rw [hs.root, ha, Int.toNat_natCast]
  refine ⟨?_, ?_⟩
  · -- a full ring would have closed the connection
    by_contra hfull
    have hstate : (emit .retryScheduled (tried s f)).state = .disconnected := by
      rw [emit_full (not_lt.mp hfull)]
    have hgave := hk.gaveUp.mp hstate
    have hdue : (emit .retryScheduled (tried s f)).due = s.due + 1 := by
      rw [emit_full (not_lt.mp hfull)]
      rfl
    rw [show Schedule.due _ = s.due + 1 from hdue] at hgave
    omega
  · have hroot : (emit .retryScheduled (tried s f)).retryRootError = e := by
      rw [emit_root]
      exact hs.root
    obtain ⟨base, cap, ht, hle⟩ := hk.bounded delay (List.mem_append_right _ (List.mem_singleton.mpr rfl))
    rw [show Schedule.retryRootError _ = e from hroot] at ht
    rw [RetryPolicy.backoff_eq hr (mode_ne_never he) ht (by omega) (by omega)] at hback
    split_ifs at hback with hdef
    cases hback
    obtain ⟨hns, hnow, -⟩ := RetryPolicy.retryTime_eq_some.mp hnext
    refine ⟨(base, cap), ht, hdef, ?_, h31, hns, hnow⟩
    -- the first delay is among those before, or this is the first
    by_cases hfirst : s.due = 0
    · exact .inr (.inl (by omega))
    · refine RetryPolicy.of_delayAt_le ?_ hr.exponent_pos
      have hd := hs.delays _ ht
      rw [hn] at hd
      have hmem : r.delayAt base cap 1 ∈ s.delays := by
        rw [hd]
        exact List.mem_map.mpr ⟨0, List.mem_range.mpr (by omega), rfl⟩
      exact (List.pairwise_append.mp hk.sorted).2.2 _ hmem _ (List.mem_singleton.mpr rfl)

end Shape

/-! ### Failed attempts in a row -/

theorem shape_start (h : signals.length < signalPlaces) : Shape r e (start e signals) := by
  have hstart : start e signals = ⟨.waitingReconnect, e, 1, 0, signals ++ [.retryImmediate], [], 0, 0⟩ := by
    unfold start armImmediateReconnect
    rw [emit_room h]
  have hzero : scheduled r 0 = 0 := by
    unfold scheduled
    split_ifs <;> omega
  rw [hstart]
  refine ⟨rfl, ?_, (if_neg (show ¬ (0 < r.maxAttempts ∧ r.maxAttempts ≤ 0) by omega)).symm, ?_, ?_, fun t _ => ?_,
    fun _ => rfl⟩
  · show 0 = if r.maxAttempts = 0 then 0 else min 0 r.maxAttempts
    split_ifs <;> omega
  · show (1 : ℤ) = (scheduled r 0 + 1 : ℕ)
    rw [hzero]
    rfl
  · show scheduled r 0 + 1 < 2 ^ 31
    rw [hzero]
    decide
  · show [] = (List.range (scheduled r 0)).map _
    rw [hzero]
    rfl

theorem start_delays : (start e signals).delays = [] := emit_delays _

/-- With a full ring, the connection is closed before the first retry. -/
theorem not_kept_start (h : signalPlaces ≤ signals.length) : ¬ Kept r (start e signals) := by
  intro hk
  have hstart : start e signals = ⟨.disconnected, e, 1, 0, signals, [], 0, 0⟩ := by
    unfold start armImmediateReconnect
    rw [emit_full h]
  rw [hstart] at hk
  have hgave := hk.gaveUp.mp rfl
  have hdue : r.maxAttempts ≤ 0 := hgave.2
  omega

theorem shape_run (hr : r.Typed) {fs : List Failure} (he : ∀ f ∈ fs, r.shouldRetry f.error = true) (hs : Shape r e s)
    (h : Admitted (retryDue r) (Fits r) (some s) fs) :
    ∃ u, fs.foldl (retryDue r) (some s) = some u ∧ Shape r e u := by
  induction fs generalizing s with
  | nil => exact ⟨s, rfl, hs⟩
  | cons f fs ih =>
    obtain ⟨hfits, h⟩ := h
    obtain ⟨u, hu, hshape, -⟩ := hs.step hr (he f List.mem_cons_self) hfits
    rw [hu] at h
    rw [List.foldl_cons, hu]
    exact ih (fun g hg => he g (List.mem_cons_of_mem f hg)) hshape h

/-- **The retry schedule**: after any number of failed attempts nothing has overflowed and the schedule is kept, exactly
if the first retry could be armed and every retry that was to be scheduled fits. -/
theorem schedule_kept_iff (hr : r.Typed) {fs : List Failure} (he : ∀ f ∈ fs, r.shouldRetry f.error = true) :
    (∀ gs, gs <+: fs → ∃ s, gs.foldl (retryDue r) (some (start e signals)) = some s ∧ Kept r s) ↔
      signals.length < signalPlaces ∧ Admitted (retryDue r) (Fits r) (some (start e signals)) fs := by
  by_cases hroom : signals.length < signalPlaces
  · have hshape : Shape r e (start e signals) := shape_start hroom
    have hkept : Kept r (start e signals) :=
      hshape.kept (by rw [start_delays]; exact .nil) (by rw [start_delays]; exact fun d hd => absurd hd List.not_mem_nil)
    have hstep : ∀ gs f, gs ++ [f] <+: fs → Admitted (retryDue r) (Fits r) (some (start e signals)) gs →
        (∃ s, gs.foldl (retryDue r) (some (start e signals)) = some s ∧ Kept r s) →
        ((∃ u, retryDue r (gs.foldl (retryDue r) (some (start e signals))) f = some u ∧ Kept r u) ↔
          Fits r (gs.foldl (retryDue r) (some (start e signals))) f) := by
      rintro gs f hpre hadm ⟨s, hs, hk⟩
      have hmem : ∀ g ∈ gs ++ [f], r.shouldRetry g.error = true := fun g hg => he g (hpre.subset hg)
      obtain ⟨s', hs', hshape'⟩ := shape_run hr (fun g hg => hmem g (List.mem_append_left _ hg)) hshape hadm
      obtain rfl : s = s' := Option.some.inj (hs.symm.trans hs')
      have hf := hmem f (List.mem_append_right _ (List.mem_singleton.mpr rfl))
      rw [hs]
      constructor
      · rintro ⟨u, hu, hku⟩
        exact hshape'.fits_of_kept hr hf hu hku
      · intro hfits
        obtain ⟨u, hu, -, hku⟩ := hshape'.step hr hf hfits
        exact ⟨u, hu, hku hk⟩
    rw [forall_prefix_iff_admitted (I := fun o => ∃ s, o = some s ∧ Kept r s) ⟨_, rfl, hkept⟩ hstep]
    exact ⟨fun h => ⟨hroom, h⟩, And.right⟩
  · refine iff_of_false (fun h => ?_) fun h => hroom h.1
    obtain ⟨s, hs, hk⟩ := h [] List.nil_prefix
    cases hs
    exact not_kept_start (not_lt.mp hroom) hk

/-- The durations of `retry::Exponential` fit, with exponents of less than 32 and a clock below `2 ^ 62`. -/
theorem exponential_schedulable {mode : RetryMode} {maxExponent maxAttempts k : ℕ} {now : ℤ} (hexp : maxExponent < 32)
    (he : ((exponential mode maxExponent maxAttempts).timing e).isSome) (hk : k + 1 < 2 ^ 31) (h0 : 0 ≤ now)
    (h62 : now < 2 ^ 62) : (exponential mode maxExponent maxAttempts).Schedulable e k now := by
  obtain ⟨⟨base, cap⟩, ht⟩ := Option.isSome_iff_exists.mp he
  have hclass : (0 ≤ base ∧ base ≤ 250) ∧ 0 ≤ cap ∧ cap ≤ 10000 := by
    cases e <;> cases ht <;> simp [exponential]
  have hpow : (2 : ℤ) ^ min k maxExponent ≤ 2 ^ 31 := pow_le_pow_right₀ (by decide) (by omega)
  have hpos : (0 : ℤ) < 2 ^ min k maxExponent := by positivity
  have hprod0 : 0 ≤ base * 2 ^ min k maxExponent := mul_nonneg hclass.1.1 hpos.le
  have hprod : base * 2 ^ min k maxExponent ≤ 250 * 2 ^ 31 := mul_le_mul hclass.1.2 hpow hpos.le (by decide)
  have hd0 : 0 ≤ (exponential mode maxExponent maxAttempts).delayAt base cap k := le_min hclass.2.1 hprod0
  have hd1 : (exponential mode maxExponent maxAttempts).delayAt base cap k ≤ 10000 :=
    (min_le_left _ _).trans hclass.2.2
  refine ⟨(base, cap), ht, ⟨?_, ?_, ?_⟩, .inl hclass.1.1, hk, ?_, ?_⟩
  · show maxExponent < 2 ^ 31
    omega
  · show min k maxExponent < 32
    omega
  · show -2 ^ 63 ≤ base * 2 ^ min k maxExponent ∧ base * 2 ^ min k maxExponent < 2 ^ 63
    omega
  · show Fits64 ((exponential mode maxExponent maxAttempts).delayAt base cap k * ms)
    unfold Fits64 ms
    omega
  · show Fits64 (now + (exponential mode maxExponent maxAttempts).delayAt base cap k * ms)
    unfold Fits64 ms
    omega

/-- Three attempts, and a fourth that is not made. -/
theorem three_attempts :
    ∃ s, (List.replicate 4 ⟨9, 10 ^ 18, .timeout⟩).foldl (retryDue (exponential .retryableOnly 6 3))
        (some (start .connectionFailed [.disconnected])) = some s ∧
      Kept (exponential .retryableOnly 6 3) s :=
  (schedule_kept_iff ⟨by decide, by decide, by decide⟩ (fun f hf => by rw [List.eq_of_mem_replicate hf]; rfl)).mpr
    (by decide +kernel) _ List.prefix_rfl

/-- A root error without a timing class, which is retried in mode `Always`, has the largest delay of all, and the time
of its retry overflows; and with 40 as the largest exponent, the shift by 32 is not defined. -/
theorem schedule_overflows :
    [⟨9, 10 ^ 18, .connectionFailed⟩].foldl (retryDue (exponential .always 6 0)) (some (start .protocolError [])) = none ∧
    (exponential .always 6 0).backoff .protocolError 1 = some (2 ^ 63 - 1) ∧
    (List.replicate 31 ⟨9, 10 ^ 18, .connectionFailed⟩).foldl (retryDue (exponential .retryableOnly 40 0))
      (some (start .connectionFailed [])) ≠ none ∧
    (List.replicate 32 ⟨9, 10 ^ 18, .connectionFailed⟩).foldl (retryDue (exponential .retryableOnly 40 0))
      (some (start .connectionFailed [])) = none :=
  ⟨by decide +kernel, by decide +kernel, by decide +kernel, by decide +kernel⟩

/-! ### The schedule of a connection -/

/-- A policy with durations that are not negative. -/
structure Describes (p : Policy) (r : RetryPolicy) : Prop where
  mode : p.mode = r.mode
  maxAttempts : p.maxAttempts = r.maxAttempts
  maxExponent : p.maxExponent = r.maxExponent
  fastBase : (p.fastBase : ℤ) = r.fastBase
  normalBase : (p.normalBase : ℤ) = r.normalBase
  slowBase : (p.slowBase : ℤ) = r.slowBase
  fastCap : (p.fastCap : ℤ) = r.fastCap
  normalCap : (p.normalCap : ℤ) = r.normalCap
  slowCap : (p.slowCap : ℤ) = r.slowCap

/-- The schedule of a connection, with a time that is not negative. -/
structure Represents (c : Connection) (s : Schedule) : Prop where
  state : c.state = s.state
  root : c.retryRootError = s.retryRootError
  attempts : (c.retryAttempts : ℤ) = s.retryAttempts
  next : (c.nextRetry : ℤ) = s.nextRetry
  signals : c.signals = s.signals

variable {p : Policy} {c : Connection}

theorem computeBackoff_cast (h : Describes p r) (base cap k : ℕ) :
    (p.computeBackoff base cap (min k p.maxExponent) : ℤ) = r.delayAt base cap k := by
  have hexp : (if min k p.maxExponent > p.maxExponent then p.maxExponent else min k p.maxExponent) =
      min k p.maxExponent := if_neg (by omega)
  have hcast : ((base * 2 ^ min k p.maxExponent : ℕ) : ℤ) = base * 2 ^ min k r.maxExponent := by
    rw [← h.maxExponent]
    push_cast
    rfl
  unfold Policy.computeBackoff RetryPolicy.delayAt
  dsimp only
  rw [hexp, ← hcast]
  split_ifs <;> omega

/-- A delay that does not overflow is that of `Policy.backoff`. -/
theorem backoff_cast (h : Describes p r) (hr : r.Typed) {k : ℕ} (hk : 1 ≤ k) (hk31 : k < 2 ^ 31) {d : ℤ}
    (hd : r.backoff e k = some d) : (p.backoff e k : ℤ) = d := by
  by_cases hm : r.mode = .never
  · unfold RetryPolicy.backoff at hd
    unfold Policy.backoff
    rw [if_pos hm] at hd
    rw [if_pos (h.mode.trans hm)]
    exact Option.some.inj hd
  cases ht : r.timing e with
  | none =>
    rw [RetryPolicy.backoff_of_no_timing ht] at hd
    cases hd
    unfold Policy.backoff
    rw [if_neg (h.mode ▸ hm)]
    cases e with
    | remoteClosed | timeout | backpressure | connectionFailed | handshakeFailed | transportFailure => cases ht
    | _ => rfl
  | some t =>
    obtain ⟨base, cap⟩ := t
    rw [RetryPolicy.backoff_eq hr hm ht hk hk31] at hd
    split_ifs at hd
    cases hd
    unfold Policy.backoff
    rw [if_neg (h.mode ▸ hm)]
    cases e with
    | remoteClosed | timeout | backpressure =>
      cases ht
      rw [← h.fastBase, ← h.fastCap, ← computeBackoff_cast h]
    | connectionFailed | handshakeFailed =>
      cases ht
      rw [← h.normalBase, ← h.normalCap, ← computeBackoff_cast h]
    | transportFailure =>
      cases ht
      rw [← h.slowBase, ← h.slowCap, ← computeBackoff_cast h]
    | _ => cases ht

theorem emit_represents (h : Represents c s) (hw : c.state = .waitingReconnect) (sig : Signal) :
    Represents (Connection.emit sig c) (emit sig s) := by
  unfold Connection.emit emit
  rw [← h.signals]
  cases Fifo.push signalPlaces c.signals sig with
  | some signals => exact ⟨h.state, h.root, h.attempts, h.next, rfl⟩
  | none =>
    unfold Connection.close Connection.closeRequested
    dsimp only
    rw [hw]
    exact ⟨rfl, h.root, h.attempts, h.next, rfl⟩

/-- **The schedule is that of `Connection`**, as long as nothing overflows. -/
theorem scheduleNextRetry_represents (hp : Describes p r) (hr : r.Typed) (h : Represents c s)
    (hw : c.state = .waitingReconnect) (h1 : 1 ≤ c.retryAttempts) (h31 : c.retryAttempts < 2 ^ 31) {now : ℕ}
    (hu : scheduleNextRetry r now s = some u) : Represents (c.scheduleNextRetry p now) u := by
  unfold Connection.scheduleNextRetry
  rw [hp.mode, hp.maxAttempts]
  by_cases hm : r.mode = .never
  · unfold scheduleNextRetry at hu
    rw [if_pos hm] at hu
    cases hu
    rw [if_pos hm]
    exact ⟨rfl, h.root, h.attempts, h.next, h.signals⟩
  have hcast : toUInt32 s.retryAttempts = c.retryAttempts := by
    rw [← h.attempts]
    unfold toUInt32
    omega
  by_cases hlim : 0 < r.maxAttempts ∧ r.maxAttempts ≤ c.retryAttempts
  · rw [scheduleNextRetry_last hm (by rw [hcast]; exact hlim)] at hu
    cases hu
    rw [if_neg hm, if_pos hlim]
    exact ⟨rfl, h.root, h.attempts, h.next, h.signals⟩
  · obtain ⟨delay, next, hd, -, hn, rfl⟩ :=
      (scheduleNextRetry_eq_some hm (by rw [hcast]; exact hlim)).mp hu
    obtain ⟨-, -, rfl⟩ := RetryPolicy.retryTime_eq_some.mp hn
    have he := emit_represents h hw .retryScheduled
    rw [← h.root, ← h.attempts] at hd
    have hdelay := backoff_cast hp hr h1 h31 hd
    have hroot : (Connection.emit .retryScheduled c).retryRootError = c.retryRootError := by
      rw [he.root, emit_root, h.root]
    have hatt : (Connection.emit .retryScheduled c).retryAttempts = c.retryAttempts := by
      have hz := he.attempts
      rw [emit_attempts, ← h.attempts] at hz
      omega
    rw [if_neg hm, if_neg hlim]
    refine ⟨he.state, he.root, ?_, ?_, he.signals⟩
    · show (((Connection.emit .retryScheduled c).retryAttempts + 1 : ℕ) : ℤ) = s.retryAttempts + 1
      rw [hatt, ← h.attempts]
      push_cast
      rfl
    · show ((now + p.backoff (Connection.emit .retryScheduled c).retryRootError
        (Connection.emit .retryScheduled c).retryAttempts * ms : ℕ) : ℤ) = now + delay * ms
      rw [hroot, hatt, ← hdelay]
      push_cast
      rfl

end Schedule

end Wirekrak.Transport
