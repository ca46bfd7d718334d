import Mathlib
import Steward.Fix.File

/-!
# Trying again

A file is written by `Fix.retry`, which counts down the attempts that are left. An attempt is any
function of a state, so the outcomes of a series of attempts, `Fix.outcome`, may come in any order.
`Fix.Tries` says in terms of them what trying comes to. `Fix.retryWords` is the same loop in machine
words, with a count of the attempts that may run over; it does not, `Fix.retryWords_eq`.
-/

namespace Steward.Fix

open List

variable {σ ε : Type} {attempt : σ → Except ε Unit × σ} {s s' : σ} {e : ε}

/-- The state after `n` attempts. -/
def after (attempt : σ → Except ε Unit × σ) (s : σ) (n : Nat) : σ := (fun s ↦ (attempt s).2)^[n] s

/-- The outcome of the `n`-th attempt, counted from one. -/
def outcome (attempt : σ → Except ε Unit × σ) (s : σ) (n : Nat) : Except ε Unit :=
  (attempt (after attempt s (n - 1))).1

theorem attempt_after (attempt : σ → Except ε Unit × σ) (s : σ) (n : Nat) :
    attempt (after attempt s n) = (outcome attempt s (n + 1), after attempt s (n + 1)) :=
  Prod.ext rfl (Function.iterate_succ_apply' (fun s ↦ (attempt s).2) n s).symm

/-- The wait after `j` others, in milliseconds: they double, up to the longest there is. -/
def wait (delay j : Nat) : Nat := min (delay * 2 ^ j) (2 ^ 64 - 1)

/-- A wait that has reached the longest stays there. -/
theorem wait_succ (delay j : Nat) : wait delay (j + 1) = min (2 * wait delay j) maxDelay := by
  have hmax : maxDelay = 2 ^ 64 - 1 := rfl
  rw [wait, wait, hmax, pow_succ, ← Nat.mul_assoc]
  omega

/-- The first `n` attempts fail. -/
def Fails (o : Nat → Except ε Unit) (n : Nat) : Prop := ∀ i, 1 ≤ i → i ≤ n → o i ≠ .ok ()

/-- The end of at most `most` attempts, after `k` of them: the first success, or the error of the
last attempt allowed if there is none. -/
inductive Ends (o : Nat → Except ε Unit) (most : Nat) : Nat → Except ε Unit → Prop
  | success {k : Nat} (hfirst : IsLeast {i | 1 ≤ i ∧ o i = .ok ()} k) (hle : k ≤ most) :
    Ends o most k (.ok ())
  | failure {e : ε} (hall : Fails o most) (hlast : o most = .error e) : Ends o most most (.error e)

/-- What comes of trying at most `most` times, with `k` attempts and a wait between two of them. -/
structure Tries (attempt : σ → Except ε Unit × σ) (s : σ) (most delay k : Nat) (r : Retried σ ε) :
    Prop where
  ends : Ends (outcome attempt s) most k r.result
  state : r.state = after attempt s k
  sleeps : r.sleeps = (range (k - 1)).map (wait delay)

/-! ## The loop -/

theorem retry_of_ok (h : attempt s = (.ok (), s')) (more delay : Nat) :
    retry attempt more delay s = ⟨.ok (), s', []⟩ := by
  cases more <;> simp only [retry, h]

theorem retry_of_error (h : attempt s = (.error e, s')) (delay : Nat) :
    retry attempt 0 delay s = ⟨.error e, s', []⟩ := by
  simp only [retry, h]

theorem retry_succ_of_error (h : attempt s = (.error e, s')) (more delay : Nat) :
    retry attempt (more + 1) delay s =
      let r := retry attempt more (min (2 * delay) maxDelay) s'
      { r with sleeps := delay :: r.sleeps } := by
  simp only [retry, h]

/-- The attempt after `j` that failed. -/
theorem attempt_cases {j : Nat} (hj : Fails (outcome attempt s) j) :
    (attempt (after attempt s j) = (.ok (), after attempt s (j + 1)) ∧
      IsLeast {i | 1 ≤ i ∧ outcome attempt s i = .ok ()} (j + 1)) ∨
    ∃ e, attempt (after attempt s j) = (.error e, after attempt s (j + 1)) ∧
      outcome attempt s (j + 1) = .error e ∧ Fails (outcome attempt s) (j + 1) := by
  have hattempt := attempt_after attempt s j
  cases ho : outcome attempt s (j + 1) with
  | ok =>
    refine .inl ⟨by rw [hattempt, ho], ⟨Nat.le_add_left 1 j, ho⟩, fun i hi ↦ ?_⟩
    by_contra hlt
    exact hj i hi.1 (by omega) hi.2
  | error e =>
    refine .inr ⟨e, by rw [hattempt, ho], rfl, fun i hi hle ↦ ?_⟩
    rcases Nat.lt_or_eq_of_le hle with hlt | rfl
    · exact hj i hi (Nat.le_of_lt_succ hlt)
    · simp [ho]

/-- The loop after `j` attempts that failed. -/
theorem exists_ends (delay more : Nat) {j : Nat} (hj : Fails (outcome attempt s) j) :
    let r := retry attempt more (wait delay j) (after attempt s j)
    ∃ k, j < k ∧ Ends (outcome attempt s) (j + 1 + more) k r.result ∧
      r.state = after attempt s k ∧ r.sleeps = (range' j (k - 1 - j)).map (wait delay) := by
  induction more generalizing j with
  | zero =>
    obtain ⟨ha, hfirst⟩ | ⟨e, ha, ho, hall⟩ := attempt_cases hj
    · rw [retry_of_ok ha]
      exact ⟨j + 1, j.lt_succ_self, .success hfirst le_rfl, rfl, by simp⟩
    · rw [retry_of_error ha]
      exact ⟨j + 1, j.lt_succ_self, .failure hall ho, rfl, by simp⟩
  | succ more ih =>
    obtain ⟨ha, hfirst⟩ | ⟨e, ha, ho, hall⟩ := attempt_cases hj
    · rw [retry_of_ok ha]
      exact ⟨j + 1, j.lt_succ_self, .success hfirst (Nat.le_add_right _ _), rfl, by simp⟩
    · rw [retry_succ_of_error ha, ← wait_succ]
      obtain ⟨k, hlt, hends, hstate, hsleeps⟩ := ih hall
      have hcount : k - 1 - j = k - 1 - (j + 1) + 1 := by omega
      refine ⟨k, by omega, by rwa [Nat.add_right_comm] at hends, hstate, ?_⟩
      rw [hcount, range'_succ, map_cons, ← hsleeps]

theorem exists_tries (attempt : σ → Except ε Unit × σ) (s : σ) (m : Nat) (b : UInt64) :
    ∃ k, Tries attempt s (max 1 m) b.toNat k (retry attempt (m - 1) b.toNat s) := by
  have hstart : wait b.toNat 0 = b.toNat := by
    have hb := b.toNat_lt
    rw [wait]
    omega
  have hmost : max 1 m = 0 + 1 + (m - 1) := by omega
  have hnone : Fails (outcome attempt s) 0 := fun i hi hle ↦ absurd (hi.trans hle) (by decide)
  obtain ⟨k, -, hends, hstate, hsleeps⟩ := exists_ends b.toNat (m - 1) hnone
  rw [hstart] at hends hstate hsleeps
  rw [hmost]
  exact ⟨k, hends, hstate, hsleeps.trans (by rw [range_eq_range', Nat.sub_zero])⟩

/-! ## Machine words -/

/-- Twice a wait in a word of 64 bits, or the longest wait. -/
def doubled (delay : UInt64) : UInt64 := UInt64.ofNat (min (2 * delay.toNat) maxDelay)

theorem toNat_doubled (delay : UInt64) : (doubled delay).toNat = min (2 * delay.toNat) maxDelay :=
  UInt64.toNat_ofNat_of_lt' (Nat.lt_succ_of_le (Nat.min_le_right _ maxDelay))

theorem toNat_add_one {n : UInt32} (h : n.toNat + 1 < UInt32.size) : (n + 1).toNat = n.toNat + 1 := by
  rw [UInt32.toNat_add]
  exact Nat.mod_eq_of_lt h

/-- Tries up to `m` times. The number of the attempt is counted up in a word of 32 bits, and the wait
is kept in one of 64; none if the count runs over. -/
def retryWords (attempt : σ → Except ε Unit × σ) (m number : UInt32) (delay : UInt64) (s : σ) :
    Option (Retried σ ε) :=
  match attempt s with
  | (.ok (), s) => some ⟨.ok (), s, []⟩
  | (.error e, s) =>
    if hlast : m ≤ number then some ⟨.error e, s, []⟩
    else if hnext : number.toNat + 1 < UInt32.size then
      (retryWords attempt m (number + 1) (doubled delay) s).map fun r ↦
        { r with sleeps := delay.toNat :: r.sleeps }
    else none
termination_by m.toNat - number.toNat
decreasing_by
  rw [toNat_add_one hnext]
  have hlt := UInt32.lt_iff_toNat_lt.1 (UInt32.not_le.1 hlast)
  omega

/-- The count does not run over, since it stops at `m`. -/
theorem retryWords_eq (attempt : σ → Except ε Unit × σ) (m number : UInt32) (delay : UInt64)
    (s : σ) : retryWords attempt m number delay s =
      some (retry attempt (m.toNat - number.toNat) delay.toNat s) := by
  induction hmore : m.toNat - number.toNat generalizing number delay s with
  | zero =>
    have hlast : m ≤ number := UInt32.le_iff_toNat_le.2 (Nat.le_of_sub_eq_zero hmore)
    rcases h : attempt s with ⟨e | _, s'⟩
    · rw [retryWords, h, retry_of_error h]
      exact dif_pos hlast
    · rw [retryWords, h, retry_of_ok h]
  | succ more ih =>
    rcases h : attempt s with ⟨e | _, s'⟩
    · have hnot : ¬ m ≤ number := fun hle ↦ by
        have hle := UInt32.le_iff_toNat_le.1 hle
        omega
      have hnext : number.toNat + 1 < UInt32.size := by
        have hm := m.toNat_lt
        rw [UInt32.size]
        omega
      have hrest := ih (number + 1) (doubled delay) s' (by rw [toNat_add_one hnext]; omega)
      rw [retryWords, h]
      dsimp only
      rw [dif_neg hnot, dif_pos hnext, hrest, retry_succ_of_error h, toNat_doubled]
      rfl
    · rw [retryWords, h, retry_of_ok h]

/-- **Writing is tried a bounded number of times.** With `m` attempts allowed, and one in any case,
they are made until one succeeds, and the last one decides. The waits in between double from `b` on
until they are as long as a word of 64 bits can say. So it is for whatever is tried, and when a file
is written. In machine words it comes to the same: the number of the attempt does not run over. -/
theorem write_retries (m : UInt32) (b : UInt64) :
    (∀ {σ ε : Type} (attempt : σ → Except ε Unit × σ) (s : σ),
      let r := retry attempt (m.toNat - 1) b.toNat s
      (∃ k, Tries attempt s (max 1 m.toNat) b.toNat k r) ∧ retryWords attempt m 1 b s = some r) ∧
    ∀ (bench : Bench) (now : Instant) (p : Path) (bytes : List UInt8),
      ∃ k r, Tries (Disk.writeAtomic now p bytes).exec bench.tree (max 1 m.toNat) b.toNat k r ∧
        bench.write ⟨m.toNat, b.toNat⟩ now p bytes = (r.result,
          { bench with tree := r.state, sleeps := bench.sleeps ++ r.sleeps.filter (0 < ·) }) := by
  refine ⟨fun attempt s ↦ ⟨exists_tries attempt s _ b, retryWords_eq attempt m 1 b s⟩, ?_⟩
  intro bench now p bytes
  obtain ⟨k, hk⟩ := exists_tries (Disk.writeAtomic now p bytes).exec bench.tree m.toNat b
  exact ⟨k, _, hk, rfl⟩

-- Doubled once more, the last wait would be one millisecond too long for its word.
example : (retry (fun n : Nat ↦ (if n = 3 then .ok () else .error n, n + 1)) 9 (2 ^ 62) 0).sleeps =
    [2 ^ 62, 2 ^ 63, 2 ^ 64 - 1] := by
  decide

end Steward.Fix
