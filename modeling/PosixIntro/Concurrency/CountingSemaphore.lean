import Mathlib.Data.Finset.Card
import PosixIntro.Concurrency.Machine

set_option relaxedAutoImplicit false
set_option autoImplicit false

/-!
# The counting semaphore, with the set of blocked threads

What a counting semaphore is for, apart from any implementation: it has permits, a wait takes one
or blocks the thread, and a post lets one blocked thread through or, when nobody is blocked,
makes a permit available.

## Main definitions

* `CountingSemaphore`, `CountingSemaphore.machine` — the state and the three kinds of steps.

## Main results

* `CountingSemaphore.permits_or_blocked` — nobody is blocked while a permit is available.
* `CountingSemaphore.served_eq_min` — as many waits have been let through as there can be.
-/

namespace PosixIntro

/-- The state of a counting semaphore. -/
@[ext]
structure CountingSemaphore (ι : Type*) where
  /-- The permits that are available. -/
  permits : ℕ
  /-- The threads that are blocked. -/
  blocked : Finset ι
  /-- The waits that have been let through. -/
  served : ℕ
  /-- The posts. -/
  posted : ℕ

namespace CountingSemaphore

/-- The operations on a semaphore. A post says which thread it lets through. -/
inductive Action (ι : Type*) where
  | wait (i : ι)
  | post (letsThrough : Option ι)

variable {ι : Type*} [DecidableEq ι]

/-- The semaphore that starts with `v` permits. -/
def machine (v : ℕ) : Machine (CountingSemaphore ι) (Action ι) where
  init := ⟨v, ∅, 0, 0⟩
  step q
    | .wait i =>
      if i ∈ q.blocked then none
      else if 0 < q.permits then some { q with permits := q.permits - 1, served := q.served + 1 }
      else some { q with blocked := insert i q.blocked }
    | .post none =>
      if q.blocked = ∅ then some { q with permits := q.permits + 1, posted := q.posted + 1 }
      else none
    | .post (some j) =>
      if j ∈ q.blocked then
        some { q with
          blocked := q.blocked.erase j
          served := q.served + 1
          posted := q.posted + 1 }
      else none

variable {v : ℕ} {q : CountingSemaphore ι}

/-! ### Single steps -/

/-- A wait takes a permit. -/
lemma step_wait_of_pos {i : ι} (hi : i ∉ q.blocked) (hq : 0 < q.permits) :
    (machine v).step q (.wait i) =
      some { q with permits := q.permits - 1, served := q.served + 1 } := by
  show (if i ∈ q.blocked then none else if 0 < q.permits then _ else _) = _
  rw [if_neg hi, if_pos hq]

/-- A wait blocks when there is no permit. -/
lemma step_wait_of_eq_zero {i : ι} (hi : i ∉ q.blocked) (hq : q.permits = 0) :
    (machine v).step q (.wait i) = some { q with blocked := insert i q.blocked } := by
  show (if i ∈ q.blocked then none else if 0 < q.permits then _ else _) = _
  rw [if_neg hi, if_neg (by omega)]

/-- A post makes a permit available when nobody is blocked. -/
lemma step_post_none (hq : q.blocked = ∅) :
    (machine v).step q (.post none) =
      some { q with permits := q.permits + 1, posted := q.posted + 1 } :=
  if_pos hq

/-- A post lets a blocked thread through. -/
lemma step_post_some {j : ι} (hj : j ∈ q.blocked) :
    (machine v).step q (.post (some j)) =
      some { q with
        blocked := q.blocked.erase j
        served := q.served + 1
        posted := q.posted + 1 } :=
  if_pos hj

/-- Everything one operation can do. -/
lemma step_cases {q' : CountingSemaphore ι} {a : Action ι} (hs : (machine v).step q a = some q') :
    (∃ i, a = .wait i ∧ 0 < q.permits ∧
        q' = { q with permits := q.permits - 1, served := q.served + 1 }) ∨
      (∃ i, a = .wait i ∧ q.permits = 0 ∧ q' = { q with blocked := insert i q.blocked }) ∨
      (a = .post none ∧ q.blocked = ∅ ∧
        q' = { q with permits := q.permits + 1, posted := q.posted + 1 }) ∨
      ∃ j, a = .post (some j) ∧ j ∈ q.blocked ∧ q' = { q with
        blocked := q.blocked.erase j
        served := q.served + 1
        posted := q.posted + 1 } := by
  rcases a with i | _ | j
  · simp only [machine] at hs
    split_ifs at hs with hi hq
    · exact .inl ⟨i, rfl, hq, (Option.some.inj hs).symm⟩
    · exact .inr (.inl ⟨i, rfl, Nat.eq_zero_of_not_pos hq, (Option.some.inj hs).symm⟩)
  · obtain ⟨hq, hs⟩ := Option.ite_none_right_eq_some.mp hs
    exact .inr (.inr (.inl ⟨rfl, hq, (Option.some.inj hs).symm⟩))
  · obtain ⟨hj, hs⟩ := Option.ite_none_right_eq_some.mp hs
    exact .inr (.inr (.inr ⟨j, rfl, hj, (Option.some.inj hs).symm⟩))

/-! ### The invariants -/

/-- The permits are the initial ones and the posted ones, less the ones handed out. -/
theorem permits_add_served (h : (machine v).Reach q) : q.permits + q.served = v + q.posted := by
  refine h.invariant (I := fun q => q.permits + q.served = v + q.posted) rfl
    fun q a q' _ ih _ hs => ?_
  rcases step_cases hs with ⟨i, -, hq, rfl⟩ | ⟨i, -, -, rfl⟩ | ⟨-, -, rfl⟩ | ⟨j, -, -, rfl⟩
  all_goals
    simp only
    omega

/-- **No permit is left unspent.** While some thread is blocked no permit is available. -/
theorem permits_or_blocked (h : (machine v).Reach q) : q.permits = 0 ∨ q.blocked = ∅ := by
  refine h.invariant (I := fun q => q.permits = 0 ∨ q.blocked = ∅) (.inr rfl)
    fun q a q' _ ih _ hs => ?_
  rcases step_cases hs with ⟨i, -, hq, rfl⟩ | ⟨i, -, hq, rfl⟩ | ⟨-, hq, rfl⟩ | ⟨j, -, hj, rfl⟩
  · exact .inr (ih.resolve_left (by omega))
  · exact .inl hq
  · exact .inr hq
  · exact .inl (ih.resolve_right (Finset.ne_empty_of_mem hj))

/-- **As many waits have been let through as there can be**: all of them, or all that the permits
allow. -/
theorem served_eq_min (h : (machine v).Reach q) :
    q.served = min (q.served + q.blocked.card) (v + q.posted) := by
  have hsum := permits_add_served h
  rcases permits_or_blocked h with h0 | h0
  · rw [h0] at hsum
    omega
  · rw [h0, Finset.card_empty]
    omega

end CountingSemaphore

end PosixIntro
