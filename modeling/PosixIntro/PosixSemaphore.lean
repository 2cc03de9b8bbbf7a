import PosixIntro.Concurrency.Threads

set_option relaxedAutoImplicit false
set_option autoImplicit false

/-!
# `posix_semaphore.h`

The wrappers that the C and C++ programs use around `sem_t`. A `sem_t` is a counting semaphore;
`sem_wait` either decrements it, blocking while it is zero, or fails with `EINTR`.

## Main definitions

* `rkSemaInit`, `rkSemaWait`, `rkSemaPost` — `rk_sema_init`, `rk_sema_wait`, `rk_sema_post`.

## Main results

* `rkSemaInit_of_le` — for a value up to `SEM_VALUE_MAX` the call succeeds.

## Design

`sem_init` fails for values above `SEM_VALUE_MAX`, which is the greatest `int`, and then leaves the
memory of the semaphore as it was. A caller that goes on all the same waits on whatever that memory
holds, read as a counting semaphore.
-/

namespace PosixIntro

variable {S χ D L : Type*}

/-- `SEM_VALUE_MAX`. -/
def semValueMax : ℕ := 2 ^ 31 - 1

/-- `rk_sema_init(s, shared, value)`, where the memory of `s` holds `old` and `value` becomes a
`uint32_t`: what the call returns, and what the memory holds afterwards. -/
def rkSemaInit (old value : ℕ) : ℤ × ℕ :=
  if value % 2 ^ 32 ≤ semValueMax then (0, value % 2 ^ 32) else (-1, old)

/-- The call succeeds for values up to `SEM_VALUE_MAX`. -/
lemma rkSemaInit_of_le {old value : ℕ} (h : value ≤ semValueMax) :
    rkSemaInit old value = (0, value) := by
  have hlt : value < 2 ^ 32 := Nat.lt_of_le_of_lt h (by decide)
  rw [rkSemaInit, Nat.mod_eq_of_lt hlt, if_pos h]

/-- `rk_sema_wait`, called at the location `here`. The loop
`do r = sem_wait(&s->sem); while (r == -1 && errno == EINTR);` calls `sem_wait` again after an
interruption, so an interrupted call leads back to `here`. -/
def rkSemaWait (here : L) (s : S) (next : L) : Stmt S χ D L := .wait s next here

/-- `rk_sema_post`. -/
def rkSemaPost (s : S) (next : L) : Stmt S χ D L := .post s next

end PosixIntro
