import Mathlib.Tactic.Common

set_option relaxedAutoImplicit false
set_option autoImplicit false

/-!
# Counting loops with a 64-bit counter

`for (size_t i = start; i <= n; ++i) body`, where `++i` wraps around.

## Main definitions

* `forLoop` — the loop, with a bound on its rounds; `none` when it has not ended by then or its body
  does not end.

## Main results

* `forLoop_invariant` — the invariant rule, which also gives the end of the loop.
* `forLoop_max` — with the greatest `n` the loop does not end.
-/

namespace PosixIntro

/-- `for (size_t i = start; i <= n; ++i) body`, `fuel` tests of its condition at most. -/
def forLoop {σ : Type*} (body : UInt64 → σ → Option σ) (n : UInt64) : ℕ → UInt64 → σ → Option σ
  | 0, _, _ => none
  | fuel + 1, i, s => if i ≤ n then (body i s).bind (forLoop body n fuel (i + 1)) else some s

/-- `SIZE_MAX`. -/
def sizeMax : UInt64 := 18446744073709551615

variable {σ : Type*} {body : UInt64 → σ → Option σ} {n i : UInt64} {fuel : ℕ} {s : σ}

lemma lt_size_of_ne (h : n ≠ sizeMax) : n.toNat + 1 < UInt64.size := by
  have hlt := n.toNat_lt_size
  have hne : n.toNat ≠ sizeMax.toNat := fun heq => h (UInt64.toNat_inj.mp heq)
  have hmax : sizeMax.toNat + 1 = UInt64.size := rfl
  omega

/-- The counter does not wrap around before the loop ends. -/
lemma toNat_succ (hn : n ≠ sizeMax) (h : i ≤ n) : (i + 1).toNat = i.toNat + 1 := by
  have hlt := lt_size_of_ne hn
  have hle : i.toNat ≤ n.toNat := UInt64.le_iff_toNat_le.mp h
  have hone : (1 : UInt64).toNat = 1 := rfl
  rw [UInt64.toNat_add, hone]
  exact Nat.mod_eq_of_lt (Nat.lt_of_le_of_lt (Nat.succ_le_succ hle) hlt)

/-- **The invariant rule for counting loops.** If the body ends and keeps an invariant of the
counter, the loop ends and the invariant holds of `n + 1`. -/
theorem forLoop_invariant {I : ℕ → σ → Prop} (hn : n ≠ sizeMax)
    (hbody : ∀ i s, i ≤ n → I i.toNat s → ∃ s', body i s = some s' ∧ I (i.toNat + 1) s')
    (h : I i.toNat s) (hi : i.toNat ≤ n.toNat + 1) (hfuel : n.toNat + 1 - i.toNat < fuel) :
    ∃ s', forLoop body n fuel i s = some s' ∧ I (n.toNat + 1) s' := by
  induction fuel generalizing i s with
  | zero => exact absurd hfuel (Nat.not_lt_zero _)
  | succ fuel ih =>
    by_cases hle : i ≤ n
    · obtain ⟨s₁, hs₁, hI⟩ := hbody i s hle h
      have hsucc := toNat_succ hn hle
      have hle' : i.toNat ≤ n.toNat := UInt64.le_iff_toNat_le.mp hle
      rw [← hsucc] at hI
      obtain ⟨s', hs', hI'⟩ := ih hI (by omega) (by omega)
      exact ⟨s', by simp [forLoop, hle, hs₁, hs'], hI'⟩
    · have hlt : ¬ i.toNat ≤ n.toNat := fun hle' => hle (UInt64.le_iff_toNat_le.mpr hle')
      obtain heq : i.toNat = n.toNat + 1 := by omega
      exact ⟨s, if_neg hle, heq ▸ h⟩

/-- **A loop up to the greatest number does not end.** -/
theorem forLoop_max : forLoop body sizeMax fuel i s = none := by
  induction fuel generalizing i s with
  | zero => rfl
  | succ fuel ih =>
    have hle : i ≤ sizeMax := UInt64.le_iff_toNat_le.mpr (Nat.le_of_lt_succ i.toNat_lt_size)
    rw [forLoop, if_pos hle]
    cases body i s with
    | none => rfl
    | some s' => exact ih

/-- A loop does not end if its first round does not. -/
lemma forLoop_of_body (hle : i ≤ n) (h : body i s = none) : forLoop body n fuel i s = none := by
  cases fuel with
  | zero => rfl
  | succ fuel => rw [forLoop, if_pos hle, h, Option.bind_none]

end PosixIntro
