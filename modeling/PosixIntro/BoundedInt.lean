import Mathlib.Data.Int.Order.Basic
import Mathlib.Tactic.Common

set_option relaxedAutoImplicit false
set_option autoImplicit false

/-!
# Bounded integers with overflow

Integers between two bounds, as signed machine integers are, where it is an error that a result is
outside the bounds.

## Main definitions

* `BoundedInt` — the integers between two bounds.
* `BoundedInt.ofInt`, `BoundedInt.add`, `BoundedInt.mul`, `BoundedInt.succ` — the operations; `none`
  is an overflow.
* `BoundedInt.forLoop` — `for (i = start; i <= n; i++) body`, where the state has the bound `n`.

## Main results

* `BoundedInt.forLoop_total` — the invariant rule, for the loop that ends without an overflow.
* `BoundedInt.forLoop_partial` — the invariant rule, for the loop that is known to have ended.

## Design

The counter cannot grow for ever: at the upper bound `i++` overflows. So `forLoop` is a total
function, and `none` always means an overflow.
-/

namespace PosixIntro

/-- The integers from `lo` to `hi`. -/
@[ext]
structure BoundedInt (lo hi : ℤ) where
  val : ℤ
  lo_le : lo ≤ val
  le_hi : val ≤ hi
  deriving DecidableEq

namespace BoundedInt

variable {lo hi : ℤ}

/-- An integer as a bounded one; `none` if it is outside the bounds. -/
def ofInt (x : ℤ) : Option (BoundedInt lo hi) :=
  if h : lo ≤ x ∧ x ≤ hi then some ⟨x, h.1, h.2⟩ else none

/-- `x + y`. -/
def add (x y : BoundedInt lo hi) : Option (BoundedInt lo hi) := ofInt (x.val + y.val)

/-- `x * y`. -/
def mul (x y : BoundedInt lo hi) : Option (BoundedInt lo hi) := ofInt (x.val * y.val)

/-- `x + 1`, as `x++` has it. -/
def succ (x : BoundedInt lo hi) : Option (BoundedInt lo hi) := ofInt (x.val + 1)

@[simp] lemma ofInt_eq_some_iff {x : ℤ} {y : BoundedInt lo hi} : ofInt x = some y ↔ y.val = x := by
  rw [ofInt]
  split
  · rw [Option.some.injEq, BoundedInt.ext_iff, eq_comm]
  · next h =>
    constructor
    · intro hxy
      exact absurd hxy (by simp)
    · intro hxy
      subst hxy
      exact absurd ⟨y.lo_le, y.le_hi⟩ h

/-- There is no overflow as long as the exact result is between the bounds. -/
lemma exists_ofInt {x : ℤ} (hlo : lo ≤ x) (hhi : x ≤ hi) :
    ∃ y : BoundedInt lo hi, ofInt x = some y ∧ y.val = x :=
  ⟨⟨x, hlo, hhi⟩, ofInt_eq_some_iff.mpr rfl, rfl⟩

/-- The operations do not overflow then. -/
lemma exists_add (x y : BoundedInt lo hi) (hlo : lo ≤ x.val + y.val) (hhi : x.val + y.val ≤ hi) :
    ∃ z, x.add y = some z ∧ z.val = x.val + y.val := exists_ofInt hlo hhi

lemma exists_mul (x y : BoundedInt lo hi) (hlo : lo ≤ x.val * y.val) (hhi : x.val * y.val ≤ hi) :
    ∃ z, x.mul y = some z ∧ z.val = x.val * y.val := exists_ofInt hlo hhi

lemma exists_succ (x : BoundedInt lo hi) (hhi : x.val < hi) :
    ∃ y, x.succ = some y ∧ y.val = x.val + 1 := by
  have hlo := x.lo_le
  exact exists_ofInt (by omega) hhi

@[simp] lemma add_eq_some_iff {x y z : BoundedInt lo hi} :
    x.add y = some z ↔ z.val = x.val + y.val := ofInt_eq_some_iff

@[simp] lemma mul_eq_some_iff {x y z : BoundedInt lo hi} :
    x.mul y = some z ↔ z.val = x.val * y.val := ofInt_eq_some_iff

@[simp] lemma succ_eq_some_iff {x y : BoundedInt lo hi} : x.succ = some y ↔ y.val = x.val + 1 :=
  ofInt_eq_some_iff

/-! ### Counting loops -/

section ForLoop

variable {σ : Type*}

/-- `for (i = start; i <= n; i++) body`: the bound `n` is read again before every round. -/
def forLoop (n : σ → BoundedInt lo hi) (body : BoundedInt lo hi → σ → Option σ)
    (i : BoundedInt lo hi) (s : σ) : Option σ :=
  if i.val ≤ (n s).val then
    match body i s with
    | none => none
    | some s' =>
      match _hsucc : i.succ with
      | none => none
      | some i' => forLoop n body i' s'
  else some s
termination_by (hi - i.val).toNat
decreasing_by
  have hval : i'.val = i.val + 1 := succ_eq_some_iff.mp _hsucc
  have hle := i'.le_hi
  omega

variable {n : σ → BoundedInt lo hi} {body : BoundedInt lo hi → σ → Option σ} {i : BoundedInt lo hi}
  {s : σ} {m : ℤ} {I : ℤ → σ → Prop}

/-- **The invariant rule, with the end of the loop.** The bound `m` stays the same and is not the
greatest integer, and every round ends and keeps the invariant. -/
theorem forLoop_total (hm : m < hi) (hn : ∀ i s, I i s → (n s).val = m)
    (hbody : ∀ (i : BoundedInt lo hi) s, i.val ≤ m → I i.val s →
      ∃ s', body i s = some s' ∧ I (i.val + 1) s')
    (h : I i.val s) : ∃ t, forLoop n body i s = some t ∧ I (max i.val (m + 1)) t := by
  fun_induction forLoop n body i s with
  | case1 i s hle hnone =>
    obtain ⟨s', hs', -⟩ := hbody i s (hn i.val s h ▸ hle) h
    exact absurd (hnone.symm.trans hs') (by simp)
  | case2 i s hle s' hs' hnone =>
    have hm' : i.val ≤ m := hn i.val s h ▸ hle
    obtain ⟨i', hi', -⟩ := i.exists_succ (by omega)
    exact absurd (hnone.symm.trans hi') (by simp)
  | case3 i s hle s' hs' i' hi' ih =>
    have hm' : i.val ≤ m := hn i.val s h ▸ hle
    have hval : i'.val = i.val + 1 := succ_eq_some_iff.mp hi'
    obtain ⟨s'', hs'', hI⟩ := hbody i s hm' h
    obtain rfl : s' = s'' := Option.some.inj (hs'.symm.trans hs'')
    rw [← hval] at hI
    obtain ⟨t, ht, hIt⟩ := ih hI
    refine ⟨t, ht, ?_⟩
    rwa [show max i.val (m + 1) = max i'.val (m + 1) by omega]
  | case4 i s hlt =>
    have hm' : ¬ i.val ≤ m := hn i.val s h ▸ hlt
    refine ⟨s, rfl, ?_⟩
    rwa [show max i.val (m + 1) = i.val by omega]

/-- **The invariant rule for a loop that has ended.** Every round that ends keeps the invariant. -/
theorem forLoop_partial {t : σ} (hn : ∀ i s, I i s → (n s).val = m)
    (hbody : ∀ (i : BoundedInt lo hi) s s', i.val ≤ m → I i.val s → body i s = some s' →
      I (i.val + 1) s')
    (h : I i.val s) (ht : forLoop n body i s = some t) : I (max i.val (m + 1)) t := by
  fun_induction forLoop n body i s with
  | case1 i s hle hnone => cases ht
  | case2 i s hle s' hs' hnone => cases ht
  | case3 i s hle s' hs' i' hi' ih =>
    have hm' : i.val ≤ m := hn i.val s h ▸ hle
    have hval : i'.val = i.val + 1 := succ_eq_some_iff.mp hi'
    have hI : I i'.val s' := by
      rw [hval]
      exact hbody i s s' hm' h hs'
    have hIt := ih hI ht
    rwa [show max i.val (m + 1) = max i'.val (m + 1) by omega]
  | case4 i s hlt =>
    have hm' : ¬ i.val ≤ m := hn i.val s h ▸ hlt
    obtain rfl : s = t := Option.some.inj ht
    rwa [show max i.val (m + 1) = i.val by omega]

end ForLoop

end BoundedInt

end PosixIntro
