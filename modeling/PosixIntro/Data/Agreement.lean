import Mathlib.Algebra.BigOperators.Ring.Finset
import PosixIntro.Data.Model
import PosixIntro.Data.RustModel

set_option relaxedAutoImplicit false
set_option autoImplicit false

/-!
# One total in three languages (`c_lab02_a.c`, `r_lab02_a.rs`, `cc_lab02_a.cc`)

The three programs calculate the same sum with different integers: C with 32 bits and undefined
overflow, Rust with 32 bits and checks, C++ with 64 bits and wrap-around.

## Main definitions

* `CountersFit` — no loop of the C function that is entered has to count beyond `INT32_MAX`.
* `ofC`, `toUInt64` — the data of one program for another one.

## Main results

* `same_total` — the C function is defined exactly when the Rust closure does not panic and the
  counters fit, and then the three totals are one number.
-/

namespace PosixIntro

namespace CData

/-- The loops that are entered have a bound below the greatest integer. -/
def CountersFit (res : DataS) : Prop :=
  res.a.val < int32Max ∧
    (res.a.val < 1 ∨ (res.b.val < int32Max ∧ (res.b.val < 1 ∨ res.c.val < int32Max)))

instance (res : DataS) : Decidable (CountersFit res) := inferInstanceAs (Decidable (_ ∧ _))

/-- The data for the Rust closure. -/
def ofC (res : DataS) : RustData.DataS := ⟨(res.a, res.b, res.c), res.total⟩

/-- A number that is not negative, in C++. -/
def toUInt64 (x : Int32T) : UInt64 := UInt64.ofNat x.val.toNat

variable {res res' : DataS} {i j : Int32T}

/-! ### The counters of the C function -/

/-- A bound that is not below the greatest integer is the greatest integer. -/
lemma eq_int32Max {x : Int32T} (h : ¬ x.val < int32Max) : x.val = int32Max :=
  le_antisymm x.le_hi (Int.not_lt.mp h)

/-- The constant is the first number of a loop that is entered. -/
lemma one_le {x : Int32T} (h : ¬ x.val < 1) : one.val ≤ x.val := Int.not_lt.mp h

/-- **A counter that does not fit** overflows. -/
lemma countersFit_of_calculate (h : calculate res = some res') : CountersFit res := by
  have hloop_j : ∀ {r r' : DataS} {i : Int32T}, BoundedInt.forLoop DataS.b (fun j =>
      BoundedInt.forLoop DataS.c (fun k => addProduct i j k) one) one r = some r' →
      r'.a = r.a := fun hs => (adds_of_loop_j hs).a_eq
  have ha : res.a.val < int32Max := by
    by_contra hmax
    have hnone : calculate res = none := by
      refine BoundedInt.forLoop_hi (J := fun r => r.a = res.a) (fun r hr => ?_) ?_ rfl
      · rw [hr, eq_int32Max hmax]
      · exact fun i r r' hr hs => (hloop_j hs).trans hr
    exact absurd (hnone.symm.trans h) nofun
  refine ⟨ha, ?_⟩
  by_cases ha1 : res.a.val < 1
  · exact .inl ha1
  refine .inr ⟨?_, ?_⟩
  · by_contra hmax
    have hnone : calculate res = none := by
      apply BoundedInt.forLoop_of_body (one_le ha1)
      refine BoundedInt.forLoop_hi (J := fun r => r.b = res.b) (fun r hr => ?_) ?_ rfl
      · rw [hr, eq_int32Max hmax]
      · exact fun j r r' hr hs => (adds_of_loop_k hs).b_eq.trans hr
    exact absurd (hnone.symm.trans h) nofun
  · by_cases hb1 : res.b.val < 1
    · exact .inl hb1
    · refine .inr ?_
      by_contra hmax
      have hnone : calculate res = none := by
        apply BoundedInt.forLoop_of_body (one_le ha1)
        apply BoundedInt.forLoop_of_body (one_le hb1)
        refine BoundedInt.forLoop_hi (J := fun r => r.c = res.c) (fun r hr => ?_) ?_ rfl
        · rw [hr, eq_int32Max hmax]
        · exact fun k r r' hr hs => (adds_of_addProduct hs).c_eq.trans hr
      exact absurd (hnone.symm.trans h) nofun

/-- **A call whose counters and total fit** does not overflow. -/
lemma exists_calculate_of_countersFit (h : CountersFit res)
    (hsum : res.total.val + triangle res.a.val * triangle res.b.val * triangle res.c.val ≤
      int32Max) : ∃ res', calculate res = some res' := by
  obtain ⟨ha, ha1 | ⟨hb, hb1 | hc⟩⟩ := h
  · exact ⟨res, BoundedInt.forLoop_of_lt ha1⟩
  · -- no round of the loop around the innermost one
    have hnoop : ∀ (i : Int32T) (r : DataS), r.b.val < 1 → BoundedInt.forLoop DataS.b (fun j =>
        BoundedInt.forLoop DataS.c (fun k => addProduct i j k) one) one r = some r :=
      fun i r hr => BoundedInt.forLoop_of_lt hr
    have hempty : ∃ res', calculate res = some res' ∧ Adds (triangle res.a.val * 0) res res' := by
      refine exists_forLoop (fun v r hr => hr.a_eq) le_rfl ha (by simpa using res.total.le_hi) ?_
      intro i v r _ _ hr _
      exact ⟨r, hnoop i r (by rw [hr.b_eq]; exact hb1), by simpa using Adds.refl r⟩
    obtain ⟨res', hres', -⟩ := hempty
    exact ⟨res', hres'⟩
  · exact exists_calculate ha hb hc hsum

/-- **C and Rust.** The C function is defined exactly when the Rust closure does not panic and the
counters fit, and then both have the same total. -/
theorem calculate_iff : calculate res = some res' ↔
    CountersFit res ∧ RustData.closure (ofC res) = some (ofC res') := by
  constructor
  · intro h
    have hadds := adds_of_calculate h
    refine ⟨countersFit_of_calculate h, RustData.closure_eq_some_iff.mpr ⟨?_, ?_⟩⟩
    · simp only [ofC, hadds.a_eq, hadds.b_eq, hadds.c_eq]
    · simp only [ofC, hadds.total_eq, mul_assoc]
  · rintro ⟨hfit, h⟩
    obtain ⟨hnums, htotal⟩ := RustData.closure_eq_some_iff.mp h
    simp only [ofC, Prod.mk.injEq] at hnums htotal
    obtain ⟨ha, hb, hc⟩ := hnums
    obtain ⟨r, hr⟩ := exists_calculate_of_countersFit hfit (htotal ▸ res'.total.le_hi)
    have hadds := adds_of_calculate hr
    rw [hr, Option.some.injEq]
    refine DataS.ext (hadds.a_eq.trans ha.symm) (hadds.b_eq.trans hb.symm)
      (hadds.c_eq.trans hc.symm) (BoundedInt.ext ?_)
    rw [hadds.total_eq, htotal, mul_assoc]

/-! ### C++ -/

/-- The sum of the first natural numbers. -/
lemma sum_Icc (n : ℕ) : ((∑ i ∈ Finset.Icc 1 n, i : ℕ) : ℤ) = triangle n := by
  induction n with
  | zero => rfl
  | succ n ih =>
    rw [Finset.sum_Icc_succ_top (Nat.le_add_left 1 n), Nat.cast_add, ih, Nat.cast_succ,
      triangle_succ (Int.natCast_nonneg n)]

/-- The triple sum is a product. -/
lemma sum_mul (a b c : ℕ) : ((∑ i ∈ Finset.Icc 1 a, ∑ j ∈ Finset.Icc 1 b,
    ∑ k ∈ Finset.Icc 1 c, i * j * k : ℕ) : ℤ) = triangle a * triangle b * triangle c := by
  rw [← sum_Icc, ← sum_Icc, ← sum_Icc, ← Nat.cast_mul, ← Nat.cast_mul, Nat.cast_inj,
    Finset.sum_mul_sum, Finset.sum_mul]
  refine Finset.sum_congr rfl fun i _ => ?_
  rw [Finset.sum_mul]
  exact Finset.sum_congr rfl fun j _ => Finset.mul_sum .. |>.symm

/-- A number of 32 bits is far below the greatest one of 64 bits. -/
lemma toNat_toUInt64 (x : Int32T) : (toUInt64 x).toNat = x.val.toNat := by
  have hle := x.le_hi
  simp only [int32Max] at hle
  rw [toUInt64, UInt64.toNat_ofNat']
  exact Nat.mod_eq_of_lt (by omega)

lemma toUInt64_ne_sizeMax (x : Int32T) : toUInt64 x ≠ sizeMax := by
  intro h
  have hnat := congrArg UInt64.toNat h
  have hmax : sizeMax.toNat = 18446744073709551615 := rfl
  have hle := x.le_hi
  simp only [int32Max] at hle
  rw [toNat_toUInt64, hmax] at hnat
  omega

/-- **Rust and C++.** When the Rust closure does not panic, the C++ function calculates the same
number. -/
theorem calculate_of_closure {d' : RustData.DataS} (ha : 0 ≤ res.a.val) (hb : 0 ≤ res.b.val)
    (hc : 0 ≤ res.c.val) (h0 : res.total.val = 0) (h : RustData.closure (ofC res) = some d') :
    (Data.init (toUInt64 res.a) (toUInt64 res.b) (toUInt64 res.c)).calculate =
      some (toUInt64 d'.total) := by
  have htotal := (RustData.closure_eq_some_iff.mp h).2
  have hne := toUInt64_ne_sizeMax
  rw [Data.calculate_eq ⟨hne res.a, .inr ⟨hne res.b, .inr (hne res.c)⟩⟩]
  have hcast := sum_mul res.a.val.toNat res.b.val.toNat res.c.val.toNat
  rw [Int.toNat_of_nonneg ha, Int.toNat_of_nonneg hb, Int.toNat_of_nonneg hc] at hcast
  have hval : d'.total.val = triangle res.a.val * triangle res.b.val * triangle res.c.val := by
    rw [htotal]
    simp [ofC, h0]
  have hsum : Data.sum (toUInt64 res.a) (toUInt64 res.b) (toUInt64 res.c) = toUInt64 d'.total := by
    rw [Data.sum, toNat_toUInt64, toNat_toUInt64, toNat_toUInt64, toUInt64, hval, ← hcast,
      Int.toNat_natCast]
  rw [← hsum]
  exact congrArg some (UInt64.zero_add _)

/-- **One total in three languages.** For all bounds and every total before, the C function is
defined exactly when the Rust closure does not panic and no counter has to pass the greatest integer,
and then both have one result; and when the bounds are not negative and the total is zero before, the
C++ function calculates the number that the Rust closure does, if this does not panic. -/
theorem same_total (res : DataS) :
    (∀ res', calculate res = some res' ↔
      CountersFit res ∧ RustData.closure (ofC res) = some (ofC res')) ∧
      ∀ d', 0 ≤ res.a.val → 0 ≤ res.b.val → 0 ≤ res.c.val → res.total.val = 0 →
        RustData.closure (ofC res) = some d' →
        (Data.init (toUInt64 res.a) (toUInt64 res.b) (toUInt64 res.c)).calculate =
          some (toUInt64 d'.total) :=
  ⟨fun _ => calculate_iff, fun _ ha hb hc h0 h => calculate_of_closure ha hb hc h0 h⟩

/-- The greatest bound, which the C function cannot count to and the Rust closure can. -/
example : ¬ CountersFit ⟨⟨int32Max, by decide, by decide⟩, one, one, one⟩ := by decide

end CData

end PosixIntro
