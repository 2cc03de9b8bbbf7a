import PosixIntro.BoundedRange
import PosixIntro.Data.CModel

set_option relaxedAutoImplicit false
set_option autoImplicit false

/-!
# The total of the Rust program (`r_lab02_a.rs`)

The closure of the Rust thread calculates the sum with numbers of the type `i32`, whose overflow is
a panic. Its loops are over inclusive ranges.

## Main definitions

* `DataS`, `closure` — the structure, and what the closure makes of it; `none` is a panic.

## Main results

* `closure_eq_some_iff` — the closure panics only if the new total does not fit, and it calculates
  the same number as the C function otherwise.

## Design

The program is compiled with overflow checks. Only `total` is in a `Cell`, so the loops run over it
alone. The two lines that the closure prints at its end are left out.
-/

namespace PosixIntro

namespace RustData

open CData (Int32T int32Min int32Max one triangle triangle_nonneg triangle_mono triangle_max
  mul_max_le triangle_pred_add)

/-- `DataS`. -/
@[ext]
structure DataS where
  nums : Int32T × Int32T × Int32T
  total : Int32T
  deriving DecidableEq

/-- `total.set(total.get() + (i * j * k))`. -/
def addProduct (i j k total : Int32T) : Option Int32T := do
  let ij ← i.mul j
  let ijk ← ij.mul k
  total.add ijk

/-- The closure: what it makes of the structure; `none` when it panics. -/
def closure (d : DataS) : Option DataS := do
  let total ← BoundedInt.forRange d.nums.1 (fun i =>
    BoundedInt.forRange d.nums.2.1 (fun j =>
      BoundedInt.forRange d.nums.2.2 (fun k => addProduct i j k)
        one)
      one)
    one d.total
  return { d with total := total }

/-! ### One loop -/

section Loop

variable {n i j k total total' : Int32T} {body : Int32T → Int32T → Option Int32T} {w : ℤ}

/-- What the statement does if it does not overflow. -/
lemma addProduct_eq_some (h : addProduct i j k total = some total') :
    total'.val = total.val + k.val * (i.val * j.val) := by
  simp only [addProduct, Option.bind_eq_bind, Option.bind_eq_some_iff, BoundedInt.mul_eq_some_iff,
    BoundedInt.add_eq_some_iff] at h
  obtain ⟨ij, hij, ijk, hijk, htotal⟩ := h
  rw [htotal, hijk, hij, mul_comm]

/-- It does not overflow if the product and the new total fit. -/
lemma exists_addProduct (hi : 0 ≤ i.val) (hj : 0 ≤ j.val) (hk : 1 ≤ k.val)
    (hprod : i.val * j.val * k.val ≤ int32Max)
    (hsum : total.val + k.val * (i.val * j.val) ≤ int32Max) :
    ∃ total', addProduct i j k total = some total' := by
  have hmin : int32Min ≤ 0 := by norm_num [int32Min]
  have hpos : 0 ≤ i.val * j.val := mul_nonneg hi hj
  have hle : i.val * j.val * 1 ≤ i.val * j.val * k.val := by gcongr
  rw [mul_comm] at hsum
  have hlo := total.lo_le
  obtain ⟨ij, hij, hij'⟩ := i.exists_mul j (by omega) (by omega)
  rw [← hij'] at hprod hsum hle hpos
  obtain ⟨ijk, hijk, hijk'⟩ := ij.exists_mul k (by omega) hprod
  rw [← hijk'] at hsum hle
  obtain ⟨total', htotal, -⟩ := total.exists_add ijk (by omega) hsum
  exact ⟨total', by simp [addProduct, hij, hijk, htotal]⟩

/-- **A loop whose rounds add multiples of a weight**, if it ends. -/
lemma forRange_eq_some (hbody : ∀ i t t', body i t = some t' → t'.val = t.val + i.val * w)
    (h : BoundedInt.forRange n body one total = some total') :
    total'.val = total.val + triangle n.val * w := by
  have hend := BoundedInt.forRange_partial
    (I := fun x t => 1 ≤ x ∧ t.val = total.val + triangle (x - 1) * w) (fun i t t' _ ht hs => ?_)
    ⟨le_rfl, by simp [one]⟩ h
  · rw [← triangle_max]
    exact hend.2
  · have hadd := triangle_pred_add (w := w) ht.1
    have hnew := hbody i t t' hs
    refine ⟨by omega, ?_⟩
    rw [Int.add_sub_cancel]
    omega

/-- **It ends** if its rounds do as long as the total fits. -/
lemma exists_forRange (hw : 0 ≤ w) (hsum : total.val + triangle n.val * w ≤ int32Max)
    (hadds : ∀ i t t', body i t = some t' → t'.val = t.val + i.val * w)
    (hbody : ∀ i t, 1 ≤ i.val → i.val ≤ n.val → t.val + i.val * w ≤ int32Max →
      ∃ t', body i t = some t') :
    ∃ total', BoundedInt.forRange n body one total = some total' := by
  have hround : ∀ (i : Int32T) t, i.val ≤ n.val →
      (1 ≤ i.val ∧ t.val = total.val + triangle (i.val - 1) * w) →
      ∃ t', body i t = some t' ∧ 1 ≤ i.val + 1 ∧
        t'.val = total.val + triangle (i.val + 1 - 1) * w := by
    intro i t hle ht
    -- what has been added after this round is at most what is added in the end
    have hadd := triangle_pred_add (w := w) ht.1
    have hmono : triangle i.val * w ≤ triangle n.val * w := by
      gcongr
      exact triangle_mono hle
    obtain ⟨t', ht'⟩ := hbody i t ht.1 hle (by omega)
    have hnew := hadds i t t' ht'
    refine ⟨t', ht', by omega, ?_⟩
    rw [Int.add_sub_cancel]
    omega
  obtain ⟨total', h, -⟩ := BoundedInt.forRange_total (i := one) (s := total)
    (I := fun x t => 1 ≤ x ∧ t.val = total.val + triangle (x - 1) * w) hround
    ⟨le_rfl, by simp [one]⟩
  exact ⟨total', h⟩

end Loop

/-! ### The three loops -/

section Loops

variable {b c i j total total' : Int32T}

/-- The innermost loop, if it ends. -/
lemma loop_k (h : BoundedInt.forRange c (fun k => addProduct i j k) one total = some total') :
    total'.val = total.val + triangle c.val * (i.val * j.val) :=
  forRange_eq_some (fun _ _ _ hs => addProduct_eq_some hs) h

/-- The loop around it, if it ends. -/
lemma loop_j (h : BoundedInt.forRange b (fun j =>
      BoundedInt.forRange c (fun k => addProduct i j k) one) one total = some total') :
    total'.val = total.val + triangle b.val * (i.val * triangle c.val) := by
  refine forRange_eq_some (fun j t t' hs => ?_) h
  rw [loop_k hs]
  ring

/-- The innermost loop ends. -/
lemma exists_loop_k (hi : 0 ≤ i.val) (hj : 0 ≤ j.val)
    (hprod : i.val * j.val * max c.val 0 ≤ int32Max)
    (hsum : total.val + triangle c.val * (i.val * j.val) ≤ int32Max) :
    ∃ total', BoundedInt.forRange c (fun k => addProduct i j k) one total = some total' := by
  refine exists_forRange (mul_nonneg hi hj) hsum (fun _ _ _ hs => addProduct_eq_some hs) ?_
  intro k t hk hle hfit
  have hmul : i.val * j.val * k.val ≤ i.val * j.val * max c.val 0 := by
    gcongr
    exact hle.trans (le_max_left _ _)
  exact exists_addProduct hi hj hk (hmul.trans hprod) hfit

/-- So does the loop around it. -/
lemma exists_loop_j (hi : 0 ≤ i.val) (hprod : i.val * max b.val 0 * max c.val 0 ≤ int32Max)
    (hsum : total.val + triangle b.val * (i.val * triangle c.val) ≤ int32Max) :
    ∃ total', BoundedInt.forRange b (fun j =>
      BoundedInt.forRange c (fun k => addProduct i j k) one) one total = some total' := by
  refine exists_forRange (mul_nonneg hi (triangle_nonneg _)) hsum (fun j t t' hs => ?_) ?_
  · rw [loop_k hs]
    ring
  · intro j t hj hle hfit
    have hmul : i.val * j.val * max c.val 0 ≤ i.val * max b.val 0 * max c.val 0 := by
      gcongr
      exact hle.trans (le_max_left _ _)
    have hring : j.val * (i.val * triangle c.val) = triangle c.val * (i.val * j.val) := by ring
    rw [hring] at hfit
    exact exists_loop_k hi (by omega) (hmul.trans hprod) hfit

end Loops

variable {d d' : DataS}

/-- What the closure calculates. -/
lemma total_of_closure (h : closure d = some d') : d'.nums = d.nums ∧
    d'.total.val = d.total.val +
      triangle d.nums.1.val * triangle d.nums.2.1.val * triangle d.nums.2.2.val := by
  simp only [closure, Option.bind_eq_bind, Option.bind_eq_some_iff, Option.pure_def,
    Option.some.injEq] at h
  obtain ⟨total, htotal, rfl⟩ := h
  have hsum := forRange_eq_some (w := triangle d.nums.2.1.val * triangle d.nums.2.2.val)
    (fun i t t' hs => (loop_j hs).trans (by ring)) htotal
  exact ⟨rfl, by rw [hsum, mul_assoc]⟩

/-- **When the closure panics.** For all bounds, also the greatest one and negative ones, and for
every total before, the closure comes to its end if and only if the new total fits; and it is the new
total then. -/
theorem closure_eq_some_iff : closure d = some d' ↔ d'.nums = d.nums ∧
    d'.total.val = d.total.val +
      triangle d.nums.1.val * triangle d.nums.2.1.val * triangle d.nums.2.2.val := by
  refine ⟨total_of_closure, fun ⟨hnums, htotal⟩ => ?_⟩
  have hhi := d'.total.le_hi
  have hlo := d.total.lo_le
  rw [htotal] at hhi
  have hprod : max d.nums.1.val 0 * max d.nums.2.1.val 0 * max d.nums.2.2.val 0 ≤ int32Max := by
    apply mul_max_le
    simp only [int32Min, int32Max] at hlo hhi
    omega
  have hpos : 0 ≤ triangle d.nums.2.1.val * triangle d.nums.2.2.val :=
    mul_nonneg (triangle_nonneg _) (triangle_nonneg _)
  have hround : ∀ (i t : Int32T), 1 ≤ i.val → i.val ≤ d.nums.1.val →
      t.val + i.val * (triangle d.nums.2.1.val * triangle d.nums.2.2.val) ≤ int32Max →
      ∃ t', BoundedInt.forRange d.nums.2.1 (fun j =>
        BoundedInt.forRange d.nums.2.2 (fun k => addProduct i j k) one) one t = some t' := by
    intro i t hi hle hfit
    have hmul : i.val * max d.nums.2.1.val 0 * max d.nums.2.2.val 0 ≤
        max d.nums.1.val 0 * max d.nums.2.1.val 0 * max d.nums.2.2.val 0 := by
      gcongr
      exact hle.trans (le_max_left _ _)
    have hring : i.val * (triangle d.nums.2.1.val * triangle d.nums.2.2.val) =
      triangle d.nums.2.1.val * (i.val * triangle d.nums.2.2.val) := by ring
    rw [hring] at hfit
    exact exists_loop_j (by omega) (hmul.trans hprod) hfit
  obtain ⟨total, hloop⟩ := exists_forRange hpos (by rwa [← mul_assoc])
    (fun i t t' hs => (loop_j hs).trans (by ring)) hround
  have hclosure : closure d = some { d with total := total } := by
    rw [closure, hloop]
    rfl
  have hsame := (total_of_closure hclosure).2
  rw [hclosure, Option.some.injEq]
  exact DataS.ext hnums.symm (BoundedInt.ext (hsame.trans htotal.symm))

end RustData

end PosixIntro
