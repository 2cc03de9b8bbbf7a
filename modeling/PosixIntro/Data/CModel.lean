import Mathlib.Algebra.Order.Ring.Int
import Mathlib.Algebra.Group.Int.Even
import Mathlib.Tactic.GCongr
import Mathlib.Tactic.Linarith
import Mathlib.Tactic.Ring
import PosixIntro.BoundedInt

set_option relaxedAutoImplicit false
set_option autoImplicit false

/-!
# The total in 32 bits (`c_lab02_a.c`)

The C program calculates its sum with numbers of the type `int32_t`, whose overflow is undefined.

## Main definitions

* `Int32T`, `DataS` — the numbers, and the structure that the thread is given.
* `calculate` — the function of the thread; `none` when an operation overflows.
* `triangle` — the sum of the numbers up to a bound.

## Main results

* `adds_of_calculate` — what a call adds that does not overflow.
* `exists_calculate` — when the new total is not too large, no operation overflows.
* `calculate_eq_none` — when it is, one does.

## Design

Each of the three loops adds, in round `i`, the product of `i` and a weight: what the loops inside
of it add when `i` is one. So one lemma about such a loop is used three times. `puts` at the end of
the function is left out.
-/

namespace PosixIntro

namespace CData

/-- `INT32_MIN`. -/
def int32Min : ℤ := -2147483648

/-- `INT32_MAX`. -/
def int32Max : ℤ := 2147483647

/-- `int32_t`. -/
abbrev Int32T := BoundedInt int32Min int32Max

/-- The constant `1`. -/
def one : Int32T := ⟨1, by norm_num [int32Min], by norm_num [int32Max]⟩

/-- `data_s`. -/
@[ext]
structure DataS where
  a : Int32T
  b : Int32T
  c : Int32T
  total : Int32T
  deriving DecidableEq

/-- `res->total += i * j * k`. -/
def addProduct (i j k : Int32T) (res : DataS) : Option DataS := do
  let ij ← i.mul j
  let ijk ← ij.mul k
  let total ← res.total.add ijk
  return { res with total := total }

/-- `calculate`: what it makes of the structure; `none` when an operation overflows. -/
def calculate (res : DataS) : Option DataS :=
  BoundedInt.forLoop DataS.a (fun i =>
    BoundedInt.forLoop DataS.b (fun j =>
      BoundedInt.forLoop DataS.c (fun k => addProduct i j k)
        one)
      one)
    one res

/-! ### Sums of the first numbers -/

/-- The sum of the numbers from one to `x`. -/
def triangle (x : ℤ) : ℤ := if 0 < x then x * (x + 1) / 2 else 0

variable {x y z : ℤ}

@[simp] lemma triangle_of_nonpos (h : x ≤ 0) : triangle x = 0 := if_neg (Int.not_lt.mpr h)

lemma two_mul_triangle (h : 0 ≤ x) : 2 * triangle x = x * (x + 1) := by
  obtain rfl | hpos := h.eq_or_lt
  · rfl
  · rw [triangle, if_pos hpos]
    exact Int.mul_ediv_cancel' (Int.even_mul_succ_self x).two_dvd

lemma triangle_succ (h : 0 ≤ x) : triangle (x + 1) = triangle x + (x + 1) := by
  have h₀ := two_mul_triangle h
  have h₁ := two_mul_triangle (x := x + 1) (by omega)
  have hmul : (x + 1) * (x + 1 + 1) = x * (x + 1) + 2 * (x + 1) := by ring
  omega

lemma triangle_nonneg (x : ℤ) : 0 ≤ triangle x := by
  obtain h | h := le_total x 0
  · rw [triangle_of_nonpos h]
  · have h₀ := two_mul_triangle h
    have hmul : 0 ≤ x * (x + 1) := mul_nonneg h (by omega)
    omega

lemma triangle_mono (h : x ≤ y) : triangle x ≤ triangle y := by
  obtain hx | hx := le_total x 0
  · rw [triangle_of_nonpos hx]
    exact triangle_nonneg y
  · have h₀ := two_mul_triangle hx
    have h₁ := two_mul_triangle (hx.trans h)
    have hmul : x * (x + 1) ≤ y * (y + 1) := by
      gcongr
      exact hx.trans h
    omega

/-- A round that is not reached adds nothing. -/
lemma triangle_max (x : ℤ) : triangle (max 1 (x + 1) - 1) = triangle x := by
  obtain h | h := le_total x 0
  · rw [triangle_of_nonpos h, triangle_of_nonpos (by omega)]
  · congr 1
    omega

lemma max_le_triangle (x : ℤ) : max x 0 ≤ triangle x := by
  obtain h | h := le_total x 0
  · rw [triangle_of_nonpos h]
    omega
  · have h₀ := two_mul_triangle h
    have hmul : x * 1 ≤ x * x := by
      obtain rfl | hpos := h.eq_or_lt
      · rfl
      · gcongr
        omega
    have hring : x * (x + 1) = x * x + x := by ring
    omega

lemma two_mul_max_le_triangle (h : 3 ≤ x) : 2 * max x 0 ≤ triangle x := by
  have h₀ := two_mul_triangle (x := x) (by omega)
  have hmul : x * 4 ≤ x * (x + 1) := by
    gcongr
    omega
  omega

/-- **The product of the bounds fits** if the sum does, whatever the total is before: if a bound is
greater than two, the sum is at least twice the product. -/
lemma mul_max_le (h : triangle x * triangle y * triangle z ≤ 4294967295) :
    max x 0 * max y 0 * max z 0 ≤ 2147483647 := by
  have hx := max_le_triangle x
  have hy := max_le_triangle y
  have hz := max_le_triangle z
  have hx₀ : 0 ≤ max x 0 := le_max_right x 0
  have hy₀ : 0 ≤ max y 0 := le_max_right y 0
  have hz₀ : 0 ≤ max z 0 := le_max_right z 0
  have hTx := triangle_nonneg x
  have hTy := triangle_nonneg y
  have htwice : 3 ≤ x ∨ 3 ≤ y ∨ 3 ≤ z →
      2 * (max x 0 * max y 0 * max z 0) ≤ triangle x * triangle y * triangle z := by
    rintro (h₃ | h₃ | h₃)
    · calc 2 * (max x 0 * max y 0 * max z 0) = 2 * max x 0 * max y 0 * max z 0 := by ring
        _ ≤ triangle x * triangle y * triangle z := by
          gcongr
          exact two_mul_max_le_triangle h₃
    · calc 2 * (max x 0 * max y 0 * max z 0) = max x 0 * (2 * max y 0) * max z 0 := by ring
        _ ≤ triangle x * triangle y * triangle z := by
          gcongr
          exact two_mul_max_le_triangle h₃
    · calc 2 * (max x 0 * max y 0 * max z 0) = max x 0 * max y 0 * (2 * max z 0) := by ring
        _ ≤ triangle x * triangle y * triangle z := by
          gcongr
          exact two_mul_max_le_triangle h₃
  by_cases h₃ : 3 ≤ x ∨ 3 ≤ y ∨ 3 ≤ z
  · have := htwice h₃
    omega
  · have hsmall : max x 0 * max y 0 * max z 0 ≤ 2 * 2 * 2 := by
      gcongr <;> omega
    omega

/-! ### The loops -/

/-- The second structure is the first with `v` added to its total. -/
structure Adds (v : ℤ) (res res' : DataS) : Prop where
  a_eq : res'.a = res.a
  b_eq : res'.b = res.b
  c_eq : res'.c = res.c
  total_eq : res'.total.val = res.total.val + v

variable {res res' res'' : DataS} {i j k : Int32T} {v w : ℤ}

lemma Adds.refl (res : DataS) : Adds 0 res res := ⟨rfl, rfl, rfl, (add_zero _).symm⟩

lemma Adds.trans (h : Adds v res res') (h' : Adds w res' res'') : Adds (v + w) res res'' where
  a_eq := h'.a_eq.trans h.a_eq
  b_eq := h'.b_eq.trans h.b_eq
  c_eq := h'.c_eq.trans h.c_eq
  total_eq := by rw [h'.total_eq, h.total_eq, add_assoc]

/-- What the statement does if it does not overflow. -/
lemma adds_of_addProduct (h : addProduct i j k res = some res') :
    Adds (k.val * (i.val * j.val)) res res' := by
  simp only [addProduct, Option.bind_eq_bind, Option.bind_eq_some_iff, BoundedInt.mul_eq_some_iff,
    BoundedInt.add_eq_some_iff, Option.pure_def, Option.some.injEq] at h
  obtain ⟨ij, hij, ijk, hijk, total, htotal, rfl⟩ := h
  refine ⟨rfl, rfl, rfl, ?_⟩
  rw [htotal, hijk, hij, mul_comm]

/-- It does not overflow if the two products and the new total fit. -/
lemma exists_addProduct (hi : 0 ≤ i.val) (hj : 0 ≤ j.val) (hk : 1 ≤ k.val)
    (hprod : i.val * j.val * k.val ≤ int32Max)
    (hsum : res.total.val + k.val * (i.val * j.val) ≤ int32Max) :
    ∃ res', addProduct i j k res = some res' ∧ Adds (k.val * (i.val * j.val)) res res' := by
  have hmin : int32Min ≤ 0 := by norm_num [int32Min]
  have hpos : 0 ≤ i.val * j.val := mul_nonneg hi hj
  have hle : i.val * j.val * 1 ≤ i.val * j.val * k.val := by gcongr
  rw [mul_comm] at hsum
  have hlo := res.total.lo_le
  obtain ⟨ij, hij, hij'⟩ := i.exists_mul j (by omega) (by omega)
  rw [← hij'] at hprod hsum hle hpos
  obtain ⟨ijk, hijk, hijk'⟩ := ij.exists_mul k (by omega) hprod
  rw [← hijk'] at hsum hle
  obtain ⟨total, htotal, -⟩ := res.total.exists_add ijk (by omega) hsum
  have hsome : addProduct i j k res = some { res with total := total } := by
    rw [addProduct, hij]
    simp [hijk, htotal]
  exact ⟨_, hsome, adds_of_addProduct hsome⟩

section Loop

variable {n : DataS → Int32T} {body : Int32T → DataS → Option DataS} {x : ℤ}

/-- The structure before round `x` of a loop whose rounds add multiples of a weight. -/
structure Before (w : ℤ) (res : DataS) (x : ℤ) (r : DataS) : Prop where
  pos : 1 ≤ x
  adds : Adds (triangle (x - 1) * w) res r

lemma Before.first (w : ℤ) (res : DataS) : Before w res one.val res where
  pos := le_rfl
  adds := by
    have hzero : triangle (one.val - 1) * w = 0 := by simp [one]
    rw [hzero]
    exact Adds.refl res

/-- The sums before and after a round. -/
lemma triangle_pred_add (h : 1 ≤ x) : triangle (x - 1) * w + x * w = triangle x * w := by
  have hx := triangle_succ (x := x - 1) (by omega)
  rw [Int.sub_add_cancel] at hx
  rw [hx, add_mul]

lemma Before.next (h : Before w res x res') (h' : Adds (x * w) res' res'') :
    Before w res (x + 1) res'' where
  pos := by
    have := h.pos
    omega
  adds := by
    rw [Int.add_sub_cancel, ← triangle_pred_add h.pos]
    exact h.adds.trans h'

/-- The structure after the last round. -/
lemma Before.last (h : Before w res (max one.val (x + 1)) res') :
    Adds (triangle x * w) res res' := by
  rw [← triangle_max]
  exact h.adds

/-- The bound of the loop is the one that it had. -/
lemma Before.bound_eq (hn : ∀ v r, Adds v res r → n r = n res) (x : ℤ) (r : DataS)
    (h : Before w res x r) : (n r).val = (n res).val := by
  rw [hn _ r h.adds]

/-- **A loop whose rounds add multiples of a weight**, if it ends. -/
lemma adds_of_forLoop (hn : ∀ v r, Adds v res r → n r = n res)
    (hbody : ∀ i v r r', Adds v res r → body i r = some r' → Adds (i.val * w) r r')
    (h : BoundedInt.forLoop n body one res = some res') :
    Adds (triangle (n res).val * w) res res' := by
  have hround : ∀ (i : Int32T) r r', i.val ≤ (n res).val → Before w res i.val r →
      body i r = some r' → Before w res (i.val + 1) r' := by
    intro i r r' _ hr hr'
    exact hr.next (hbody i _ r r' hr.adds hr')
  exact (BoundedInt.forLoop_partial (Before.bound_eq hn) hround (Before.first w res) h).last

/-- **It ends without an overflow** if its rounds do as long as the total fits. -/
lemma exists_forLoop (hn : ∀ v r, Adds v res r → n r = n res) (hw : 0 ≤ w)
    (hmax : (n res).val < int32Max)
    (hsum : res.total.val + triangle (n res).val * w ≤ int32Max)
    (hbody : ∀ i v r, 1 ≤ i.val → i.val ≤ (n res).val → Adds v res r →
      r.total.val + i.val * w ≤ int32Max → ∃ r', body i r = some r' ∧ Adds (i.val * w) r r') :
    ∃ res', BoundedInt.forLoop n body one res = some res' ∧
      Adds (triangle (n res).val * w) res res' := by
  have hround : ∀ (i : Int32T) r, i.val ≤ (n res).val → Before w res i.val r →
      ∃ r', body i r = some r' ∧ Before w res (i.val + 1) r' := by
    intro i r hle hr
    -- what has been added after this round is at most what is added in the end
    have hadd := triangle_pred_add (w := w) hr.pos
    have hmono : triangle i.val * w ≤ triangle (n res).val * w := by
      gcongr
      exact triangle_mono hle
    have htotal := hr.adds.total_eq
    obtain ⟨r', hr', hadds⟩ := hbody i _ r hr.pos hle hr.adds (by omega)
    exact ⟨r', hr', hr.next hadds⟩
  obtain ⟨res', hres', hend⟩ :=
    BoundedInt.forLoop_total hmax (Before.bound_eq hn) hround (Before.first w res)
  exact ⟨res', hres', hend.last⟩

end Loop

/-! ### The three loops -/

/-- The innermost loop, if it ends. -/
lemma adds_of_loop_k
    (h : BoundedInt.forLoop DataS.c (fun k => addProduct i j k) one res = some res') :
    Adds (triangle res.c.val * (i.val * j.val)) res res' := by
  refine adds_of_forLoop (fun v r hr => hr.c_eq) ?_ h
  intro k v r r' _ hr'
  exact adds_of_addProduct hr'

/-- The loop around it, if it ends. -/
lemma adds_of_loop_j (h : BoundedInt.forLoop DataS.b (fun j =>
      BoundedInt.forLoop DataS.c (fun k => addProduct i j k) one) one res = some res') :
    Adds (triangle res.b.val * (i.val * triangle res.c.val)) res res' := by
  refine adds_of_forLoop (fun v r hr => hr.b_eq) ?_ h
  intro j v r r' hr hr'
  have hadds := adds_of_loop_k hr'
  rw [hr.c_eq] at hadds
  rwa [show j.val * (i.val * triangle res.c.val) = triangle res.c.val * (i.val * j.val) by ring]

/-- **What a call adds**, if it does not overflow. -/
theorem adds_of_calculate (h : calculate res = some res') :
    Adds (triangle res.a.val * (triangle res.b.val * triangle res.c.val)) res res' := by
  refine adds_of_forLoop (fun v r hr => hr.a_eq) ?_ h
  intro i v r r' hr hr'
  have hadds := adds_of_loop_j hr'
  rw [hr.b_eq, hr.c_eq] at hadds
  rwa [show i.val * (triangle res.b.val * triangle res.c.val) =
    triangle res.b.val * (i.val * triangle res.c.val) by ring]

/-- The innermost loop ends without an overflow. -/
lemma exists_loop_k (hi : 0 ≤ i.val) (hj : 0 ≤ j.val) (hc : res.c.val < int32Max)
    (hprod : i.val * j.val * max res.c.val 0 ≤ int32Max)
    (hsum : res.total.val + triangle res.c.val * (i.val * j.val) ≤ int32Max) :
    ∃ res', BoundedInt.forLoop DataS.c (fun k => addProduct i j k) one res = some res' ∧
      Adds (triangle res.c.val * (i.val * j.val)) res res' := by
  have hpos : 0 ≤ i.val * j.val := mul_nonneg hi hj
  refine exists_forLoop (fun v r hr => hr.c_eq) hpos hc hsum ?_
  intro k v r hk hle _ htotal
  have hmul : i.val * j.val * k.val ≤ i.val * j.val * max res.c.val 0 := by
    gcongr
    exact hle.trans (le_max_left _ _)
  exact exists_addProduct hi hj hk (hmul.trans hprod) htotal

/-- So does the loop around it. -/
lemma exists_loop_j (hi : 0 ≤ i.val) (hb : res.b.val < int32Max) (hc : res.c.val < int32Max)
    (hprod : i.val * max res.b.val 0 * max res.c.val 0 ≤ int32Max)
    (hsum : res.total.val + triangle res.b.val * (i.val * triangle res.c.val) ≤ int32Max) :
    ∃ res', BoundedInt.forLoop DataS.b (fun j =>
        BoundedInt.forLoop DataS.c (fun k => addProduct i j k) one) one res = some res' ∧
      Adds (triangle res.b.val * (i.val * triangle res.c.val)) res res' := by
  have hpos : 0 ≤ i.val * triangle res.c.val := mul_nonneg hi (triangle_nonneg _)
  refine exists_forLoop (fun v r hr => hr.b_eq) hpos hb hsum ?_
  intro j v r hj hle hr htotal
  have hmul : i.val * j.val * max res.c.val 0 ≤ i.val * max res.b.val 0 * max res.c.val 0 := by
    gcongr
    exact hle.trans (le_max_left _ _)
  have hring : j.val * (i.val * triangle res.c.val) = triangle res.c.val * (i.val * j.val) := by
    ring
  rw [hring, ← hr.c_eq] at htotal
  rw [hring, ← hr.c_eq]
  rw [← hr.c_eq] at hmul hprod hc
  exact exists_loop_k hi (by omega) hc (hmul.trans hprod) htotal

/-- **No operation of a call overflows** when the new total is not too large. -/
theorem exists_calculate (ha : res.a.val < int32Max) (hb : res.b.val < int32Max)
    (hc : res.c.val < int32Max)
    (hsum : res.total.val + triangle res.a.val * triangle res.b.val * triangle res.c.val ≤
      int32Max) :
    ∃ res', calculate res = some res' := by
  have hlo := res.total.lo_le
  have hprod : max res.a.val 0 * max res.b.val 0 * max res.c.val 0 ≤ int32Max := by
    apply mul_max_le
    simp only [int32Min, int32Max] at hlo hsum
    omega
  have hpos : 0 ≤ triangle res.b.val * triangle res.c.val :=
    mul_nonneg (triangle_nonneg _) (triangle_nonneg _)
  rw [mul_assoc] at hsum
  obtain ⟨res', hres', -⟩ : ∃ res', calculate res = some res' ∧
      Adds (triangle res.a.val * (triangle res.b.val * triangle res.c.val)) res res' := by
    refine exists_forLoop (fun v r hr => hr.a_eq) hpos ha hsum ?_
    intro i v r hi hle hr htotal
    have hmul : i.val * max res.b.val 0 * max res.c.val 0 ≤
        max res.a.val 0 * max res.b.val 0 * max res.c.val 0 := by
      gcongr
      exact hle.trans (le_max_left _ _)
    have hring : i.val * (triangle res.b.val * triangle res.c.val) =
      triangle res.b.val * (i.val * triangle res.c.val) := by ring
    rw [hring, ← hr.b_eq, ← hr.c_eq] at htotal
    rw [hring, ← hr.b_eq, ← hr.c_eq]
    rw [← hr.b_eq, ← hr.c_eq] at hmul hprod
    rw [← hr.b_eq] at hb
    rw [← hr.c_eq] at hc
    exact exists_loop_j (by omega) hb hc (hmul.trans hprod) htotal
  exact ⟨res', hres'⟩

/-- **The call.** When the new total fits, no operation overflows, every loop ends, and the total is
what it should be. -/
theorem calculate_eq_some (ha : res.a.val < int32Max) (hb : res.b.val < int32Max)
    (hc : res.c.val < int32Max)
    (hlo : int32Min ≤
      res.total.val + triangle res.a.val * triangle res.b.val * triangle res.c.val)
    (hhi : res.total.val + triangle res.a.val * triangle res.b.val * triangle res.c.val ≤
      int32Max) :
    calculate res = some { res with
      total := ⟨res.total.val + triangle res.a.val * triangle res.b.val * triangle res.c.val,
        hlo, hhi⟩ } := by
  obtain ⟨res', hres'⟩ := exists_calculate ha hb hc hhi
  have hadds := adds_of_calculate hres'
  have htotal := hadds.total_eq
  rw [← mul_assoc] at htotal
  rw [hres', Option.some.injEq]
  exact DataS.ext hadds.a_eq hadds.b_eq hadds.c_eq (BoundedInt.ext htotal)

/-- With the bounds of `main`. -/
theorem calculate_main :
    calculate ⟨⟨10, by decide, by decide⟩, ⟨10, by decide, by decide⟩, ⟨10, by decide, by decide⟩,
        ⟨0, by decide, by decide⟩⟩ =
      some ⟨⟨10, by decide, by decide⟩, ⟨10, by decide, by decide⟩, ⟨10, by decide, by decide⟩,
        ⟨166375, by decide, by decide⟩⟩ :=
  calculate_eq_some (by decide) (by decide) (by decide) (by decide) (by decide)

/-- **An overflow.** When it does not fit, an operation overflows. -/
theorem calculate_eq_none
    (h : int32Max < res.total.val + triangle res.a.val * triangle res.b.val * triangle res.c.val) :
    calculate res = none := by
  cases hres : calculate res with
  | none => rfl
  | some res' =>
    have htotal := (adds_of_calculate hres).total_eq
    rw [← mul_assoc] at htotal
    have hle := res'.total.le_hi
    omega

end CData

end PosixIntro
