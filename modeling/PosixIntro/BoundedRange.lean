import PosixIntro.BoundedInt

set_option relaxedAutoImplicit false
set_option autoImplicit false

/-!
# Inclusive ranges of bounded integers

`for i in start..=n { body }` runs up to the greatest integer and never has to pass it, where
`for (i = start; i <= n; i++) body` overflows.

## Main definitions

* `BoundedInt.forRange` — the loop over an inclusive range.

## Main results

* `BoundedInt.forRange_total`, `BoundedInt.forRange_partial` — the invariant rules, for any bound.
* `BoundedInt.forLoop_hi` — the counting loop does not end well at the greatest bound.
-/

namespace PosixIntro

namespace BoundedInt

variable {lo hi : ℤ} {σ : Type*}

/-- `for i in i..=n { body }`: the counter is not advanced after the round of `n`. -/
def forRange (n : BoundedInt lo hi) (body : BoundedInt lo hi → σ → Option σ)
    (i : BoundedInt lo hi) (s : σ) : Option σ :=
  if i.val ≤ n.val then
    match body i s with
    | none => none
    | some s' =>
      if h : i.val < n.val then
        forRange n body ⟨i.val + 1, Int.le_add_one i.lo_le,
          le_trans (Int.add_one_le_of_lt h) n.le_hi⟩ s'
      else some s'
  else some s
termination_by (hi - i.val).toNat
decreasing_by
  have hle := n.le_hi
  omega

variable {n i : BoundedInt lo hi} {body : BoundedInt lo hi → σ → Option σ} {s t : σ}
  {I : ℤ → σ → Prop}

/-- **The invariant rule, with the end of the loop.** -/
theorem forRange_total
    (hbody : ∀ (i : BoundedInt lo hi) s, i.val ≤ n.val → I i.val s →
      ∃ s', body i s = some s' ∧ I (i.val + 1) s')
    (h : I i.val s) : ∃ t, forRange n body i s = some t ∧ I (max i.val (n.val + 1)) t := by
  fun_induction forRange n body i s with
  | case1 i s hle hnone =>
    obtain ⟨s', hs', -⟩ := hbody i s hle h
    exact absurd (hnone.symm.trans hs') nofun
  | case2 i s hle s' hs' hlt ih =>
    obtain ⟨s'', hs'', hI⟩ := hbody i s hle h
    obtain rfl : s' = s'' := Option.some.inj (hs'.symm.trans hs'')
    obtain ⟨t, ht, hIt⟩ := ih hI
    refine ⟨t, ht, ?_⟩
    rwa [show max i.val (n.val + 1) = max (i.val + 1) (n.val + 1) by omega]
  | case3 i s hle s' hs' hlt =>
    obtain ⟨s'', hs'', hI⟩ := hbody i s hle h
    obtain rfl : s' = s'' := Option.some.inj (hs'.symm.trans hs'')
    refine ⟨s', rfl, ?_⟩
    rwa [show max i.val (n.val + 1) = i.val + 1 by omega]
  | case4 i s hlt =>
    refine ⟨s, rfl, ?_⟩
    rwa [show max i.val (n.val + 1) = i.val by omega]

/-- **The invariant rule for a loop that has ended.** -/
theorem forRange_partial
    (hbody : ∀ (i : BoundedInt lo hi) s s', i.val ≤ n.val → I i.val s → body i s = some s' →
      I (i.val + 1) s')
    (h : I i.val s) (ht : forRange n body i s = some t) : I (max i.val (n.val + 1)) t := by
  fun_induction forRange n body i s with
  | case1 i s hle hnone => cases ht
  | case2 i s hle s' hs' hlt ih =>
    have hIt := ih (hbody i s s' hle h hs') ht
    rwa [show max i.val (n.val + 1) = max (i.val + 1) (n.val + 1) by omega]
  | case3 i s hle s' hs' hlt =>
    obtain rfl : s' = t := Option.some.inj ht
    have hI := hbody i s s' hle h hs'
    rwa [show max i.val (n.val + 1) = i.val + 1 by omega]
  | case4 i s hlt =>
    obtain rfl : s = t := Option.some.inj ht
    rwa [show max i.val (n.val + 1) = i.val by omega]

/-! ### The counting loop at the greatest bound -/

variable {m : σ → BoundedInt lo hi} {J : σ → Prop}

/-- **The counting loop does not end well** when its bound is and stays the greatest integer. -/
theorem forLoop_hi (hm : ∀ s, J s → (m s).val = hi)
    (hbody : ∀ i s s', J s → body i s = some s' → J s') (h : J s) :
    forLoop m body i s = none := by
  fun_induction forLoop m body i s with
  | case1 i s hle hnone => rfl
  | case2 i s hle s' hs' hnone => rfl
  | case3 i s hle s' hs' i' hi' ih => exact ih (hbody i s s' h hs')
  | case4 i s hlt => exact absurd ((hm s h).symm ▸ i.le_hi) hlt

/-- Nor does it if its first round does not. -/
lemma forLoop_of_body (hle : i.val ≤ (m s).val) (h : body i s = none) :
    forLoop m body i s = none := by
  rw [forLoop, if_pos hle, h]

/-- No round. -/
lemma forLoop_of_lt (hlt : (m s).val < i.val) : forLoop m body i s = some s := by
  rw [forLoop, if_neg (Int.not_le.mpr hlt)]

end BoundedInt

end PosixIntro
