import Mathlib.Algebra.BigOperators.Fin
import Mathlib.Algebra.Order.BigOperators.Group.Finset
import Mathlib.Data.Fintype.BigOperators
import Mathlib.Tactic.Common

set_option relaxedAutoImplicit false
set_option autoImplicit false

/-!
# Tallies over a family of threads

Conservation laws of concurrent programs count threads by where they are. A tally is the sum of
a weight over a finite family; when one member moves, the tally changes by that member's weight
only. The finite family is arbitrary, so a law stated with tallies holds for any number of
threads.

## Main definitions

* `tally w loc` — the sum of `w i (loc i)` over all members `i`.

## Main results

* `tally_update` — how a tally changes when one member moves.
* `exists_of_tally_pos`, `le_tally`, `eq_of_tally_le_one` — from a tally back to its members.
-/

namespace PosixIntro

variable {ι L : Type*} [Fintype ι]

/-- The sum of the weights of all members. -/
def tally (w : ι → L → ℕ) (loc : ι → L) : ℕ := ∑ i, w i (loc i)

/-- **How a tally changes when one member moves.** -/
theorem tally_update [DecidableEq ι] (w : ι → L → ℕ) (loc : ι → L) (i : ι) (l : L) :
    tally w (Function.update loc i l) + w i (loc i) = tally w loc + w i l := by
  have hrest : ∑ j ∈ Finset.univ.erase i, w j (Function.update loc i l j) =
      ∑ j ∈ Finset.univ.erase i, w j (loc j) := by
    refine Finset.sum_congr rfl fun j hj => ?_
    rw [Function.update_of_ne (Finset.ne_of_mem_erase hj)]
  have h₁ := Finset.add_sum_erase Finset.univ (fun j => w j (Function.update loc i l j))
    (Finset.mem_univ i)
  have h₂ := Finset.add_sum_erase Finset.univ (fun j => w j (loc j)) (Finset.mem_univ i)
  simp only [Function.update_self] at h₁
  unfold tally
  omega

/-- A member's weight is at most the tally. -/
lemma le_tally (w : ι → L → ℕ) (loc : ι → L) (i : ι) : w i (loc i) ≤ tally w loc :=
  Finset.single_le_sum (f := fun j => w j (loc j)) (fun _ _ => Nat.zero_le _)
    (Finset.mem_univ i)

/-- Two different members together weigh at most the tally. -/
lemma add_le_tally [DecidableEq ι] (w : ι → L → ℕ) (loc : ι → L) {i j : ι} (h : i ≠ j) :
    w i (loc i) + w j (loc j) ≤ tally w loc := by
  rw [tally, ← Finset.add_sum_erase Finset.univ (fun k => w k (loc k)) (Finset.mem_univ i)]
  refine Nat.add_le_add_left ?_ _
  exact Finset.single_le_sum (f := fun k => w k (loc k)) (fun _ _ => Nat.zero_le _)
    (Finset.mem_erase.mpr ⟨h.symm, Finset.mem_univ j⟩)

/-- A positive tally has a member of positive weight. -/
lemma exists_of_tally_pos {w : ι → L → ℕ} {loc : ι → L} (h : 0 < tally w loc) :
    ∃ i, 0 < w i (loc i) := by
  by_contra hne
  have hz : tally w loc = 0 :=
    Finset.sum_eq_zero fun i _ => Nat.eq_zero_of_not_pos fun hi => hne ⟨i, hi⟩
  omega

/-- A tally vanishes when every member's weight does. -/
lemma tally_eq_zero {w : ι → L → ℕ} {loc : ι → L} (h : ∀ i, w i (loc i) = 0) :
    tally w loc = 0 :=
  Finset.sum_eq_zero fun i _ => h i

/-- A tally of at most one has at most one member of positive weight. -/
lemma eq_of_tally_le_one {w : ι → L → ℕ} {loc : ι → L} (h : tally w loc ≤ 1) {i j : ι}
    (hi : 0 < w i (loc i)) (hj : 0 < w j (loc j)) : i = j := by
  classical
  by_contra hne
  have := add_le_tally w loc hne
  omega

/-- Tallies add up member by member. -/
lemma tally_add (w w' : ι → L → ℕ) (loc : ι → L) :
    tally (fun i l => w i l + w' i l) loc = tally w loc + tally w' loc :=
  Finset.sum_add_distrib

/-- A smaller weight gives a smaller tally. -/
lemma tally_le_tally {w w' : ι → L → ℕ} {loc : ι → L} (h : ∀ i, w i (loc i) ≤ w' i (loc i)) :
    tally w loc ≤ tally w' loc :=
  Finset.sum_le_sum fun i _ => h i

end PosixIntro
