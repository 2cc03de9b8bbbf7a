import Mathlib.Algebra.BigOperators.Intervals
import PosixIntro.Concurrency.Crew
import PosixIntro.ForLoop

set_option relaxedAutoImplicit false
set_option autoImplicit false

/-!
# The cached total (`cc_lab02_a.cc`)

`Data::get_total` calculates a sum when it is called for the first time and returns it from then on.

## Main definitions

* `Data`, `Data.calculate` — the object and its private function.
* `Data.next`, `Data.machine` — `get_total`, called by any number of threads any number of times.
* `Data.sum` — the sum that it should return.

## Main results

* `Data.calculate_eq`, `Data.calculate_eq_none` — what `calculate` adds to `total`, and when it does
  not end.

## Design

`calculate` is one step. It blocks its thread for ever when one of its loops does not end, which the
wrap-around of the counters makes possible. `returned` is history.
-/

namespace PosixIntro

/-- The object. -/
structure Data where
  a : UInt64
  b : UInt64
  c : UInt64
  total : UInt64
  isCached : Bool
  /-- The values that calls of `get_total` have returned. -/
  returned : List UInt64

namespace Data

/-- An object that has just been made. -/
def init (a b c : UInt64) : Data := ⟨a, b, c, 0, false, []⟩

/-- `calculate`: the value of `total` after it; `none` when it does not end. A loop that ends tests
its condition at most `UInt64.size` times. -/
def calculate (d : Data) : Option UInt64 :=
  forLoop (fun i =>
    forLoop (fun j =>
      forLoop (fun k total => some (total + i * j * k)) d.c UInt64.size 1)
      d.b UInt64.size 1)
    d.a UInt64.size 1 d.total

/-- The program points of a thread. -/
inductive Loc where
  /-- Between two calls. -/
  | idle
  /-- `if (!is_cached)`. -/
  | test
  /-- `calculate()`. -/
  | calculate
  /-- `is_cached = true`. -/
  | set
  /-- `return total`. -/
  | read
  deriving DecidableEq

/-- The next step of a thread. -/
def next (d : Data) : Loc → Option (Data × Loc)
  | .idle => some (d, .test)
  | .test => some (d, if d.isCached then .read else .calculate)
  | .calculate => d.calculate.map fun total => ({ d with total := total }, .set)
  | .set => some ({ d with isCached := true }, .read)
  | .read => some ({ d with returned := d.returned ++ [d.total] }, .idle)

/-- The threads `ι` on one object. -/
def crew (ι : Type*) (a b c : UInt64) : Crew ι Data Loc Unit where
  shared₀ := init a b c
  loc₀ _ := .idle
  next _ _ d l := d.next l

/-- A joint state of the threads. -/
abbrev State (ι : Type*) := Crew.State ι Data Loc

/-- The interleavings of the threads. -/
def machine (ι : Type*) [DecidableEq ι] (a b c : UInt64) : Machine (State ι) (ι × Unit) :=
  (crew ι a b c).machine

/-- The steps of a thread. -/
inductive Move (d : Data) : Loc → Data → Loc → Prop
  | call : Move d .idle d .test
  | hit (h : d.isCached = true) : Move d .test d .read
  | miss (h : d.isCached = false) : Move d .test d .calculate
  | calculate (total) (h : d.calculate = some total) :
      Move d .calculate { d with total := total } .set
  | set : Move d .set { d with isCached := true } .read
  | read : Move d .read { d with returned := d.returned ++ [d.total] } .idle

/-- **Every step is one of the moves.** -/
theorem next_eq_some {d d' : Data} {l l' : Loc} :
    d.next l = some (d', l') ↔ Move d l d' l' := by
  constructor
  · intro h
    cases l with
    | idle =>
      obtain ⟨rfl, rfl⟩ := by simpa [next] using h
      exact .call
    | test =>
      cases hc : d.isCached with
      | true =>
        obtain ⟨rfl, rfl⟩ := by simpa [next, hc] using h
        exact .hit hc
      | false =>
        obtain ⟨rfl, rfl⟩ := by simpa [next, hc] using h
        exact .miss hc
    | calculate =>
      obtain ⟨total, htotal, heq⟩ := Option.map_eq_some_iff.mp h
      obtain ⟨rfl, rfl⟩ := Prod.mk.inj heq
      exact .calculate total htotal
    | set =>
      obtain ⟨rfl, rfl⟩ := by simpa [next] using h
      exact .set
    | read =>
      obtain ⟨rfl, rfl⟩ := by simpa [next] using h
      exact .read
  · rintro (_ | h | h | ⟨total, h⟩ | _ | _)
    · rfl
    · simp [next, h]
    · simp [next, h]
    · simp [next, h]
    · rfl
    · rfl

/-! ### What `calculate` does -/

/-- The sum of `i * j * k`, modulo `2 ^ 64`. -/
def sum (a b c : UInt64) : UInt64 :=
  UInt64.ofNat (∑ i ∈ Finset.Icc 1 a.toNat, ∑ j ∈ Finset.Icc 1 b.toNat,
    ∑ k ∈ Finset.Icc 1 c.toNat, i * j * k)

/-- The loops of `calculate` that are entered end. -/
def LoopsEnd (a b c : UInt64) : Prop :=
  a ≠ sizeMax ∧ (a = 0 ∨ (b ≠ sizeMax ∧ (b = 0 ∨ c ≠ sizeMax)))

instance (a b c : UInt64) : Decidable (LoopsEnd a b c) :=
  inferInstanceAs (Decidable (_ ∧ _))

/-- A loop whose rounds add to a total adds the sum. -/
lemma forLoop_add {body : UInt64 → UInt64 → Option UInt64} {n : UInt64} {f : ℕ → ℕ}
    (hn : n ≠ sizeMax)
    (hbody : ∀ i t, 1 ≤ i → i ≤ n → body i t = some (t + UInt64.ofNat (f i.toNat))) (t : UInt64) :
    forLoop body n UInt64.size 1 t =
      some (t + UInt64.ofNat (∑ x ∈ Finset.Icc 1 n.toNat, f x)) := by
  have hlt := lt_size_of_ne hn
  have hone : (1 : UInt64).toNat = 1 := rfl
  have hinv : ∀ i s, i ≤ n →
      (1 ≤ i.toNat ∧ s = t + UInt64.ofNat (∑ y ∈ Finset.Ico 1 i.toNat, f y)) →
      ∃ s', body i s = some s' ∧ 1 ≤ i.toNat + 1 ∧
        s' = t + UInt64.ofNat (∑ y ∈ Finset.Ico 1 (i.toNat + 1), f y) := by
    rintro i s hle ⟨hpos, rfl⟩
    refine ⟨_, hbody i _ (UInt64.le_iff_toNat_le.mpr hpos) hle, Nat.le_succ_of_le hpos, ?_⟩
    rw [Finset.sum_Ico_succ_top hpos, UInt64.ofNat_add, UInt64.add_assoc]
  have hstart : 1 ≤ (1 : UInt64).toNat ∧
      t = t + UInt64.ofNat (∑ y ∈ Finset.Ico 1 (1 : UInt64).toNat, f y) := by
    rw [hone, Finset.Ico_self, Finset.sum_empty]
    exact ⟨Nat.le_refl 1, (UInt64.add_zero t).symm⟩
  have hloop : ∃ t', forLoop body n UInt64.size 1 t = some t' ∧ 1 ≤ n.toNat + 1 ∧
      t' = t + UInt64.ofNat (∑ y ∈ Finset.Ico 1 (n.toNat + 1), f y) :=
    forLoop_invariant (I := fun x s => 1 ≤ x ∧ s = t + UInt64.ofNat (∑ y ∈ Finset.Ico 1 x, f y))
      hn hinv hstart (by omega) (by omega)
  obtain ⟨t', ht', -, rfl⟩ := hloop
  exact ht'

/-- No round: nothing is added. -/
lemma forLoop_zero (body : UInt64 → UInt64 → Option UInt64) (t : UInt64) :
    forLoop body 0 UInt64.size 1 t = some t := by
  have hfalse : ¬ (1 : UInt64) ≤ 0 := by decide
  exact if_neg hfalse

/-- The innermost loop. -/
lemma forLoop_k {c : UInt64} (hc : c ≠ sizeMax) (i j t : UInt64) :
    forLoop (fun k total => some (total + i * j * k)) c UInt64.size 1 t =
      some (t + UInt64.ofNat (∑ k ∈ Finset.Icc 1 c.toNat, i.toNat * j.toNat * k)) := by
  refine forLoop_add hc (fun k t _ _ => ?_) t
  rw [UInt64.ofNat_mul, UInt64.ofNat_mul, UInt64.ofNat_toNat, UInt64.ofNat_toNat,
    UInt64.ofNat_toNat]

/-- The loop around it. -/
lemma forLoop_j {b c : UInt64} (h : b = 0 ∨ (b ≠ sizeMax ∧ c ≠ sizeMax)) (i t : UInt64) :
    forLoop (fun j => forLoop (fun k total => some (total + i * j * k)) c UInt64.size 1) b
        UInt64.size 1 t =
      some (t + UInt64.ofNat (∑ j ∈ Finset.Icc 1 b.toNat, ∑ k ∈ Finset.Icc 1 c.toNat,
        i.toNat * j * k)) := by
  rcases h with rfl | ⟨hb, hc⟩
  · rw [forLoop_zero]
    simp
  · exact forLoop_add (f := fun j => ∑ k ∈ Finset.Icc 1 c.toNat, i.toNat * j * k) hb
      (fun j t _ _ => forLoop_k hc i j t) t

/-- **What `calculate` does**, if its loops end: it adds the sum to `total`. -/
theorem calculate_eq {d : Data} (h : LoopsEnd d.a d.b d.c) :
    d.calculate = some (d.total + sum d.a d.b d.c) := by
  obtain ⟨ha, h⟩ := h
  by_cases h0 : d.a = 0
  · rw [calculate, h0, forLoop_zero, sum]
    simp
  · have hbc : d.b = 0 ∨ (d.b ≠ sizeMax ∧ d.c ≠ sizeMax) := by
      rcases h.resolve_left h0 with ⟨hb, hb0 | hc⟩
      · exact .inl hb0
      · exact .inr ⟨hb, hc⟩
    exact forLoop_add (f := fun i => ∑ j ∈ Finset.Icc 1 d.b.toNat,
      ∑ k ∈ Finset.Icc 1 d.c.toNat, i * j * k) ha (fun i t _ _ => forLoop_j hbc i t) d.total

/-- **When `calculate` does not end.** -/
theorem calculate_eq_none {d : Data} (h : ¬ LoopsEnd d.a d.b d.c) : d.calculate = none := by
  have hone : ∀ n : UInt64, n ≠ 0 → 1 ≤ n := by
    intro n hn
    have hpos : n.toNat ≠ 0 := fun heq => hn (UInt64.toNat_inj.mp heq)
    exact UInt64.le_iff_toNat_le.mpr (Nat.one_le_iff_ne_zero.mpr hpos)
  unfold LoopsEnd at h
  by_cases ha : d.a = sizeMax
  · rw [calculate, ha, forLoop_max]
  · have h' : ¬ (d.a = 0 ∨ (d.b ≠ sizeMax ∧ (d.b = 0 ∨ d.c ≠ sizeMax))) := fun h' => h ⟨ha, h'⟩
    obtain ⟨ha0, h'⟩ := not_or.mp h'
    refine forLoop_of_body (hone _ ha0) ?_
    by_cases hb : d.b = sizeMax
    · rw [hb, forLoop_max]
    · obtain ⟨hb0, hc⟩ := not_or.mp fun h'' => h' ⟨hb, h''⟩
      refine forLoop_of_body (hone _ hb0) ?_
      rw [not_not.mp hc, forLoop_max]

end Data

end PosixIntro
