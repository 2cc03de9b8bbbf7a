import Mathlib.Logic.Function.Iterate
import Mathlib.Tactic.Common

set_option relaxedAutoImplicit false
set_option autoImplicit false

/-!
# Loops that test at their end

`do { body } while (!stop)`, where every round has an output.

## Main definitions

* `DoWhile` — such a loop.
* `DoWhile.Emits` — the loop ends, with a list of outputs.
* `DoWhile.EndsAt`, `DoWhile.output` — the round in which it ends and the outputs of the first
  rounds, as functions of the state in which it is entered.

## Main results

* `DoWhile.emits_iff` — the two descriptions agree.
* `DoWhile.exists_emits_iff` — the loop ends when the test holds after some round.
-/

namespace PosixIntro

/-- A loop `do { body } while (!stop)` on the states `σ` with the outputs `β`. -/
structure DoWhile (σ β : Type*) where
  body : σ → σ
  out : σ → β
  stop : σ → Prop

namespace DoWhile

variable {σ β : Type*} (L : DoWhile σ β)

/-- The loop, entered in a state, ends after it has had these outputs. -/
inductive Emits : σ → List β → Prop
  | last {s : σ} (h : L.stop (L.body s)) : Emits s [L.out (L.body s)]
  | more {s : σ} {ts : List β} (h : ¬ L.stop (L.body s)) (ht : Emits (L.body s) ts) :
      Emits s (L.out (L.body s) :: ts)

/-- It ends after `k + 1` rounds. -/
def EndsAt (s : σ) (k : ℕ) : Prop :=
  L.stop (L.body^[k + 1] s) ∧ ∀ i < k, ¬ L.stop (L.body^[i + 1] s)

/-- The outputs of the first `n` rounds. -/
def output (s : σ) (n : ℕ) : List β := (List.range n).map fun i => L.out (L.body^[i + 1] s)

variable {L} {s : σ} {ts : List β} {k n : ℕ}

lemma output_succ : L.output s (n + 1) = L.output s n ++ [L.out (L.body^[n + 1] s)] := by
  rw [output, output, List.range_succ, List.map_append, List.map_singleton]

/-- The outputs after the first round are those of the loop that is entered then. -/
lemma output_cons : L.output s (n + 1) = L.out (L.body s) :: L.output (L.body s) n := by
  rw [output, output, List.range_succ_eq_map, List.map_cons, List.map_map]
  rfl

/-- A loop that ends in its first round. -/
lemma endsAt_zero : L.EndsAt s 0 ↔ L.stop (L.body s) :=
  ⟨fun h => h.1, fun h => ⟨h, fun _ hi => absurd hi (Nat.not_lt_zero _)⟩⟩

/-- A loop that ends later. -/
lemma endsAt_succ : L.EndsAt s (k + 1) ↔ ¬ L.stop (L.body s) ∧ L.EndsAt (L.body s) k := by
  constructor
  · rintro ⟨hstop, hbefore⟩
    exact ⟨hbefore 0 (Nat.succ_pos k), hstop, fun i hi => hbefore (i + 1) (Nat.succ_lt_succ hi)⟩
  · rintro ⟨hfirst, hstop, hbefore⟩
    refine ⟨hstop, fun i hi => ?_⟩
    cases i with
    | zero => exact hfirst
    | succ i => exact hbefore i (Nat.lt_of_succ_lt_succ hi)

/-- **The outputs of a loop** are those of its rounds up to the first in which the test holds. -/
theorem emits_iff : L.Emits s ts ↔ ∃ k, L.EndsAt s k ∧ ts = L.output s (k + 1) := by
  constructor
  · intro h
    induction h with
    | last h => exact ⟨0, endsAt_zero.mpr h, rfl⟩
    | more h _ ih =>
      obtain ⟨k, hk, rfl⟩ := ih
      exact ⟨k + 1, endsAt_succ.mpr ⟨h, hk⟩, output_cons.symm⟩
  · rintro ⟨k, hk, rfl⟩
    induction k generalizing s with
    | zero => exact .last (endsAt_zero.mp hk)
    | succ k ih =>
      obtain ⟨hfirst, hk⟩ := endsAt_succ.mp hk
      rw [output_cons]
      exact .more hfirst (ih hk)

/-- The loop ends in its first round. -/
lemma emits_of_stop (h : L.stop (L.body s)) : L.Emits s ts ↔ ts = [L.out (L.body s)] := by
  constructor
  · rintro (_ | ⟨hnot, -⟩)
    · rfl
    · exact absurd h hnot
  · rintro rfl
    exact .last h

/-- The loop goes on after its first round. -/
lemma emits_of_not_stop (h : ¬ L.stop (L.body s)) :
    L.Emits s ts ↔ ∃ ts', ts = L.out (L.body s) :: ts' ∧ L.Emits (L.body s) ts' := by
  constructor
  · rintro (hstop | ⟨-, ht⟩)
    · exact absurd hstop h
    · exact ⟨_, rfl, ht⟩
  · rintro ⟨ts', rfl, ht⟩
    exact .more h ht

/-- A loop that ends has had an output. -/
lemma Emits.exists_cons (h : L.Emits s ts) : ∃ ts', ts = L.out (L.body s) :: ts' := by
  cases h with
  | last => exact ⟨_, rfl⟩
  | more => exact ⟨_, rfl⟩

/-- The loop ends in its first round or later. -/
lemma exists_emits_step :
    (∃ ts, L.Emits s ts) ↔ L.stop (L.body s) ∨ ∃ ts, L.Emits (L.body s) ts := by
  constructor
  · rintro ⟨_, h | ⟨-, ht⟩⟩
    · exact .inl h
    · exact .inr ⟨_, ht⟩
  · intro h
    by_cases hstop : L.stop (L.body s)
    · exact ⟨_, .last hstop⟩
    · obtain ⟨ts, ht⟩ := h.resolve_left hstop
      exact ⟨_, .more hstop ht⟩

/-- **When a loop ends**: the test holds after some round. -/
theorem exists_emits_iff : (∃ ts, L.Emits s ts) ↔ ∃ k, L.stop (L.body^[k + 1] s) := by
  constructor
  · rintro ⟨ts, h⟩
    obtain ⟨k, hk, -⟩ := emits_iff.mp h
    exact ⟨k, hk.1⟩
  · rintro ⟨k, hk⟩
    induction k generalizing s with
    | zero => exact exists_emits_step.mpr (.inl hk)
    | succ k ih => exact exists_emits_step.mpr (.inr (ih hk))

/-- A loop does not end if its rounds keep a property that excludes the test. -/
theorem not_emits {I : σ → Prop} (hI : ∀ s, I s → I (L.body s) ∧ ¬ L.stop (L.body s)) (h : I s) :
    ¬ L.Emits s ts := by
  intro hts
  induction hts with
  | last hstop => exact (hI _ h).2 hstop
  | more _ _ ih => exact ih (hI _ h).1

end DoWhile

end PosixIntro
