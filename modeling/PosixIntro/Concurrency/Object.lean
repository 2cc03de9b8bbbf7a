import Mathlib.Data.List.Forall2

set_option relaxedAutoImplicit false
set_option autoImplicit false

/-!
# Sequential objects and their simulation

An object is a state and a call that every operation makes on it, with the result that the caller
sees. Two objects with different representations are compared over histories of operations.

## Main definitions

* `SeqObject`, `SeqObject.after`, `SeqObject.results` — an object, the state after a history and
  the results of its calls.

## Main results

* `SeqObject.simulation` — if every call keeps a relation between the states and gives related
  results, then every history does.
-/

namespace PosixIntro

/-- A sequential object: its initial state, and the next state and the result of every call. -/
structure SeqObject (σ ι ρ : Type*) where
  /-- The initial state. -/
  init : σ
  /-- The state after a call and the call's result. -/
  call : σ → ι → σ × ρ

namespace SeqObject

variable {σ σ' ι ι' ρ ρ' : Type*} (O : SeqObject σ ι ρ) (O' : SeqObject σ' ι' ρ')

/-- The state after a history of operations, starting from `s`. -/
def afterFrom (s : σ) (ops : List ι) : σ := ops.foldl (fun s i => (O.call s i).1) s

/-- The results of a history of operations, starting from `s`. -/
def resultsFrom : σ → List ι → List ρ
  | _, [] => []
  | s, i :: ops => (O.call s i).2 :: resultsFrom (O.call s i).1 ops

/-- The state after a history of operations. -/
def after (ops : List ι) : σ := O.afterFrom O.init ops

/-- The results of a history of operations. -/
def results (ops : List ι) : List ρ := O.resultsFrom O.init ops

variable {O O'}

/-- **The simulation rule.** Let every call of related operations on related states give related
states and related results. Then related histories lead from related states to related states,
and their results are related one by one.

**Proof sketch.** Induction on the histories, over all pairs of related states. -/
theorem simulation {R : σ → σ' → Prop} {J : ι → ι' → Prop} {Q : ρ → ρ' → Prop}
    (hcall : ∀ s s' i i', R s s' → J i i' →
      R (O.call s i).1 (O'.call s' i').1 ∧ Q (O.call s i).2 (O'.call s' i').2)
    {ops : List ι} {ops' : List ι'} (h : List.Forall₂ J ops ops') {s : σ} {s' : σ'}
    (hs : R s s') :
    R (O.afterFrom s ops) (O'.afterFrom s' ops') ∧
      List.Forall₂ Q (O.resultsFrom s ops) (O'.resultsFrom s' ops') := by
  induction h generalizing s s' with
  | nil => exact ⟨hs, .nil⟩
  | cons hi _ ih =>
    obtain ⟨hnext, hres⟩ := hcall _ _ _ _ hs hi
    obtain ⟨hend, hrest⟩ := ih hnext
    exact ⟨hend, .cons hres hrest⟩

end SeqObject

end PosixIntro
