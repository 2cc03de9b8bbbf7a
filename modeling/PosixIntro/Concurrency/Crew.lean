import PosixIntro.Concurrency.Machine
import PosixIntro.Concurrency.Tally

set_option relaxedAutoImplicit false
set_option autoImplicit false

/-!
# Threads over a shared memory

A family of threads, of any size, that read and write a shared state in atomic steps. How far a
thread has come is its location. A step that is not possible in a state blocks.

## Main definitions

* `Crew`, `Crew.State`, `Crew.machine` — the threads, their joint states, their interleavings.

## Main results

* `Crew.step_iff` — everything one step can do.
* `Crew.noninterference` — the rule for what holds of each thread and the shared state: it holds at
  the start, the thread's own steps keep it, and no step of another thread disturbs it.
* `Crew.length_le_tally` — a rank of locations that every step lowers bounds the length of runs.
-/

namespace PosixIntro

/-- Threads over a shared state. A label of type `χ` resolves what is not the thread's choice. -/
structure Crew (ι σ L χ : Type*) where
  /-- The shared state at the start. -/
  shared₀ : σ
  /-- The locations at the start. -/
  loc₀ : ι → L
  /-- A step of one thread; `none` when it blocks or has returned. -/
  next : ι → χ → σ → L → Option (σ × L)

/-- A joint state. -/
@[ext]
structure Crew.State (ι σ L : Type*) where
  /-- The shared state. -/
  shared : σ
  /-- The location of every thread. -/
  loc : ι → L

namespace Crew

variable {ι σ L χ : Type*} [DecidableEq ι]

/-- The interleavings of the threads. -/
def machine (P : Crew ι σ L χ) : Machine (State ι σ L) (ι × χ) where
  init := ⟨P.shared₀, P.loc₀⟩
  step s x :=
    (P.next x.1 x.2 s.shared (s.loc x.1)).map fun r => ⟨r.1, Function.update s.loc x.1 r.2⟩

variable {P : Crew ι σ L χ}

/-- **Everything one step can do.** -/
theorem step_iff {s s' : State ι σ L} {i : ι} {c : χ} :
    P.machine.step s (i, c) = some s' ↔
      ∃ d l, P.next i c s.shared (s.loc i) = some (d, l) ∧
        s' = ⟨d, Function.update s.loc i l⟩ := by
  constructor
  · intro h
    obtain ⟨⟨d, l⟩, hn, rfl⟩ := Option.map_eq_some_iff.mp h
    exact ⟨d, l, hn, rfl⟩
  · rintro ⟨d, l, hn, rfl⟩
    simp [machine, hn]

/-- A state without steps is one in which no thread can move. -/
lemma next_eq_none {s : State ι σ L} {i : ι} {c : χ} (h : P.machine.step s (i, c) = none) :
    P.next i c s.shared (s.loc i) = none :=
  Option.map_eq_none_iff.mp h

/-- **The rule of non-interference.** What holds of every thread at the start, is kept by the
thread's own steps and is not disturbed by the steps of the others holds of every thread in every
state reached. The steps may be those of runs with a condition `ok`. -/
theorem noninterference {ok : State ι σ L → ι × χ → Prop} {I : ι → σ → L → Prop}
    (h₀ : ∀ i, I i P.shared₀ (P.loc₀ i))
    (hstep : ∀ i c d loc d' l, P.machine.ReachIf ok ⟨d, loc⟩ → ok ⟨d, loc⟩ (i, c) →
      (∀ j, I j d (loc j)) → P.next i c d (loc i) = some (d', l) →
      I i d' l ∧ ∀ j, j ≠ i → I j d' (loc j))
    {s : State ι σ L} (h : P.machine.ReachIf ok s) (i : ι) : I i s.shared (s.loc i) := by
  refine h.invariant (I := fun s => ∀ i, I i s.shared (s.loc i)) h₀
    (fun s x s' hr ih hok hs => ?_) i
  obtain ⟨i, c⟩ := x
  obtain ⟨d, l, hn, rfl⟩ := step_iff.mp hs
  obtain ⟨hself, hothers⟩ := hstep i c s.shared s.loc d l hr hok ih hn
  intro j
  by_cases hji : j = i
  · subst hji
    simpa using hself
  · simpa [Function.update_of_ne hji] using hothers j hji

/-- **The termination rule for threads.** If every step of a reached state lowers the rank of the
thread that moves, no run is longer than the ranks at the start together. -/
theorem length_le_tally [Fintype ι] (rank : ι → L → ℕ)
    (hstep : ∀ i c s d l, P.machine.Reach s → P.next i c s.shared (s.loc i) = some (d, l) →
      rank i l < rank i (s.loc i))
    {tr : List (State ι σ L × (ι × χ))} {s : State ι σ L} (hp : P.machine.Path tr s) :
    tr.length ≤ tally rank P.loc₀ := by
  have hlen := @Machine.Path.length_add_le _ _ P.machine (fun _ _ => True)
    (fun s => tally rank s.loc) ?_ _ _ hp fun _ _ => trivial
  · exact Nat.le_of_add_right_le hlen
  · rintro s ⟨i, c⟩ s' hr - hs
    obtain ⟨d, l, hn, rfl⟩ := step_iff.mp hs
    have hlt := hstep i c s d l hr hn
    have hup := tally_update rank s.loc i l
    show tally rank (Function.update s.loc i l) < tally rank s.loc
    omega

end Crew

end PosixIntro
