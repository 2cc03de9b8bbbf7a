import PosixIntro.OddEven.RustModel

set_option relaxedAutoImplicit false
set_option autoImplicit false

/-!
# The C and the Rust odd/even counter print the same

Both programs count down to the same bound, the C program by a test before the post, the Rust
program by a test after it. So they are stuck in no state before the end, and at the end they have
printed the same lines under every schedule.

## Main definitions

* `COddEven.outcomes`, `RustOddEven.outcomes` — what the completed runs print.
* `COddEven.traces`, `RustOddEven.traces` — what all runs print.

## Main results

* `COddEven.counts`, `RustOddEven.counts` — what holds in every reachable state.
* `OddEven.same_outcome` — the two programs have one and the same outcome.
-/

namespace PosixIntro

/-! ### C -/

namespace COddEven

variable {N : ℕ}

/-- What the completed runs of the C program print. -/
def outcomes (N : ℕ) : Set (List Line) :=
  {out | ∃ s, (machine N).Reach s ∧ (∀ t, s.loc t = .returned) ∧ s.data.stdout = out}

/-- **The C program**: some thread can move until both have returned, the counter stays an
`int32_t`, and at the end `1, …, N` has been printed. -/
lemma counts (hN : 2 ≤ N) (hmax : N < 2 ^ 31 - 1) {s : Config Side Side Store Loc}
    (h : (machine N).Reach s) :
    ((∃ t, s.loc t ≠ .returned) → ∃ t, (program N).Enabled t s) ∧ s.data.counter < 2 ^ 31 ∧
      ((∀ t, s.loc t = .returned) → s.data.stdout = countUp line N) := by
  rw [machine, initSemaphores_eq] at h
  refine ⟨fun ⟨t, ht⟩ => ?_, ?_, fun hret => ?_⟩
  · exact (countdown N).exists_enabled hN h ⟨t, fun hc => ht (code_eq_none.mp hc)⟩
  · have hbound : s.data.counter - 1 ≤ N := ((countdown N).kept hN h).bound
    omega
  · exact ((countdown N).finished hN h fun t => code_eq_none.mpr (hret t)).2

/-- There are completed runs, and they all print `1, …, N`. -/
lemma outcomes_eq (hN : 2 ≤ N) (hmax : N < 2 ^ 31 - 1) : outcomes N = {countUp line N} := by
  ext out
  constructor
  · rintro ⟨s, hs, hret, rfl⟩
    exact (counts hN hmax hs).2.2 hret
  · rintro rfl
    obtain ⟨s, hs, hret⟩ := (countdown N).exists_returned hN
    rw [← initSemaphores_eq] at hs
    have hret' : ∀ t, s.loc t = .returned := fun t => code_eq_none.mp (hret t)
    exact ⟨s, hs, hret', (counts hN hmax hs).2.2 hret'⟩

/-- What the runs of the C program print, completed or not. -/
def traces (N : ℕ) : Set (List Line) :=
  {out | ∃ s, (machine N).Reach s ∧ s.data.stdout = out}

/-- At any time a beginning of `1, …, N` has been printed. -/
lemma traces_eq (hN : 2 ≤ N) : traces N = {out | ∃ k ≤ N, out = countUp line k} := by
  ext out
  rw [traces, machine, initSemaphores_eq]
  exact (countdown N).exists_out_iff hN

end COddEven

/-! ### Rust -/

namespace RustOddEven

variable {N : ℕ}

/-- What the completed runs of the Rust program print, without spurious wake-ups. -/
def outcomes (N : ℕ) : Set (List Line) :=
  {out | ∃ s, (machine N).ReachIf Rust.Notified s ∧ (∀ t, s.place t = .out .returned) ∧
    s.data.stdout = out}

lemma line_eq : line = COddEven.line := by
  funext t n
  cases t <;> rfl

/-- What a run over `semaphore.rs` does is a run over ideal semaphores. -/
lemma ideal_reach {s : Rust.State Side Side Store Loc}
    (h : (machine N).ReachIf Rust.Notified s) :
    ((program N).machine oddFirst).Reach (Rust.ideal initSemaphores s) := by
  rw [← idealStart_eq]
  exact Rust.ideal_reach h

/-- **The Rust program**: some thread can take a step until both have returned, `num` is far from
wrapping, and at the end `1, …, N` has been printed. -/
lemma counts (hN : 2 ≤ N) (hmax : N < 2 ^ 31 - 1) {s : Rust.State Side Side Store Loc}
    (h : (machine N).ReachIf Rust.Notified s) :
    ((∃ t, s.place t ≠ .out .returned) → Rust.CanStep (program N) initSemaphores s) ∧
      s.data.num < 2 ^ 31 ∧
      ((∀ t, s.place t = .out .returned) → s.data.stdout = countUp line N) := by
  have hideal := ideal_reach h
  refine ⟨fun ⟨t, ht⟩ => ?_, ?_, fun hret => ?_⟩
  · refine Rust.canStep_of_ideal inRange (fun u hu hrun => ?_) h ⟨t, fun l hl hc => ?_⟩
    · rw [idealStart_eq] at hu
      exact (countdown N).exists_enabled hN hu hrun
    · rw [hl, code_eq_none.mp hc] at ht
      exact ht rfl
  · have hbound : s.data.num - 1 ≤ N := ((countdown N).kept hN hideal).bound
    omega
  · exact ((countdown N).finished hN hideal fun t =>
      code_eq_none.mpr (Rust.ideal_loc_of_out (hret t))).2

/-- There are completed runs, and they all print `1, …, N`. -/
lemma outcomes_eq (hN : 2 ≤ N) (hmax : N < 2 ^ 31 - 1) : outcomes N = {countUp line N} := by
  ext out
  constructor
  · rintro ⟨s, hs, hret, rfl⟩
    exact (counts hN hmax hs).2.2 hret
  · rintro rfl
    obtain ⟨u, hu, hret⟩ := (countdown N).exists_returned hN
    rw [← idealStart_eq] at hu
    obtain ⟨s, hs, hset⟩ :=
      Rust.exists_settled inRange (handover N).retries (fun _ => rfl) hu
    have hret' : ∀ t, s.place t = .out .returned := fun t => by
      rw [hset.place t, code_eq_none.mp (hret t)]
    exact ⟨s, hs, hret', (counts hN hmax hs).2.2 hret'⟩

/-- What the runs of the Rust program print, completed or not, without spurious wake-ups. -/
def traces (N : ℕ) : Set (List Line) :=
  {out | ∃ s, (machine N).ReachIf Rust.Notified s ∧ s.data.stdout = out}

/-- At any time a beginning of `1, …, N` has been printed. -/
lemma traces_eq (hN : 2 ≤ N) : traces N = {out | ∃ k ≤ N, out = countUp line k} := by
  ext out
  refine Iff.trans ?_ ((countdown N).exists_out_iff hN)
  constructor
  · rintro ⟨s, hs, rfl⟩
    exact ⟨_, ideal_reach hs, rfl⟩
  · rintro ⟨u, hu, rfl⟩
    rw [← idealStart_eq] at hu
    obtain ⟨s, hs, hset⟩ :=
      Rust.exists_settled inRange (handover N).retries (fun _ => rfl) hu
    refine ⟨s, hs, ?_⟩
    rw [← hset.ideal]
    rfl

end RustOddEven

/-! ### Both -/

namespace OddEven

/-- **The two programs have one and the same outcome under every schedule.** In no reachable state
but the last is either of them stuck, and every completed run of either prints `1, …, N`, the odd
numbers by the odd thread and the even numbers by the even thread. So the two have equal traces. -/
theorem same_outcome (N : ℕ) (hN : 2 ≤ N) (hmax : N < 2 ^ 31 - 1) :
    (∀ s, (COddEven.machine N).Reach s →
      ((∃ t, s.loc t ≠ .returned) → ∃ t, (COddEven.program N).Enabled t s) ∧
        s.data.counter < 2 ^ 31 ∧
        ((∀ t, s.loc t = .returned) → s.data.stdout = countUp COddEven.line N)) ∧
      (∀ s, (RustOddEven.machine N).ReachIf Rust.Notified s →
        ((∃ t, s.place t ≠ .out .returned) →
          Rust.CanStep (RustOddEven.program N) RustOddEven.initSemaphores s) ∧
        s.data.num < 2 ^ 31 ∧
        ((∀ t, s.place t = .out .returned) → s.data.stdout = countUp RustOddEven.line N)) ∧
      COddEven.outcomes N = {countUp COddEven.line N} ∧
      RustOddEven.outcomes N = COddEven.outcomes N ∧ RustOddEven.traces N = COddEven.traces N := by
  refine ⟨fun s hs => COddEven.counts hN hmax hs, fun s hs => RustOddEven.counts hN hmax hs,
    COddEven.outcomes_eq hN hmax, ?_, ?_⟩
  · rw [RustOddEven.outcomes_eq hN hmax, COddEven.outcomes_eq hN hmax, RustOddEven.line_eq]
  · rw [RustOddEven.traces_eq hN, COddEven.traces_eq hN, RustOddEven.line_eq]

/-- The bound of both programs. -/
theorem same_outcome_main : RustOddEven.outcomes 30 = COddEven.outcomes 30 :=
  (same_outcome 30 (by decide) (by decide)).2.2.2.1

end OddEven

end PosixIntro
