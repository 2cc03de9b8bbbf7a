import PosixIntro.Concurrency.Joining
import PosixIntro.RustSemaphore.Progress

set_option relaxedAutoImplicit false
set_option autoImplicit false

/-!
# Fork and join over `semaphore.rs`

The threads of `Concurrency.ForkJoin`, when the lock is a `Semaphore::new(1)` of `semaphore.rs`. As
long as no thread is woken spuriously, they do what they do over a semaphore of the operating system,
no call panics, and no schedule blocks them.

## Main definitions

* `forkJoin` — the threads over `semaphore.rs`.
* `work` — a bound on the statements that a thread has still to execute, those of the calls of `wait`
  and `post` included.

## Main results

* `forkJoin_reach` — the threads refine those over a semaphore of the operating system.
* `forkJoin_not_panicked`, `forkJoin_canStep` — no call panics, and some thread can go on while some
  thread has not returned.
* `forkJoin_length_le` — every run ends.
-/

namespace PosixIntro

namespace Rust

variable {ι A D : Type*} [Fintype ι] [DecidableEq ι] {F : ForkJoin ι A D}

/-- The threads over one `Semaphore::new(1)`. -/
def forkJoin (F : ForkJoin ι A D) :
    Machine (State ι Unit (Shared ι A D) (Spot ι A)) (Label ι Unit) :=
  machine F.program fun _ => 1

/-- The state over a semaphore of the operating system that a state stands for. -/
def atomic (s : State ι Unit (Shared ι A D) (Spot ι A)) :
    Config ι Unit (Shared ι A D) (Spot ι A) := ideal (fun _ => 1) s

variable {s : State ι Unit (Shared ι A D) (Spot ι A)}

/-- **Refinement.** -/
theorem forkJoin_reach (h : (forkJoin F).ReachIf Notified s) : F.machine.Reach (atomic s) :=
  ideal_reach h

/-- The lock and the number of threads stay in the range of `i32`. -/
lemma forkJoin_inRange (hcard : Fintype.card ι ≤ 2 ^ 31) : InRange F.program fun _ => 1 := by
  refine ⟨fun _ => by decide, fun t ht x => ?_, fun t ht x => ?_⟩
  · obtain ⟨done, cur, hser⟩ := ForkJoin.serializable (F := F) ht
    have hlock : t.sem x ≤ 1 := by
      rw [show x = () from rfl, hser.lock]
      split_ifs <;> omega
    unfold i32Max
    omega
  · refine le_trans ?_ hcard
    have hle : tally (waitsAt F.program x) t.loc ≤ tally (fun _ _ => 1) t.loc :=
      tally_le_tally fun i => by
        unfold waitsAt
        split
        · split_ifs <;> omega
        · omega
    simpa [tally] using hle

/-- **No call panics.** -/
theorem forkJoin_not_panicked (hcard : Fintype.card ι ≤ 2 ^ 31)
    (h : (forkJoin F).ReachIf Notified s) (i : ι) (l : Spot ι A) : s.place i ≠ .panicked l :=
  (not_panicked (forkJoin_inRange hcard) h).2 i l

omit [Fintype ι] in
/-- A thread without a statement has returned. -/
lemma code_eq_none {i : ι} {l : Spot ι A} (h : F.program.code i l = none) : l = .gone := by
  match l with
  | .gone => rfl
  | .fresh _ | .out [] | .out (.free _ :: _) | .out (.guarded _ :: _) | .out (.spawn _ :: _)
  | .out (.join _ :: _) | .inside [] _ | .inside (_ :: _) _ => cases h

/-- **Progress.** While some thread has not returned, some thread can go on. -/
theorem forkJoin_canStep (hF : F.Forked) (hcard : Fintype.card ι ≤ 2 ^ 31)
    (h : (forkJoin F).ReachIf Notified s) (hne : ∃ i, s.place i ≠ .out .gone) :
    CanStep F.program (fun _ => 1) s := by
  obtain ⟨i, hi⟩ := hne
  refine canStep_of_ideal (forkJoin_inRange hcard) (fun t ht hlive => ?_) h ⟨i, fun l hl hc => ?_⟩
  · obtain ⟨j, hj⟩ := hlive
    refine ForkJoin.no_deadlock hF ht ⟨j, fun hgone => hj ?_⟩
    rw [hgone]
    rfl
  · rw [code_eq_none hc] at hl
    exact hi hl

/-! ### The number of steps -/

/-- The statements of `wait` that are left. -/
def waitRank : WaitPoint → ℕ
  | .lock => 7
  | .decrement => 6
  | .park => 5
  | .parked => 4
  | .relock => 3
  | .leave => 1

/-- The statements of `post` that are left. -/
def postRank : PostPoint → ℕ
  | .lock => 4
  | .increment => 3
  | .notify => 2
  | .leave => 1

/-- A bound on the statements that a thread has still to execute. A statement of the program
comes to at most eight, with those of the call that it makes. -/
def work : Place Unit (Spot ι A) → ℕ
  | .out l => 8 * ForkJoin.size l
  | .wait _ _ next p => 8 * ForkJoin.size next + waitRank p
  | .post _ _ next p => 8 * ForkJoin.size next + postRank p
  | .panicked _ => 0

omit [Fintype ι] in
/-- A statement of the program leaves one statement less. -/
lemma size_of_code {i : ι} {l l' : Spot ι A} {st : Stmt Unit Unit (Shared ι A D) (Spot ι A)}
    (hst : F.program.code i l = some st) {c : Unit} {sem' : Unit → ℕ} {d d' : Shared ι A D}
    (hx : st.exec c (fun _ => 1) d = some (sem', d', l')) : ForkJoin.size l' + 1 = ForkJoin.size l :=
  (ForkJoin.move_of_exec hst hx).size

omit [Fintype ι] in
/-- Every move of a thread does some of its work. -/
lemma Move.work_lt {i : ι} {asleep : ℕ} {m m' : Semaphore} {pl pl' : Place Unit (Spot ι A)}
    {x : Unit} (h : Move F.program i x asleep m pl m' pl') (d : Shared ι A D) :
    work pl' < work pl := by
  cases h with
  | @callWait l next intr _ hc =>
    have := size_of_code hc (c := ()) (d := d) rfl
    simp only [work, waitRank]
    omega
  | @callPost l next _ hc =>
    have := size_of_code hc (c := ()) (d := d) rfl
    simp only [work, postRank]
    omega
  | _ => simp [work, waitRank, postRank]

/-- The work that all threads have still to do. -/
def workLeft (s : State ι Unit (Shared ι A D) (Spot ι A)) : ℕ := tally (fun _ => work) s.place

/-- A thread that goes on does some of its work. -/
lemma tally_work_lt (place : ι → Place Unit (Spot ι A)) {i : ι} {pl : Place Unit (Spot ι A)}
    (h : work pl < work (place i)) :
    tally (fun _ => work) (Function.update place i pl) < tally (fun _ => work) place := by
  have := tally_update (fun _ => work) place i pl
  omega

/-- Every step does some work. -/
lemma workLeft_step {s' : State ι Unit (Shared ι A D) (Spot ι A)} {a : Label ι Unit}
    (hs : (forkJoin F).step s a = some s') : workLeft s' < workLeft s := by
  rcases step_cases hs with ⟨i, c, x, m, pl, -, hm, rfl⟩ |
    ⟨i, c, l, f, d, l', -, hl, hst, hf, rfl⟩ | ⟨i, j, x, l, next, l', next', -, hi, hj, rfl⟩ |
    ⟨j, x, l, next, -, hj, rfl⟩
  · exact tally_work_lt _ (hm.work_lt s.data)
  · refine tally_work_lt _ ?_
    have := size_of_code hst (show (Stmt.act f).exec c (fun _ => 1) s.data =
      some (fun _ => 1, d, l') by simp [Stmt.exec, hf])
    rw [hl]
    simp only [work]
    omega
  · have hji : j ≠ i := by
      rintro rfl
      rw [hi] at hj
      cases hj
    refine lt_trans (tally_work_lt (Function.update s.place i (.post x l next .leave))
      (i := j) ?_) (tally_work_lt _ ?_)
    · rw [Function.update_of_ne hji, hj]
      simp [work, waitRank]
    · rw [hi]
      simp [work, postRank]
  · refine tally_work_lt _ ?_
    rw [hj]
    simp [work, waitRank]

/-- **Every run ends**, whether or not threads are woken spuriously. -/
theorem forkJoin_length_le {tr : List (State ι Unit (Shared ι A D) (Spot ι A) × Label ι Unit)}
    (h : (forkJoin F).Path tr s) : tr.length ≤ 8 * ForkJoin.left F.machine.init := by
  have hstep : ∀ t a t', (forkJoin F).Reach t → True → (forkJoin F).step t a = some t' →
      workLeft t' < workLeft t := fun _ _ _ _ _ hs => workLeft_step hs
  have hle := h.length_add_le workLeft hstep fun _ _ => trivial
  have hinit : workLeft (forkJoin F).init = 8 * ForkJoin.left F.machine.init := by
    simp [workLeft, ForkJoin.left, tally, forkJoin, machine, work, ForkJoin.machine,
      Program.machine, Finset.mul_sum]
  omega

end Rust

end PosixIntro
