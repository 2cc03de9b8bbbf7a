import PosixIntro.RustSemaphore.Refinement

set_option relaxedAutoImplicit false
set_option autoImplicit false

/-!
# Progress over `semaphore.rs`

What the refinement of `RustSemaphore.Refinement` does not say: that a program over `semaphore.rs`
gets stuck only where the ideal program does, and that it has all the runs of the ideal program.

## Main definitions

* `CanStep` — some thread can take a step, without any spurious wake-up.
* `Settled` — no thread is inside a call, and the semaphores have their ideal values.

## Main results

* `ideal_stuck` — when no thread can take a step, none can in the ideal program.
* `exists_settled` — every state that the ideal program reaches is reached over `semaphore.rs`.
-/

namespace PosixIntro

namespace Rust

variable {ι S χ D L : Type*} [Fintype ι] [DecidableEq ι] [DecidableEq S]
  {P : Program ι S χ D L} {v : S → ℤ}

/-- Some thread can take a step, without any spurious wake-up. -/
def CanStep (P : Program ι S χ D L) (v : S → ℤ) (s : State ι S D L) : Prop :=
  ∃ a s', Notified s a ∧ (machine P v).step s a = some s'

/-! ### The steps, one by one -/

section Steps

variable {s : State ι S D L} {i : ι} {c : χ}

lemma step_callWait {x : S} {l next intr : L} (hl : s.place i = .out l)
    (hc : P.code i l = some (.wait x next intr)) :
    (machine P v).step s (.run i c) = some (s.move i x (s.sem x) (.wait x l next .lock)) := by
  simp only [machine, hl, hc]

lemma step_callPost {x : S} {l next : L} (hl : s.place i = .out l)
    (hc : P.code i l = some (.post x next)) :
    (machine P v).step s (.run i c) = some (s.move i x (s.sem x).start (.post x l next .lock)) := by
  simp only [machine, hl, hc]

lemma step_act {l l' : L} {f : χ → D → Option (D × L)} {d : D} (hl : s.place i = .out l)
    (hc : P.code i l = some (.act f)) (hf : f c s.data = some (d, l')) :
    (machine P v).step s (.run i c) =
      some { s with data := d, place := Function.update s.place i (.out l') } := by
  simp only [machine, hl, hc, hf, Option.map_some]

lemma step_wait {x : S} {l next : L} {p : WaitPoint} {r : Semaphore × Outcome WaitPoint}
    (hl : s.place i = .wait x l next p) (hr : (s.sem x).wait p = some r) :
    (machine P v).step s (.run i c) = some (s.move i x r.1 (.afterWait x l next p r.2)) := by
  simp only [machine, hl, hr, Option.map_some]

lemma step_post {x : S} {l next : L} {p : PostPoint} {r : Semaphore × Outcome PostPoint}
    (hl : s.place i = .post x l next p) (hr : (s.sem x).post p = some r)
    (hn : p = .notify → s.waiting x .parked = 0) :
    (machine P v).step s (.run i c) = some (s.move i x r.1 (.afterPost x l next r.2)) := by
  have hn' : ¬ (p = .notify ∧ s.waiting x .parked ≠ 0) := fun h => h.2 (hn h.1)
  simp only [machine, hl, if_neg hn', hr, Option.map_some]

lemma step_notify {j : ι} {x : S} {l next l' next' : L} (hi : s.place i = .post x l next .notify)
    (hj : s.place j = .wait x l' next' .parked) :
    (machine P v).step s (.notify i j) =
      some ((s.move i x (s.sem x) (.post x l next .leave)).move j x (s.sem x).grant
        (.wait x l' next' .relock)) := by
  simp only [machine, hi, hj, if_true]

end Steps

omit [Fintype ι] [DecidableEq ι] [DecidableEq S] in
/-- A lock of a mutex that is not locked does not block. -/
lemma Semaphore.lock_of_free {π : Type*} {m : Semaphore} (h : m.locked = false) (next : π) :
    ∃ r, m.lock next = some r := by
  unfold Semaphore.lock
  rw [if_neg (by rw [h]; simp)]
  split <;> exact ⟨_, rfl⟩

/-! ### Where threads can be when none can take a step -/

/-- Only a locked mutex and a park block a call of `wait`. -/
lemma canStep_of_wait [Inhabited χ] {s : State ι S D L} {i : ι} {x : S} {l next : L}
    {p : WaitPoint} (hl : s.place i = .wait x l next p) (hp : p ≠ .parked)
    (hfree : p = .lock ∨ p = .relock → (s.sem x).locked = false) : CanStep P v s := by
  suffices ∃ r, (s.sem x).wait p = some r by
    obtain ⟨r, hr⟩ := this
    exact ⟨.run i default, _, fun j => by simp, step_wait hl hr⟩
  cases p with
  | lock => exact Semaphore.lock_of_free (hfree (.inl rfl)) _
  | relock => exact Semaphore.lock_of_free (hfree (.inr rfl)) _
  | parked => exact absurd rfl hp
  | decrement =>
    unfold Semaphore.wait
    split_ifs <;> exact ⟨_, rfl⟩
  | _ => exact ⟨_, rfl⟩

/-- Only a locked mutex blocks a call of `post`: `notify_one` selects a thread if there is one. -/
lemma canStep_of_post [Inhabited χ] {s : State ι S D L} {i : ι} {x : S} {l next : L}
    {p : PostPoint} (hl : s.place i = .post x l next p)
    (hfree : p = .lock → (s.sem x).locked = false) : CanStep P v s := by
  by_cases hn : p = .notify ∧ s.waiting x .parked ≠ 0
  · obtain ⟨rfl, hpos⟩ := hn
    obtain ⟨j, hj⟩ := exists_of_tally_pos (Nat.pos_of_ne_zero hpos)
    cases hpl : s.place j with
    | wait y l' next' q =>
      rw [hpl] at hj
      obtain ⟨rfl, rfl⟩ : y = x ∧ q = .parked := by
        by_contra hne
        simp [Place.waits, hne] at hj
      exact ⟨.notify i j, _, fun k => by simp, step_notify hl hpl⟩
    | _ =>
      rw [hpl] at hj
      cases hj
  · suffices ∃ r, (s.sem x).post p = some r by
      obtain ⟨r, hr⟩ := this
      exact ⟨.run i default, _, fun j => by simp,
        step_post hl hr fun hp => not_not.mp fun hne => hn ⟨hp, hne⟩⟩
    cases p with
    | lock => exact Semaphore.lock_of_free (hfree rfl) _
    | increment =>
      simp only [Semaphore.post]
      split <;> exact ⟨_, rfl⟩
    | _ => exact ⟨_, rfl⟩

/-- When no thread can take a step every mutex is free: the thread that holds it could. -/
lemma free_of_not_canStep [Inhabited χ] {s : State ι S D L} {x : S} (h : Laws (v x) x s)
    (hno : ¬ CanStep P v s) : (s.sem x).locked = false := by
  by_contra hl
  have hpos : 0 < s.holding x := by
    rw [← h.mutex, Bool.eq_true_of_not_eq_false hl]
    decide
  obtain ⟨i, hi⟩ := exists_of_tally_pos hpos
  cases hpl : s.place i with
  | wait y l next p =>
    rw [hpl] at hi
    refine hno (canStep_of_wait hpl ?_ ?_)
    · rintro rfl
      simp [Place.holds] at hi
    · rintro (rfl | rfl) <;> simp [Place.holds] at hi
  | post y l next p =>
    rw [hpl] at hi
    refine hno (canStep_of_post hpl ?_)
    rintro rfl
    simp [Place.holds] at hi
  | _ =>
    rw [hpl] at hi
    cases hi

/-- When no thread can take a step each one has returned, is at an act that blocks, is parked, or
has panicked. -/
lemma place_of_not_canStep [Inhabited χ] {s : State ι S D L} (h : ∀ x, Laws (v x) x s)
    (hno : ¬ CanStep P v s) (i : ι) :
    (∃ l, s.place i = .out l ∧ (P.code i l = none ∨
        ∃ f, P.code i l = some (.act f) ∧ ∀ c, f c s.data = none)) ∨
      (∃ x l next, s.place i = .wait x l next .parked) ∨ ∃ l, s.place i = .panicked l := by
  cases hpl : s.place i with
  | out l =>
    left
    refine ⟨l, rfl, ?_⟩
    cases hc : P.code i l with
    | none => exact .inl rfl
    | some st =>
      cases st with
      | wait x next intr =>
        exact absurd ⟨.run i default, _, fun j => by simp, step_callWait hpl hc⟩ hno
      | post x next =>
        exact absurd ⟨.run i default, _, fun j => by simp, step_callPost hpl hc⟩ hno
      | act f =>
        refine .inr ⟨f, rfl, fun c => Option.eq_none_iff_forall_ne_some.mpr fun r hr => ?_⟩
        exact hno ⟨.run i c, _, fun j => by simp, step_act hpl hc hr⟩
  | wait x l next p =>
    right
    left
    by_cases hp : p = .parked
    · exact ⟨x, l, next, by rw [hp]⟩
    · exact absurd (canStep_of_wait hpl hp fun _ => free_of_not_canStep (h x) hno) hno
  | post x l next p =>
    exact absurd (canStep_of_post hpl fun _ => free_of_not_canStep (h x) hno) hno
  | panicked l => exact .inr (.inr ⟨l, rfl⟩)

/-- When all threads are parked none can take a step. -/
lemma not_canStep_of_parked {s : State ι S D L}
    (h : ∀ i, ∃ x l next, s.place i = .wait x l next .parked) : ¬ CanStep P v s := by
  rintro ⟨a, s', hok, hs⟩
  rcases step_cases hs with ⟨i, c, x, m, pl, -, hm, -⟩ | ⟨i, c, l, f, d, l', -, hl, -⟩ |
    ⟨i, j, x, l, next, l', next', -, hi, -⟩ | ⟨j, x, l, next, rfl, -⟩
  · obtain ⟨y, l, next, hp⟩ := h i
    rw [hp] at hm
    cases hm
  · obtain ⟨y, l, next, hp⟩ := h i
    rw [hp] at hl
    cases hl
  · obtain ⟨y, l, next, hp⟩ := h i
    rw [hp] at hi
    cases hi
  · exact hok j rfl

omit [Fintype ι] [DecidableEq ι] [DecidableEq S] in
/-- A thread outside all calls is at its location in the ideal program. -/
lemma ideal_loc_of_out {s : State ι S D L} {i : ι} {l : L} (hl : s.place i = .out l) :
    (ideal v s).loc i = l := by
  show (s.place i).site = l
  rw [hl]
  rfl

/-- A thread inside a call of `wait` that has not been let through is at the wait in the ideal
program. -/
lemma ideal_code_of_parked {s : State ι S D L} (h : (machine P v).Reach s) {i : ι} {x : S}
    {l next : L} (hl : s.place i = .wait x l next .parked) :
    ∃ intr, P.code i ((ideal v s).loc i) = some (.wait x next intr) := by
  have hci := calls h i
  rw [hl] at hci
  obtain ⟨intr, hc⟩ := hci
  refine ⟨intr, ?_⟩
  show P.code i (s.place i).site = _
  rw [hl]
  exact hc

omit [DecidableEq ι] in
/-- While the mutex is free and some thread is parked, all permits have been handed out. -/
lemma ideal_sem_of_parked {s : State ι S D L} {x : S} (h : Laws (v x) x s) (hv : 0 ≤ v x)
    (hfree : (s.sem x).locked = false) {i : ι} {l next : L}
    (hl : s.place i = .wait x l next .parked) : (ideal v s).sem x = 0 := by
  have hparked : (s.place i).waits x .parked ≤ s.waiting x .parked :=
    le_tally (fun _ => Place.waits x .parked) s.place i
  simp only [hl, Place.waits, and_self, if_true] at hparked
  have hasleep := h.asleep hv
  have hgranted := h.granted
  have hvalue := h.value
  have hnotify : s.posting x .notify = 0 := (h.unlocked hfree).2.2
  show (v x).toNat + (s.sem x).posts - (s.sem x).granted = 0
  omega

/-- **Where the program is stuck the ideal program is.** When no thread can take a step and none
has panicked, no thread can take a step in the ideal program, and the threads that have returned
there have returned.

**Proof sketch.** A parked thread waits, in the ideal program, on a semaphore that is zero: the
mutex is free, so all permits have been handed out. -/
theorem ideal_stuck [Inhabited χ] (hv : ∀ x, 0 ≤ v x) {s : State ι S D L}
    (h : (machine P v).ReachIf Notified s) (hno : ¬ CanStep P v s)
    (hpanic : ∀ i l, s.place i ≠ .panicked l) :
    P.Stuck (ideal v s) ∧ ∀ i, P.code i ((ideal v s).loc i) = none →
      ∃ l, s.place i = .out l ∧ P.code i l = none := by
  have hplace := place_of_not_canStep (laws h) hno
  refine ⟨?_, fun i hi => ?_⟩
  · rintro i ⟨st, c, r, hst, hx⟩
    rcases hplace i with ⟨l, hl, hc⟩ | ⟨x, l, next, hl⟩ | ⟨l, hl⟩
    · rw [ideal_loc_of_out hl] at hst
      rcases hc with hc | ⟨f, hc, hf⟩
      · rw [hc] at hst
        cases hst
      · rw [hc] at hst
        obtain rfl := Option.some.inj hst
        obtain ⟨r', hr', -⟩ := Option.map_eq_some_iff.mp hx
        rw [show f c (ideal v s).data = none from hf c] at hr'
        cases hr'
    · obtain ⟨intr, hc⟩ := ideal_code_of_parked h.reach hl
      rw [hc] at hst
      obtain rfl := Option.some.inj hst
      obtain ⟨hpos, -⟩ := Option.ite_none_right_eq_some.mp hx
      have hzero := ideal_sem_of_parked (laws h x) (hv x) (free_of_not_canStep (laws h x) hno) hl
      omega
    · exact hpanic i l hl
  · rcases hplace i with ⟨l, hl, -⟩ | ⟨x, l, next, hl⟩ | ⟨l, hl⟩
    · rw [ideal_loc_of_out hl] at hi
      exact ⟨l, hl, hi⟩
    · obtain ⟨intr, hc⟩ := ideal_code_of_parked h.reach hl
      rw [hc] at hi
      cases hi
    · exact absurd hl (hpanic i l)

/-- **Progress.** If the ideal program stays in range and some thread can move in it whenever some
thread has not returned, then the same holds over `semaphore.rs`. -/
theorem canStep_of_ideal [Inhabited χ] (hr : InRange P v)
    (hlive : ∀ t, (P.machine (idealStart v)).Reach t → (∃ i, P.code i (t.loc i) ≠ none) →
      ∃ i, P.Enabled i t)
    {s : State ι S D L} (h : (machine P v).ReachIf Notified s)
    (hi : ∃ i, ∀ l, s.place i = .out l → P.code i l ≠ none) : CanStep P v s := by
  by_contra hno
  obtain ⟨i, hi⟩ := hi
  obtain ⟨hstuck, hret⟩ := ideal_stuck hr.start h hno (not_panicked hr h).2
  obtain ⟨j, hj⟩ := hlive _ (ideal_reach h) ⟨i, fun hc => by
    obtain ⟨l, hl, hcl⟩ := hret i hc
    exact hi l hl hcl⟩
  exact hstuck j hj

/-! ### All runs of the ideal program -/

/-- No thread is inside a call, and the state stands for `t`. -/
structure Settled (v : S → ℤ) (t : Config ι S D L) (s : State ι S D L) : Prop where
  place : ∀ i, s.place i = .out (t.loc i)
  ideal : ideal v s = t

omit [Fintype ι] in
/-- The last of two moves of one thread on one semaphore counts. -/
lemma move_move (s : State ι S D L) (i : ι) (x : S) (m m' : Semaphore) (pl pl' : Place S L) :
    (s.move i x m pl).move i x m' pl' = s.move i x m' pl' := by
  simp [State.move, Function.update_idem]

omit [DecidableEq ι] in
/-- In a settled state the mutexes are free and the values are the ideal ones. -/
lemma Settled.sem {t : Config ι S D L} {s : State ι S D L} (h : Settled v t s)
    (hlaws : ∀ x, Laws (v x) x s) (hv : ∀ x, 0 ≤ v x) (x : S) :
    (s.sem x).locked = false ∧ (s.sem x).value = t.sem x ∧
      t.sem x = idealStart v x + (s.sem x).posts - (s.sem x).granted := by
  have hw : ∀ p, s.waiting x p = 0 := fun p => tally_eq_zero fun i => by rw [h.place i]; rfl
  have hp : ∀ p, s.posting x p = 0 := fun p => tally_eq_zero fun i => by rw [h.place i]; rfl
  have hh : s.holding x = 0 := tally_eq_zero fun i => by rw [h.place i]; rfl
  have hsem : t.sem x = idealStart v x + (s.sem x).posts - (s.sem x).granted := by
    rw [← h.ideal]
    rfl
  have hvx := hv x
  have hasleep := (hlaws x).asleep hvx
  have hgranted := (hlaws x).granted
  have hvalue := (hlaws x).value
  have hmutex := (hlaws x).mutex
  rw [hh] at hmutex
  rw [hw, hw, hp] at hasleep
  rw [hw, hw] at hgranted
  refine ⟨by simpa using hmutex, ?_, hsem⟩
  unfold idealStart at hsem
  omega

/-- An uncontended `wait` on a positive value: four steps, and the call has returned. -/
lemma wait_uncontended {s : State ι S D L} (h : (machine P v).ReachIf Notified s) {i : ι} {x : S}
    {l next intr : L} {c : χ} (hl : s.place i = .out l)
    (hc : P.code i l = some (.wait x next intr)) (hfree : (s.sem x).locked = false)
    (hpois : (s.sem x).poisoned = false) (hpos : 0 < (s.sem x).value) :
    ∃ m, (machine P v).ReachIf Notified (s.move i x m (.out next)) ∧
      m.posts = (s.sem x).posts ∧ m.granted = (s.sem x).granted + 1 := by
  have hok : ∀ s : State ι S D L, Notified s (.run i c) := fun s j => by simp
  have h₁ := h.step (hok _) (step_callWait hl hc)
  have h₂ := h₁.step (hok _) (step_wait (p := .lock) (State.place_move ..)
    (by simp only [State.sem_move, Semaphore.wait, Semaphore.lock, hfree, hpois]; rfl))
  have h₃ := h₂.step (hok _) (step_wait (p := .decrement) (State.place_move ..)
    (by
      simp only [State.sem_move, Semaphore.wait, i32Min]
      rw [if_neg (by omega), if_neg (by omega)]))
  have h₄ := h₃.step (hok _) (step_wait (p := .leave) (State.place_move ..) rfl)
  rw [move_move, move_move, move_move, State.sem_move] at h₄
  exact ⟨_, h₄, rfl, rfl⟩

/-- An uncontended `post` when nobody waits: four steps, and the call has returned. -/
lemma post_uncontended {s : State ι S D L} (h : (machine P v).ReachIf Notified s) {i : ι} {x : S}
    {l next : L} {c : χ} (hl : s.place i = .out l) (hc : P.code i l = some (.post x next))
    (hfree : (s.sem x).locked = false) (hpois : (s.sem x).poisoned = false)
    (hpos : 0 ≤ (s.sem x).value) (hmax : (s.sem x).value ≠ i32Max) :
    ∃ m, (machine P v).ReachIf Notified (s.move i x m (.out next)) ∧
      m.posts = (s.sem x).posts + 1 ∧ m.granted = (s.sem x).granted := by
  have hok : ∀ s : State ι S D L, Notified s (.run i c) := fun s j => by simp
  have h₁ := h.step (hok _) (step_callPost hl hc)
  have h₂ := h₁.step (hok _) (step_post (p := .lock) (State.place_move ..)
    (by simp only [State.sem_move, Semaphore.start, Semaphore.post, Semaphore.lock, hfree, hpois]
        rfl) (by simp))
  have h₃ := h₂.step (hok _) (step_post (p := .increment) (State.place_move ..)
    (by
      simp only [State.sem_move, Semaphore.post]
      rw [if_neg hmax, if_neg (by omega)]) (by simp))
  have h₄ := h₃.step (hok _) (step_post (p := .leave) (State.place_move ..) rfl (by simp))
  rw [move_move, move_move, move_move, State.sem_move] at h₄
  exact ⟨_, h₄, rfl, rfl⟩

omit [Fintype ι] in
/-- The state after an uncontended call. -/
lemma Settled.move {t : Config ι S D L} {s : State ι S D L} (h : Settled v t s) {i : ι} {x : S}
    {m : Semaphore} {next : L} {n : ℕ} (hn : idealStart v x + m.posts - m.granted = n) :
    Settled v ⟨Function.update t.sem x n, t.data, Function.update t.loc i next⟩
      (s.move i x m (.out next)) where
  place j := by
    by_cases hj : j = i
    · subst hj
      simp
    · rw [State.place_move_of_ne _ _ _ _ _ hj, h.place j]
      exact congrArg _ (Function.update_of_ne hj ..).symm
  ideal := by
    rw [ideal_move hn, h.ideal, ← h.ideal]
    rfl

omit [Fintype ι] [DecidableEq S] in
/-- The state after an act. -/
lemma Settled.act {t : Config ι S D L} {s : State ι S D L} (h : Settled v t s) (i : ι) (d : D)
    (l : L) : Settled v ⟨t.sem, d, Function.update t.loc i l⟩
      { s with data := d, place := Function.update s.place i (.out l) } where
  place j := by
    by_cases hj : j = i
    · subst hj
      simp
    · simp [Function.update_of_ne hj, h.place j]
  ideal := by
    refine Config.ext ?_ rfl (funext fun j => ?_)
    · rw [← h.ideal]
      rfl
    · by_cases hj : j = i
      · subst hj
        simp [Rust.ideal, Place.site]
      · simp [Rust.ideal, Function.update_of_ne hj, h.place j, Place.site]

/-- **All runs.** Every state that the ideal program reaches is reached over `semaphore.rs`, by a
run in which no thread ever parks. -/
theorem exists_settled [Inhabited χ] (hr : InRange P v) (hR : P.Retries)
    (hsig : ∀ d, P.handler d = none) {t : Config ι S D L}
    (h : (P.machine (idealStart v)).Reach t) :
    ∃ s, (machine P v).ReachIf Notified s ∧ Settled v t s := by
  induction h with
  | init =>
    refine ⟨_, .init, fun _ => rfl, Config.ext (funext fun x => ?_) rfl rfl⟩
    simp [ideal, machine, Semaphore.new, Program.machine]
  | @step t t' a ht _ hs ih =>
    obtain ⟨s, hreach, hset⟩ := ih
    have hsem := hset.sem (laws hreach) hr.start
    have hpois := (not_panicked hr hreach).1
    rcases Program.step_cases hR hs with ⟨i, c, st, sem, d, l, -, hst, hx, rfl⟩ |
      ⟨i, -, rfl⟩ | ⟨d, -, hd, rfl⟩
    · have hplace := hset.place i
      rcases Stmt.exec_cases hx with ⟨x, intr, rfl, hpos, rfl, rfl⟩ | ⟨x, rfl, rfl, rfl⟩ |
        ⟨f, rfl, hf, rfl⟩
      · obtain ⟨hfree, hval, hx⟩ := hsem x
        obtain ⟨m, hm, hp, hg⟩ :=
          wait_uncontended (c := c) hreach hplace hst hfree (hpois x) (by omega)
        exact ⟨_, hm, hset.move (by omega)⟩
      · obtain ⟨hfree, hval, hx⟩ := hsem x
        have hmax := hr.sem _ (Machine.Reach.next ht hs) x
        simp only [Function.update_self] at hmax
        have hb := (laws hreach x).budget
        obtain ⟨m, hm, hp, hg⟩ :=
          post_uncontended (c := c) hreach hplace hst hfree (hpois x) (by omega) (by omega)
        refine ⟨_, hm, hset.move ?_⟩
        unfold idealStart at hx ⊢
        omega
      · have hdata : s.data = t.data := by
          rw [← hset.ideal]
          rfl
        have hstep := step_act (v := v) (c := c) hplace hst (hdata ▸ hf)
        exact ⟨_, hreach.step (fun j => by simp) hstep, hset.act i d l⟩
    · exact ⟨s, hreach, hset⟩
    · rw [hsig] at hd
      cases hd

end Rust

end PosixIntro
