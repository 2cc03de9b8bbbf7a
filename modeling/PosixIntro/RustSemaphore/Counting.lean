import PosixIntro.RustSemaphore.Laws

set_option relaxedAutoImplicit false
set_option autoImplicit false

/-!
# `semaphore.rs` as a counting semaphore

Without spurious wake-ups the semaphore of `semaphore.rs` is a counting semaphore: its permits
are the positive part of the value, and the blocked threads are those that were sent to park and
not selected yet. `wait` does not test the value again when `Condvar::wait` returns, so a
spurious wake-up hands out a permit that does not exist.

## Main definitions

* `client` — a program whose threads each make a given sequence of calls.
* `abstraction` — the counting semaphore that a state stands for.
* `action` — the operation on the counting semaphore that a step performs, if any.

## Main results

* `simulation` — every step performs its operation on the counting semaphore.
* `too_many_permits` — after a spurious wake-up a call of `wait` returns without any permit.
* `returned_le` — without spurious wake-ups no more calls of `wait` return than there are permits.
* `loses_no_wakeup` — the value, the parked threads and the waits let through, in every state.
-/

namespace PosixIntro

namespace Rust

/-- A call on a semaphore. -/
inductive Call where
  | wait
  | post

/-- The program of threads that share one semaphore and make the given calls on it, one after
the other. A thread's location is the list of the calls it has still to make. -/
def client {ι : Type*} (calls : ι → List Call) :
    Program ι Unit Unit Unit (List Call) where
  code _
    | [] => none
    | .wait :: rest => some (.wait () rest (.wait :: rest))
    | .post :: rest => some (.post () rest)
  handler _ := none
  data₀ := ()
  loc₀ := calls

variable {ι S χ D L : Type*} [Fintype ι] [DecidableEq ι] [DecidableEq S]
  {P : Program ι S χ D L}

/-- The thread was sent to park by a call of `wait` on `x` and has not been selected yet. -/
def Place.asleep (x : S) (pl : Place S L) : Bool :=
  decide (0 < pl.waits x .park + pl.waits x .parked)

/-- The threads that were sent to park by a call of `wait` on `x` and not selected yet. -/
def State.blocked (s : State ι S D L) (x : S) : Finset ι :=
  Finset.univ.filter fun i => (s.place i).asleep x

/-- The counting semaphore that a state stands for. A post counts once the thread it lets
through is selected. -/
def abstraction (x : S) (s : State ι S D L) : CountingSemaphore ι where
  permits := (s.sem x).value.toNat
  blocked := s.blocked x
  served := (s.sem x).granted
  posted := (s.sem x).posts - s.posting x .notify

/-- The operation on the counting semaphore `x` that a step performs: the decrement of `wait`, the
increment of `post` when nobody waits, and the selection of a parked thread. -/
def action (x : S) (s : State ι S D L) : Label ι χ → Option (CountingSemaphore.Action ι)
  | .run i _ =>
    match s.place i with
    | .wait y _ _ .decrement =>
      if y = x ∧ (s.sem x).value ≠ i32Min then some (.wait i) else none
    | .post y _ _ .increment =>
      if y = x ∧ 0 ≤ (s.sem x).value ∧ (s.sem x).value ≠ i32Max then some (.post none) else none
    | _ => none
  | .notify i j =>
    match s.place i with
    | .post y _ _ .notify => if y = x then some (.post (some j)) else none
    | _ => none
  | .spurious _ => none

/-- The counting semaphore performs the operation, or nothing changes when there is none. -/
def Performs (b : Option (CountingSemaphore.Action ι)) (q q' : CountingSemaphore ι) : Prop :=
  match b with
  | none => q' = q
  | some b => ∀ v, (CountingSemaphore.machine v).step q b = some q'

/-! ### The blocked threads -/

omit [DecidableEq ι] in
lemma mem_blocked {s : State ι S D L} {x : S} {i : ι} :
    i ∈ s.blocked x ↔ (s.place i).asleep x = true := by
  simp [State.blocked]

/-- A thread's move changes the blocked threads by that thread only. -/
lemma blocked_move (s : State ι S D L) (i : ι) (x y : S) (m : Semaphore) (pl : Place S L) :
    (s.move i y m pl).blocked x =
      if pl.asleep x then insert i (s.blocked x) else (s.blocked x).erase i := by
  ext j
  by_cases hji : j = i
  · subst hji
    rw [mem_blocked, State.place_move]
    cases pl.asleep x <;> simp
  · rw [mem_blocked, State.place_move_of_ne _ _ _ _ _ hji, ← mem_blocked]
    cases pl.asleep x <;> simp [hji]

/-- A move that leaves the thread as it was leaves the blocked threads as they were. -/
lemma blocked_move_of_eq {s : State ι S D L} {i : ι} {x y : S} {m : Semaphore} {pl : Place S L}
    (h : pl.asleep x = (s.place i).asleep x) : (s.move i y m pl).blocked x = s.blocked x := by
  rw [blocked_move]
  cases hpl : pl.asleep x with
  | true =>
    rw [if_pos rfl]
    exact Finset.insert_eq_of_mem (mem_blocked.mpr (h ▸ hpl))
  | false =>
    rw [if_neg (by simp)]
    refine Finset.erase_eq_of_notMem fun hi => ?_
    rw [mem_blocked, ← h, hpl] at hi
    cases hi

omit [DecidableEq ι] in
/-- The number of blocked threads. -/
lemma card_blocked (s : State ι S D L) (x : S) :
    (s.blocked x).card = s.waiting x .park + s.waiting x .parked := by
  have hsum := tally_add (fun _ : ι => Place.waits x .park) (fun _ => Place.waits x .parked) s.place
  rw [State.waiting, State.waiting, ← hsum, State.blocked, Finset.card_filter]
  refine Finset.sum_congr rfl fun i _ => ?_
  cases s.place i with
  | wait y l next p =>
    cases p <;> by_cases h : y = x <;> simp [Place.asleep, Place.waits, h]
  | _ => rfl

/-! ### The simulation -/

omit [DecidableEq ι] in
/-- Two states stand for the same counting semaphore when they agree on its parts. -/
lemma abstraction_congr {x : S} {s s' : State ι S D L}
    (hv : (s'.sem x).value.toNat = (s.sem x).value.toNat) (hb : s'.blocked x = s.blocked x)
    (hg : (s'.sem x).granted = (s.sem x).granted)
    (hp : (s'.sem x).posts - s'.posting x .notify = (s.sem x).posts - s.posting x .notify) :
    abstraction x s' = abstraction x s :=
  CountingSemaphore.ext hv hb hg hp

omit [DecidableEq ι] in
/-- Nobody is blocked when a post finds the value not negative. -/
lemma blocked_eq_empty {v : ℤ} {x : S} {s : State ι S D L} (h : Laws v x s) (hv : 0 ≤ v) {i : ι}
    {l next : L} (hi : s.place i = .post x l next .increment) (hn : 0 ≤ (s.sem x).value) :
    s.blocked x = ∅ ∧ s.posting x .notify = 0 := by
  have hhold : 0 < (s.place i).holds x := by simp [hi, Place.holds]
  have hnotify : s.posting x .notify = 0 := by
    refine tally_eq_zero fun j => ?_
    by_contra hne
    have hj : 0 < (s.place j).holds x := by
      revert hne
      cases s.place j <;> simp_all [Place.posts, Place.holds]
    rw [h.alone hj hhold, hi] at hne
    simp [Place.posts] at hne
  refine ⟨Finset.card_eq_zero.mp ?_, hnotify⟩
  rw [card_blocked, h.asleep hv, hnotify]
  omega

omit [Fintype ι] [DecidableEq ι] in
/-- A move on another semaphore performs no operation. -/
lemma action_eq_none {x y : S} {s : State ι S D L} {i : ι} {c : χ} {asleep : ℕ}
    {m : Semaphore} {pl : Place S L} (hm : Move P i y asleep (s.sem y) (s.place i) m pl)
    (hne : y ≠ x) : action x s (.run i c) = none := by
  generalize hpl : s.place i = pl₀ at hm
  cases hm <;> simp [action, hpl, hne]

/-- The posts that have not let a thread through yet are not changed by a thread that is not about
to notify. -/
lemma posting_notify_move {s : State ι S D L} {i : ι} {x y : S} {m : Semaphore} {pl : Place S L}
    (h : pl.posts x .notify = (s.place i).posts x .notify) :
    (s.move i y m pl).posting x .notify = s.posting x .notify := by
  have hp := s.posting_move i x y m pl .notify
  rw [h] at hp
  exact Nat.add_right_cancel hp

section Moves

variable {x : S} {s : State ι S D L} {i : ι} {c : χ} {l next : L}

/-- A decrement that parks is a wait that blocks. -/
lemma decrementPark_performs (hpl : s.place i = .wait x l next .decrement)
    (hmin : (s.sem x).value ≠ i32Min) (hn : (s.sem x).value ≤ 0) :
    Performs (action x s (.run i c)) (abstraction x s)
      (abstraction x (s.move i x ((s.sem x).decrement false) (.wait x l next .park))) := by
  have hact : action x s (.run i c) = some (.wait i) := by simp [action, hpl, hmin]
  have hi : i ∉ (abstraction x s).blocked := by
    simp [abstraction, mem_blocked, hpl, Place.asleep, Place.waits]
  have hz : (abstraction x s).permits = 0 := Int.toNat_of_nonpos hn
  rw [hact]
  intro v
  rw [CountingSemaphore.step_wait_of_eq_zero hi hz]
  refine congrArg some (CountingSemaphore.ext ?_ ?_ ?_ ?_)
  · simp only [abstraction, State.sem_move, Semaphore.decrement]
    omega
  · simp only [abstraction]
    rw [blocked_move, if_pos (by simp [Place.asleep, Place.waits])]
  · simp only [abstraction, State.sem_move]
    rfl
  · simp only [abstraction, State.sem_move]
    rw [posting_notify_move (by simp [hpl, Place.posts])]
    rfl

/-- A decrement that passes is a wait that takes a permit. -/
lemma decrementPass_performs (hpl : s.place i = .wait x l next .decrement)
    (hn : 0 < (s.sem x).value) :
    Performs (action x s (.run i c)) (abstraction x s)
      (abstraction x (s.move i x ((s.sem x).decrement true) (.wait x l next .leave))) := by
  have hmin : (s.sem x).value ≠ i32Min := by
    unfold i32Min
    omega
  have hact : action x s (.run i c) = some (.wait i) := by simp [action, hpl, hmin]
  have hi : i ∉ (abstraction x s).blocked := by
    simp [abstraction, mem_blocked, hpl, Place.asleep, Place.waits]
  have hpos : 0 < (abstraction x s).permits := by
    simp only [abstraction]
    omega
  rw [hact]
  intro v
  rw [CountingSemaphore.step_wait_of_pos hi hpos]
  refine congrArg some (CountingSemaphore.ext ?_ ?_ ?_ ?_)
  · simp only [abstraction, State.sem_move, Semaphore.decrement]
    omega
  · exact (blocked_move_of_eq (by simp [hpl, Place.asleep, Place.waits])).symm
  · simp only [abstraction, State.sem_move]
    rfl
  · simp only [abstraction, State.sem_move]
    rw [posting_notify_move (by simp [hpl, Place.posts])]
    rfl

/-- An increment that does not notify is a post that makes a permit available. -/
lemma incrementLeave_performs {v : ℤ} (h : Laws v x s) (hv : 0 ≤ v)
    (hpl : s.place i = .post x l next .increment) (hmax : (s.sem x).value ≠ i32Max)
    (hn : 0 ≤ (s.sem x).value) :
    Performs (action x s (.run i c)) (abstraction x s)
      (abstraction x (s.move i x (s.sem x).increment (.post x l next .leave))) := by
  have hact : action x s (.run i c) = some (.post none) := by simp [action, hpl, hmax, hn]
  obtain ⟨hb, hnotify⟩ := blocked_eq_empty h hv hpl hn
  rw [hact]
  intro v'
  rw [CountingSemaphore.step_post_none hb]
  refine congrArg some (CountingSemaphore.ext ?_ ?_ ?_ ?_)
  · simp only [abstraction, State.sem_move, Semaphore.increment]
    omega
  · exact (blocked_move_of_eq (by simp [hpl, Place.asleep, Place.waits])).symm
  · simp only [abstraction, State.sem_move]
    rfl
  · simp only [abstraction, State.sem_move]
    rw [posting_notify_move (by simp [hpl, Place.posts]), hnotify]
    rfl

/-- An increment that notifies changes nothing yet: the post counts with the notification. -/
lemma incrementNotify_performs (hpl : s.place i = .post x l next .increment)
    (hn : (s.sem x).value < 0) :
    Performs (action x s (.run i c)) (abstraction x s)
      (abstraction x (s.move i x (s.sem x).increment (.post x l next .notify))) := by
  have hact : action x s (.run i c) = none := by simp [action, hpl, hn]
  have hp := s.posting_move i x x (s.sem x).increment (.post x l next .notify) .notify
  simp [hpl, Place.posts] at hp
  rw [hact]
  refine abstraction_congr ?_ (blocked_move_of_eq (by simp [hpl, Place.asleep, Place.waits])) ?_ ?_
  · simp only [State.sem_move, Semaphore.increment]
    omega
  · rw [State.sem_move]
    rfl
  · rw [State.sem_move, hp]
    exact Nat.add_sub_add_right ..

/-- A move on another semaphore changes nothing. -/
lemma Move.performs_elsewhere {y : S} {asleep : ℕ} {m : Semaphore} {pl : Place S L}
    (hm : Move P i y asleep (s.sem y) (s.place i) m pl) (hne : y ≠ x) :
    Performs (action x s (.run i c)) (abstraction x s) (abstraction x (s.move i y m pl)) := by
  obtain ⟨hw, hn, -⟩ := hm.elsewhere hne
  have hw' : pl.asleep x = (s.place i).asleep x := by
    simp only [Place.asleep, (hw .park).1, (hw .park).2, (hw .parked).1, (hw .parked).2]
  have hp := posting_notify_move (m := m) (y := y) ((hn .notify).2.trans (hn .notify).1.symm)
  have hsem := s.sem_move_of_ne i x y m pl (Ne.symm hne)
  rw [action_eq_none hm hne]
  refine abstraction_congr ?_ (blocked_move_of_eq hw') ?_ ?_
  · rw [hsem]
  · rw [hsem]
  · rw [hsem, hp]

end Moves

/-- A move performs its operation on the counting semaphore. -/
lemma Move.performs {v : ℤ} {x y : S} {s : State ι S D L} (h : Laws v x s) (hv : 0 ≤ v) {i : ι}
    {c : χ} {m : Semaphore} {pl : Place S L}
    (hm : Move P i y (s.waiting y .parked) (s.sem y) (s.place i) m pl) :
    Performs (action x s (.run i c)) (abstraction x s) (abstraction x (s.move i y m pl)) := by
  by_cases hne : y = x
  · subst hne
    generalize hpl : s.place i = pl₀ at hm
    generalize hsem : s.sem y = m₀ at hm
    cases hm with
    | decrementPark _ hmin hn =>
      subst hsem
      exact decrementPark_performs hpl hmin hn
    | decrementPass _ hn =>
      subst hsem
      exact decrementPass_performs hpl hn
    | incrementLeave _ hmax hn =>
      subst hsem
      exact incrementLeave_performs h hv hpl hmax hn
    | incrementNotify _ hn =>
      subst hsem
      exact incrementNotify_performs hpl hn
    | notifyNobody _ ha =>
      exact absurd ha (h.parked_of_notify hv (i := i) (by simp [hpl, Place.posts]))
    | _ =>
      have hact : action y s (.run i c) = none := by simp_all [action]
      rw [hact]
      refine abstraction_congr ?_
        (blocked_move_of_eq (by simp [hpl, Place.asleep, Place.waits])) ?_ ?_
      · simp [hsem, Semaphore.start, Semaphore.unlock, Semaphore.poison, Semaphore.finish]
      · simp [hsem, Semaphore.start, Semaphore.unlock, Semaphore.poison, Semaphore.finish]
      · rw [posting_notify_move (by simp [hpl, Place.posts])]
        simp [hsem, Semaphore.start, Semaphore.unlock, Semaphore.poison, Semaphore.finish]
  · exact hm.performs_elsewhere hne

/-- The selection of a parked thread performs a post. -/
lemma notify_performs {v : ℤ} {x y : S} {s : State ι S D L} (h : Laws v x s) {i j : ι}
    {l next l' next' : L} (hi : s.place i = .post y l next .notify)
    (hj : s.place j = .wait y l' next' .parked) :
    Performs (action x s (.notify i j : Label ι χ)) (abstraction x s)
      (abstraction x ((s.move i y (s.sem y) (.post y l next .leave)).move j y
        (s.sem y).grant (.wait y l' next' .relock))) := by
  have hji := ne_of_notify hi hj
  have hp := s.posting_move_move x y (s.sem y) (.post y l next .leave) hji (s.sem y).grant
    (.wait y l' next' .relock) .notify
  rw [hi, hj] at hp
  have hb₁ : (s.move i y (s.sem y) (.post y l next .leave)).blocked x = s.blocked x :=
    blocked_move_of_eq (by simp [hi, Place.asleep, Place.waits])
  by_cases hne : y = x
  · subst hne
    have hact : action y s (.notify i j : Label ι χ) = some (.post (some j)) := by
      simp [action, hi]
    have hmem : j ∈ (abstraction y s).blocked := by
      simp [abstraction, mem_blocked, hj, Place.asleep, Place.waits]
    simp [Place.posts] at hp
    rw [hact]
    intro v'
    rw [CountingSemaphore.step_post_some hmem]
    refine congrArg some (CountingSemaphore.ext ?_ ?_ ?_ ?_)
    · simp only [abstraction, State.sem_move, Semaphore.grant]
    · simp only [abstraction]
      rw [blocked_move, if_neg (by simp [Place.asleep, Place.waits]), hb₁]
    · simp only [abstraction, State.sem_move, Semaphore.grant]
    · have hle := h.notifying
      simp only [abstraction]
      rw [State.sem_move]
      show (s.sem y).posts - s.posting y .notify + 1 = (s.sem y).posts - _
      omega
  · have hact : action x s (.notify i j : Label ι χ) = none := by simp [action, hi, hne]
    have hb₂ : ((s.move i y (s.sem y) (.post y l next .leave)).move j y (s.sem y).grant
        (.wait y l' next' .relock)).blocked x = s.blocked x := by
      rw [blocked_move_of_eq, hb₁]
      rw [State.place_move_of_ne _ _ _ _ _ hji, hj]
      simp [Place.asleep, Place.waits, hne]
    simp [Place.posts, hne] at hp
    rw [hact]
    refine abstraction_congr ?_ hb₂ ?_ ?_
    all_goals
      simp only [State.sem_move_of_ne _ _ _ _ _ _ (Ne.symm hne)]
    rw [hp]

/-- **The simulation.** Every step that is not a spurious wake-up performs its operation on the
counting semaphore. -/
theorem simulation {v : ℤ} {x : S} {s s' : State ι S D L} {a : Label ι χ} {w : S → ℤ}
    (h : Laws v x s) (hv : 0 ≤ v) (hok : Notified s a) (hs : (machine P w).step s a = some s') :
    Performs (action x s a) (abstraction x s) (abstraction x s') := by
  rcases step_cases hs with ⟨i, c, y, m, pl, rfl, hm, rfl⟩ |
    ⟨i, c, l, f, d, l', rfl, hl, -, -, rfl⟩ | ⟨i, j, y, l, next, l', next', rfl, hi, hj, rfl⟩ |
    ⟨j, y, l, next, rfl, -⟩
  · exact hm.performs h hv
  · have hact : action x s (.run i c) = none := by simp [action, hl]
    rw [hact]
    refine abstraction_congr rfl ?_ rfl ?_
    · ext j
      rw [mem_blocked, mem_blocked]
      by_cases hji : j = i
      · subst hji
        simp [hl, Place.asleep, Place.waits]
      · simp [Function.update_of_ne hji]
    · have := tally_update (fun _ => Place.posts x .notify) s.place i (.out l')
      rw [hl] at this
      exact congrArg _ this
  · exact notify_performs h hi hj
  · exact absurd rfl (hok j)

/-- **Refinement.** Without spurious wake-ups the counting semaphore that a state stands for is
reachable. -/
theorem refines {v : S → ℤ} {x : S} (hv : 0 ≤ v x) {s : State ι S D L}
    (h : (machine P v).ReachIf Notified s) :
    (CountingSemaphore.machine (v x).toNat).Reach (abstraction x s) := by
  induction h with
  | init =>
    have h0 : abstraction x (machine P v).init =
        (CountingSemaphore.machine (ι := ι) (v x).toNat).init := by
      refine CountingSemaphore.ext rfl ?_ rfl ?_
      · exact Finset.filter_eq_empty_iff.mpr fun i _ => by
          simp [machine, Place.asleep, Place.waits]
      · exact Nat.zero_sub _
    rw [h0]
    exact .init
  | @step s s' a hr hok hs ih =>
    have hperf := simulation (laws hr x) hv hok hs
    cases hact : action x s a with
    | none =>
      rw [hact] at hperf
      rw [show abstraction x s' = abstraction x s from hperf]
      exact ih
    | some b =>
      rw [hact] at hperf
      exact ih.next (hperf _)

/-! ### The main results -/

/-- **A spurious wake-up hands out a permit that does not exist.** One thread calls `wait` on a
semaphore of value `0` and parks; it wakes spuriously and the call returns. -/
theorem too_many_permits :
    ¬ ∀ s, (machine (client fun _ : Fin 1 => [.wait]) fun _ => 0).Reach s →
      ((s.sem ()).returned : ℤ) ≤ 0 + (s.sem ()).started := by
  intro hall
  obtain ⟨s, hs, hret, hstart⟩ :
      ∃ s, (machine (client fun _ : Fin 1 => [.wait]) fun _ => 0).exec
        (machine (client fun _ : Fin 1 => [.wait]) fun _ => 0).init
        [.run 0 (), .run 0 (), .run 0 (), .run 0 (), .spurious 0, .run 0 (), .run 0 ()] = some s ∧
        (s.sem ()).returned = 1 ∧ (s.sem ()).started = 0 :=
    ⟨_, rfl, rfl, rfl⟩
  have hle := hall s (Machine.reach_of_exec hs)
  rw [hret, hstart] at hle
  omega

/-- **No more permits than there are.** If `Condvar::wait` never returns to a thread that was not
selected, then at most as many calls of `wait` have returned as the semaphore had permits at the
start and calls of `post` have been started. -/
theorem returned_le {v : S → ℤ} {x : S} (hv : 0 ≤ v x) {s : State ι S D L}
    (h : (machine P v).ReachIf Notified s) :
    ((s.sem x).returned : ℤ) ≤ v x + (s.sem x).started := by
  have hlaws := laws h x
  have h₁ := hlaws.returned
  have h₂ := hlaws.budget
  have h₃ := hlaws.started
  omega

/-- One thread posts and then waits on a semaphore of value `0`. -/
theorem returned_le_post_wait :
    ∃ s, (machine (client fun _ : Fin 1 => [.post, .wait]) fun _ => 0).Reach s ∧
      (s.sem ()).returned = 1 ∧ ((s.sem ()).returned : ℤ) ≤ 0 + (s.sem ()).started := by
  obtain ⟨s, hs, hret⟩ :
      ∃ s, (machine (client fun _ : Fin 1 => [.post, .wait]) fun _ => 0).exec
        (machine (client fun _ : Fin 1 => [.post, .wait]) fun _ => 0).init
        (List.replicate 8 (.run 0 ())) = some s ∧ (s.sem ()).returned = 1 :=
    ⟨_, rfl, rfl⟩
  have hr : (machine (client fun _ : Fin 1 => [.post, .wait]) fun _ => 0).ReachIf Notified s := by
    refine Machine.ReachIf.exec .init _ (fun a ha s j => ?_) hs
    rw [List.eq_of_mem_replicate ha]
    simp
  exact ⟨s, hr.reach, hret, returned_le (by decide) hr⟩

/-- **No wake-up is lost.** Without spurious wake-ups, in every state: the value is the initial
one plus the increments less the decrements; every step performs its operation on the counting
semaphore that the state stands for, whose permits are the positive part of the value; nobody is
parked while a permit is available; and the threads sent to park and not selected are as many as
the value is below zero, up to a post that is about to notify. Between the mutex-protected regions
the parked threads are exactly as many as the value is below zero, and the waits that passed or
were selected are the lesser of the waits that have decremented and of the permits handed in.

**Proof sketch.** The accounts of the semaphore are kept by every move (`laws`). The counting
semaphore that a state stands for is reachable (`refines`), so nobody is blocked while it has a
permit (`CountingSemaphore.permits_or_blocked`) and it has let through as many waits as it can
(`CountingSemaphore.served_eq_min`). -/
theorem loses_no_wakeup {v : S → ℤ} {x : S} (hv : 0 ≤ v x) {s : State ι S D L}
    (h : (machine P v).ReachIf Notified s) :
    (s.sem x).value = v x + (s.sem x).posts - (s.sem x).waits ∧
      (∀ a s', Notified s a → (machine P v).step s a = some s' →
        Performs (action x s a) (abstraction x s) (abstraction x s')) ∧
      (CountingSemaphore.machine (v x).toNat).Reach (abstraction x s) ∧
      (0 < s.waiting x .parked → (s.sem x).value.toNat = 0) ∧
      s.waiting x .park + s.waiting x .parked =
        (-(s.sem x).value).toNat + s.posting x .notify ∧
      ((s.sem x).locked = false →
        s.waiting x .parked = (-(s.sem x).value).toNat ∧
          ((s.sem x).granted : ℤ) = min ((s.sem x).waits : ℤ) (v x + (s.sem x).posts) ∧
          ((s.sem x).poisoned = false →
            (s.sem x).granted = (s.sem x).returned + s.waiting x .relock)) := by
  have hlaws := laws h x
  have hreach := refines hv h
  have hcard := card_blocked s x
  refine ⟨hlaws.value, fun a s' hok hs => simulation hlaws hv hok hs, hreach, fun hpos => ?_,
    hlaws.asleep hv, fun hfree => ?_⟩
  · rcases CountingSemaphore.permits_or_blocked hreach with h0 | h0
    · exact h0
    · have hb : s.blocked x = ∅ := h0
      rw [hb, Finset.card_empty] at hcard
      omega
  · obtain ⟨hpark, hleave, hnotify⟩ := hlaws.unlocked hfree
    have hasleep := hlaws.asleep hv
    have hgranted := hlaws.granted
    refine ⟨by omega, ?_, fun hpois => ?_⟩
    · have hmin : (s.sem x).granted = min ((s.sem x).granted + (s.blocked x).card)
          ((v x).toNat + ((s.sem x).posts - s.posting x .notify)) :=
        CountingSemaphore.served_eq_min hreach
      omega
    · have := hlaws.returned_eq hpois
      omega

/-- One thread of two parks on a semaphore of value `0` and the other posts: the parked thread is
selected. -/
theorem loses_no_wakeup_handover :
    ∃ s, (machine (client fun i : Fin 2 => if i = 0 then [.wait] else [.post]) fun _ => 0).Reach s ∧
      (s.sem ()).posts = 1 ∧ ((s.sem ()).granted : ℤ) = min 1 (0 + 1) := by
  obtain ⟨s, hs, hposts, hwaits, hfree⟩ :
      ∃ s, (machine (client fun i : Fin 2 => if i = 0 then [.wait] else [.post]) fun _ => 0).exec
        (machine (client fun i : Fin 2 => if i = 0 then [.wait] else [.post]) fun _ => 0).init
        [.run 0 (), .run 0 (), .run 0 (), .run 0 (), .run 1 (), .run 1 (), .run 1 (),
          .notify 1 0, .run 1 ()] = some s ∧
        (s.sem ()).posts = 1 ∧ (s.sem ()).waits = 1 ∧ (s.sem ()).locked = false :=
    ⟨_, rfl, rfl, rfl, rfl⟩
  have hr : (machine (client fun i : Fin 2 => if i = 0 then [.wait] else [.post])
      fun _ => 0).ReachIf Notified s := by
    refine Machine.ReachIf.exec .init _ (fun a ha s j => ?_) hs
    simp only [List.mem_cons, List.not_mem_nil, or_false] at ha
    rcases ha with rfl | rfl | rfl | rfl | rfl | rfl | rfl | rfl | rfl <;> simp
  have hmin := ((loses_no_wakeup (x := ()) (by decide) hr).2.2.2.2.2 hfree).2.1
  rw [hposts, hwaits] at hmin
  exact ⟨s, hr.reach, hposts, hmin⟩

end Rust

end PosixIntro
