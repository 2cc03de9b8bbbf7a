import PosixIntro.Concurrency.Threads

set_option relaxedAutoImplicit false
set_option autoImplicit false

/-!
# `semaphore.rs`

The semaphore that the Rust programs build from a `Mutex<i32>` and a `Condvar`, statement by
statement, and the machine of a program whose threads call it. The value counts free permits
when it is positive and threads that wait when it is negative.

## Main definitions

* `Semaphore` — the mutex with its value, and the history of the calls.
* `WaitPoint`, `PostPoint` — the program points of `wait` and `post`.
* `Semaphore.wait`, `Semaphore.post` — one statement of `wait` and of `post`.
* `State`, `machine` — a program whose waits and posts are calls of `wait` and `post`.
* `Label`, `Notified` — what the scheduler chooses; no spurious wake-up is chosen.

## Design

`Condvar::wait` releases the mutex and parks the thread in one step. `notify_one` selects a
parked thread if there is one. `Condvar::wait` returns after the thread was selected, or
spuriously, and then locks the mutex again. The programs are built without optimisation, so an
overflow of the `i32` panics; the guard is then dropped while the thread panics, which poisons
the mutex, and every later `lock().unwrap()` panics.
-/

namespace PosixIntro

namespace Rust

/-- The least `i32`. -/
def i32Min : ℤ := -2 ^ 31

/-- The greatest `i32`. -/
def i32Max : ℤ := 2 ^ 31 - 1

/-- `Semaphore`: the value in the mutex, whether the mutex is locked and whether it is poisoned.
The other fields are history, which no statement reads. -/
structure Semaphore where
  value : ℤ
  locked : Bool
  poisoned : Bool
  /-- Calls of `post` that have been started. -/
  started : ℕ
  /-- Calls of `post` that have incremented the value. -/
  posts : ℕ
  /-- Calls of `wait` that have decremented the value. -/
  waits : ℕ
  /-- Calls of `wait` that did not have to park, or were selected by `notify_one`. -/
  granted : ℕ
  /-- Calls of `wait` that have returned. -/
  returned : ℕ

/-- `Semaphore::new`. -/
def Semaphore.new (value : ℤ) : Semaphore := ⟨value, false, false, 0, 0, 0, 0, 0⟩

/-- The program points of `wait`. -/
inductive WaitPoint where
  /-- `self.mutex.lock().unwrap()`. -/
  | lock
  /-- `*lock -= 1`, and the test `*lock < 0`. -/
  | decrement
  /-- `self.cvar.wait(lock)`: release the mutex and park. -/
  | park
  /-- Inside `self.cvar.wait(lock)`, not selected. -/
  | parked
  /-- Inside `self.cvar.wait(lock)`, awake, about to lock the mutex again. -/
  | relock
  /-- The guard is dropped and the call returns. -/
  | leave
  deriving DecidableEq

/-- The program points of `post`. -/
inductive PostPoint where
  /-- `self.mutex.lock().unwrap()`. -/
  | lock
  /-- `*lock += 1`, and the test `*lock <= 0`. -/
  | increment
  /-- `self.cvar.notify_one()`. -/
  | notify
  /-- The guard is dropped and the call returns. -/
  | leave
  deriving DecidableEq

/-- How a statement of a call ends: at the next program point, with the call's return, or with a
panic. -/
inductive Outcome (π : Type*) where
  | goto (p : π)
  | done
  | panic

namespace Semaphore

variable (m : Semaphore)

/-- `self.mutex.lock().unwrap()`: blocks while the mutex is locked, panics when it is poisoned. -/
def lock {π : Type*} (next : π) : Option (Semaphore × Outcome π) :=
  if m.locked then none
  else if m.poisoned then some (m, .panic)
  else some ({ m with locked := true }, .goto next)

/-- The guard is dropped. -/
def unlock : Semaphore := { m with locked := false }

/-- The guard is dropped by a panic. -/
def poison : Semaphore := { m with locked := false, poisoned := true }

/-- History: a call of `post` is started. -/
def start : Semaphore := { m with started := m.started + 1 }

/-- History: a parked thread is selected. -/
def grant : Semaphore := { m with granted := m.granted + 1 }

/-- The decrement of `wait`, `pass` when the call does not have to park. -/
def decrement (pass : Bool) : Semaphore :=
  { m with
    value := m.value - 1
    waits := m.waits + 1
    granted := if pass then m.granted + 1 else m.granted }

/-- The increment of `post`. -/
def increment : Semaphore := { m with value := m.value + 1, posts := m.posts + 1 }

/-- The return of `wait`. -/
def finish : Semaphore := { m with locked := false, returned := m.returned + 1 }

/-- One statement of `wait`; `none` when it blocks. -/
def wait : WaitPoint → Option (Semaphore × Outcome WaitPoint)
  | .lock => m.lock .decrement
  | .decrement =>
    if m.value = i32Min then some (m.poison, .panic)
    else if m.value - 1 < 0 then some (m.decrement false, .goto .park)
    else some (m.decrement true, .goto .leave)
  | .park => some (m.unlock, .goto .parked)
  | .parked => none
  | .relock => m.lock .leave
  | .leave => some (m.finish, .done)

/-- One statement of `post`; `none` when it blocks. At `notify` this is `notify_one` when no
thread is parked. -/
def post : PostPoint → Option (Semaphore × Outcome PostPoint)
  | .lock => m.lock .increment
  | .increment =>
    if m.value = i32Max then some (m.poison, .panic)
    else some (m.increment, .goto (if m.value + 1 ≤ 0 then .notify else .leave))
  | .notify => some (m, .goto .leave)
  | .leave => some (m.unlock, .done)

end Semaphore

/-- Where a thread is: outside `wait` and `post` at a location of the program, inside a call on
`x` that was made at `here` and goes on at `next`, or gone with a panic, at the location the
program would next have been at. -/
inductive Place (S L : Type*) where
  | out (l : L)
  | wait (x : S) (here next : L) (p : WaitPoint)
  | post (x : S) (here next : L) (p : PostPoint)
  | panicked (l : L)

/-- A state of the program. -/
structure State (ι S D L : Type*) where
  sem : S → Semaphore
  data : D
  place : ι → Place S L

/-- What the scheduler chooses: run a thread (resolving its choice), let `notify_one` of the first
thread select the second, or wake a parked thread spuriously. -/
inductive Label (ι χ : Type*) where
  | run (i : ι) (c : χ)
  | notify (i j : ι)
  | spurious (j : ι)

variable {ι S χ D L : Type*} [Fintype ι] [DecidableEq ι] [DecidableEq S]

namespace Place

/-- Where a thread goes when a statement of a call of `wait` ends. A thread that panics in its
first `lock` or in the decrement has not been let through. -/
def afterWait (x : S) (here next : L) (p : WaitPoint) : Outcome WaitPoint → Place S L
  | .goto q => .wait x here next q
  | .done => .out next
  | .panic => .panicked (if p = .relock then next else here)

/-- Where a thread goes when a statement of a call of `post` ends. -/
def afterPost (x : S) (here next : L) : Outcome PostPoint → Place S L
  | .goto q => .post x here next q
  | .done => .out next
  | .panic => .panicked here

/-- The thread is at `p` in a call of `wait` on `x`. -/
def waits (x : S) (p : WaitPoint) : Place S L → ℕ
  | .wait y _ _ q => if y = x ∧ q = p then 1 else 0
  | _ => 0

/-- The thread is at `p` in a call of `post` on `x`. -/
def posts (x : S) (p : PostPoint) : Place S L → ℕ
  | .post y _ _ q => if y = x ∧ q = p then 1 else 0
  | _ => 0

end Place

namespace State

variable (s : State ι S D L)

/-- The number of threads at `p` in a call of `wait` on `x`. -/
def waiting (x : S) (p : WaitPoint) : ℕ := tally (fun _ => Place.waits x p) s.place

/-- The number of threads at `p` in a call of `post` on `x`. -/
def posting (x : S) (p : PostPoint) : ℕ := tally (fun _ => Place.posts x p) s.place

/-- Thread `i` goes to `l` and the semaphore `x` becomes `m`. -/
def move (i : ι) (x : S) (m : Semaphore) (l : Place S L) : State ι S D L :=
  { s with sem := Function.update s.sem x m, place := Function.update s.place i l }

end State

/-- The interleavings of a program whose semaphores start with the values `v`. A signal handler
of the program plays no part. -/
def machine (P : Program ι S χ D L) (v : S → ℤ) : Machine (State ι S D L) (Label ι χ) where
  init := ⟨fun x => .new (v x), P.data₀, fun i => .out (P.loc₀ i)⟩
  step s
    | .run i c =>
      match s.place i with
      | .out l =>
        match P.code i l with
        | none => none
        | some (.wait x next _) => some (s.move i x (s.sem x) (.wait x l next .lock))
        | some (.post x next) =>
          some (s.move i x (s.sem x).start (.post x l next .lock))
        | some (.act f) =>
          (f c s.data).map fun r =>
            { s with data := r.1, place := Function.update s.place i (.out r.2) }
      | .wait x l next p =>
        ((s.sem x).wait p).map fun r => s.move i x r.1 (.afterWait x l next p r.2)
      | .post x l next p =>
        if p = .notify ∧ s.waiting x .parked ≠ 0 then none
        else ((s.sem x).post p).map fun r => s.move i x r.1 (.afterPost x l next r.2)
      | .panicked _ => none
    | .notify i j =>
      match s.place i, s.place j with
      | .post x l next .notify, .wait y l' next' .parked =>
        if y = x then
          some ((s.move i x (s.sem x) (.post x l next .leave)).move j x (s.sem x).grant
            (.wait x l' next' .relock))
        else none
      | _, _ => none
    | .spurious j =>
      match s.place j with
      | .wait x l next .parked => some (s.move j x (s.sem x) (.wait x l next .relock))
      | _ => none

/-- No spurious wake-up: `Condvar::wait` returns only to threads selected by `notify_one`. -/
def Notified (_ : State ι S D L) (a : Label ι χ) : Prop := ∀ j, a ≠ .spurious j

/-! ### What one step can do -/

variable {P : Program ι S χ D L} {v : S → ℤ}

/-- A run of acts of one thread is a run of the machine. -/
lemma exec_of_actRun {i : ι} {l l' : L} {d d' : D} (h : P.ActRun i l d l' d')
    {s : State ι S D L} (hl : s.place i = .out l) (hd : s.data = d) :
    ∃ cs : List χ, (machine P v).exec s (cs.map (.run i)) =
      some { s with data := d', place := Function.update s.place i (.out l') } := by
  induction h generalizing s with
  | refl l d =>
    rw [← hl, ← hd]
    exact ⟨[], by simp [Machine.exec]⟩
  | @head l l₁ l' d d₁ d' f c hc hf _ ih =>
    have hstep : (machine P v).step s (.run i c) =
        some { s with data := d₁, place := Function.update s.place i (.out l₁) } := by
      simp only [machine, hl, hc, hd, hf, Option.map_some]
    obtain ⟨cs, hcs⟩ := ih (s := { s with
      data := d₁, place := Function.update s.place i (.out l₁) }) (by simp) rfl
    refine ⟨c :: cs, ?_⟩
    simp only [List.map_cons, Machine.exec, hstep, Option.bind_some, hcs, Function.update_idem]

/-- The steps of one thread on the semaphore `x`, on which `asleep` threads are parked: from
where to where, and what becomes of the semaphore. -/
inductive Move (P : Program ι S χ D L) (i : ι) (x : S) (asleep : ℕ) :
    Semaphore → Place S L → Semaphore → Place S L → Prop
  | callWait {l next intr : L} (m) (h : P.code i l = some (.wait x next intr)) :
      Move P i x asleep m (.out l) m (.wait x l next .lock)
  | callPost {l next : L} (m) (h : P.code i l = some (.post x next)) :
      Move P i x asleep m (.out l) m.start (.post x l next .lock)
  | waitLock {l next : L} (m) (h : m.locked = false) (hp : m.poisoned = false) :
      Move P i x asleep m (.wait x l next .lock) { m with locked := true }
        (.wait x l next .decrement)
  | waitLockPanic {l next : L} (m) (h : m.locked = false) (hp : m.poisoned = true) :
      Move P i x asleep m (.wait x l next .lock) m (.panicked l)
  | decrementPanic {l next : L} (m) (h : m.value = i32Min) :
      Move P i x asleep m (.wait x l next .decrement) m.poison (.panicked l)
  | decrementPark {l next : L} (m) (h : m.value ≠ i32Min) (hn : m.value ≤ 0) :
      Move P i x asleep m (.wait x l next .decrement) (m.decrement false) (.wait x l next .park)
  | decrementPass {l next : L} (m) (hn : 0 < m.value) :
      Move P i x asleep m (.wait x l next .decrement) (m.decrement true) (.wait x l next .leave)
  | park {l next : L} (m) :
      Move P i x asleep m (.wait x l next .park) m.unlock (.wait x l next .parked)
  | relock {l next : L} (m) (h : m.locked = false) (hp : m.poisoned = false) :
      Move P i x asleep m (.wait x l next .relock) { m with locked := true }
        (.wait x l next .leave)
  | relockPanic {l next : L} (m) (h : m.locked = false) (hp : m.poisoned = true) :
      Move P i x asleep m (.wait x l next .relock) m (.panicked next)
  | waitLeave {l next : L} (m) :
      Move P i x asleep m (.wait x l next .leave) m.finish (.out next)
  | postLock {l next : L} (m) (h : m.locked = false) (hp : m.poisoned = false) :
      Move P i x asleep m (.post x l next .lock) { m with locked := true }
        (.post x l next .increment)
  | postLockPanic {l next : L} (m) (h : m.locked = false) (hp : m.poisoned = true) :
      Move P i x asleep m (.post x l next .lock) m (.panicked l)
  | incrementPanic {l next : L} (m) (h : m.value = i32Max) :
      Move P i x asleep m (.post x l next .increment) m.poison (.panicked l)
  | incrementNotify {l next : L} (m) (h : m.value < 0) :
      Move P i x asleep m (.post x l next .increment) m.increment (.post x l next .notify)
  | incrementLeave {l next : L} (m) (h : m.value ≠ i32Max) (hn : 0 ≤ m.value) :
      Move P i x asleep m (.post x l next .increment) m.increment (.post x l next .leave)
  | notifyNobody {l next : L} (m) (h : asleep = 0) :
      Move P i x asleep m (.post x l next .notify) m (.post x l next .leave)
  | postLeave {l next : L} (m) :
      Move P i x asleep m (.post x l next .leave) m.unlock (.out next)

omit [Fintype ι] [DecidableEq ι] [DecidableEq S] in
/-- The statements of `wait` are moves. -/
lemma move_of_wait {i : ι} {x : S} {asleep : ℕ} {l next : L} {p : WaitPoint} {m : Semaphore}
    {r : Semaphore × Outcome WaitPoint} (h : m.wait p = some r) :
    Move P i x asleep m (.wait x l next p) r.1 (.afterWait x l next p r.2) := by
  cases p with
  | lock =>
    simp only [Semaphore.wait, Semaphore.lock] at h
    split_ifs at h with hl hp
    · obtain rfl := Option.some.inj h
      exact .waitLockPanic m (by simpa using hl) hp
    · obtain rfl := Option.some.inj h
      exact .waitLock m (by simpa using hl) (by simpa using hp)
  | decrement =>
    simp only [Semaphore.wait] at h
    split_ifs at h with hv hn
    · obtain rfl := Option.some.inj h
      exact .decrementPanic m hv
    · obtain rfl := Option.some.inj h
      exact .decrementPark m hv (by omega)
    · obtain rfl := Option.some.inj h
      exact .decrementPass m (by omega)
  | park =>
    obtain rfl := Option.some.inj h
    exact .park m
  | parked => cases h
  | relock =>
    simp only [Semaphore.wait, Semaphore.lock] at h
    split_ifs at h with hl hp
    · obtain rfl := Option.some.inj h
      exact .relockPanic m (by simpa using hl) hp
    · obtain rfl := Option.some.inj h
      exact .relock m (by simpa using hl) (by simpa using hp)
  | leave =>
    obtain rfl := Option.some.inj h
    exact .waitLeave m

omit [Fintype ι] [DecidableEq ι] [DecidableEq S] in
/-- The statements of `post` are moves. -/
lemma move_of_post {i : ι} {x : S} {asleep : ℕ} {l next : L} {p : PostPoint} {m : Semaphore}
    {r : Semaphore × Outcome PostPoint} (h : m.post p = some r) (ha : p = .notify → asleep = 0) :
    Move P i x asleep m (.post x l next p) r.1 (.afterPost x l next r.2) := by
  cases p with
  | lock =>
    simp only [Semaphore.post, Semaphore.lock] at h
    split_ifs at h with hl hp
    · obtain rfl := Option.some.inj h
      exact .postLockPanic m (by simpa using hl) hp
    · obtain rfl := Option.some.inj h
      exact .postLock m (by simpa using hl) (by simpa using hp)
  | increment =>
    simp only [Semaphore.post] at h
    split_ifs at h with hv hn
    · obtain rfl := Option.some.inj h
      exact .incrementPanic m hv
    · obtain rfl := Option.some.inj h
      exact .incrementNotify m (by omega)
    · obtain rfl := Option.some.inj h
      exact .incrementLeave m hv (by omega)
  | notify =>
    obtain rfl := Option.some.inj h
    exact .notifyNobody m (ha rfl)
  | leave =>
    obtain rfl := Option.some.inj h
    exact .postLeave m

/-- **Everything one step can do**: a thread moves on a semaphore, an act is executed,
`notify_one` selects a parked thread, or a parked thread wakes spuriously. -/
theorem step_cases {s s' : State ι S D L} {a : Label ι χ} (h : (machine P v).step s a = some s') :
    (∃ i c x m pl, a = .run i c ∧
        Move P i x (s.waiting x .parked) (s.sem x) (s.place i) m pl ∧ s' = s.move i x m pl) ∨
      (∃ i c l f d l', a = .run i c ∧ s.place i = .out l ∧ P.code i l = some (.act f) ∧
        f c s.data = some (d, l') ∧
        s' = { s with data := d, place := Function.update s.place i (.out l') }) ∨
      (∃ i j x l next l' next', a = .notify i j ∧ s.place i = .post x l next .notify ∧
        s.place j = .wait x l' next' .parked ∧
        s' = (s.move i x (s.sem x) (.post x l next .leave)).move j x (s.sem x).grant
          (.wait x l' next' .relock)) ∨
      (∃ j x l next, a = .spurious j ∧ s.place j = .wait x l next .parked ∧
        s' = s.move j x (s.sem x) (.wait x l next .relock)) := by
  cases a with
  | run i c =>
    simp only [machine] at h
    split at h
    · rename_i l hl
      split at h
      · cases h
      · rename_i x next intr hc
        obtain rfl := Option.some.inj h
        exact .inl ⟨i, c, x, _, _, rfl, by rw [hl]; exact .callWait _ hc, rfl⟩
      · rename_i x next hc
        obtain rfl := Option.some.inj h
        exact .inl ⟨i, c, x, _, _, rfl, by rw [hl]; exact .callPost _ hc, rfl⟩
      · rename_i f hc
        obtain ⟨⟨d, l'⟩, hf, rfl⟩ := Option.map_eq_some_iff.mp h
        exact .inr (.inl ⟨i, c, l, f, d, l', rfl, hl, hc, hf, rfl⟩)
    · rename_i x l next p hl
      obtain ⟨r, hr, rfl⟩ := Option.map_eq_some_iff.mp h
      exact .inl ⟨i, c, x, _, _, rfl, by rw [hl]; exact move_of_wait hr, rfl⟩
    · rename_i x l next p hl
      split_ifs at h with hn
      obtain ⟨r, hr, rfl⟩ := Option.map_eq_some_iff.mp h
      refine .inl ⟨i, c, x, _, _, rfl, ?_, rfl⟩
      rw [hl]
      exact move_of_post hr fun hp => not_not.mp fun hne => hn ⟨hp, hne⟩
    · cases h
  | notify i j =>
    simp only [machine] at h
    split at h
    · rename_i x l next y l' next' hi hj
      split_ifs at h with hy
      obtain rfl := Option.some.inj h
      subst hy
      exact .inr (.inr (.inl ⟨i, j, y, l, next, l', next', rfl, hi, hj, rfl⟩))
    · cases h
  | spurious j =>
    simp only [machine] at h
    split at h
    · rename_i x l next hj
      obtain rfl := Option.some.inj h
      exact .inr (.inr (.inr ⟨j, x, l, next, rfl, hj, rfl⟩))
    · cases h

end Rust

end PosixIntro
