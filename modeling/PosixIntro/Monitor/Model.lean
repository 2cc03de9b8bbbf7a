import PosixIntro.Concurrency.Crew

set_option relaxedAutoImplicit false
set_option autoImplicit false

/-!
# The monitor of `simple_monitor.h`

Threads that call `monitor_wait` block until other threads have called `monitor_knock` often enough.
A mutex protects the counter of the knocks and the flag `somebody_waits`.

## Main definitions

* `MonitorTag` — the monitor, with the threads that are blocked and not yet selected.
* `Loc`, `next`, `crew`, `machine` — the two functions, statement by statement, called by any
  number of threads any number of times.

## Main results

* `Move` with `move_of_next` — everything a step can do.
* `guarded` — who is inside the mutex, and the range of the counter.

## Design

There are no spurious wake-ups: a blocked thread goes on when `pthread_cond_signal` has selected it
and the mutex is free. Which thread is selected is a choice of the system. `knocks`, and the number
in the locations of `monitor_wait`, are history.
-/

namespace PosixIntro

namespace Monitor

/-- `MAX_NUM`. -/
def maxNum : ℕ := 10

/-- `monitor_tag`. -/
structure MonitorTag (ι : Type*) where
  cnt : ℕ
  somebodyWaits : ℕ
  /-- The thread that has locked `mut`. -/
  owner : Option ι
  /-- The threads that wait at `cond` and that no signal has selected. -/
  cond : Finset ι
  /-- How many calls of `monitor_knock` have been executed. -/
  knocks : ℕ

/-- `monitor_init`. -/
def monitorInit (ι : Type*) : MonitorTag ι := ⟨0, 0, none, ∅, 0⟩

/-- The program points of a thread. In `monitor_wait`, `k` is the number of knocks executed when the
thread began to wait. -/
inductive Loc where
  /-- Between two calls. -/
  | idle
  /-- `pthread_mutex_lock` in `monitor_wait`. -/
  | lockWait
  /-- `m->somebody_waits = 1`. -/
  | setWaits
  /-- `pthread_cond_wait` is called. -/
  | condWait (k : ℕ)
  /-- Inside `pthread_cond_wait`, the mutex is released. -/
  | waiting (k : ℕ)
  /-- `m->somebody_waits = 0`. -/
  | clearWaits (k : ℕ)
  /-- `pthread_mutex_unlock` in `monitor_wait`. -/
  | unlockWait (k : ℕ)
  /-- `pthread_mutex_lock` in `monitor_knock`. -/
  | lockKnock
  /-- `if (m->somebody_waits == 1)`. -/
  | testWaits
  /-- `m->cnt++`. -/
  | increment
  /-- `if (m->cnt == MAX_NUM)`. -/
  | testCnt
  /-- `pthread_cond_signal`. -/
  | signal
  /-- `m->cnt = 0`. -/
  | reset
  /-- `pthread_mutex_unlock` in `monitor_knock`. -/
  | unlockKnock
  deriving DecidableEq

/-- What is not the monitor's own choice: which function a thread calls and which thread a signal
selects. -/
inductive Choice (ι : Type*) where
  | wait
  | knock
  | select (w : ι)
  deriving DecidableEq

variable {ι : Type*} [DecidableEq ι]

/-- The next step of the thread `i`. -/
def next (i : ι) (c : Choice ι) (m : MonitorTag ι) : Loc → Option (MonitorTag ι × Loc)
  | .idle =>
    match c with
    | .wait => some (m, .lockWait)
    | .knock => some (m, .lockKnock)
    | .select _ => none
  | .lockWait => if m.owner = none then some ({ m with owner := some i }, .setWaits) else none
  | .setWaits => some ({ m with somebodyWaits := 1 }, .condWait m.knocks)
  | .condWait k => some ({ m with owner := none, cond := insert i m.cond }, .waiting k)
  | .waiting k =>
    if i ∉ m.cond ∧ m.owner = none then some ({ m with owner := some i }, .clearWaits k) else none
  | .clearWaits k => some ({ m with somebodyWaits := 0 }, .unlockWait k)
  | .unlockWait _ => some ({ m with owner := none }, .idle)
  | .lockKnock => if m.owner = none then some ({ m with owner := some i }, .testWaits) else none
  | .testWaits => some (m, if m.somebodyWaits = 1 then .increment else .unlockKnock)
  | .increment => some ({ m with cnt := m.cnt + 1 }, .testCnt)
  | .testCnt => some (m, if m.cnt = maxNum then .signal else .unlockKnock)
  | .signal =>
    if m.cond = ∅ then some (m, .reset)
    else match c with
      | .select w => if w ∈ m.cond then some ({ m with cond := m.cond.erase w }, .reset) else none
      | _ => none
  | .reset => some ({ m with cnt := 0 }, .unlockKnock)
  | .unlockKnock => some ({ m with owner := none, knocks := m.knocks + 1 }, .idle)

/-- The threads `ι`. -/
def crew (ι : Type*) [DecidableEq ι] : Crew ι (MonitorTag ι) Loc (Choice ι) where
  shared₀ := monitorInit ι
  loc₀ _ := .idle
  next := next

/-- A joint state of the threads. -/
abbrev State (ι : Type*) := Crew.State ι (MonitorTag ι) Loc

/-- The interleavings of the threads. -/
def machine (ι : Type*) [DecidableEq ι] : Machine (State ι) (ι × Choice ι) := (crew ι).machine

/-- The steps of a thread. -/
inductive Move (i : ι) (c : Choice ι) (m : MonitorTag ι) : Loc → MonitorTag ι → Loc → Prop
  | callWait (h : c = .wait) : Move i c m .idle m .lockWait
  | callKnock (h : c = .knock) : Move i c m .idle m .lockKnock
  | lockWait (h : m.owner = none) : Move i c m .lockWait { m with owner := some i } .setWaits
  | setWaits : Move i c m .setWaits { m with somebodyWaits := 1 } (.condWait m.knocks)
  | condWait (k) : Move i c m (.condWait k)
      { m with owner := none, cond := insert i m.cond } (.waiting k)
  | wake (k) (hsel : i ∉ m.cond) (h : m.owner = none) : Move i c m (.waiting k)
      { m with owner := some i } (.clearWaits k)
  | clearWaits (k) : Move i c m (.clearWaits k) { m with somebodyWaits := 0 } (.unlockWait k)
  | unlockWait (k) : Move i c m (.unlockWait k) { m with owner := none } .idle
  | lockKnock (h : m.owner = none) : Move i c m .lockKnock { m with owner := some i } .testWaits
  | waited (h : m.somebodyWaits = 1) : Move i c m .testWaits m .increment
  | unwaited (h : m.somebodyWaits ≠ 1) : Move i c m .testWaits m .unlockKnock
  | increment : Move i c m .increment { m with cnt := m.cnt + 1 } .testCnt
  | full (h : m.cnt = maxNum) : Move i c m .testCnt m .signal
  | more (h : m.cnt ≠ maxNum) : Move i c m .testCnt m .unlockKnock
  | signalNobody (h : m.cond = ∅) : Move i c m .signal m .reset
  | signal (w) (hc : c = .select w) (h : w ∈ m.cond) : Move i c m .signal
      { m with cond := m.cond.erase w } .reset
  | reset : Move i c m .reset { m with cnt := 0 } .unlockKnock
  | unlockKnock : Move i c m .unlockKnock { m with owner := none, knocks := m.knocks + 1 } .idle

variable {i : ι} {c : Choice ι} {m m' : MonitorTag ι} {l l' : Loc}

/-- **Every step is one of the moves.** -/
theorem move_of_next (h : next i c m l = some (m', l')) : Move i c m l m' l' := by
  cases l with
  | idle =>
    cases c with
    | wait =>
      obtain ⟨rfl, rfl⟩ := by simpa [next] using h
      exact .callWait rfl
    | knock =>
      obtain ⟨rfl, rfl⟩ := by simpa [next] using h
      exact .callKnock rfl
    | select w => cases h
  | lockWait =>
    obtain ⟨hfree, h⟩ := Option.ite_none_right_eq_some.mp h
    obtain ⟨rfl, rfl⟩ := by simpa using h
    exact .lockWait hfree
  | lockKnock =>
    obtain ⟨hfree, h⟩ := Option.ite_none_right_eq_some.mp h
    obtain ⟨rfl, rfl⟩ := by simpa using h
    exact .lockKnock hfree
  | waiting k =>
    obtain ⟨⟨hsel, hfree⟩, h⟩ := Option.ite_none_right_eq_some.mp h
    obtain ⟨rfl, rfl⟩ := by simpa using h
    exact .wake k hsel hfree
  | setWaits | condWait k | clearWaits k | unlockWait k | increment | reset | unlockKnock =>
    obtain ⟨rfl, rfl⟩ := by simpa [next] using h
    constructor
  | testWaits =>
    by_cases hw : m.somebodyWaits = 1
    · obtain ⟨rfl, rfl⟩ := by simpa [next, hw] using h
      exact .waited hw
    · obtain ⟨rfl, rfl⟩ := by simpa [next, hw] using h
      exact .unwaited hw
  | testCnt =>
    by_cases hc : m.cnt = maxNum
    · obtain ⟨rfl, rfl⟩ := by simpa [next, hc] using h
      exact .full hc
    · obtain ⟨rfl, rfl⟩ := by simpa [next, hc] using h
      exact .more hc
  | signal =>
    by_cases hcond : m.cond = ∅
    · obtain ⟨rfl, rfl⟩ := by simpa [next, hcond] using h
      exact .signalNobody hcond
    · cases c with
      | select w =>
        simp only [next, if_neg hcond] at h
        obtain ⟨hw, h⟩ := Option.ite_none_right_eq_some.mp h
        obtain ⟨rfl, rfl⟩ := by simpa using h
        exact .signal w rfl hw
      | wait | knock => simp [next, hcond] at h

/-- What a step of the machine does. -/
lemma move_of_step {s s' : State ι} (h : (machine ι).step s (i, c) = some s') :
    ∃ m' l', Move i c s.shared (s.loc i) m' l' ∧ s' = ⟨m', Function.update s.loc i l'⟩ := by
  obtain ⟨m', l', hn, rfl⟩ := Crew.step_iff.mp h
  exact ⟨m', l', move_of_next hn, rfl⟩

/-! ### The mutex and the counter -/

/-- The thread has locked the mutex. -/
def Loc.Inside : Loc → Prop
  | .idle | .lockWait | .waiting _ | .lockKnock => False
  | _ => True

/-- The value of the counter while the mutex is locked. -/
def Loc.CntOk (cnt : ℕ) : Loc → Prop
  | .testCnt => cnt ≤ maxNum
  | .signal | .reset => cnt = maxNum
  | _ => cnt < maxNum

/-- What the mutex guards, from the point of view of a thread: it is inside exactly when it has
locked the mutex, and then the counter is in its range; so it is when the mutex is free. -/
structure Guarded (i : ι) (m : MonitorTag ι) (l : Loc) : Prop where
  inside : l.Inside ↔ m.owner = some i
  cnt : l.Inside → l.CntOk m.cnt
  free : m.owner = none → m.cnt < maxNum

/-- A step of the thread itself. -/
lemma Guarded.own (h : Guarded i m l) (hmove : Move i c m l m' l') : Guarded i m' l' := by
  obtain ⟨hin, hcnt, hfree⟩ := h
  cases hmove with
  | callWait | callKnock => exact ⟨hin, fun hin => hin.elim, hfree⟩
  | lockWait hm | lockKnock hm | wake k hsel hm =>
    exact ⟨iff_of_true trivial rfl, fun _ => hfree hm, nofun⟩
  | setWaits | clearWaits | waited | unwaited =>
    exact ⟨hin, fun _ => hcnt trivial, hfree⟩
  | condWait | unlockWait | unlockKnock =>
    exact ⟨iff_of_false id nofun, fun hin => hin.elim, fun _ => hcnt trivial⟩
  | increment =>
    exact ⟨hin, fun _ => hcnt trivial, fun hm => absurd (hm.symm.trans (hin.mp trivial)) nofun⟩
  | full hc => exact ⟨hin, fun _ => hc, hfree⟩
  | more hc => exact ⟨hin, fun _ => Nat.lt_of_le_of_ne (hcnt trivial) hc, hfree⟩
  | signalNobody | signal => exact ⟨hin, fun _ => hcnt trivial, hfree⟩
  | reset => exact ⟨hin, fun _ => (by decide : 0 < maxNum), fun _ => (by decide : 0 < maxNum)⟩

/-- A step leaves the mutex alone, locks it for its thread or unlocks it. -/
lemma Move.owner (h : Move i c m l m' l') :
    m'.owner = m.owner ∨ m'.owner = some i ∨ m'.owner = none := by
  cases h <;> simp

/-- A step of another thread: it changes the counter only inside the mutex. -/
lemma Guarded.other {j : ι} {lj : Loc} (h : Guarded i m l) (hj : Guarded j m lj) (hji : j ≠ i)
    (hmove : Move i c m l m' l') : Guarded j m' lj := by
  have hown := h.own hmove
  have hne : ∀ {x y : ι}, x ≠ y → some x ≠ some y := fun hxy h => hxy (Option.some.inj h)
  by_cases hlocked : m.owner = some i
  · -- the mutex is or was locked by `i`, so `j` is outside
    have hout : ¬ lj.Inside := by
      rw [hj.inside, hlocked]
      exact hne hji.symm
    refine ⟨iff_of_false hout fun hm => ?_, fun hin => (hout hin).elim, hown.free⟩
    rcases hmove.owner with howner | howner | howner
    · exact hne hji.symm (hlocked.symm.trans (howner.symm.trans hm))
    · exact hne hji.symm (howner.symm.trans hm)
    · exact absurd (howner.symm.trans hm) nofun
  · have hout : ¬ l.Inside := fun hin => hlocked (h.inside.mp hin)
    cases hmove with
    | callWait | callKnock => exact hj
    | lockWait hm | lockKnock hm | wake k hsel hm =>
      have houtj : ¬ lj.Inside := by
        rw [hj.inside, hm]
        exact nofun
      exact ⟨iff_of_false houtj (hne hji.symm), fun hin => (houtj hin).elim, nofun⟩
    | _ => exact (hout trivial).elim

/-- **What the mutex guards**, in every reachable state. -/
theorem guarded {ok : State ι → ι × Choice ι → Prop} {s : State ι}
    (h : (machine ι).ReachIf ok s) (i : ι) : Guarded i s.shared (s.loc i) := by
  refine Crew.noninterference (P := crew ι) (I := Guarded) (fun i => ?_) ?_ h i
  · exact ⟨iff_of_false id nofun, fun hin => hin.elim, fun _ => (by decide : 0 < maxNum)⟩
  · intro i c m loc m' l' _ _ hall hn
    have hmove := move_of_next hn
    exact ⟨(hall i).own hmove, fun j hji => (hall i).other (hall j) hji hmove⟩

end Monitor

end PosixIntro
