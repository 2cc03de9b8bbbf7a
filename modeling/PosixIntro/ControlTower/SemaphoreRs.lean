import PosixIntro.ControlTower.Landings
import PosixIntro.RustSemaphore.ForkJoin

set_option relaxedAutoImplicit false
set_option autoImplicit false

/-!
# `r_lab06.rs`

The airplanes of `r_lab06.rs` wait and post on a `Semaphore::new(1)` of `semaphore.rs`. As long as
`Condvar::wait` returns to the threads that `notify_one` selects only, they land as the airplanes of
`c_lab06.c` do.

## Main definitions

* `tower` — the program.

## Main results

* `landings_rs` — the landings, the absence of panics and the end of a run.
-/

namespace PosixIntro

namespace ControlTower

/-- `r_lab06.rs`. -/
def tower : Machine (Rust.State Thread Unit (Shared Thread String (List String))
    (Spot Thread String)) (Rust.Label Thread Unit) :=
  Rust.forkJoin (team .semaphore .rust)

/-- **The control tower of `r_lab06.rs`.** In every run without spurious wake-ups, the landings are
those of different airplanes, one after the other, and every airplane lands after its request. No
call of `wait` or `post` panics. The run has a bounded number of steps; while some thread has not
returned, it can go on; and when all have returned, every airplane has landed. -/
theorem landings_rs {tr : List (Rust.State Thread Unit (Shared Thread String (List String))
      (Spot Thread String) × Rust.Label Thread Unit)}
    {s : Rust.State Thread Unit (Shared Thread String (List String)) (Spot Thread String)}
    (h : tower.Path tr s) (hok : ∀ x ∈ tr, Rust.Notified x.1 x.2) :
    (∃ order, LandInOrder .rust s.data.history order) ∧
      (∀ n, trace (some n) s.data.history <+: (request (airplaneId n) .rust).map (false, ·) ++
        (landing (airplaneId n) .rust).map (true, ·)) ∧
      (∀ i l, s.place i ≠ .panicked l) ∧
      tr.length ≤ 8 * ForkJoin.left (team .semaphore .rust).machine.init ∧
      ((∃ i, s.place i ≠ .out .gone) →
        ∃ a s', Rust.Notified s a ∧ tower.step s a = some s') ∧
      ((∀ i, s.place i = .out .gone) → ∃ order : List (Fin NO_TH), order.Nodup ∧
        (∀ n, n ∈ order) ∧ critical s.data.history =
          flat (order.map fun n => (some n, landing (airplaneId n) .rust))) := by
  have hr : tower.ReachIf Rust.Notified s := h.reachIf hok
  have hcard : Fintype.card Thread ≤ 2 ^ 31 := by decide
  obtain ⟨horder, htrace, hgone⟩ :=
    landings (k := .semaphore) (v := .rust) (by decide) (Rust.forkJoin_reach hr)
  refine ⟨horder, htrace, Rust.forkJoin_not_panicked hcard hr, Rust.forkJoin_length_le h,
    Rust.forkJoin_canStep (forked _ _) hcard hr, fun hall => hgone fun i => ?_⟩
  show (s.place i).site = .gone
  rw [hall i]
  rfl

/-- The main thread creates the airplanes. While the first one lands the next two ask and are parked;
it wakes one of them, which begins its landing. -/
def runParked : List (Rust.Label Thread Unit) :=
  List.replicate 6 (.run none ()) ++ List.replicate 6 (.run (some 0) ()) ++
    List.replicate 6 (.run (some 1) ()) ++ List.replicate 6 (.run (some 2) ()) ++
    List.replicate 6 (.run (some 0) ()) ++ [.notify (some 0) (some 1), .run (some 0) ()] ++
    List.replicate 3 (.run (some 1) ())

/-- An airplane has landed, another one is landing, and a third one is parked. -/
theorem landings_rs_parked : ∃ s, tower.ReachIf Rust.Notified s ∧
    (∃ l next, s.place (some 2) = .wait () l next .parked) ∧
      critical s.data.history = (landing 1 .rust).map ((some 0, ·) : String → Thread × String) ++
        ((landing 2 .rust).take 1).map ((some 1, ·) : String → Thread × String) ∧
      (∃ order, LandInOrder .rust s.data.history order) ∧ (∀ i l, s.place i ≠ .panicked l) ∧
      ∃ a s', Rust.Notified s a ∧ tower.step s a = some s' := by
  have hrun : ∃ s, tower.exec tower.init runParked = some s ∧
      (∃ l next, s.place (some 2) = .wait () l next .parked) ∧
      critical s.data.history = (landing 1 .rust).map ((some 0, ·) : String → Thread × String) ++
        ((landing 2 .rust).take 1).map ((some 1, ·) : String → Thread × String) :=
    ⟨_, rfl, ⟨_, _, rfl⟩, rfl⟩
  obtain ⟨s, hexec, hparked, hcrit⟩ := hrun
  obtain ⟨tr, hp, hlabels⟩ := Machine.exists_path_of_exec hexec
  have hok : ∀ x ∈ tr, Rust.Notified x.1 x.2 := by
    intro x hx j hj
    have hmem : Rust.Label.spurious j ∈ runParked := by
      rw [← hlabels, ← hj]
      exact List.mem_map_of_mem hx
    simp [runParked] at hmem
  obtain ⟨horder, -, hpanic, -, hcan, -⟩ := landings_rs hp hok
  obtain ⟨l, next, hl⟩ := hparked
  exact ⟨s, hp.reachIf hok, ⟨l, next, hl⟩, hcrit, horder, hpanic, hcan ⟨some 2, by simp [hl]⟩⟩

end ControlTower

end PosixIntro
