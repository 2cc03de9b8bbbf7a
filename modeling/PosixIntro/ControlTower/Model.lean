import PosixIntro.Concurrency.Joining

set_option relaxedAutoImplicit false
set_option autoImplicit false

/-!
# Airplanes and a control tower (`lab04`, `lab06`)

Five airplanes ask a control tower for permission to land, and land one at a time. In `c_lab04.c`,
`cc_lab04.cc` and `r_lab04.rs` a mutex guards the runway, in `c_lab06.c`, `cc_lab06.cc` and
`r_lab06.rs` a binary semaphore.

## Main definitions

* `Guard`, `Version` — the two families and the three languages.
* `request`, `landing` — what is written for an airplane that asks for permission, and for one that
  has got it.
* `airplanes`, `main`, `team` — what an airplane does, the main thread, and the program.

## Design

A call of `printf`, `puts` or `println!` writes a line; in C++ every `<<` writes its operand. In C and
Rust an airplane writes its request without the lock. In C++ it does so in a section of its own when a
mutex guards the runway; with the semaphore the main thread writes it, before it creates the airplane.
The semaphore of `r_lab06.rs` is the one of `semaphore.rs`, so `team` is what it would be over a
semaphore of the operating system; `RustSemaphore` says what is between the two.
-/

namespace PosixIntro

namespace ControlTower

/-- The number of airplanes. -/
abbrev NO_TH : ℕ := 5

/-- What guards the runway. -/
inductive Guard where
  | mutex
  | semaphore
  deriving DecidableEq

/-- The three programs of a family. -/
inductive Version where
  | c
  | cpp
  | rust
  deriving DecidableEq

/-- The airplanes, by the indices of their threads; `none` is the main thread. -/
abbrev Thread := Option (Fin NO_TH)

/-- The number of an airplane. -/
def airplaneId (n : Fin NO_TH) : ℕ := n + 1

/-- The request of airplane `n`. -/
def request (n : ℕ) : Version → List String
  | .cpp => ["Airplane ", toString n, " => Control tower: permission to land", "\n"]
  | _ => ["Airplane " ++ toString n ++ " => Control tower: permission to land\n"]

/-- The landing of airplane `n`. -/
def landing (n : ℕ) : Version → List String
  | .c =>
    ["Control tower => Airplane " ++ toString n ++ ": Permission granted\n",
      "Airplane " ++ toString n ++ " => Control tower: I have landed to runway\n",
      "Control tower => everyone: Runway is available\n"]
  | .cpp =>
    ["Control tower => Airplane ", toString n, ": Permission granted", "\n",
      "Airplane ", toString n, " => Control tower: I have landed the runway", "\n",
      "Control tower => everyone: Runway is available", "\n"]
  | .rust =>
    ["Control tower = Airplane " ++ toString n ++ ": Permission granted\n",
      "Airplane " ++ toString n ++ " => Control tower: I have landed to runway\n",
      "Control tower => everyone: Runway is available\n"]

/-- `airplanes`: what an airplane does. -/
def airplanes (n : ℕ) : Guard → Version → List (Part Thread String)
  | .mutex, .cpp => [.guarded (request n .cpp), .guarded (landing n .cpp)]
  | .semaphore, .cpp => [.guarded (landing n .cpp)]
  | _, v => (request n v).map .free ++ [.guarded (landing n v)]

/-- The creation of the airplanes. In `add_airplanes` of `cc_lab06.cc` the main thread writes the
requests. -/
def addAirplanes : Guard → Version → List (Part Thread String)
  | .semaphore, .cpp => (List.finRange NO_TH).flatMap fun n =>
      (request (airplaneId n) .cpp).map .free ++ [.spawn (some n)]
  | _, _ => (List.finRange NO_TH).map fun n => .spawn (some n)

/-- `wait_threads`. -/
def waitThreads : List (Part Thread String) := ((List.finRange NO_TH).map some).map .join

/-- What the main thread writes at the end: in `cc_lab06.cc` the destructor of `Semaphore` writes the
result of `rk_sema_destroy`, which nobody uses any more. -/
def farewell : Guard → Version → List String
  | .semaphore, .cpp => ["semaphore done: ", toString 0, "\n", "main done", "\n"]
  | _, _ => []

/-- The main thread. -/
def main (k : Guard) (v : Version) : List (Part Thread String) :=
  addAirplanes k v ++ (waitThreads ++ (farewell k v).map .free)

/-- What the threads do. -/
def script (k : Guard) (v : Version) : Thread → List (Part Thread String)
  | none => main k v
  | some n => airplanes (airplaneId n) k v

/-- The program. -/
def team (k : Guard) (v : Version) : ForkJoin Thread String (List String) :=
  writers (script k v) none

/-- A state of the program. -/
abbrev State := Config Thread Unit (Shared Thread String (List String)) (Spot Thread String)

/-! ### The code of the threads -/

/-- The main thread has no section. -/
lemma blocks_main (k : Guard) (v : Version) : blocks (script k v none) = [] := by
  cases k <;> cases v <;> rfl

/-- The sections of an airplane. -/
lemma blocks_airplanes (k : Guard) (v : Version) (n : Fin NO_TH) :
    blocks (script k v (some n)) = if k = .mutex ∧ v = .cpp
      then [request (airplaneId n) .cpp, landing (airplaneId n) .cpp]
      else [landing (airplaneId n) v] := by
  cases k <;> cases v <;> rfl

/-- The main thread creates every airplane before it joins it. -/
lemma forked (k : Guard) (v : Version) : (team k v).Forked := by
  refine ForkJoin.Forked.of_script (addAirplanes k v) ((List.finRange NO_TH).map some)
    ((farewell k v).map .free) rfl (fun j hj => ?_) (fun j => ?_) (by simp)
    (by simp [team, writers]) fun i hi p hp => ?_
  · obtain ⟨n, rfl⟩ := Option.ne_none_iff_exists'.mp hj
    cases k <;> cases v <;> simp [addAirplanes]
  · cases k <;> cases v <;> simp [addAirplanes]
  · obtain ⟨n, rfl⟩ := Option.ne_none_iff_exists'.mp hi
    change p ∈ airplanes (airplaneId n) k v at hp
    cases k <;> cases v <;> simp [airplanes, request] at hp <;> rcases hp with rfl | rfl <;> simp

end ControlTower

end PosixIntro
