import PosixIntro.Concurrency.Joining

set_option relaxedAutoImplicit false
set_option autoImplicit false

/-!
# Two threads that print blocks (`c_lab03_b.c`, `cc_lab03_b.cc`, `r_lab03_b.rs`)

Two threads print blocks of ten lines, a block at a time inside a mutex. In C and Rust each thread
prints its own block ten times. In C++ the loop of a thread runs over the numbers of the threads, so
each thread prints the block of either thread once.

## Main definitions

* `Version`, `printThread` — the three programs, and what `print_thread` writes.
* `func`, `main`, `team` — what a thread does, the main thread, and the program.

## Design

A call of `printf` or `println!` writes a line; in C++ every `<<` writes its operand. What is written
to the standard error stream is recorded with its stream.
-/

namespace PosixIntro

namespace TwoPrinters

/-- The number of threads. -/
abbrev NO_TH : ℕ := 2

/-- The three programs. -/
inductive Version where
  | c
  | cpp
  | rust
  deriving DecidableEq

/-- Where a text is written. -/
inductive Stream where
  | stdout
  | stderr
  deriving DecidableEq

/-- A text that is written. -/
structure Put where
  stream : Stream
  text : String
  deriving DecidableEq

/-- A text on the standard output stream. -/
def out (text : String) : Put := ⟨.stdout, text⟩

/-- A text on the standard error stream. -/
def err (text : String) : Put := ⟨.stderr, text⟩

/-- The threads, by their numbers; `none` is the main thread. -/
abbrev Thread := Option (Fin NO_TH)

/-- One round of the loop of `print_thread(thread)`. The C++ function writes its constant `n` where
the others write the number of the thread. -/
def printRound (thread i : ℕ) : Version → List Put
  | .c =>
    match thread with
    | 0 => [out ("Thread I : i = " ++ toString (i * 1000 + 1) ++ "\n")]
    | 1 => [out ("Thread II : i = " ++ toString (i * 1000 + 1) ++ "\n")]
    | n => [err ("Unknown Thread " ++ toString n ++ "\n")]
  | .cpp =>
    match thread with
    | 0 => [out "Thread I : i = ", out (toString (i * 1000 + 1)), out "\n"]
    | 1 => [out "Thread II : i = ", out (toString (i * 1000 + 1)), out "\n"]
    | _ => [err "Unknown Thread ", err (toString 10), err "\n"]
  | .rust =>
    match thread with
    | 0 => [out ("Thread I : i = " ++ toString (i * 1000 + 1) ++ "\n")]
    | 1 => [out ("Thread II : i = " ++ toString (i * 1000 + 1) ++ "\n")]
    | n => [err ("Unkonwn Thread " ++ toString n ++ "\n")]

/-- `print_thread`. -/
def printThread (v : Version) (thread : ℕ) : List Put :=
  (List.range 10).flatMap fun i => printRound thread i v

/-- What the thread with number `n` does. -/
def func (n : Fin NO_TH) : Version → List (Part Thread Put)
  | .c => List.replicate 10 (.guarded (printThread .c n))
  | .cpp => (List.range NO_TH).map fun i => .guarded (printThread .cpp i)
  | .rust => List.replicate 10 (.guarded (printThread .rust n))

/-- `main`: create the threads, then `wait_threads`. -/
def main : List (Part Thread Put) :=
  (List.finRange NO_TH).map (fun n => .spawn (some n)) ++
    ((List.finRange NO_TH).map some).map .join

/-- What the threads do. -/
def script (v : Version) : Thread → List (Part Thread Put)
  | none => main
  | some n => func n v

/-- The program. -/
def team (v : Version) : ForkJoin Thread Put (List Put) := writers (script v) none

/-! ### The sections of the threads -/

lemma blocks_replicate (k : ℕ) (body : List Put) :
    blocks (List.replicate k (.guarded body : Part Thread Put)) = List.replicate k body := by
  induction k with
  | zero => rfl
  | succ k ih => rw [List.replicate_succ, blocks, ih, List.replicate_succ]

lemma acts_replicate (k : ℕ) (body : List Put) :
    ∀ x ∈ acts (List.replicate k (.guarded body : Part Thread Put)), x.1 = true := by
  induction k with
  | zero => simp [acts]
  | succ k ih =>
    intro x hx
    rcases List.mem_append.mp hx with hx | hx
    · obtain ⟨a, -, rfl⟩ := List.mem_map.mp hx
      rfl
    · exact ih x hx

/-- The threads write in sections only. -/
lemma acts_guarded (v : Version) (i : Thread) : ∀ x ∈ acts (script v i), x.1 = true := by
  cases i with
  | none => simp [script, main, acts, List.finRange]
  | some n =>
    cases v with
    | c => exact acts_replicate 10 _
    | rust => exact acts_replicate 10 _
    | cpp => simp [script, func, acts, List.range, List.range.loop]

/-- The main thread writes nothing. -/
lemma blocks_main (v : Version) : blocks (script v none) = [] := by
  simp [script, main, blocks, List.finRange]

/-- Nothing is written to the standard error stream. -/
lemma stdout_of_mem {v : Version} {i : Thread} {body : List Put} (h : body ∈ blocks (script v i))
    {p : Put} (hp : p ∈ body) : p.stream = .stdout := by
  have hlt : ∀ (n : ℕ), n < 2 → ∀ p ∈ printThread v n, p.stream = .stdout := by
    intro n hn p hp
    obtain ⟨i, -, hp⟩ := List.mem_flatMap.mp hp
    obtain rfl | rfl : n = 0 ∨ n = 1 := by omega
    all_goals cases v <;> simp [printRound, out] at hp <;> rcases hp with rfl | rfl | rfl <;> rfl
  cases i with
  | none => simp [blocks_main] at h
  | some n =>
    cases v with
    | c =>
      rw [script, func, blocks_replicate] at h
      exact hlt n n.isLt p (List.eq_of_mem_replicate h ▸ hp)
    | rust =>
      rw [script, func, blocks_replicate] at h
      exact hlt n n.isLt p (List.eq_of_mem_replicate h ▸ hp)
    | cpp =>
      obtain rfl | rfl : body = printThread .cpp 0 ∨ body = printThread .cpp 1 := by
        simpa [script, func, blocks, List.range, List.range.loop] using h
      · exact hlt 0 (by decide) p hp
      · exact hlt 1 (by decide) p hp

/-- `main` creates both threads before it joins them. -/
lemma forked (v : Version) : (team v).Forked := by
  refine ForkJoin.Forked.of_script ((List.finRange NO_TH).map fun n => .spawn (some n))
    ((List.finRange NO_TH).map some) [] (by simp [team, writers, script, main])
    (fun j hj => ?_) (by simp) (by simp) (by simp [team, writers]) fun i hi p hp => ?_
  · obtain ⟨n, rfl⟩ := Option.ne_none_iff_exists'.mp hj
    simp
  · obtain ⟨n, rfl⟩ := Option.ne_none_iff_exists'.mp hi
    change p ∈ func n v at hp
    cases v with
    | c => exact .inr ⟨_, List.eq_of_mem_replicate hp⟩
    | rust => exact .inr ⟨_, List.eq_of_mem_replicate hp⟩
    | cpp =>
      obtain ⟨i, -, rfl⟩ := List.mem_map.mp hp
      exact .inr ⟨_, rfl⟩

end TwoPrinters

end PosixIntro
