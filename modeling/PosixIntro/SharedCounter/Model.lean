import PosixIntro.Concurrency.Joining

set_option relaxedAutoImplicit false
set_option autoImplicit false

/-!
# Ten threads that count in turns (`c_lab03_a.c`, `cc_lab03_a.cc`, `r_lab03_a.rs`)

Each of `NO_TH` threads takes a mutex once and prints `N_MAX` lines with the values of a counter
that all threads share. Threads with an even index run the first of two functions, the others the
second.

## Main definitions

* `Version` — the C, the C++ and the Rust program.
* `round`, `func` — one round of the loop of a thread, and what a thread does.
* `main`, `team` — the main thread, and the program.

## Design

A statement is a function on the variables and the output. `counter++` is a statement of its own:
its value is an argument of the `printf` that comes after it. In C and Rust one call writes a whole
line. In C++ every `<<` writes its operand, so a line is written in pieces. The counter starts at
`1` and is only incremented, so it is a natural number; that it stays in its type is a theorem.
-/

namespace PosixIntro

namespace SharedCounter

/-- The number of threads. -/
abbrev NO_TH : ℕ := 10

/-- The number of lines that a thread prints. -/
def N_MAX : ℕ := 50

/-- The three programs. -/
inductive Version where
  | c
  | cpp
  | rust
  deriving DecidableEq

/-- The threads, by the index that they get from the main thread, which is `none`. -/
abbrev Thread := Option (Fin NO_TH)

/-- The counter, the value of `counter++` in each thread, and what has been written. -/
structure Store where
  counter : ℕ
  value : Fin NO_TH → ℕ
  stdout : List String

/-- A statement. -/
abbrev Act := Store → Store

/-- Write a text. -/
def write (text : String) : Act := fun st => { st with stdout := st.stdout ++ [text] }

/-- `counter++`, evaluated by thread `n`. -/
def fetch (n : Fin NO_TH) : Act := fun st =>
  { st with counter := st.counter + 1, value := Function.update st.value n st.counter }

/-- The line of `printf("Function 1 = %d; Thread %d\n", …)`, and of `println!` in Rust. -/
def line (fn counter thread : ℕ) : String :=
  "Function " ++ toString fn ++ " = " ++ toString counter ++ "; Thread " ++ toString thread ++ "\n"

/-- What `setfill('0') << setw(w) << n` writes. -/
def setw (w n : ℕ) : String :=
  String.ofList (List.replicate (w - (toString n).length) '0') ++ toString n

/-- `printf`, with the value that thread `n` has fetched. -/
def printf (fn : ℕ) (n : Fin NO_TH) : Act := fun st =>
  write (line fn (st.value n) (n + 1)) st

/-- `println!("Function 1 = {}; Thread {}", *c, i + 1)`. -/
def println (fn : ℕ) (n : Fin NO_TH) : Act := fun st => write (line fn st.counter (n + 1)) st

/-- `setfill('0') << setw(3) << cnt++`, with the value that thread `n` has fetched. -/
def insertCount (n : Fin NO_TH) : Act := fun st => write (setw 3 (st.value n)) st

/-- `*c += 1`. -/
def increment : Act := fun st => { st with counter := st.counter + 1 }

/-- One round of the loop of `func1` (`fn = 1`) or `func2` (`fn = 2`) in thread `n`. -/
def round (fn : ℕ) (n : Fin NO_TH) : Version → List Act
  | .c => [fetch n, printf fn n]
  | .cpp => [write "Function ", write (toString fn), write " = ", fetch n, insertCount n,
      write "; Thread ", write (setw 2 (n + 1)), write "\n"]
  | .rust => [println fn n, increment]

/-- What a thread does between taking and releasing the mutex: `N_MAX` rounds. -/
def rounds (v : Version) (fn : ℕ) (n : Fin NO_TH) : List Act :=
  (List.replicate N_MAX (round fn n v)).flatten

/-- `func1` and `func2`: the mutex is held from the beginning to the end. -/
def func (v : Version) (fn : ℕ) (n : Fin NO_TH) : List (Part Thread Act) := [.guarded (rounds v fn n)]

/-- The function that `main` gives to the thread with index `n`. -/
def functionOf (n : Fin NO_TH) : ℕ := if n.val % 2 = 0 then 1 else 2

/-- `main`: create the threads in the order of their indices, then `wait_threads`. -/
def main : List (Part Thread Act) :=
  (List.finRange NO_TH).map (fun n => .spawn (some n)) ++
    ((List.finRange NO_TH).map some).map .join

/-- The program. -/
def team (v : Version) : ForkJoin Thread Act Store where
  script
    | none => main
    | some n => func v (functionOf n) n
  root := none
  apply f st := f st
  data₀ := ⟨1, fun _ => 0, []⟩

/-! ### What the rounds write -/

/-- What one round writes when the counter is `c`. -/
def texts (c : ℕ) (fn : ℕ) (n : Fin NO_TH) : Version → List String
  | .c => [line fn c (n + 1)]
  | .cpp => ["Function ", toString fn, " = ", setw 3 c, "; Thread ", setw 2 (n + 1), "\n"]
  | .rust => [line fn c (n + 1)]

/-- What thread `n` writes when the counter is `c` at its beginning. -/
def block (v : Version) (c : ℕ) (n : Fin NO_TH) : List String :=
  (List.range N_MAX).flatMap fun k => texts (c + k) (functionOf n) n v

/-- What the threads write when they take the mutex in the order given and the counter is `c` at
the beginning. -/
def printed (v : Version) : ℕ → List (Fin NO_TH) → List String
  | _, [] => []
  | c, n :: order => block v c n ++ printed v (c + N_MAX) order

/-- The state after some statements. -/
def after (fs : List Act) (st : Store) : Store := fs.foldl (fun st f => f st) st

@[simp] lemma after_nil (st : Store) : after [] st = st := rfl

@[simp] lemma after_cons (f : Act) (fs : List Act) (st : Store) :
    after (f :: fs) st = after fs (f st) := rfl

lemma after_append (fs gs : List Act) (st : Store) :
    after (fs ++ gs) st = after gs (after fs st) := List.foldl_append

/-- One round writes its texts and increments the counter. -/
lemma after_round (v : Version) (fn : ℕ) (n : Fin NO_TH) (st : Store) :
    (after (round fn n v) st).counter = st.counter + 1 ∧
      (after (round fn n v) st).stdout = st.stdout ++ texts st.counter fn n v := by
  cases v <;> simp [round, texts, fetch, printf, println, write, insertCount, increment]

/-- Some rounds write their texts with successive values of the counter. -/
lemma after_rounds (v : Version) (fn : ℕ) (n : Fin NO_TH) (m : ℕ) (st : Store) :
    (after (List.replicate m (round fn n v)).flatten st).counter = st.counter + m ∧
      (after (List.replicate m (round fn n v)).flatten st).stdout =
        st.stdout ++ (List.range m).flatMap fun k => texts (st.counter + k) fn n v := by
  induction m with
  | zero => simp
  | succ m ih =>
    obtain ⟨hc, ho⟩ := ih
    obtain ⟨hc', ho'⟩ := after_round v fn n (after (List.replicate m (round fn n v)).flatten st)
    rw [List.replicate_succ', List.flatten_append, List.flatten_singleton, after_append]
    refine ⟨by omega, ?_⟩
    rw [ho', ho, hc, List.range_succ, List.flatMap_append, List.append_assoc]
    simp

/-- The threads write their blocks with successive values of the counter. -/
lemma after_blocks (v : Version) (order : List (Fin NO_TH)) (st : Store) :
    (after (order.flatMap fun n => rounds v (functionOf n) n) st).counter =
        st.counter + N_MAX * order.length ∧
      (after (order.flatMap fun n => rounds v (functionOf n) n) st).stdout =
        st.stdout ++ printed v st.counter order := by
  induction order generalizing st with
  | nil => simp [printed]
  | cons n order ih =>
    obtain ⟨hc, ho⟩ := after_rounds v (functionOf n) n N_MAX st
    obtain ⟨hc', ho'⟩ := ih (after (rounds v (functionOf n) n) st)
    rw [List.flatMap_cons, after_append, rounds] at *
    refine ⟨?_, ?_⟩
    · rw [hc', hc, List.length_cons, Nat.mul_succ]
      omega
    · rw [ho', ho, hc, printed, block, List.append_assoc]

end SharedCounter

end PosixIntro
