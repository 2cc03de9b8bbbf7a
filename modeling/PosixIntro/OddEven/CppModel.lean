import PosixIntro.OddEven.CModel

set_option relaxedAutoImplicit false
set_option autoImplicit false

/-!
# The C++ odd/even counter (`Binary::Semaphore` of `buffer.hh`)

Two threads run the same `print_number`. A thread decides about its end after it has posted, by the
shared counter, which the other thread may have incremented by then.

## Main definitions

* `printNumber` — the statements of `print_number`.
* `program`, `machine` — the two threads of `Binary::Semaphore<LEN>`.
* `handover`, `rounds` — it is a handover whose rounds are finite.

## Design

`counter` is a `std::size_t` and wraps. `fetched` is history: how often it has been incremented.
-/

namespace PosixIntro

namespace CppOddEven

/-- The number of values of a `std::size_t`. -/
def sizeT : ℕ := 2 ^ 64

/-- The shared variables and the output. -/
structure Store where
  counter : ℕ
  stdout : List Line
  fetched : ℕ

/-- The program points of `print_number`, with the number that is being printed. -/
inductive Loc where
  | wait
  | fetch
  | print (n : ℕ)
  | post
  | test
  | returned
  deriving DecidableEq

/-- `msg << " number is " << n << std::endl`, where `msg` depends on `is_odd`. -/
def line : Side → ℕ → Line
  | .odd, n => ⟨.odd, n, "[thread1] Odd number is " ++ toString n ++ "\n"⟩
  | .even, n => ⟨.even, n, "[thread2] Even number is " ++ toString n ++ "\n"⟩

/-- `counter++`. -/
def Store.increment (w : Store) : Store :=
  { w with counter := (w.counter + 1) % sizeT, fetched := w.fetched + 1 }

/-- `print_number`, where `t` is the odd thread if `is_odd`. -/
def printNumber (LEN : ℕ) (t : Side) : Loc → Option (Stmt Side Unit Store Loc)
  | .wait => some (rkSemaWait .wait t .fetch)
  | .fetch => some (.act fun _ w => some (w.increment, .print w.counter))
  | .print n => some (.update (fun w => { w with stdout := w.stdout ++ [line t n] }) .post)
  | .post => some (rkSemaPost t.other .test)
  -- `while (counter < LEN)`
  | .test => some (.act fun _ w => some (w, if w.counter < LEN then .wait else .returned))
  | .returned => none

/-- The two threads that `run` starts. -/
def program (LEN : ℕ) : Program Side Side Unit Store Loc where
  code := printNumber LEN
  handler _ := none
  data₀ := ⟨1, [], 0⟩
  loc₀ _ := .wait

/-- The values that the constructor passes to `rk_sema_init`. -/
def initSemaphores : Side → ℕ
  | .odd => (rkSemaInit 0 1).2
  | .even => (rkSemaInit 0 0).2

/-- The interleavings of the program. -/
def machine (LEN : ℕ) : Machine (Config Side Side Store Loc) (Label Side Unit) :=
  (program LEN).machine initSemaphores

/-! ### The statements -/

variable {LEN : ℕ}

lemma initSemaphores_eq : initSemaphores = oddFirst := by
  funext t
  cases t <;> rfl

lemma sizeT_pos : 0 < sizeT := Nat.two_pow_pos 64

/-- The wait. -/
lemma code_wait {t x : Side} {l next intr : Loc}
    (h : (program LEN).code t l = some (.wait x next intr)) :
    intr = l ∧ x = t ∧ l = .wait ∧ next = .fetch := by
  cases l <;> simp [program, printNumber, rkSemaWait, rkSemaPost, Stmt.update] at h
  obtain ⟨rfl, rfl, rfl⟩ := h
  exact ⟨rfl, rfl, rfl, rfl⟩

/-- The post. -/
lemma code_post {t x : Side} {l next : Loc} (h : (program LEN).code t l = some (.post x next)) :
    x = t.other ∧ l = .post ∧ next = .test := by
  cases l <;> simp [program, printNumber, rkSemaWait, rkSemaPost, Stmt.update] at h
  obtain ⟨rfl, rfl⟩ := h
  exact ⟨rfl, rfl, rfl⟩

/-- The other statements. -/
lemma code_act {t : Side} {l l' : Loc} {f : Unit → Store → Option (Store × Loc)} {c : Unit}
    {w w' : Store} (h : (program LEN).code t l = some (.act f)) (hf : f c w = some (w', l')) :
    (l = .fetch ∧ l' = .print w.counter ∧ w' = w.increment) ∨
      (∃ n, l = .print n ∧ l' = .post ∧ w' = { w with stdout := w.stdout ++ [line t n] }) ∨
      (l = .test ∧ l' = (if w.counter < LEN then .wait else .returned) ∧ w' = w) := by
  cases l with
  | wait | post | returned => simp [program, printNumber, rkSemaWait, rkSemaPost] at h
  | fetch | print | test =>
    simp only [program, printNumber, Stmt.update, Option.some.injEq, Stmt.act.injEq] at h
    subst h
    obtain ⟨rfl, rfl⟩ := by simpa using hf
    simp

/-- Only waits block. -/
lemma code_total {t : Side} {l : Loc} {f : Unit → Store → Option (Store × Loc)} (w : Store)
    (h : (program LEN).code t l = some (.act f)) : ∃ c r, f c w = some r := by
  cases l <;> simp only [program, printNumber, rkSemaWait, rkSemaPost, Stmt.update,
    Option.some.injEq, Stmt.act.injEq, reduceCtorEq] at h <;> subst h <;> exact ⟨(), _, rfl⟩

lemma code_eq_none {t : Side} {l : Loc} : (program LEN).code t l = none ↔ l = .returned := by
  cases l <;> simp [program, printNumber]

/-! ### The handover -/

/-- The line for the `n`th number taken. -/
def wrappedLine (t : Side) (n : ℕ) : Line := line t (n % sizeT)

/-- Where in its round a thread is. -/
def turn (t : Side) : Loc → Turn Line
  | .fetch => .before
  | .print n => .between (line t n)
  | .post => .after
  | .wait | .test | .returned => .idle

/-- The counter tells, modulo its size, how many numbers have been taken. -/
def Counts (w : Store) : Prop := w.counter = (w.fetched + 1) % sizeT

/-- An increment keeps the counter in step. -/
lemma Counts.increment {w : Store} (h : Counts w) : Counts w.increment := by
  show (w.counter + 1) % sizeT = (w.fetched + 1 + 1) % sizeT
  rw [h, Nat.mod_add_mod]

/-- The program is a handover. -/
def handover (LEN : ℕ) : Handover (program LEN) wrappedLine where
  turn := turn
  count w := w.fetched
  out w := w.stdout
  Fits := Counts
  retries _ _ _ _ _ h := (code_wait h).1
  handler _ := rfl
  start _ := rfl
  count_start := rfl
  out_start := rfl
  fits_start := by
    show 1 = (0 + 1) % sizeT
    decide
  wait h := by
    obtain ⟨-, rfl, rfl, rfl⟩ := code_wait h
    exact ⟨rfl, rfl, rfl⟩
  post h := by
    obtain ⟨rfl, rfl, rfl⟩ := code_post h
    exact ⟨rfl, rfl, rfl⟩
  act {t l f c w w' l'} h hf hw := by
    rcases code_act h hf with ⟨rfl, rfl, rfl⟩ | ⟨n, rfl, rfl, rfl⟩ | ⟨rfl, rfl, rfl⟩
    · refine ⟨hw.increment, .inr (.inl ⟨rfl, ?_, rfl, rfl⟩)⟩
      show Turn.between (line t w.counter) = .between (wrappedLine t (w.fetched + 1))
      rw [wrappedLine, ← hw]
    · exact ⟨hw, .inr (.inr ⟨line t n, rfl, rfl, rfl, rfl⟩)⟩
    · refine ⟨hw, .inl ⟨?_, rfl, rfl⟩⟩
      split_ifs <;> rfl

/-- The statements that are left in a round. -/
def rank : Loc → ℕ
  | .print _ => 4
  | .post => 3
  | .test => 2
  | .wait => 1
  | .fetch | .returned => 0

/-- The rounds are finite. -/
def rounds (LEN : ℕ) : (handover LEN).Rounds where
  total w h := code_total w h
  rank := rank
  round := 5
  rank_wait h := by
    obtain ⟨-, -, rfl, rfl⟩ := code_wait h
    decide
  rank_post h := by
    obtain ⟨-, rfl, rfl⟩ := code_post h
    decide
  rank_act {t l f c w w' l'} h hf hw := by
    rcases code_act h hf with ⟨rfl, rfl, rfl⟩ | ⟨n, rfl, rfl, rfl⟩ | ⟨rfl, rfl, rfl⟩
    · simp only [handover, Store.increment, rank]
      omega
    · simp only [handover, rank]
      omega
    · split_ifs <;> simp [rank]

end CppOddEven

end PosixIntro
