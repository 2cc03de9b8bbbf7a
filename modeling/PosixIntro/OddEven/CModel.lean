import PosixIntro.Concurrency.Handover
import PosixIntro.PosixSemaphore

set_option relaxedAutoImplicit false
set_option autoImplicit false

/-!
# The C odd/even counter (`c_lab05_a.c`)

Two threads print the numbers up to `MAX_N` in turns. The model is statement by statement; the
increment of `counter++` and the `printf` it is an argument of are two steps.

## Main definitions

* `Line` — a line that one of the threads prints.
* `printOdd`, `printEven` — the statements of `print_odd` and `print_even`.
* `program`, `machine` — the program, with `MAX_N` as the parameter `N`.
* `handover`, `countdown` — it is a handover that counts down to `N`.

## Design

`sem_odd` and `sem_even` are named by the thread that waits on them. `counter` starts at `1` and is
only incremented, so it is a natural number; that it stays an `int32_t` is a theorem.
-/

namespace PosixIntro

/-- A line on the output: the thread that prints it, the number and the text. -/
structure Line where
  thread : Side
  number : ℕ
  text : String

namespace COddEven

/-- The shared variables and the output. -/
structure Store where
  counter : ℕ
  stdout : List Line

/-- The program points of `print_odd` and `print_even`, with the local variable `end` and the
number that is being printed. -/
inductive Loc where
  | wait
  | fetch
  | print (n : ℕ)
  | test
  | post (isEnd : Bool)
  | loop (isEnd : Bool)
  | returned

/-- The line `"Odd number is %d\n"` or `"Even number is %d\n"`. -/
def line : Side → ℕ → Line
  | .odd, n => ⟨.odd, n, "Odd number is " ++ toString n ++ "\n"⟩
  | .even, n => ⟨.even, n, "Even number is " ++ toString n ++ "\n"⟩

/-- The loop that `print_odd` and `print_even` share: wait on `own`, print, post `other`. -/
def printLoop (N : ℕ) (own other : Side) (printf : ℕ → Line) :
    Loc → Option (Stmt Side Unit Store Loc)
  | .wait => some (rkSemaWait .wait own .fetch)
  -- `counter++`
  | .fetch => some (.act fun _ w => some ({ w with counter := w.counter + 1 }, .print w.counter))
  | .print n => some (.update (fun w => { w with stdout := w.stdout ++ [printf n] }) .test)
  -- `if (counter >= MAX_N) end = true;`
  | .test => some (.act fun _ w => some (w, .post (decide (N ≤ w.counter))))
  | .post isEnd => some (rkSemaPost other (.loop isEnd))
  -- `while (!end)`
  | .loop isEnd => some (.update id (if isEnd then .returned else .wait))
  | .returned => none

/-- `print_odd`. -/
def printOdd (N : ℕ) : Loc → Option (Stmt Side Unit Store Loc) :=
  printLoop N .odd .even (line .odd)

/-- `print_even`. -/
def printEven (N : ℕ) : Loc → Option (Stmt Side Unit Store Loc) :=
  printLoop N .even .odd (line .even)

/-- The two threads that `main` creates. -/
def program (N : ℕ) : Program Side Side Unit Store Loc where
  code
    | .odd => printOdd N
    | .even => printEven N
  handler _ := none
  data₀ := ⟨1, []⟩
  loc₀ _ := .wait

/-- `init_semaphores`. -/
def initSemaphores : Side → ℕ
  | .odd => (rkSemaInit 0 1).2
  | .even => (rkSemaInit 0 0).2

/-- The interleavings of the program. -/
def machine (N : ℕ) : Machine (Config Side Side Store Loc) (Label Side Unit) :=
  (program N).machine initSemaphores

/-! ### The statements -/

variable {N : ℕ}

lemma initSemaphores_eq : initSemaphores = oddFirst := by
  funext t
  cases t <;> rfl

lemma code_eq (t : Side) : (program N).code t = printLoop N t t.other (line t) := by
  cases t <;> rfl

/-- The wait. -/
lemma code_wait {t x : Side} {l next intr : Loc}
    (h : (program N).code t l = some (.wait x next intr)) :
    intr = l ∧ x = t ∧ l = .wait ∧ next = .fetch := by
  rw [code_eq] at h
  cases l <;> simp [printLoop, rkSemaWait, rkSemaPost, Stmt.update] at h
  obtain ⟨rfl, rfl, rfl⟩ := h
  exact ⟨rfl, rfl, rfl, rfl⟩

/-- The post. -/
lemma code_post {t x : Side} {l next : Loc} (h : (program N).code t l = some (.post x next)) :
    x = t.other ∧ ∃ isEnd, l = .post isEnd ∧ next = .loop isEnd := by
  rw [code_eq] at h
  cases l <;> simp [printLoop, rkSemaWait, rkSemaPost, Stmt.update] at h
  obtain ⟨rfl, rfl⟩ := h
  exact ⟨rfl, _, rfl, rfl⟩

/-- The other statements. -/
lemma code_act {t : Side} {l l' : Loc} {f : Unit → Store → Option (Store × Loc)} {c : Unit}
    {w w' : Store} (h : (program N).code t l = some (.act f)) (hf : f c w = some (w', l')) :
    (l = .fetch ∧ l' = .print w.counter ∧ w' = { w with counter := w.counter + 1 }) ∨
      (∃ n, l = .print n ∧ l' = .test ∧ w' = { w with stdout := w.stdout ++ [line t n] }) ∨
      (l = .test ∧ l' = .post (decide (N ≤ w.counter)) ∧ w' = w) ∨
      ∃ isEnd, l = .loop isEnd ∧ l' = (if isEnd then .returned else .wait) ∧ w' = w := by
  rw [code_eq] at h
  cases l with
  | wait | post | returned => simp [printLoop, rkSemaWait, rkSemaPost] at h
  | fetch | print | test | loop =>
    simp only [printLoop, Stmt.update, Option.some.injEq, Stmt.act.injEq] at h
    subst h
    obtain ⟨rfl, rfl⟩ := by simpa using hf
    simp

/-- Only waits block. -/
lemma code_total {t : Side} {l : Loc} {f : Unit → Store → Option (Store × Loc)} (w : Store)
    (h : (program N).code t l = some (.act f)) : ∃ c r, f c w = some r := by
  rw [code_eq] at h
  cases l <;> simp only [printLoop, rkSemaWait, rkSemaPost, Stmt.update, Option.some.injEq,
    Stmt.act.injEq, reduceCtorEq] at h <;> subst h <;> exact ⟨(), _, rfl⟩

lemma code_eq_none {t : Side} {l : Loc} : (program N).code t l = none ↔ l = .returned := by
  rw [code_eq]
  cases l <;> simp [printLoop]

/-! ### The handover -/

/-- Where in its round a thread is. -/
def turn (t : Side) : Loc → Turn Line
  | .fetch => .before
  | .print n => .between (line t n)
  | .test | .post _ => .after
  | .wait | .loop _ | .returned => .idle

/-- The program is a handover. -/
def handover (N : ℕ) : Handover (program N) line where
  turn := turn
  count w := w.counter - 1
  out w := w.stdout
  Fits w := 0 < w.counter
  retries _ _ _ _ _ h := (code_wait h).1
  handler _ := rfl
  start _ := rfl
  count_start := rfl
  out_start := rfl
  fits_start := Nat.one_pos
  wait h := by
    obtain ⟨-, rfl, rfl, rfl⟩ := code_wait h
    exact ⟨rfl, rfl, rfl⟩
  post h := by
    obtain ⟨rfl, isEnd, rfl, rfl⟩ := code_post h
    exact ⟨rfl, rfl, rfl⟩
  act {t l f c w w' l'} h hf hw := by
    rcases code_act h hf with ⟨rfl, rfl, rfl⟩ | ⟨n, rfl, rfl, rfl⟩ | ⟨rfl, rfl, rfl⟩ |
      ⟨isEnd, rfl, rfl, rfl⟩
    · have hcount : w.counter - 1 + 1 = w.counter := Nat.sub_add_cancel hw
      refine ⟨Nat.succ_pos _, .inr (.inl ⟨rfl, ?_, hcount.symm, rfl⟩)⟩
      rw [hcount]
      rfl
    · exact ⟨hw, .inr (.inr ⟨line t n, rfl, rfl, rfl, rfl⟩)⟩
    · exact ⟨hw, .inl ⟨rfl, rfl, rfl⟩⟩
    · refine ⟨hw, .inl ⟨?_, rfl, rfl⟩⟩
      cases isEnd <;> rfl

/-- What the threads will do: `end` says it, once it has been set. -/
def plan : Loc → Handover.Plan
  | .wait | .fetch => .stay
  | .print _ | .test => .undecided
  | .post isEnd | .loop isEnd => if isEnd then .leave else .stay
  | .returned => .leave

/-- The statements that are left in a round. -/
def rank : Loc → ℕ
  | .print _ => 5
  | .test => 4
  | .post _ => 3
  | .loop _ => 2
  | .wait => 1
  | .fetch | .returned => 0

/-- The program counts down to `N`. -/
def countdown (N : ℕ) : (handover N).Countdown N where
  total w h := code_total w h
  rank := rank
  round := 6
  rank_wait h := by
    obtain ⟨-, -, rfl, rfl⟩ := code_wait h
    decide
  rank_post h := by
    obtain ⟨-, isEnd, rfl, rfl⟩ := code_post h
    exact Nat.lt_succ_self 2
  rank_act {t l f c w w' l'} h hf hw := by
    rcases code_act h hf with ⟨rfl, rfl, rfl⟩ | ⟨n, rfl, rfl, rfl⟩ | ⟨rfl, rfl, rfl⟩ |
      ⟨isEnd, rfl, rfl, rfl⟩
    · have hw : 0 < w.counter := hw
      simp only [handover, rank]
      omega
    · simp only [handover, rank]
      omega
    · simp only [rank]
      omega
    · cases isEnd <;> simp [rank]
  plan := plan
  start _ := rfl
  wait h := by
    obtain ⟨-, -, rfl, rfl⟩ := code_wait h
    exact ⟨rfl, rfl⟩
  post h := by
    obtain ⟨-, isEnd, rfl, rfl⟩ := code_post h
    rfl
  act {t l f c w w' l'} h hf hw := by
    rcases code_act h hf with ⟨rfl, rfl, rfl⟩ | ⟨n, rfl, rfl, rfl⟩ | ⟨rfl, rfl, rfl⟩ |
      ⟨isEnd, rfl, rfl, rfl⟩
    · exact .inr ⟨(Nat.sub_add_cancel hw).symm, rfl, rfl, .inl rfl⟩
    · exact .inl ⟨rfl, .inl rfl⟩
    · refine .inl ⟨rfl, .inr ⟨rfl, ?_⟩⟩
      have hcount : (handover N).count w' + 1 = w'.counter := Nat.sub_add_cancel hw
      simp only [plan, Handover.verdict, hcount, decide_eq_true_eq]
    · refine .inl ⟨rfl, .inl ?_⟩
      cases isEnd <;> rfl
  returned h := by
    obtain rfl := code_eq_none.mp h
    exact ⟨rfl, rfl⟩

end COddEven

end PosixIntro
