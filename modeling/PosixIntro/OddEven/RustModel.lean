import PosixIntro.OddEven.CModel
import PosixIntro.RustSemaphore.Progress

set_option relaxedAutoImplicit false
set_option autoImplicit false

/-!
# The Rust odd/even counter (`r_lab05_a.rs`)

The same task as `OddEven.CModel`, over the `Semaphore` of `semaphore.rs`, with an atomic counter.
A thread decides about its end by the number it has taken, after it has posted.

## Main definitions

* `oddLoop`, `evenLoop` — the statements of the two closures.
* `program`, `machine` — the program, with `N_MAX` as the parameter `N`.
* `handover`, `countdown` — over ideal semaphores it is a handover that counts down to `N`.

## Main results

* `inRange` — the semaphores never panic.

## Design

`num` starts at `1` and is only incremented, so it is a natural number; that the `AtomicUsize` never
wraps is a theorem. `N_MAX` is at least `1`, otherwise `N_MAX - 1` does not compile.
-/

namespace PosixIntro

namespace RustOddEven

/-- The shared variables and the output. -/
structure Store where
  num : ℕ
  stdout : List Line

/-- The program points of the two closures, with the local variable `n`. -/
inductive Loc where
  | wait
  | fetch
  | print (n : ℕ)
  | post (n : ℕ)
  | test (n : ℕ)
  | returned

/-- The line that `println!("Odd number is {}", n)` or `println!("Even number is {}", n)`
prints. -/
def line : Side → ℕ → Line
  | .odd, n => ⟨.odd, n, "Odd number is " ++ toString n ++ "\n"⟩
  | .even, n => ⟨.even, n, "Even number is " ++ toString n ++ "\n"⟩

/-- The loop that the closures share: wait on `own`, print, post `other`. -/
def printLoop (N : ℕ) (own other : Side) (println : ℕ → Line) :
    Loc → Option (Stmt Side Unit Store Loc)
  | .wait => some (.wait own .fetch .wait)
  -- `num.fetch_add(1, Ordering::SeqCst)`
  | .fetch => some (.act fun _ w => some ({ w with num := w.num + 1 }, .print w.num))
  | .print n => some (.update (fun w => { w with stdout := w.stdout ++ [println n] }) (.post n))
  | .post n => some (.post other (.test n))
  -- `if n >= N_MAX - 1 { break; }`
  | .test n => some (.update id (if N - 1 ≤ n then .returned else .wait))
  | .returned => none

/-- The closure that prints the odd numbers. -/
def oddLoop (N : ℕ) : Loc → Option (Stmt Side Unit Store Loc) :=
  printLoop N .odd .even (line .odd)

/-- The closure that prints the even numbers. -/
def evenLoop (N : ℕ) : Loc → Option (Stmt Side Unit Store Loc) :=
  printLoop N .even .odd (line .even)

/-- The two threads that `main` spawns. -/
def program (N : ℕ) : Program Side Side Unit Store Loc where
  code
    | .odd => oddLoop N
    | .even => evenLoop N
  handler _ := none
  data₀ := ⟨1, []⟩
  loc₀ _ := .wait

/-- The values passed to `Semaphore::new`. -/
def initSemaphores : Side → ℤ
  | .odd => 1
  | .even => 0

/-- The interleavings of the program, with the semaphores of `semaphore.rs`. -/
def machine (N : ℕ) : Machine (Rust.State Side Side Store Loc) (Rust.Label Side Unit) :=
  Rust.machine (program N) initSemaphores

/-! ### The statements -/

variable {N : ℕ}

lemma idealStart_eq : Rust.idealStart initSemaphores = oddFirst := by
  funext t
  cases t <;> rfl

lemma code_eq (t : Side) : (program N).code t = printLoop N t t.other (line t) := by
  cases t <;> rfl

/-- The call of `wait`. -/
lemma code_wait {t x : Side} {l next intr : Loc}
    (h : (program N).code t l = some (.wait x next intr)) :
    intr = l ∧ x = t ∧ l = .wait ∧ next = .fetch := by
  rw [code_eq] at h
  cases l <;> simp [printLoop, Stmt.update] at h
  obtain ⟨rfl, rfl, rfl⟩ := h
  exact ⟨rfl, rfl, rfl, rfl⟩

/-- The call of `post`. -/
lemma code_post {t x : Side} {l next : Loc} (h : (program N).code t l = some (.post x next)) :
    x = t.other ∧ ∃ n, l = .post n ∧ next = .test n := by
  rw [code_eq] at h
  cases l <;> simp [printLoop, Stmt.update] at h
  obtain ⟨rfl, rfl⟩ := h
  exact ⟨rfl, _, rfl, rfl⟩

/-- The other statements. -/
lemma code_act {t : Side} {l l' : Loc} {f : Unit → Store → Option (Store × Loc)} {c : Unit}
    {w w' : Store} (h : (program N).code t l = some (.act f)) (hf : f c w = some (w', l')) :
    (l = .fetch ∧ l' = .print w.num ∧ w' = { w with num := w.num + 1 }) ∨
      (∃ n, l = .print n ∧ l' = .post n ∧ w' = { w with stdout := w.stdout ++ [line t n] }) ∨
      ∃ n, l = .test n ∧ l' = (if N - 1 ≤ n then .returned else .wait) ∧ w' = w := by
  rw [code_eq] at h
  cases l with
  | wait | post | returned => simp [printLoop] at h
  | fetch | print | test =>
    simp only [printLoop, Stmt.update, Option.some.injEq, Stmt.act.injEq] at h
    subst h
    obtain ⟨rfl, rfl⟩ := by simpa using hf
    simp

/-- Only calls of `wait` and `post` block. -/
lemma code_total {t : Side} {l : Loc} {f : Unit → Store → Option (Store × Loc)} (w : Store)
    (h : (program N).code t l = some (.act f)) : ∃ c r, f c w = some r := by
  rw [code_eq] at h
  cases l <;> simp only [printLoop, Stmt.update, Option.some.injEq, Stmt.act.injEq,
    reduceCtorEq] at h <;> subst h <;> exact ⟨(), _, rfl⟩

lemma code_eq_none {t : Side} {l : Loc} : (program N).code t l = none ↔ l = .returned := by
  rw [code_eq]
  cases l <;> simp [printLoop]

/-! ### The handover -/

/-- Where in its round a thread is. -/
def turn (t : Side) : Loc → Turn Line
  | .fetch => .before
  | .print n => .between (line t n)
  | .post _ => .after
  | .wait | .test _ | .returned => .idle

/-- The program is a handover. -/
def handover (N : ℕ) : Handover (program N) line where
  turn := turn
  count w := w.num - 1
  out w := w.stdout
  Fits w := 0 < w.num
  retries _ _ _ _ _ h := (code_wait h).1
  handler _ := rfl
  start _ := rfl
  count_start := rfl
  out_start := rfl
  fits_start := Nat.one_pos
  wait h := by
    obtain ⟨-, rfl, rfl, rfl⟩ := code_wait h
    exact ⟨rfl, rfl, rfl⟩
  post h := by
    obtain ⟨rfl, n, rfl, rfl⟩ := code_post h
    exact ⟨rfl, rfl, rfl⟩
  act {t l f c w w' l'} h hf hw := by
    rcases code_act h hf with ⟨rfl, rfl, rfl⟩ | ⟨n, rfl, rfl, rfl⟩ | ⟨n, rfl, rfl, rfl⟩
    · have hcount : w.num - 1 + 1 = w.num := Nat.sub_add_cancel hw
      refine ⟨Nat.succ_pos _, .inr (.inl ⟨rfl, ?_, hcount.symm, rfl⟩)⟩
      rw [hcount]
      rfl
    · exact ⟨hw, .inr (.inr ⟨line t n, rfl, rfl, rfl, rfl⟩)⟩
    · refine ⟨hw, .inl ⟨?_, rfl, rfl⟩⟩
      split_ifs <;> rfl

/-- What the threads will do: the number that has been taken says it. -/
def plan (N : ℕ) : Loc → Handover.Plan
  | .wait | .fetch => .stay
  | .print n | .post n | .test n => Handover.verdict N n
  | .returned => .leave

/-- The statements that are left in a round. -/
def rank : Loc → ℕ
  | .print _ => 4
  | .post _ => 3
  | .test _ => 2
  | .wait => 1
  | .fetch | .returned => 0

/-- The program counts down to `N`. -/
def countdown (N : ℕ) : (handover N).Countdown N where
  total w h := code_total w h
  rank := rank
  round := 5
  rank_wait h := by
    obtain ⟨-, -, rfl, rfl⟩ := code_wait h
    decide
  rank_post h := by
    obtain ⟨-, n, rfl, rfl⟩ := code_post h
    exact Nat.lt_succ_self 2
  rank_act {t l f c w w' l'} h hf hw := by
    rcases code_act h hf with ⟨rfl, rfl, rfl⟩ | ⟨n, rfl, rfl, rfl⟩ | ⟨n, rfl, rfl, rfl⟩
    · have hw : 0 < w.num := hw
      simp only [handover, rank]
      omega
    · simp only [handover, rank]
      omega
    · split_ifs <;> simp [rank]
  plan := plan N
  start _ := rfl
  wait h := by
    obtain ⟨-, -, rfl, rfl⟩ := code_wait h
    exact ⟨rfl, rfl⟩
  post h := by
    obtain ⟨-, n, rfl, rfl⟩ := code_post h
    rfl
  act {t l f c w w' l'} h hf hw := by
    rcases code_act h hf with ⟨rfl, rfl, rfl⟩ | ⟨n, rfl, rfl, rfl⟩ | ⟨n, rfl, rfl, rfl⟩
    · exact .inr ⟨(Nat.sub_add_cancel hw).symm, rfl, rfl, .inr rfl⟩
    · exact .inl ⟨rfl, .inl rfl⟩
    · refine .inl ⟨rfl, .inl ?_⟩
      simp only [plan, Handover.verdict]
      split_ifs <;> first | rfl | omega
  returned h := by
    obtain rfl := code_eq_none.mp h
    exact ⟨rfl, rfl⟩

/-- **The semaphores never panic**: there is one token, and there are two threads. -/
theorem inRange : Rust.InRange (program N) initSemaphores where
  start x := by cases x <;> decide
  sem t ht x := by
    rw [idealStart_eq] at ht
    have hle := (handover N).sem_le_one ht x
    unfold Rust.i32Max
    omega
  waits t _ x := by
    have hle : tally (Rust.waitsAt (program N) x) t.loc ≤ tally (fun _ _ => 1) t.loc :=
      tally_le_tally fun i => Rust.waitsAt_le fun _ _ _ => Nat.le_refl 1
    have htwo : tally (fun (_ : Side) (_ : Loc) => 1) t.loc = 2 := rfl
    omega

end RustOddEven

end PosixIntro
