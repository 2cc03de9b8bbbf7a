import PosixIntro.Concurrency.BoundedBuffer

set_option relaxedAutoImplicit false
set_option autoImplicit false

/-!
# Two threads that take turns

Two threads hand a token to each other by two semaphores: a thread waits on its own semaphore,
takes the next number, prints it, and posts the other's. Whoever holds the token is the one whose
turn it is, so the numbers come out in order. When a thread stops is another matter: a countdown
is a program in which a thread decides while or after it holds the token, and from its own last
number only.

## Main definitions

* `Side`, `side` — the two threads, and the one that takes the number `n`.
* `Handover` — a program that follows the discipline, given by a classification of its locations.
* `Handover.Aligned` — the invariant: who may hold the token, and what has been printed.
* `Handover.Rounds` — a handover whose rounds are finite.
* `Handover.Countdown` — one whose threads stop at the bound `N`.

## Main results

* `Handover.token` — there is one token.
* `Handover.aligned` — the invariant holds in every reachable state.
* `Handover.Countdown.finished` — when both threads have returned, `1, …, N` has been printed.
* `Handover.Countdown.exists_enabled` — until then some thread can move.
* `Handover.Countdown.exists_out_iff` — what has been printed at any time.
* `Handover.Rounds.exists_finished` — both threads can return, from wherever they are.
-/

namespace PosixIntro

/-! ### Sides -/

/-- The two threads, which are also the names of their semaphores. -/
inductive Side where
  | odd
  | even
  deriving DecidableEq

instance : Fintype Side := ⟨{.odd, .even}, fun t => by cases t <;> decide⟩

/-- The other thread. -/
def Side.other : Side → Side
  | .odd => .even
  | .even => .odd

/-- The thread that takes the number `n`. -/
def side (n : ℕ) : Side := if n % 2 = 1 then .odd else .even

@[simp] lemma Side.other_ne (t : Side) : t.other ≠ t := by cases t <;> decide

lemma Side.eq_other_of_ne {t u : Side} (h : u ≠ t) : u = t.other := by
  cases t <;> cases u <;> first | rfl | exact absurd rfl h

/-- The threads take turns. -/
lemma side_succ (n : ℕ) : side (n + 1) = (side n).other := by
  unfold side
  rcases Nat.mod_two_eq_zero_or_one n with h | h
  · rw [if_pos (by omega), if_neg (by omega)]
    rfl
  · rw [if_neg (by omega), if_pos (by omega)]
    rfl

/-- The greatest number up to `n` that thread `t` takes, `0` if there is none. -/
def last (t : Side) (n : ℕ) : ℕ := if side n = t then n else n - 1

@[simp] lemma last_side (n : ℕ) : last (side n) n = n := if_pos rfl

/-- The thread whose turn is next has not taken the last number. -/
lemma last_next (n : ℕ) : last (side (n + 1)) n = n - 1 := by
  rw [side_succ]
  exact if_neg (Side.other_ne _).symm

/-- The thread that is not next took the last number. -/
lemma eq_side_of_ne {t : Side} {n : ℕ} (h : t ≠ side (n + 1)) : t = side n := by
  rw [Side.eq_other_of_ne h, side_succ]
  cases side n <;> rfl

lemma last_le (t : Side) (n : ℕ) : last t n ≤ n := by
  unfold last
  split_ifs <;> omega

/-- A thread's last number changes when it takes one, and only then. -/
lemma last_succ_of_ne {t : Side} {n : ℕ} (h : t ≠ side (n + 1)) : last t (n + 1) = last t n := by
  rw [eq_side_of_ne h, last_side, last, if_neg, Nat.add_sub_cancel]
  rw [side_succ]
  exact Side.other_ne _

/-- The values with which the two semaphores start: the odd thread goes first. -/
def oddFirst : Side → ℕ
  | .odd => 1
  | .even => 0

/-- The lines for the numbers `1, …, n`, each printed by the thread that takes it. -/
def countUp {Λ : Type*} (line : Side → ℕ → Λ) (n : ℕ) : List Λ :=
  (List.range n).map fun k => line (side (k + 1)) (k + 1)

lemma countUp_succ {Λ : Type*} (line : Side → ℕ → Λ) (n : ℕ) :
    countUp line (n + 1) = countUp line n ++ [line (side (n + 1)) (n + 1)] := by
  simp [countUp, List.range_succ]

/-- Every line is printed by the thread that takes its number. -/
lemma mem_countUp {Λ : Type*} {line : Side → ℕ → Λ} {n : ℕ} {e : Λ} (h : e ∈ countUp line n) :
    ∃ k, k ≤ n ∧ e = line (side k) k := by
  obtain ⟨k, hk, rfl⟩ := List.mem_map.mp h
  exact ⟨k + 1, List.mem_range.mp hk, rfl⟩

lemma length_countUp {Λ : Type*} (line : Side → ℕ → Λ) (n : ℕ) :
    (countUp line n).length = n := by
  simp [countUp]

/-- The first lines of a count are a count. -/
lemma eq_countUp_of_isPrefix {Λ : Type*} {line : Side → ℕ → Λ} {out : List Λ} {n : ℕ}
    (h : out <+: countUp line n) : out = countUp line out.length := by
  have hle := h.length_le
  rw [length_countUp] at hle
  conv_lhs => rw [List.prefix_iff_eq_take.mp h]
  rw [countUp, countUp, ← List.map_take, List.take_range, Nat.min_eq_left hle]

/-! ### The handover -/

/-- Where a thread is in its round: without the token, about to take a number, about to print the
line of the number it has taken, and about to post. -/
inductive Turn (Λ : Type*) where
  | idle
  | before
  | between (pending : Λ)
  | after

/-- The tokens held. -/
def Turn.tokens {Λ : Type*} : Turn Λ → ℕ
  | .idle => 0
  | _ => 1

@[simp] lemma Turn.tokens_idle {Λ : Type*} : (Turn.idle : Turn Λ).tokens = 0 := rfl

@[simp] lemma Turn.tokens_before {Λ : Type*} : (Turn.before : Turn Λ).tokens = 1 := rfl

@[simp] lemma Turn.tokens_between {Λ : Type*} (p : Λ) : (Turn.between p).tokens = 1 := rfl

@[simp] lemma Turn.tokens_after {Λ : Type*} : (Turn.after : Turn Λ).tokens = 1 := rfl

lemma Turn.tokens_eq_zero {Λ : Type*} {t : Turn Λ} : t.tokens = 0 ↔ t = .idle := by
  cases t <;> simp

variable {χ D L Λ : Type*}

/-- A program whose two threads hand a token to each other. `Fits` is what the data satisfies at
all times. -/
structure Handover (P : Program Side Side χ D L) (line : Side → ℕ → Λ) where
  /-- Where in its round a thread is. -/
  turn : Side → L → Turn Λ
  /-- The number of numbers taken. -/
  count : D → ℕ
  /-- The lines printed. -/
  out : D → List Λ
  Fits : D → Prop
  retries : P.Retries
  handler : ∀ d, P.handler d = none
  start : ∀ t, turn t (P.loc₀ t) = .idle
  count_start : count P.data₀ = 0
  out_start : out P.data₀ = []
  fits_start : Fits P.data₀
  wait : ∀ {t l x next intr}, P.code t l = some (.wait x next intr) →
    x = t ∧ turn t l = .idle ∧ turn t next = .before
  post : ∀ {t l x next}, P.code t l = some (.post x next) →
    x = t.other ∧ turn t l = .after ∧ turn t next = .idle
  act : ∀ {t l f c d d' l'}, P.code t l = some (.act f) → f c d = some (d', l') → Fits d →
    Fits d' ∧ ((turn t l' = turn t l ∧ count d' = count d ∧ out d' = out d) ∨
      (turn t l = .before ∧ turn t l' = .between (line t (count d + 1)) ∧
        count d' = count d + 1 ∧ out d' = out d) ∨
      (∃ p, turn t l = .between p ∧ turn t l' = .after ∧ count d' = count d ∧
        out d' = out d ++ [p]))

namespace Handover

variable {P : Program Side Side χ D L} {line : Side → ℕ → Λ} (H : Handover P line)

/-! ### Single steps -/

/-- What a step of a handover can be: a thread takes the token from its semaphore, puts it into the
semaphore of the other thread, or executes any other statement; or an interrupted wait is
retried. -/
inductive Step (P : Program Side Side χ D L) (s : Config Side Side D L) :
    Label Side χ → Config Side Side D L → Prop
  | wait {t : Side} {next intr : L} (c : χ)
      (hst : P.code t (s.loc t) = some (.wait t next intr)) (hpos : 0 < s.sem t) :
      Step P s (.run t c)
        ⟨Function.update s.sem t (s.sem t - 1), s.data, Function.update s.loc t next⟩
  | post {t : Side} {next : L} (c : χ) (hst : P.code t (s.loc t) = some (.post t.other next)) :
      Step P s (.run t c)
        ⟨Function.update s.sem t.other (s.sem t.other + 1), s.data, Function.update s.loc t next⟩
  | act {t : Side} {f : χ → D → Option (D × L)} {c : χ} {d : D} {next : L}
      (hst : P.code t (s.loc t) = some (.act f)) (hf : f c s.data = some (d, next)) :
      Step P s (.run t c) ⟨s.sem, d, Function.update s.loc t next⟩
  | retry (t : Side) : Step P s (.eintr t) s

include H in
/-- **Everything one step can do.** -/
theorem step {v : Side → ℕ} {s s' : Config Side Side D L} {a : Label Side χ}
    (hs : (P.machine v).step s a = some s') : Step P s a s' := by
  rcases Program.step_cases H.retries hs with ⟨t, c, st, sem, d, l, rfl, hst, hx, rfl⟩ |
    ⟨t, rfl, rfl⟩ | ⟨d, -, hd, -⟩
  · rcases Stmt.exec_cases hx with ⟨x, intr, rfl, hpos, rfl, rfl⟩ | ⟨x, rfl, rfl, rfl⟩ |
      ⟨f, rfl, hf, rfl⟩
    · obtain ⟨rfl, -⟩ := H.wait hst
      exact .wait c hst hpos
    · obtain ⟨rfl, -⟩ := H.post hst
      exact .post c hst
    · exact .act hst hf
  · exact .retry t
  · rw [H.handler] at hd
    cases hd

/-! ### The token -/

/-- The tokens that the threads hold. -/
def held (loc : Side → L) : ℕ := tally (fun t l => (H.turn t l).tokens) loc

/-- **There is one token**: in one of the semaphores, or held by one of the threads. -/
theorem token {s : Config Side Side D L} (h : (P.machine oddFirst).Reach s) :
    s.sem .odd + s.sem .even + H.held s.loc = 1 := by
  refine h.invariant (I := fun s => s.sem .odd + s.sem .even + H.held s.loc = 1 ∧ H.Fits s.data)
    ⟨?_, H.fits_start⟩ (fun s a s' _ ih _ hs => ?_) |>.1
  · have hzero : H.held P.loc₀ = 0 := tally_eq_zero fun t => by rw [H.start t, Turn.tokens_idle]
    show 1 + 0 + H.held P.loc₀ = 1
    rw [hzero]
  obtain ⟨ih, hfits⟩ := ih
  have hup : ∀ t l, H.held (Function.update s.loc t l) + (H.turn t (s.loc t)).tokens =
      H.held s.loc + (H.turn t l).tokens := tally_update _ s.loc
  cases H.step hs with
  | @wait t next intr c hst hpos =>
    obtain ⟨-, h₁, h₂⟩ := H.wait hst
    have hup := hup t next
    rw [h₁, h₂, Turn.tokens_idle, Turn.tokens_before] at hup
    refine ⟨?_, hfits⟩
    cases t <;> simp [Function.update] at hpos ⊢ <;> omega
  | @post t next c hst =>
    obtain ⟨-, h₁, h₂⟩ := H.post hst
    have hup := hup t next
    rw [h₁, h₂, Turn.tokens_after, Turn.tokens_idle] at hup
    refine ⟨?_, hfits⟩
    cases t <;> simp [Function.update, Side.other] <;> omega
  | @act t f c d next hst hf =>
    obtain ⟨hfits', hcases⟩ := H.act hst hf hfits
    have hsame : (H.turn t next).tokens = (H.turn t (s.loc t)).tokens := by
      rcases hcases with ⟨h₁, -⟩ | ⟨h₁, h₂, -⟩ | ⟨p, h₁, h₂, -⟩
      · rw [h₁]
      · rw [h₁, h₂, Turn.tokens_before, Turn.tokens_between]
      · rw [h₁, h₂, Turn.tokens_between, Turn.tokens_after]
    have hup := hup t next
    refine ⟨?_, hfits'⟩
    show s.sem .odd + s.sem .even + H.held (Function.update s.loc t next) = 1
    omega
  | retry t => exact ⟨ih, hfits⟩

include H in
/-- A semaphore has at most one token. -/
lemma sem_le_one {s : Config Side Side D L} (h : (P.machine oddFirst).Reach s) (x : Side) :
    s.sem x ≤ 1 := by
  have htok := H.token h
  cases x <;> omega

/-- While a semaphore is positive nobody holds the token. -/
lemma idle_of_sem {s : Config Side Side D L} (h : (P.machine oddFirst).Reach s) {x : Side}
    (hx : 0 < s.sem x) (t : Side) : H.turn t (s.loc t) = .idle := by
  have htok := H.token h
  have hle : (H.turn t (s.loc t)).tokens ≤ H.held s.loc :=
    le_tally (fun t l => (H.turn t l).tokens) s.loc t
  apply Turn.tokens_eq_zero.mp
  cases x <;> omega

/-- While a thread holds the token the other one is idle. -/
lemma other_idle {s : Config Side Side D L} (h : (P.machine oddFirst).Reach s) {t u : Side}
    (ht : H.turn t (s.loc t) ≠ .idle) (hu : u ≠ t) : H.turn u (s.loc u) = .idle := by
  have htok := H.token h
  have hle : (H.turn u (s.loc u)).tokens + (H.turn t (s.loc t)).tokens ≤ H.held s.loc :=
    add_le_tally (fun t l => (H.turn t l).tokens) s.loc hu
  have hpos : (H.turn t (s.loc t)).tokens ≠ 0 := fun hz => ht (Turn.tokens_eq_zero.mp hz)
  apply Turn.tokens_eq_zero.mp
  omega

/-- While a thread holds the token both semaphores are zero. -/
lemma sem_eq_zero {s : Config Side Side D L} (h : (P.machine oddFirst).Reach s) {t : Side}
    (ht : H.turn t (s.loc t) ≠ .idle) (x : Side) : s.sem x = 0 := by
  by_contra hne
  exact ht (H.idle_of_sem h (Nat.pos_of_ne_zero hne) t)

/-- When both threads are idle one of the semaphores has the token. -/
lemma exists_sem_pos {s : Config Side Side D L} (h : (P.machine oddFirst).Reach s)
    (hidle : ∀ t, H.turn t (s.loc t) = .idle) : ∃ x, 0 < s.sem x := by
  have htok := H.token h
  have hzero : H.held s.loc = 0 := tally_eq_zero fun t => by rw [hidle t, Turn.tokens_idle]
  rcases Nat.eq_zero_or_pos (s.sem .odd) with hodd | hodd
  · exact ⟨.even, by omega⟩
  · exact ⟨.odd, hodd⟩

/-! ### The invariant -/

/-- What the data looks like to thread `t` in each part of its round: it takes the next number,
or has taken the last one, and all numbers taken have been printed, except its own before it
prints it. -/
def Holds (t : Side) (d : D) : Turn Λ → Prop
  | .idle => True
  | .before => t = side (H.count d + 1) ∧ H.out d = countUp line (H.count d)
  | .between p => t = side (H.count d) ∧ H.out d ++ [p] = countUp line (H.count d)
  | .after => t = side (H.count d) ∧ H.out d = countUp line (H.count d)

/-- **The invariant.** Whoever holds the token, or can get it from a semaphore, is in line with
the data. -/
structure Aligned (s : Config Side Side D L) : Prop where
  fits : H.Fits s.data
  sem : ∀ x, 0 < s.sem x →
    x = side (H.count s.data + 1) ∧ H.out s.data = countUp line (H.count s.data)
  holder : ∀ t, H.Holds t s.data (H.turn t (s.loc t))

/-- What the threads see after one of them has moved. -/
lemma holds_update {loc : Side → L} {t : Side} {d : D} {l : L} (ht : H.Holds t d (H.turn t l))
    (hother : ∀ u, u ≠ t → H.Holds u d (H.turn u (loc u))) :
    ∀ u, H.Holds u d (H.turn u (Function.update loc t l u)) :=
  (Function.forall_update_iff loc fun u l => H.Holds u d (H.turn u l)).mpr ⟨ht, hother⟩

/-- A thread that holds the token leaves nothing to see to the other. -/
lemma holds_other {s : Config Side Side D L} (h : (P.machine oddFirst).Reach s) {t : Side}
    (ht : H.turn t (s.loc t) ≠ .idle) (d : D) (u : Side) (hu : u ≠ t) :
    H.Holds u d (H.turn u (s.loc u)) := by
  rw [H.other_idle h ht hu]
  trivial

/-- **The numbers come out in order**, whatever the threads decide about their end.

**Proof sketch.** A wait takes the token from the semaphore of the thread that is next, taking a
number and printing it are done under the token, and a post puts it into the semaphore of the
other thread, which is next then. -/
theorem aligned {s : Config Side Side D L} (h : (P.machine oddFirst).Reach s) : H.Aligned s := by
  refine h.invariant (I := H.Aligned) ⟨H.fits_start, fun x hx => ?_, fun t => ?_⟩
    fun s a s' hr ih _ hs => ?_
  · have hx : 0 < oddFirst x := hx
    show x = side (H.count P.data₀ + 1) ∧ H.out P.data₀ = countUp line (H.count P.data₀)
    rw [H.count_start, H.out_start]
    cases x
    · exact ⟨rfl, rfl⟩
    · cases hx
  · show H.Holds t P.data₀ (H.turn t (P.loc₀ t))
    rw [H.start]
    trivial
  cases H.step hs with
  | @wait t next intr c hst hpos =>
    obtain ⟨-, h₁, h₂⟩ := H.wait hst
    refine ⟨ih.fits, fun y hy => ih.sem y ?_, H.holds_update ?_ fun u _ => ih.holder u⟩
    · by_cases hyt : y = t
      · rwa [hyt]
      · simpa only [Function.update_of_ne hyt] using hy
    · rw [h₂]
      exact ih.sem t hpos
  | @post t next c hst =>
    obtain ⟨-, h₁, h₂⟩ := H.post hst
    have hview := ih.holder t
    rw [h₁] at hview
    refine ⟨ih.fits, fun y hy => ⟨?_, hview.2⟩, H.holds_update ?_ fun u _ => ih.holder u⟩
    · by_cases hyt : y = t.other
      · rw [hyt, side_succ, ← hview.1]
      · have hzero := H.sem_eq_zero hr (t := t) (by rw [h₁]; simp) y
        simp only [Function.update_of_ne hyt] at hy
        omega
    · rw [h₂]
      trivial
  | @act t f c d next hst hf =>
    have hview := ih.holder t
    obtain ⟨hfits, ⟨h₁, h₂, h₃⟩ | ⟨h₁, h₂, h₃, h₄⟩ | ⟨p, h₁, h₂, h₃, h₄⟩⟩ :=
      H.act hst hf ih.fits
    · have hsame : ∀ u τ, H.Holds u d τ = H.Holds u s.data τ := fun u τ => by
        cases τ <;> simp only [Holds, h₂, h₃]
      refine ⟨hfits, fun y hy => ?_, H.holds_update ?_ fun u _ => ?_⟩
      · show y = side (H.count d + 1) ∧ H.out d = countUp line (H.count d)
        rw [h₂, h₃]
        exact ih.sem y hy
      · rw [h₁, hsame]
        exact hview
      · rw [hsame]
        exact ih.holder u
    · -- a number is taken: the token is held, so nobody else has a view
      have hturn : H.turn t (s.loc t) ≠ .idle := by rw [h₁]; simp
      rw [h₁] at hview
      refine ⟨hfits, fun y hy => ?_, H.holds_update ?_ (H.holds_other hr hturn d)⟩
      · exact absurd (H.sem_eq_zero hr hturn y) (Nat.pos_iff_ne_zero.mp hy)
      · rw [h₂]
        show t = side (H.count d) ∧ H.out d ++ [_] = countUp line (H.count d)
        rw [h₃, h₄, countUp_succ, hview.2, ← hview.1]
        exact ⟨rfl, rfl⟩
    · -- it is printed
      have hturn : H.turn t (s.loc t) ≠ .idle := by rw [h₁]; simp
      rw [h₁] at hview
      refine ⟨hfits, fun y hy => ?_, H.holds_update ?_ (H.holds_other hr hturn d)⟩
      · exact absurd (H.sem_eq_zero hr hturn y) (Nat.pos_iff_ne_zero.mp hy)
      · rw [h₂]
        show t = side (H.count d) ∧ H.out d = countUp line (H.count d)
        rw [h₃, h₄]
        exact hview
  | retry t => exact ih

/-- When both threads are idle all numbers taken have been printed. -/
lemma out_of_idle {s : Config Side Side D L} (h : (P.machine oddFirst).Reach s)
    (hidle : ∀ t, H.turn t (s.loc t) = .idle) :
    H.out s.data = countUp line (H.count s.data) ∧
      0 < s.sem (side (H.count s.data + 1)) := by
  obtain ⟨x, hx⟩ := H.exists_sem_pos h hidle
  obtain ⟨rfl, hout⟩ := (H.aligned h).sem x hx
  exact ⟨hout, hx⟩

/-- Nothing but the lines of the numbers taken is ever printed. -/
lemma out_countUp {s : Config Side Side D L} (h : (P.machine oddFirst).Reach s) :
    H.out s.data <+: countUp line (H.count s.data) := by
  by_cases hidle : ∀ t, H.turn t (s.loc t) = .idle
  · rw [(H.out_of_idle h hidle).1]
  · obtain ⟨t, ht⟩ := not_forall.mp hidle
    have hview := (H.aligned h).holder t
    cases hturn : H.turn t (s.loc t) with
    | idle => exact absurd hturn ht
    | before | after =>
      rw [hturn] at hview
      rw [hview.2]
    | between p =>
      rw [hturn] at hview
      exact ⟨[p], hview.2⟩

/-- What has been printed is a count. -/
lemma out_eq {s : Config Side Side D L} (h : (P.machine oddFirst).Reach s) :
    H.out s.data = countUp line (H.out s.data).length :=
  eq_countUp_of_isPrefix (H.out_countUp h)

/-- A step prints one line at most. -/
lemma length_out_le {s s' : Config Side Side D L} {a : Label Side χ}
    (h : (P.machine oddFirst).Reach s) (hs : (P.machine oddFirst).step s a = some s') :
    (H.out s'.data).length ≤ (H.out s.data).length + 1 := by
  cases H.step hs with
  | act hst hf =>
    rcases (H.act hst hf (H.aligned h).fits).2 with ⟨-, -, ho⟩ | ⟨-, -, -, ho⟩ | ⟨p, -, -, -, ho⟩
    · rw [ho]
      exact Nat.le_succ _
    · rw [ho]
      exact Nat.le_succ _
    · rw [ho, List.length_append, List.length_singleton]
  | _ => exact Nat.le_succ _

/-- Everything printed on the way has been printed in some state before. -/
lemma exists_out {s : Config Side Side D L} (h : (P.machine oddFirst).Reach s) :
    ∀ k ≤ (H.out s.data).length,
      ∃ s', (P.machine oddFirst).Reach s' ∧ H.out s'.data = countUp line k := by
  induction h with
  | init =>
    intro k hk
    refine ⟨_, .init, ?_⟩
    have hout : H.out (P.machine oddFirst).init.data = [] := H.out_start
    rw [hout, List.length_nil] at hk
    rw [hout, Nat.le_zero.mp hk]
    rfl
  | @step s s' a hr _ hs ih =>
    intro k hk
    have hle := H.length_out_le hr hs
    rcases Nat.lt_or_ge (H.out s.data).length k with hlt | hge
    · have hr' := Machine.Reach.next hr hs
      refine ⟨s', hr', ?_⟩
      rw [H.out_eq hr', show (H.out s'.data).length = k by omega]
    · exact ih k hge

/-! ### Rounds -/

/-- A handover whose rounds are finite and in which only waits block. -/
structure Rounds where
  total : ∀ {t l f} d, P.code t l = some (.act f) → ∃ c r, f c d = some r
  /-- The statements that are left in the round. -/
  rank : L → ℕ
  /-- More than the statements of a round. -/
  round : ℕ
  rank_wait : ∀ {t l x next intr}, P.code t l = some (.wait x next intr) → rank next < rank l
  rank_post : ∀ {t l x next}, P.code t l = some (.post x next) → rank next < rank l
  rank_act : ∀ {t l f c d d' l'}, P.code t l = some (.act f) → f c d = some (d', l') →
    H.Fits d → rank l' + round * H.count d < rank l + round * H.count d'

namespace Rounds

variable {H} (R : H.Rounds)

include R

/-- Where no thread can move, the ones that have not returned wait for the token. -/
lemma returned_or_waiting [Inhabited χ] {s : Config Side Side D L} (hno : P.Stuck s) (t : Side) :
    P.code t (s.loc t) = none ∨ (∃ next intr, P.code t (s.loc t) = some (.wait t next intr)) ∧
      s.sem t = 0 := by
  rcases Program.returned_or_waiting (fun f => R.total s.data) (hno t) with
    hc | ⟨x, next, intr, hc, hzero⟩
  · exact .inl hc
  · obtain rfl := (H.wait hc).1
    exact .inr ⟨⟨next, intr, hc⟩, hzero⟩

/-- **Where no thread can move** the thread that is next has returned. -/
lemma returned_of_stuck [Inhabited χ] {s : Config Side Side D L}
    (h : (P.machine oddFirst).Reach s) (hno : P.Stuck s)
    (hidle : ∀ t, P.code t (s.loc t) = none → H.turn t (s.loc t) = .idle) :
    P.code (side (H.count s.data + 1)) (s.loc (side (H.count s.data + 1))) = none := by
  have hall : ∀ t, H.turn t (s.loc t) = .idle := fun t => by
    rcases R.returned_or_waiting hno t with hc | ⟨⟨next, intr, hc⟩, -⟩
    · exact hidle t hc
    · exact (H.wait hc).2.1
  obtain ⟨-, hpos⟩ := H.out_of_idle h hall
  rcases R.returned_or_waiting hno (side (H.count s.data + 1)) with hc | ⟨-, hzero⟩
  · exact hc
  · omega

/-- The statements that are left until `B` numbers have been taken, at most. -/
def left (B : ℕ) (s : Config Side Side D L) : ℕ :=
  R.round * (B - H.count s.data) + tally (fun _ => R.rank) s.loc

/-- Every statement brings the end nearer. -/
lemma left_lt {B : ℕ} {s s' : Config Side Side D L} (h : (P.machine oddFirst).Reach s) {t : Side}
    {c : χ} (hs : (P.machine oddFirst).step s (.run t c) = some s')
    (hbound : H.count s.data ≤ B) (hbound' : H.count s'.data ≤ B) : R.left B s' < R.left B s := by
  have hstep : tally (fun _ => R.rank) s'.loc + R.round * H.count s.data <
      tally (fun _ => R.rank) s.loc + R.round * H.count s'.data := by
    have hup := tally_update (fun _ => R.rank) s.loc t
    cases H.step hs with
    | @wait _ next intr _ hst hpos =>
      have hrank := R.rank_wait hst
      have := hup next
      simp only
      omega
    | @post _ next _ hst =>
      have hrank := R.rank_post hst
      have := hup next
      simp only
      omega
    | @act _ f _ d next hst hf =>
      have hrank := R.rank_act hst hf (H.aligned h).fits
      have := hup next
      simp only
      omega
  have hsub : ∀ n, n ≤ B → R.round * (B - n) + R.round * n = R.round * B := fun n hn => by
    rw [← Nat.mul_add, Nat.sub_add_cancel hn]
  have h₁ := hsub _ hbound
  have h₂ := hsub _ hbound'
  simp only [left] at h₁ h₂ ⊢
  omega

/-- **Both threads can return**, from wherever they are, if only finitely many numbers are ever
taken and some thread can move until then. -/
theorem exists_finished {B : ℕ}
    (hbound : ∀ s, (P.machine oddFirst).Reach s → H.count s.data ≤ B)
    (hlive : ∀ s, (P.machine oddFirst).Reach s → (∃ t, P.code t (s.loc t) ≠ none) →
      ∃ t, P.Enabled t s)
    {s : Config Side Side D L} (h : (P.machine oddFirst).Reach s) :
    ∃ s', ((P.machine oddFirst).startAt s).Reach s' ∧ (P.machine oddFirst).Reach s' ∧
      ∀ t, P.code t (s'.loc t) = none := by
  refine Machine.exists_reach_of_measure (R.left B) (fun s hr hrun => ?_) h
  obtain ⟨t, ht⟩ := hlive s hr (not_forall.mp hrun)
  obtain ⟨c, s', hs⟩ := ht.exists_step (v := oddFirst)
  have hr' := Machine.Reach.next hr hs
  exact ⟨_, s', hs, hr', R.left_lt hr hs (hbound s hr) (hbound s' hr')⟩

end Rounds

/-! ### Countdowns -/

/-- What a thread will do when it has given the token away: another round, not decided yet, or
return. -/
inductive Plan where
  | stay
  | undecided
  | leave

/-- The decision of a thread whose last number is `n`: to return when the other thread will take
the last number or has taken it. -/
def verdict (N n : ℕ) : Plan := if N ≤ n + 1 then .leave else .stay

/-- A handover whose threads stop at the bound `N`: each decides, after it has taken a number and
before it posts, by that number. -/
structure Countdown (N : ℕ) extends H.Rounds where
  plan : L → Plan
  start : ∀ t, plan (P.loc₀ t) = .stay
  wait : ∀ {t l x next intr}, P.code t l = some (.wait x next intr) →
    plan l = .stay ∧ plan next = .stay
  post : ∀ {t l x next}, P.code t l = some (.post x next) → plan next = plan l
  act : ∀ {t l f c d d' l'}, P.code t l = some (.act f) → f c d = some (d', l') → H.Fits d →
    (H.count d' = H.count d ∧
      (plan l' = plan l ∨
        (H.turn t l' = .after ∧ plan l' = verdict N (H.count d)))) ∨
      (H.count d' = H.count d + 1 ∧ H.turn t l = .before ∧ plan l = .stay ∧
        (plan l' = .undecided ∨ plan l' = verdict N (H.count d')))
  returned : ∀ {t l}, P.code t l = none → plan l = .leave ∧ H.turn t l = .idle

namespace Countdown

variable {H} {N : ℕ} (C : H.Countdown N)

/-- The last number of a thread, as its plan sees it. -/
def Sound (N : ℕ) (t : Side) (n : ℕ) : Plan → Prop
  | .stay => last t n + 1 < N
  | .undecided => True
  | .leave => N ≤ last t n + 1

/-- **The invariant.** No number beyond the bound is taken, and every plan is sound. -/
structure Kept (s : Config Side Side D L) : Prop where
  bound : H.count s.data ≤ N
  sound : ∀ t, Sound N t (H.count s.data) (C.plan (s.loc t))

/-- A decision by the last number is sound. -/
lemma sound_verdict {t : Side} {n : ℕ} (ht : t = side n) : Sound N t n (verdict N n) := by
  subst ht
  unfold verdict
  split_ifs with h
  · show N ≤ last (side n) n + 1
    rwa [last_side]
  · show last (side n) n + 1 < N
    rw [last_side]
    omega

/-- A thread's plan stays sound while the others move. -/
lemma sound_succ {t : Side} {n : ℕ} (ht : t ≠ side (n + 1)) {p : Plan}
    (h : Sound N t n p) : Sound N t (n + 1) p := by
  cases p with
  | undecided => trivial
  | _ => simpa only [Sound, last_succ_of_ne ht] using h

/-- Plans stay sound when one thread moves and its new plan is sound. -/
lemma sound_update {loc : Side → L} {t : Side} {n : ℕ} {l : L}
    (ht : Sound N t n (C.plan l))
    (hother : ∀ u, u ≠ t → Sound N u n (C.plan (loc u))) :
    ∀ u, Sound N u n (C.plan (Function.update loc t l u)) :=
  (Function.forall_update_iff loc fun u l => Sound N u n (C.plan l)).mpr ⟨ht, hother⟩

/-- **Nobody counts too far**, if there are two numbers to take. -/
theorem kept (hN : 2 ≤ N) {s : Config Side Side D L} (h : (P.machine oddFirst).Reach s) :
    C.Kept s := by
  refine h.invariant (I := C.Kept) ⟨?_, fun t => ?_⟩ fun s a s' hr ih _ hs => ?_
  · show H.count P.data₀ ≤ N
    rw [H.count_start]
    omega
  · show Sound N t (H.count P.data₀) (C.plan (P.loc₀ t))
    rw [H.count_start, C.start]
    show last t 0 + 1 < N
    have := last_le t 0
    omega
  cases H.step hs with
  | @wait t next intr c hst hpos =>
    obtain ⟨h₁, h₂⟩ := C.wait hst
    refine ⟨ih.bound, C.sound_update ?_ fun u _ => ih.sound u⟩
    rw [h₂, ← h₁]
    exact ih.sound t
  | @post t next c hst =>
    refine ⟨ih.bound, C.sound_update ?_ fun u _ => ih.sound u⟩
    rw [C.post hst]
    exact ih.sound t
  | @act t f c d next hst hf =>
    have hview := ih.sound t
    have hal := H.aligned hr
    rcases C.act hst hf hal.fits with ⟨hn, hplan⟩ | ⟨hn, hbefore, hstay, hplan⟩
    · refine ⟨hn ▸ ih.bound, C.sound_update ?_ fun u _ => hn ▸ ih.sound u⟩
      rcases hplan with hplan | ⟨hafter, hplan⟩
      · rw [hplan, hn]
        exact hview
      · have hside := (H.aligned (Machine.Reach.next hr hs)).holder t
        simp only [Function.update_self, hafter] at hside
        rw [hplan, ← hn]
        exact sound_verdict hside.1
    · have hside := hal.holder t
      rw [hbefore] at hside
      rw [hstay] at hview
      have hlast : last t (H.count s.data) + 1 < N := hview
      have ht : t = side (H.count s.data + 1) := hside.1
      rw [ht, last_next] at hlast
      refine ⟨by simp only; omega, C.sound_update ?_ fun u hu => ?_⟩
      · rcases hplan with hplan | hplan
        · rw [hplan]
          trivial
        · rw [hplan]
          exact sound_verdict (hn ▸ ht)
      · simp only [hn]
        exact sound_succ (ht ▸ hu) (ih.sound u)
  | retry t => exact ih

include C

/-- A thread that returns while it is next: all numbers have been taken. -/
lemma count_eq (hN : 2 ≤ N) {s : Config Side Side D L} (h : (P.machine oddFirst).Reach s)
    (hret : P.code (side (H.count s.data + 1)) (s.loc (side (H.count s.data + 1))) = none) :
    H.count s.data = N := by
  have hkept := C.kept hN h
  have hsound := hkept.sound (side (H.count s.data + 1))
  rw [(C.returned hret).1] at hsound
  have hlast : N ≤ last (side (H.count s.data + 1)) (H.count s.data) + 1 := hsound
  rw [last_next] at hlast
  have := hkept.bound
  omega

/-- **What has been printed at the end.** -/
theorem finished (hN : 2 ≤ N) {s : Config Side Side D L} (h : (P.machine oddFirst).Reach s)
    (hret : ∀ t, P.code t (s.loc t) = none) :
    H.count s.data = N ∧ H.out s.data = countUp line N := by
  have hcount := C.count_eq hN h (hret _)
  have hout := (H.out_of_idle h fun t => (C.returned (hret t)).2).1
  exact ⟨hcount, by rw [hout, hcount]⟩

/-- **Until the end some thread can move.**

**Proof sketch.** Otherwise the thread that is next has returned, so all numbers have been taken.
The other one took the last of them, so it is not waiting for another. -/
theorem exists_enabled [Inhabited χ] (hN : 2 ≤ N) {s : Config Side Side D L}
    (h : (P.machine oddFirst).Reach s) (hrun : ∃ t, P.code t (s.loc t) ≠ none) :
    ∃ t, P.Enabled t s := by
  by_contra hno
  have hstuck : P.Stuck s := fun t ht => hno ⟨t, ht⟩
  have hnext := C.returned_of_stuck h hstuck fun t ht => (C.returned ht).2
  have hcount := C.count_eq hN h hnext
  obtain ⟨t, ht⟩ := hrun
  have hne : t ≠ side (H.count s.data + 1) := fun he => ht (he ▸ hnext)
  rcases C.returned_or_waiting hstuck t with hc | ⟨⟨next, intr, hc⟩, -⟩
  · exact ht hc
  · have hsound := (C.kept hN h).sound t
    rw [(C.wait hc).1] at hsound
    have hlast : last t (H.count s.data) + 1 < N := hsound
    rw [eq_side_of_ne hne, last_side] at hlast
    omega

/-- **Both threads can return.** -/
theorem exists_returned [Inhabited χ] (hN : 2 ≤ N) :
    ∃ s, (P.machine oddFirst).Reach s ∧ ∀ t, P.code t (s.loc t) = none := by
  obtain ⟨s, -, hr, hret⟩ := C.exists_finished (B := N) (fun s hs => (C.kept hN hs).bound)
    (fun s hs => C.exists_enabled hN hs) .init
  exact ⟨s, hr, hret⟩

/-- **What has been printed at any time**: the first lines of the count to `N`, and each of its
beginnings at some time. -/
theorem exists_out_iff [Inhabited χ] (hN : 2 ≤ N) {out : List Λ} :
    (∃ s, (P.machine oddFirst).Reach s ∧ H.out s.data = out) ↔
      ∃ k ≤ N, out = countUp line k := by
  constructor
  · rintro ⟨s, hs, rfl⟩
    have hle := (H.out_countUp hs).length_le
    rw [length_countUp] at hle
    exact ⟨_, hle.trans (C.kept hN hs).bound, H.out_eq hs⟩
  · rintro ⟨k, hk, rfl⟩
    obtain ⟨s, hs, hret⟩ := C.exists_returned hN
    refine H.exists_out hs k ?_
    rwa [(C.finished hN hs hret).2, length_countUp]

end Countdown

end Handover

end PosixIntro
