import PosixIntro.Concurrency.Machine
import PosixIntro.Concurrency.Tally

set_option relaxedAutoImplicit false
set_option autoImplicit false

/-!
# Threads that synchronise by counting semaphores

An interleaving semantics for a finite family of threads that share data and counting
semaphores. A thread is given statement by statement: its location (program point and local
variables) determines the next statement. Everything that is not a semaphore operation is an
`act`, a guarded update of the shared data.

## Main definitions

* `Stmt`, `Stmt.exec` — one statement and what it does when it is executed.
* `Program`, `Program.machine` — a program and its interleaving machine. A label runs one thread,
  interrupts a thread inside a semaphore wait, or delivers a signal to the installed handler.
* `Program.Enabled` — the threads that can move; `Program.Stuck` — no thread can.
* `Program.ActRun` — several acts of one thread in a row.

## Main results

* `Program.step_cases` — everything one step can do, when interrupted waits are retried.
* `Program.balance` — the conservation rule: a law between semaphore values, data and a tally of
  the threads holds in every reachable state if every statement keeps it locally.
* `Program.owner_invariant` — the ownership rule: data that only the threads inside a mutually
  exclusive region touch satisfies the region's invariant, phase by phase.
-/

namespace PosixIntro

/-- One statement of a thread. -/
inductive Stmt (S χ D L : Type*) where
  /-- Decrement the semaphore `x` and go on at `next`, blocking while it is zero. When the
  operating system interrupts the wait, nothing is decremented and the thread goes on at
  `intr`. -/
  | wait (x : S) (next intr : L)
  /-- Increment the semaphore `x` and go on at `next`. -/
  | post (x : S) (next : L)
  /-- Read and update the shared data, then go on at the location returned. The environment
  chooses a value of type `χ`; `none` means that the statement blocks. -/
  | act (f : χ → D → Option (D × L))

/-- The statement that updates the data by `f` and goes on at `next`. -/
def Stmt.update {S χ D L : Type*} (f : D → D) (next : L) : Stmt S χ D L :=
  .act fun _ d => some (f d, next)

/-- A state of the threads: semaphore values, shared data and every thread's location. -/
@[ext]
structure Config (ι S D L : Type*) where
  /-- The values of the semaphores. -/
  sem : S → ℕ
  /-- The shared data. -/
  data : D
  /-- The location of every thread. -/
  loc : ι → L

/-- A program: the statement at every location (`none` where the thread has returned), the
signal handler, and the initial data and locations. -/
structure Program (ι S χ D L : Type*) where
  /-- The statement thread `i` executes at a location. -/
  code : ι → L → Option (Stmt S χ D L)
  /-- The effect of the installed signal handler, `none` if there is no handler. -/
  handler : D → Option D
  /-- The shared data at the start. -/
  data₀ : D
  /-- The locations at the start. -/
  loc₀ : ι → L

/-- What a scheduler can choose: run a thread (resolving its choice), interrupt a thread inside
a semaphore wait, or deliver the signal. -/
inductive Label (ι χ : Type*) where
  | run (i : ι) (c : χ)
  | eintr (i : ι)
  | signal

variable {ι S χ D L : Type*} [DecidableEq ι] [DecidableEq S]

/-- What a statement does to the semaphores and the data, and where the thread goes on. -/
def Stmt.exec : Stmt S χ D L → χ → (S → ℕ) → D → Option ((S → ℕ) × D × L)
  | .wait x next _, _, sem, d =>
    if 0 < sem x then some (Function.update sem x (sem x - 1), d, next) else none
  | .post x next, _, sem, d => some (Function.update sem x (sem x + 1), d, next)
  | .act f, c, sem, d => (f c d).map fun r => (sem, r.1, r.2)

omit [DecidableEq ι] in
/-- Everything a statement can do. -/
lemma Stmt.exec_cases {st : Stmt S χ D L} {c : χ} {sem sem' : S → ℕ} {d d' : D} {l' : L}
    (h : st.exec c sem d = some (sem', d', l')) :
    (∃ x intr, st = .wait x l' intr ∧ 0 < sem x ∧ d' = d ∧
        sem' = Function.update sem x (sem x - 1)) ∨
      (∃ x, st = .post x l' ∧ d' = d ∧ sem' = Function.update sem x (sem x + 1)) ∨
      (∃ f, st = .act f ∧ f c d = some (d', l') ∧ sem' = sem) := by
  cases st with
  | wait x next intr =>
    obtain ⟨hpos, h⟩ := Option.ite_none_right_eq_some.mp h
    obtain ⟨rfl, rfl, rfl⟩ := by simpa using h
    exact .inl ⟨x, intr, rfl, hpos, rfl, rfl⟩
  | post x next =>
    obtain ⟨rfl, rfl, rfl⟩ := by simpa [Stmt.exec] using h
    exact .inr (.inl ⟨x, rfl, rfl, rfl⟩)
  | act f =>
    obtain ⟨⟨e, m⟩, hf, h⟩ := Option.map_eq_some_iff.mp h
    obtain ⟨rfl, rfl, rfl⟩ := by simpa using h
    exact .inr (.inr ⟨f, rfl, hf, rfl⟩)

namespace Program

variable (P : Program ι S χ D L)

/-- The interleaving machine of a program whose semaphores start with the values `v`. -/
def machine (v : S → ℕ) : Machine (Config ι S D L) (Label ι χ) where
  init := ⟨v, P.data₀, P.loc₀⟩
  step s
    | .run i c =>
      (P.code i (s.loc i)).bind fun st =>
        (st.exec c s.sem s.data).map fun r => ⟨r.1, r.2.1, Function.update s.loc i r.2.2⟩
    | .eintr i =>
      match P.code i (s.loc i) with
      | some (.wait _ _ intr) => some { s with loc := Function.update s.loc i intr }
      | _ => none
    | .signal => (P.handler s.data).map fun d => { s with data := d }

/-- Interrupted waits are retried: an interruption leaves the thread where it is. -/
def Retries : Prop :=
  ∀ i l x next intr, P.code i l = some (.wait x next intr) → intr = l

/-- Thread `i` can execute its next statement. -/
def Enabled (i : ι) (s : Config ι S D L) : Prop :=
  ∃ st c r, P.code i (s.loc i) = some st ∧ st.exec c s.sem s.data = some r

/-- No thread can execute a statement. -/
def Stuck (s : Config ι S D L) : Prop := ∀ i, ¬ P.Enabled i s

variable {P} {v : S → ℕ}

/-! ### Single steps -/

/-- A step of thread `i` executes the statement at its location. -/
lemma step_run_iff {s s' : Config ι S D L} {i : ι} {c : χ} :
    (P.machine v).step s (.run i c) = some s' ↔
      ∃ st sem d l, P.code i (s.loc i) = some st ∧ st.exec c s.sem s.data = some (sem, d, l) ∧
        s' = ⟨sem, d, Function.update s.loc i l⟩ := by
  constructor
  · intro h
    obtain ⟨st, hst, h⟩ := Option.bind_eq_some_iff.mp h
    obtain ⟨⟨sem, d, l⟩, hr, rfl⟩ := Option.map_eq_some_iff.mp h
    exact ⟨st, sem, d, l, hst, hr, rfl⟩
  · rintro ⟨st, sem, d, l, hst, hr, rfl⟩
    simp [machine, hst, hr]

/-- A reachable state in which thread `i` executes the statement at its location. -/
lemma reach_run {s : Config ι S D L} (h : (P.machine v).Reach s) {i : ι} {c : χ} {l l' : L}
    {st : Stmt S χ D L} {sem : S → ℕ} {d : D} (hl : s.loc i = l) (hst : P.code i l = some st)
    (hx : st.exec c s.sem s.data = some (sem, d, l')) :
    (P.machine v).Reach ⟨sem, d, Function.update s.loc i l'⟩ := by
  subst hl
  exact Machine.Reach.next h (step_run_iff.mpr ⟨st, sem, d, l', hst, hx, rfl⟩)

/-- **Everything one step can do**, when interrupted waits are retried: a thread executes its
statement, a wait is interrupted and nothing changes, or the handler runs. -/
theorem step_cases (hR : P.Retries) {s s' : Config ι S D L} {a : Label ι χ}
    (h : (P.machine v).step s a = some s') :
    (∃ i c st sem d l, a = .run i c ∧ P.code i (s.loc i) = some st ∧
        st.exec c s.sem s.data = some (sem, d, l) ∧
        s' = ⟨sem, d, Function.update s.loc i l⟩) ∨
      (∃ i, a = .eintr i ∧ s' = s) ∨
      (∃ d, a = .signal ∧ P.handler s.data = some d ∧ s' = { s with data := d }) := by
  cases a with
  | run i c =>
    obtain ⟨st, sem, d, l, hst, hr, hs⟩ := step_run_iff.mp h
    exact .inl ⟨i, c, st, sem, d, l, rfl, hst, hr, hs⟩
  | eintr i =>
    simp only [machine] at h
    split at h
    · rename_i x next intr hc
      obtain rfl := hR _ _ _ _ _ hc
      simp only [Function.update_eq_self, Option.some.injEq] at h
      exact .inr (.inl ⟨i, rfl, h.symm⟩)
    · cases h
  | signal =>
    obtain ⟨d, hd, rfl⟩ := Option.map_eq_some_iff.mp h
    exact .inr (.inr ⟨d, rfl, hd, rfl⟩)

/-- An enabled thread has a step. -/
lemma Enabled.exists_step {i : ι} {s : Config ι S D L} (h : P.Enabled i s) :
    ∃ c s', (P.machine v).step s (.run i c) = some s' := by
  obtain ⟨st, c, ⟨sem, d, l⟩, hst, hr⟩ := h
  exact ⟨c, _, step_run_iff.mpr ⟨st, sem, d, l, hst, hr, rfl⟩⟩

omit [DecidableEq ι] in
/-- A post never blocks. -/
lemma enabled_of_post [Inhabited χ] {i : ι} {s : Config ι S D L} {x : S} {next : L}
    (h : P.code i (s.loc i) = some (.post x next)) : P.Enabled i s :=
  ⟨_, default, _, h, rfl⟩

omit [DecidableEq ι] in
/-- A wait on a positive semaphore does not block. -/
lemma enabled_of_wait [Inhabited χ] {i : ι} {s : Config ι S D L} {x : S} {next intr : L}
    (h : P.code i (s.loc i) = some (.wait x next intr)) (hx : 0 < s.sem x) : P.Enabled i s :=
  ⟨_, default, _, h, if_pos hx⟩

omit [DecidableEq ι] in
/-- An act whose guard holds does not block. -/
lemma enabled_of_act {i : ι} {s : Config ι S D L} {f : χ → D → Option (D × L)} {c : χ}
    {r : D × L} (h : P.code i (s.loc i) = some (.act f)) (hf : f c s.data = some r) :
    P.Enabled i s :=
  ⟨_, c, (s.sem, r.1, r.2), h, by simp [Stmt.exec, hf]⟩

omit [DecidableEq ι] in
/-- A thread that is not enabled has returned or waits on a semaphore that is zero, unless it is
at an act that blocks. -/
lemma returned_or_waiting [Inhabited χ] {s : Config ι S D L} {i : ι}
    (hact : ∀ f, P.code i (s.loc i) = some (.act f) → ∃ c r, f c s.data = some r)
    (h : ¬ P.Enabled i s) :
    P.code i (s.loc i) = none ∨
      ∃ x next intr, P.code i (s.loc i) = some (.wait x next intr) ∧ s.sem x = 0 := by
  cases hst : P.code i (s.loc i) with
  | none => exact .inl rfl
  | some st =>
    right
    cases st with
    | wait x next intr =>
      refine ⟨x, next, intr, rfl, Nat.eq_zero_of_not_pos fun hpos => ?_⟩
      exact h (enabled_of_wait hst hpos)
    | post x next => exact absurd (enabled_of_post hst) h
    | act f =>
      obtain ⟨c, r, hf⟩ := hact f hst
      exact absurd (enabled_of_act hst hf) h

/-! ### Invariants of single threads -/

/-- The rule for properties of one thread's location: what holds at the start and is kept by
every statement, whatever the semaphores and the data are, holds in every reachable state. -/
theorem loc_invariant (hR : P.Retries) (Q : ι → L → Prop) (h₀ : ∀ i, Q i (P.loc₀ i))
    (hwait : ∀ i l x next intr, P.code i l = some (.wait x next intr) → Q i l → Q i next)
    (hpost : ∀ i l x next, P.code i l = some (.post x next) → Q i l → Q i next)
    (hact : ∀ i l f c d d' l', P.code i l = some (.act f) → f c d = some (d', l') →
      Q i l → Q i l')
    {s : Config ι S D L} (h : (P.machine v).Reach s) (i : ι) : Q i (s.loc i) := by
  refine h.invariant (I := fun s => ∀ i, Q i (s.loc i)) h₀ (fun s a s' _ ih _ hs => ?_) i
  rcases step_cases hR hs with ⟨i, c, st, sem, d, l, -, hst, hr, rfl⟩ | ⟨i, -, rfl⟩ |
    ⟨d, -, hd, rfl⟩
  · have hQ : Q i l := by
      rcases Stmt.exec_cases hr with ⟨x, intr, rfl, -⟩ | ⟨x, rfl, -⟩ | ⟨f, rfl, hf, -⟩
      · exact hwait _ _ _ _ _ hst (ih i)
      · exact hpost _ _ _ _ hst (ih i)
      · exact hact _ _ _ _ _ _ _ hst hf (ih i)
    intro j
    by_cases hji : j = i
    · subst hji
      simpa using hQ
    · simpa [Function.update_of_ne hji] using ih j
  · exact ih
  · exact ih

/-! ### The conservation rule -/

/-- **The conservation rule.** Suppose the law `lhs + tally w = rhs` between the semaphores, the
data and the threads' weights holds at the start, every statement keeps it locally and the
handler changes neither side. Then it holds in every reachable state.

**Proof sketch.** One step moves one thread, so the tally changes by that thread's weight only
(`tally_update`), which is what the local law accounts for. -/
theorem balance [Fintype ι] (hR : P.Retries) (lhs rhs : (S → ℕ) → D → ℕ) (w : ι → L → ℕ)
    (h₀ : lhs v P.data₀ + tally w P.loc₀ = rhs v P.data₀)
    (hrun : ∀ i l st c sem d sem' d' l', P.code i l = some st →
      st.exec c sem d = some (sem', d', l') →
      lhs sem' d' + w i l' + rhs sem d = lhs sem d + w i l + rhs sem' d')
    (hsig : ∀ sem d d', P.handler d = some d' → lhs sem d' = lhs sem d ∧ rhs sem d' = rhs sem d)
    {s : Config ι S D L} (h : (P.machine v).Reach s) :
    lhs s.sem s.data + tally w s.loc = rhs s.sem s.data := by
  refine h.invariant (I := fun s => lhs s.sem s.data + tally w s.loc = rhs s.sem s.data) h₀
    fun s a s' _ ih _ hs => ?_
  rcases step_cases hR hs with ⟨i, c, st, sem, d, l, -, hst, hr, rfl⟩ | ⟨i, -, rfl⟩ |
    ⟨d, -, hd, rfl⟩
  · have hloc := hrun i _ st c _ _ _ _ _ hst hr
    have hup := tally_update w s.loc i l
    simp only
    omega
  · exact ih
  · obtain ⟨h₁, h₂⟩ := hsig s.sem _ _ hd
    simp only [h₁, h₂]
    exact ih

/-! ### The ownership rule -/

/-- The region's invariant, as the threads see it: the data satisfies `K` of the owner's phase,
and `K none` when no thread is inside the region. -/
def Owned {Φ : Type*} (phase : L → Option Φ) (K : Option Φ → D → Prop) (d : D)
    (loc : ι → L) : Prop :=
  (∀ i φ, phase (loc i) = some φ → K (some φ) d) ∧ ((∀ i, phase (loc i) = none) → K none d)

/-- At most one thread is inside the region. -/
def Exclusive {Φ : Type*} (phase : L → Option Φ) (loc : ι → L) : Prop :=
  ∀ i j, phase (loc i) ≠ none → phase (loc j) ≠ none → i = j

omit [DecidableEq ι] in
/-- What the thread at `i` sees of an owned region when nobody else is inside. -/
lemma Owned.at {Φ : Type*} {phase : L → Option Φ} {K : Option Φ → D → Prop} {d : D}
    {loc : ι → L} (h : Owned phase K d loc) {i : ι} (hi : ∀ j, j ≠ i → phase (loc j) = none) :
    K (phase (loc i)) d := by
  cases hl : phase (loc i) with
  | some φ => exact h.1 i φ hl
  | none =>
    refine h.2 fun j => ?_
    by_cases hji : j = i
    · rw [hji, hl]
    · exact hi j hji

/-- A region is owned when every thread but `i` is outside and `K` of the phase of `i` holds. -/
lemma Owned.of_at {Φ : Type*} {phase : L → Option Φ} {K : Option Φ → D → Prop} {d : D}
    {loc : ι → L} {i : ι} (hi : ∀ j, j ≠ i → phase (loc j) = none) (hK : K (phase (loc i)) d) :
    Owned phase K d loc := by
  refine ⟨fun j φ hj => ?_, fun hall => by rwa [hall i] at hK⟩
  by_cases hji : j = i
  · rwa [← hj, hji]
  · rw [hi j hji] at hj
    cases hj

/-- One thread's move keeps the region owned, if the move takes `K` of its phase to `K` of its
next phase and a move outside the region disturbs no `K`.

**Proof sketch.** If the thread is or gets inside, exclusion says that every other thread is
outside, so its own phase decides. Otherwise it stays outside and no phase changes. -/
lemma Owned.move {Φ : Type*} {phase : L → Option Φ} {K : Option Φ → D → Prop} {d d' : D}
    {loc : ι → L} {i : ι} {l : L} (h : Owned phase K d loc) (hex : Exclusive phase loc)
    (hex' : Exclusive phase (Function.update loc i l))
    (hstep : K (phase (loc i)) d → K (phase l) d')
    (hout : phase (loc i) = none → phase l = none → ∀ φ, K φ d → K φ d') :
    Owned phase K d' (Function.update loc i l) := by
  by_cases hin : phase (loc i) = none ∧ phase l = none
  · have hsame : ∀ j, phase (Function.update loc i l j) = phase (loc j) := fun j => by
      by_cases hji : j = i
      · rw [hji, Function.update_self, hin.1, hin.2]
      · rw [Function.update_of_ne hji]
    simp only [Owned, hsame]
    exact ⟨fun j φ hj => hout hin.1 hin.2 _ (h.1 j φ hj),
      fun hall => hout hin.1 hin.2 _ (h.2 hall)⟩
  · have hother : ∀ j, j ≠ i → phase (loc j) = none := fun j hj => by
      by_contra hne
      rcases not_and_or.mp hin with hi | hl
      · exact hj (hex j i hne hi)
      · exact hj (hex' j i (by rwa [Function.update_of_ne hj]) (by rwa [Function.update_self]))
    refine Owned.of_at (i := i) (fun j hj => ?_) ?_
    · rw [Function.update_of_ne hj]
      exact hother j hj
    · rw [Function.update_self]
      exact hstep (h.at hother)

/-- **The ownership rule.** A region is given by the phase of each location (`none` outside). If
at most one thread is inside in every state reached, every statement takes `K` of the thread's
phase to `K` of its next phase, and neither the statements outside nor the handler disturb any
`K`, then the region is owned in every state reached. -/
theorem owner_invariant {Φ : Type*} (hR : P.Retries) (phase : L → Option Φ)
    (K : Option Φ → D → Prop) {ok : Config ι S D L → Label ι χ → Prop}
    (hexcl : ∀ s, (P.machine v).ReachIf ok s → Exclusive phase s.loc)
    (h₀ : ∀ i, phase (P.loc₀ i) = none) (hK₀ : K none P.data₀)
    (hwait : ∀ i l x next intr d, P.code i l = some (.wait x next intr) → K (phase l) d →
      K (phase next) d)
    (hpost : ∀ i l x next d, P.code i l = some (.post x next) → K (phase l) d → K (phase next) d)
    (hact : ∀ s i l f c d l', (P.machine v).ReachIf ok s → ok s (.run i c) → s.loc i = l →
      P.code i l = some (.act f) → f c s.data = some (d, l') → K (phase l) s.data →
      K (phase l') d)
    (hout : ∀ i l f c d d' l', P.code i l = some (.act f) → f c d = some (d', l') →
      phase l = none → phase l' = none → ∀ φ, K φ d → K φ d')
    (hsig : ∀ d d' φ, P.handler d = some d' → K φ d → K φ d')
    {s : Config ι S D L} (h : (P.machine v).ReachIf ok s) : Owned phase K s.data s.loc := by
  refine h.invariant (I := fun s => Owned phase K s.data s.loc)
    ⟨fun i φ hi => ?_, fun _ => hK₀⟩ fun s a s' hr ih hok hs => ?_
  · have hi' : phase (P.loc₀ i) = some φ := hi
    rw [h₀ i] at hi'
    cases hi'
  have hr' : (P.machine v).ReachIf ok s' := .step hr hok hs
  rcases step_cases hR hs with ⟨i, c, st, sem, d, l, rfl, hst, hx, rfl⟩ | ⟨i, -, rfl⟩ |
    ⟨d, -, hd, rfl⟩
  · refine ih.move (hexcl s hr) (hexcl _ hr') ?_ ?_
    · rcases Stmt.exec_cases hx with ⟨x, intr, rfl, -, rfl, -⟩ | ⟨x, rfl, rfl, -⟩ |
        ⟨f, rfl, hf, -⟩
      · exact hwait _ _ _ _ _ _ hst
      · exact hpost _ _ _ _ _ hst
      · exact hact s i _ f c d l hr hok rfl hst hf
    · rcases Stmt.exec_cases hx with ⟨x, intr, rfl, -, rfl, -⟩ | ⟨x, rfl, rfl, -⟩ |
        ⟨f, rfl, hf, -⟩
      · exact fun _ _ φ hK => hK
      · exact fun _ _ φ hK => hK
      · exact hout i _ f c _ _ _ hst hf
  · exact ih
  · exact ⟨fun j φ hj => hsig _ _ _ hd (ih.1 j φ hj), fun hall => hsig _ _ _ hd (ih.2 hall)⟩

/-! ### Acts in a row -/

variable (P) in
/-- Thread `i` gets from `l` to `l'` by acts alone and takes the data from `d` to `d'`, when no
other thread moves in between. -/
inductive ActRun (i : ι) : L → D → L → D → Prop
  | refl (l : L) (d : D) : ActRun i l d l d
  | head {l l₁ l' : L} {d d₁ d' : D} {f : χ → D → Option (D × L)} {c : χ} :
      P.code i l = some (.act f) → f c d = some (d₁, l₁) → ActRun i l₁ d₁ l' d' →
      ActRun i l d l' d'

omit [DecidableEq ι] [DecidableEq S] in
/-- An update, then a run. -/
lemma ActRun.update {i : ι} {l next l' : L} {d d' : D} {f : D → D} [Inhabited χ]
    (h : P.code i l = some (.update f next)) (hr : P.ActRun i next (f d) l' d') :
    P.ActRun i l d l' d' :=
  .head (c := default) h rfl hr

/-- A run of acts is a run of the machine. -/
lemma ActRun.exec {i : ι} {l l' : L} {d d' : D} (h : P.ActRun i l d l' d')
    {s : Config ι S D L} (hl : s.loc i = l) (hd : s.data = d) :
    ∃ cs : List χ, (P.machine v).exec s (cs.map (.run i)) =
      some ⟨s.sem, d', Function.update s.loc i l'⟩ := by
  induction h generalizing s with
  | refl l d =>
    subst hl hd
    exact ⟨[], by simp [Machine.exec]⟩
  | @head l l₁ l' d d₁ d' f c hc hf _ ih =>
    subst hl hd
    have hstep : (P.machine v).step s (.run i c) =
        some ⟨s.sem, d₁, Function.update s.loc i l₁⟩ :=
      step_run_iff.mpr ⟨.act f, s.sem, d₁, l₁, hc, by simp [Stmt.exec, hf], rfl⟩
    obtain ⟨cs, hcs⟩ := ih (s := ⟨s.sem, d₁, Function.update s.loc i l₁⟩) (by simp) rfl
    refine ⟨c :: cs, ?_⟩
    simp only [List.map_cons, Machine.exec, hstep, Option.bind_some, hcs, Function.update_idem]

end Program

end PosixIntro
