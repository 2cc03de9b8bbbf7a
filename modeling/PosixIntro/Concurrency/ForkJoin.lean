import Mathlib.Data.Set.List
import PosixIntro.PosixSemaphore

set_option relaxedAutoImplicit false
set_option autoImplicit false

/-!
# Fork and join with one lock

A root thread creates other threads and joins them; all of them work on common data, partly inside
sections that one lock guards. What a thread does is a list of parts, so a loop whose bounds are
constants is the list of its rounds.

## Main definitions

* `Part`, `ForkJoin` — a part of a thread's code, and a family of threads.
* `ForkJoin.program`, `ForkJoin.machine` — its statements over a binary semaphore, and the
  interleavings. The history records the actions in the order in which they were executed.
* `ForkJoin.Move` — everything one thread can do in one step.
* `writers` — threads that write, and do nothing else.
* `ForkJoin.Serial` — the guarded actions are whole sections, one after the other, and the begun
  part of the section of the thread that holds the lock.

## Main results

* `ForkJoin.step_cases` — a step is a move of one thread, or an interrupted wait.
* `ForkJoin.program_order` — every thread executes its actions in the order of its code.
* `ForkJoin.serializable` — the guarded actions of every reachable state are serial.
* `ForkJoin.exclusive` — at most one thread is inside a section.
* `ForkJoin.exists_order`, `ForkJoin.exists_order_of_gone` — the order in which the lock was taken.
* `ForkJoin.replay` — the data is what the history makes of the initial data.
* `writers_serial` — the output of threads that write in sections only.
-/

namespace PosixIntro

/-- A part of the code of a thread. -/
inductive Part (ι A : Type*) where
  /-- An action outside the sections. -/
  | free (a : A)
  /-- Take the lock, execute the actions, release the lock. -/
  | guarded (body : List A)
  /-- Create the thread `j`. -/
  | spawn (j : ι)
  /-- Wait until the thread `j` has ended. -/
  | join (j : ι)

/-- A family of threads: what each of them does, which one exists at the start, what the actions
do, and the data at the start. -/
structure ForkJoin (ι A D : Type*) where
  /-- The code of the threads. -/
  script : ι → List (Part ι A)
  /-- The thread that exists at the start. -/
  root : ι
  /-- What an action does to the data. -/
  apply : A → D → D
  /-- The data at the start. -/
  data₀ : D

/-- An action that was executed: by which thread, and whether inside a section. -/
structure Event (ι A : Type*) where
  thread : ι
  guarded : Bool
  act : A

/-- What the threads share. No action reads the history. -/
@[ext]
structure Shared (ι A D : Type*) where
  data : D
  started : ι → Bool
  ended : ι → Bool
  history : List (Event ι A)

/-- Where a thread is, and what it has still to do. -/
inductive Spot (ι A : Type*) where
  /-- It has not been created, or has not run yet. -/
  | fresh (rest : List (Part ι A))
  /-- Outside the sections. -/
  | out (rest : List (Part ι A))
  /-- Inside a section, with the rest of its actions and what comes after it. -/
  | inside (body : List A) (rest : List (Part ι A))
  /-- It has returned. -/
  | gone

variable {ι A D : Type*}

/-! ### Parts and histories -/

/-- The actions of the parts in order, `true` for those inside sections. -/
def acts : List (Part ι A) → List (Bool × A)
  | [] => []
  | .free a :: rest => (false, a) :: acts rest
  | .guarded body :: rest => body.map (true, ·) ++ acts rest
  | .spawn _ :: rest => acts rest
  | .join _ :: rest => acts rest

/-- The sections of the parts in order. -/
def blocks : List (Part ι A) → List (List A)
  | [] => []
  | .guarded body :: rest => body :: blocks rest
  | .free _ :: rest => blocks rest
  | .spawn _ :: rest => blocks rest
  | .join _ :: rest => blocks rest

/-- What a thread has still to do. -/
def Spot.todo : Spot ι A → List (Bool × A)
  | .fresh rest => acts rest
  | .out rest => acts rest
  | .inside body rest => body.map (true, ·) ++ acts rest
  | .gone => []

/-- The sections that a thread has still to enter. -/
def Spot.ahead : Spot ι A → List (List A)
  | .fresh rest => blocks rest
  | .out rest => blocks rest
  | .inside _ rest => blocks rest
  | .gone => []

/-- The rest of the section that a thread is inside of. -/
def Spot.body? : Spot ι A → Option (List A)
  | .inside body _ => some body
  | _ => none

/-- The guarded actions of a history, with their threads. -/
def critical (h : List (Event ι A)) : List (ι × A) :=
  (h.filter (·.guarded)).map fun e => (e.thread, e.act)

/-- The actions of a sequence of sections. -/
def flat (bs : List (ι × List A)) : List (ι × A) := bs.flatMap fun b => b.2.map (b.1, ·)

section Histories

variable [DecidableEq ι]

/-- What thread `i` did. -/
def trace (i : ι) (h : List (Event ι A)) : List (Bool × A) :=
  (h.filter fun e => e.thread = i).map fun e => (e.guarded, e.act)

/-- The sections of thread `i` in a sequence of sections. -/
def sectionsOf (i : ι) (bs : List (ι × List A)) : List (List A) :=
  (bs.filter fun b => b.1 = i).map Prod.snd

@[simp] lemma trace_append (i : ι) (h h' : List (Event ι A)) :
    trace i (h ++ h') = trace i h ++ trace i h' := by
  simp [trace]

lemma trace_self (e : Event ι A) : trace e.thread [e] = [(e.guarded, e.act)] := by
  simp [trace]

lemma trace_of_ne {i : ι} {e : Event ι A} (h : e.thread ≠ i) : trace i [e] = [] := by
  simp [trace, h]

@[simp] lemma sectionsOf_append (i : ι) (bs bs' : List (ι × List A)) :
    sectionsOf i (bs ++ bs') = sectionsOf i bs ++ sectionsOf i bs' := by
  simp [sectionsOf]

@[simp] lemma sectionsOf_nil (i : ι) : sectionsOf i ([] : List (ι × List A)) = [] := rfl

lemma sectionsOf_self (i : ι) (b : List A) : sectionsOf i [(i, b)] = [b] := by
  simp [sectionsOf]

lemma sectionsOf_of_ne {i j : ι} (h : j ≠ i) (b : List A) : sectionsOf i [(j, b)] = [] := by
  simp [sectionsOf, h]

end Histories

@[simp] lemma critical_append (h h' : List (Event ι A)) :
    critical (h ++ h') = critical h ++ critical h' := by
  simp [critical]

@[simp] lemma flat_append (bs bs' : List (ι × List A)) : flat (bs ++ bs') = flat bs ++ flat bs' := by
  simp [flat]

namespace ForkJoin

variable [DecidableEq ι] (F : ForkJoin ι A D)

/-- An action of thread `i`. -/
def doAct (i : ι) (guarded : Bool) (a : A) (d : Shared ι A D) : Shared ι A D :=
  { d with data := F.apply a d.data, history := d.history ++ [⟨i, guarded, a⟩] }

/-- The statements of thread `i`. -/
def code (i : ι) : Spot ι A → Option (Stmt Unit Unit (Shared ι A D) (Spot ι A))
  | .fresh rest => some (.act fun _ d => if d.started i then some (d, .out rest) else none)
  | .out [] => some (.update (fun d => { d with ended := Function.update d.ended i true }) .gone)
  | .out (.free a :: rest) => some (.update (F.doAct i false a) (.out rest))
  | .out (.guarded body :: rest) =>
    some (rkSemaWait (.out (.guarded body :: rest)) () (.inside body rest))
  | .out (.spawn j :: rest) =>
    some (.update (fun d => { d with started := Function.update d.started j true }) (.out rest))
  | .out (.join j :: rest) => some (.act fun _ d => if d.ended j then some (d, .out rest) else none)
  | .inside (a :: body) rest => some (.update (F.doAct i true a) (.inside body rest))
  | .inside [] rest => some (rkSemaPost () (.out rest))
  | .gone => none

/-- The threads as a program over one semaphore. -/
def program : Program ι Unit Unit (Shared ι A D) (Spot ι A) where
  code := F.code
  handler _ := none
  data₀ := ⟨F.data₀, fun i => decide (i = F.root), fun _ => false, []⟩
  loc₀ i := .fresh (F.script i)

/-- The interleavings. The lock is free at the start. -/
def machine : Machine (Config ι Unit (Shared ι A D) (Spot ι A)) (Label ι Unit) :=
  F.program.machine fun _ => (rkSemaInit 0 1).2

/-! ### What one step can do -/

/-- The steps of thread `i`: the value of the lock, the shared data and the place before and
after. -/
inductive Move (i : ι) : ℕ → Shared ι A D → Spot ι A → ℕ → Shared ι A D → Spot ι A → Prop
  | start {n : ℕ} {d : Shared ι A D} {rest} (h : d.started i = true) :
      Move i n d (.fresh rest) n d (.out rest)
  | free {n : ℕ} {d : Shared ι A D} {a rest} :
      Move i n d (.out (.free a :: rest)) n (F.doAct i false a d) (.out rest)
  | lock {n : ℕ} {d : Shared ι A D} {body rest} :
      Move i (n + 1) d (.out (.guarded body :: rest)) n d (.inside body rest)
  | act {n : ℕ} {d : Shared ι A D} {a body rest} :
      Move i n d (.inside (a :: body) rest) n (F.doAct i true a d) (.inside body rest)
  | unlock {n : ℕ} {d : Shared ι A D} {rest} :
      Move i n d (.inside [] rest) (n + 1) d (.out rest)
  | spawn {n : ℕ} {d : Shared ι A D} {j rest} :
      Move i n d (.out (.spawn j :: rest)) n
        { d with started := Function.update d.started j true } (.out rest)
  | join {n : ℕ} {d : Shared ι A D} {j rest} (h : d.ended j = true) :
      Move i n d (.out (.join j :: rest)) n d (.out rest)
  | gone {n : ℕ} {d : Shared ι A D} :
      Move i n d (.out []) n { d with ended := Function.update d.ended i true } .gone

variable {F}

lemma retries : F.program.Retries := by
  intro i l x next intr h
  show intr = l
  change F.code i l = _ at h
  unfold code at h
  split at h <;> simp only [Stmt.update, rkSemaWait, rkSemaPost, Option.some.injEq, reduceCtorEq,
    Stmt.wait.injEq] at h
  exact h.2.2.symm

/-- A statement is a move. -/
lemma move_of_exec {i : ι} {l l' : Spot ι A} {st : Stmt Unit Unit (Shared ι A D) (Spot ι A)}
    {c : Unit} {sem sem' : Unit → ℕ} {d d' : Shared ι A D} (hst : F.code i l = some st)
    (hx : st.exec c sem d = some (sem', d', l')) : F.Move i (sem ()) d l (sem' ()) d' l' := by
  match l with
  | .fresh rest =>
    obtain rfl := Option.some.inj hst
    obtain ⟨hd, rfl, rfl, rfl⟩ : d.started i = true ∧ sem = sem' ∧ d = d' ∧ .out rest = l' := by
      simpa [Stmt.exec] using hx
    exact .start hd
  | .out [] =>
    obtain rfl := Option.some.inj hst
    obtain ⟨rfl, rfl, rfl⟩ := by simpa [Stmt.exec, Stmt.update] using hx
    exact .gone
  | .out (.free a :: rest) =>
    obtain rfl := Option.some.inj hst
    obtain ⟨rfl, rfl, rfl⟩ := by simpa [Stmt.exec, Stmt.update] using hx
    exact .free
  | .out (.guarded body :: rest) =>
    obtain rfl := Option.some.inj hst
    obtain ⟨hpos, hx⟩ := Option.ite_none_right_eq_some.mp hx
    obtain ⟨rfl, rfl, rfl⟩ := by simpa using hx
    obtain ⟨n, hn⟩ := Nat.exists_eq_succ_of_ne_zero (Nat.pos_iff_ne_zero.mp hpos)
    rw [Function.update_self, hn]
    exact .lock
  | .out (.spawn j :: rest) =>
    obtain rfl := Option.some.inj hst
    obtain ⟨rfl, rfl, rfl⟩ := by simpa [Stmt.exec, Stmt.update] using hx
    exact .spawn
  | .out (.join j :: rest) =>
    obtain rfl := Option.some.inj hst
    obtain ⟨hd, rfl, rfl, rfl⟩ : d.ended j = true ∧ sem = sem' ∧ d = d' ∧ .out rest = l' := by
      simpa [Stmt.exec] using hx
    exact .join hd
  | .inside [] rest =>
    obtain rfl := Option.some.inj hst
    obtain ⟨rfl, rfl, rfl⟩ := by simpa [Stmt.exec, rkSemaPost] using hx
    rw [Function.update_self]
    exact .unlock
  | .inside (a :: body) rest =>
    obtain rfl := Option.some.inj hst
    obtain ⟨rfl, rfl, rfl⟩ := by simpa [Stmt.exec, Stmt.update] using hx
    exact .act
  | .gone => cases hst

/-- **A step is a move of one thread**, or it interrupts a wait and changes nothing. -/
theorem step_cases {s s' : Config ι Unit (Shared ι A D) (Spot ι A)} {a : Label ι Unit}
    (h : F.machine.step s a = some s') :
    (∃ i, a = .run i () ∧
        F.Move i (s.sem ()) s.data (s.loc i) (s'.sem ()) s'.data (s'.loc i) ∧
        ∀ j, j ≠ i → s'.loc j = s.loc j) ∨
      (∃ i, a = .eintr i ∧ s' = s) := by
  rcases Program.step_cases retries h with ⟨i, c, st, sem, d, l, rfl, hst, hx, rfl⟩ |
    ⟨i, rfl, rfl⟩ | ⟨d, -, hd, -⟩
  · refine .inl ⟨i, rfl, ?_, fun j hj => Function.update_of_ne hj _ _⟩
    simp only [Function.update_self]
    exact move_of_exec hst hx
  · exact .inr ⟨i, rfl, rfl⟩
  · cases hd

/-! ### The order of the actions -/

/-- A move executes what the thread has to do next. -/
lemma Move.trace {i : ι} {n n' : ℕ} {d d' : Shared ι A D} {l l' : Spot ι A}
    (h : F.Move i n d l n' d' l') :
    trace i d'.history ++ l'.todo = trace i d.history ++ l.todo ∧
      ∀ j, j ≠ i → trace j d'.history = trace j d.history := by
  have hother : ∀ (g : Bool) (a : A) (j : ι), j ≠ i →
      PosixIntro.trace j (F.doAct i g a d).history = PosixIntro.trace j d.history := by
    intro g a j hj
    simp [doAct, trace_of_ne (e := ⟨i, g, a⟩) hj.symm]
  have hself : ∀ (g : Bool) (a : A), PosixIntro.trace i (F.doAct i g a d).history =
      PosixIntro.trace i d.history ++ [(g, a)] := by
    intro g a
    simp [doAct, ← trace_self (⟨i, g, a⟩ : Event ι A)]
  cases h with
  | free => exact ⟨by simp [hself, Spot.todo, acts], hother false _⟩
  | act => exact ⟨by simp [hself, Spot.todo], hother true _⟩
  | _ => exact ⟨by simp [Spot.todo, acts], fun _ _ => rfl⟩

/-- **Every thread executes its actions in the order of its code.** What it did and what it has
still to do are together all it has to do. -/
theorem program_order {s : Config ι Unit (Shared ι A D) (Spot ι A)} (h : F.machine.Reach s)
    (i : ι) : trace i s.data.history ++ (s.loc i).todo = acts (F.script i) := by
  refine h.invariant
    (I := fun s => ∀ i, trace i s.data.history ++ (s.loc i).todo = acts (F.script i))
    (fun _ => rfl) (fun s a s' _ ih _ hs => ?_) i
  rcases step_cases hs with ⟨i, -, hm, hloc⟩ | ⟨i, -, rfl⟩
  · intro j
    obtain ⟨hself, hother⟩ := hm.trace
    by_cases hj : j = i
    · rw [hj, hself, ih]
    · rw [hother j hj, hloc j hj, ih]
  · exact ih

/-- **The data is what the history makes of the initial data.** -/
theorem replay {s : Config ι Unit (Shared ι A D) (Spot ι A)} (h : F.machine.Reach s) :
    s.data.data = s.data.history.foldl (fun d e => F.apply e.act d) F.data₀ := by
  refine h.invariant
    (I := fun s => s.data.data = s.data.history.foldl (fun d e => F.apply e.act d) F.data₀)
    rfl fun s a s' _ ih _ hs => ?_
  rcases step_cases hs with ⟨i, -, hm, -⟩ | ⟨i, -, rfl⟩
  · generalize s.loc i = l, s'.loc i = l', s.sem () = n, s'.sem () = n', s'.data = d' at hm
    cases hm with
    | free | act => simp [doAct, ih]
    | _ => exact ih
  · exact ih

/-! ### Serial sections -/

/-- What thread `i` has executed of the open section. -/
def begun (i : ι) : Option (ι × List A) → List A
  | some (j, ran) => if j = i then ran else []
  | none => []

/-- The sections of a thread that are not complete, when the open one has begun with `ran`. -/
def unfinished (ran : List A) (l : Spot ι A) : List (List A) :=
  (l.body?.map (ran ++ ·)).toList ++ l.ahead

/-- **The guarded actions are serial.** They are the actions of the complete sections `done`, one
section after the other, and then those that the holder of the lock has executed in the section
`cur` that is open. -/
structure Serial (F : ForkJoin ι A D) (s : Config ι Unit (Shared ι A D) (Spot ι A))
    (done : List (ι × List A)) (cur : Option (ι × List A)) : Prop where
  /-- The lock is free when no section is open. -/
  lock : s.sem () = if cur.isSome then 0 else 1
  /-- The thread inside is the one whose section is open. -/
  inside : ∀ i, (s.loc i).body?.isSome = true ↔ ∃ ran, cur = some (i, ran)
  /-- The order of the guarded actions. -/
  order : critical s.data.history = flat (done ++ cur.toList)
  /-- Every thread enters its sections in the order of its code. -/
  sections : ∀ i, sectionsOf i done ++ unfinished (begun i cur) (s.loc i) = blocks (F.script i)

lemma begun_of_ne {i j : ι} (h : j ≠ i) (ran : List A) : begun j (some (i, ran)) = [] :=
  if_neg h.symm

lemma begun_self (i : ι) (ran : List A) : begun i (some (i, ran)) = ran := if_pos rfl

/-- A step outside the sections keeps the actions serial. -/
lemma Serial.outside {s s' : Config ι Unit (Shared ι A D) (Spot ι A)} {i : ι}
    {done : List (ι × List A)} {cur : Option (ι × List A)} (h : F.Serial s done cur)
    (hsem : s'.sem () = s.sem ()) (hbody : (s.loc i).body? = none)
    (hbody' : (s'.loc i).body? = none) (hahead : (s'.loc i).ahead = (s.loc i).ahead)
    (hcrit : critical s'.data.history = critical s.data.history)
    (hloc : ∀ j, j ≠ i → s'.loc j = s.loc j) : F.Serial s' done cur := by
  refine ⟨hsem.trans h.lock, fun j => ?_, hcrit.trans h.order, fun j => ?_⟩
  · by_cases hj : j = i
    · rw [← h.inside, hj, hbody, hbody']
    · rw [hloc j hj, h.inside]
  · by_cases hj : j = i
    · rw [← h.sections, unfinished, unfinished, hj, hbody, hbody', hahead]
    · rw [hloc j hj, h.sections]

/-- A move keeps the actions serial. -/
lemma Serial.move {s s' : Config ι Unit (Shared ι A D) (Spot ι A)} {i : ι}
    {done : List (ι × List A)} {cur : Option (ι × List A)} (h : F.Serial s done cur)
    (hm : F.Move i (s.sem ()) s.data (s.loc i) (s'.sem ()) s'.data (s'.loc i))
    (hloc : ∀ j, j ≠ i → s'.loc j = s.loc j) : ∃ done' cur', F.Serial s' done' cur' := by
  have hsec := h.sections i
  have hin := h.inside i
  generalize hn : s.sem () = n, hn' : s'.sem () = n', hd : s.data = d, hd' : s'.data = d',
    hl : s.loc i = l, hl' : s'.loc i = l' at hm hsec hin
  -- the other threads are where they were
  have hothers : ∀ (done' : List (ι × List A)) (cur' : Option (ι × List A)) (j : ι), j ≠ i →
      sectionsOf j done' = sectionsOf j done → begun j cur' = begun j cur →
      sectionsOf j done' ++ unfinished (begun j cur') (s'.loc j) = blocks (F.script j) := by
    intro done' cur' j hj hs hb
    rw [hs, hb, hloc j hj, h.sections]
  cases hm with
  | lock =>
    obtain rfl : cur = none := by
      by_contra hne
      have hlock := h.lock
      rw [hn, Option.isSome_iff_ne_none.mpr hne] at hlock
      simp at hlock
    have hone := h.lock
    rw [hn] at hone
    refine ⟨done, some (i, []), by rw [hn']; simpa using hone, fun j => ?_, ?_, fun j => ?_⟩
    · by_cases hj : j = i
      · simp [hj, hl', Spot.body?]
      · rw [hloc j hj, h.inside j]
        simp [Ne.symm hj]
    · rw [hd', ← hd, h.order]
      simp [flat]
    · by_cases hj : j = i
      · rw [hj, begun_self, hl', ← hsec]
        simp [unfinished, Spot.body?, Spot.ahead, blocks]
      · exact hothers _ _ j hj rfl (begun_of_ne hj _)
  | @act _ _ a body rest =>
    obtain ⟨ran, rfl⟩ := hin.mp rfl
    refine ⟨done, some (i, ran ++ [a]), by rw [hn', ← hn]; exact h.lock, fun j => ?_, ?_,
      fun j => ?_⟩
    · by_cases hj : j = i
      · simp [hj, hl', Spot.body?]
      · rw [hloc j hj, h.inside j]
        simp [Ne.symm hj]
    · rw [hd', doAct, critical_append, ← hd, h.order]
      simp [flat, critical]
    · by_cases hj : j = i
      · rw [hj, begun_self, hl', ← hsec, begun_self]
        simp [unfinished, Spot.body?, Spot.ahead]
      · exact hothers _ _ j hj rfl (by rw [begun_of_ne hj, begun_of_ne hj])
  | unlock =>
    obtain ⟨ran, rfl⟩ := hin.mp rfl
    have hzero := h.lock
    rw [hn] at hzero
    refine ⟨done ++ [(i, ran)], none, by rw [hn']; simpa using hzero, fun j => ?_, ?_,
      fun j => ?_⟩
    · by_cases hj : j = i
      · simp [hj, hl', Spot.body?]
      · rw [hloc j hj, h.inside j]
        simp [Ne.symm hj]
    · rw [hd', ← hd, h.order]
      simp
    · by_cases hj : j = i
      · rw [hj, hl', ← hsec, begun_self]
        simp [unfinished, Spot.body?, Spot.ahead, sectionsOf_self]
      · refine hothers _ _ j hj ?_ (begun_of_ne hj _).symm
        rw [sectionsOf_append, sectionsOf_of_ne (Ne.symm hj), List.append_nil]
  | _ =>
    refine ⟨done, cur, h.outside (by rw [hn', hn]) (by rw [hl]; rfl) (by rw [hl']; rfl) ?_ ?_ hloc⟩
    · simp [hl, hl', Spot.ahead, blocks]
    · simp [hd, hd', doAct, critical]

/-- **Serializability.** The guarded actions of every reachable state are serial. -/
theorem serializable {s : Config ι Unit (Shared ι A D) (Spot ι A)} (h : F.machine.Reach s) :
    ∃ done cur, F.Serial s done cur := by
  refine h.invariant (I := fun s => ∃ done cur, F.Serial s done cur)
    ⟨[], none, rfl, fun i => ?_, rfl, fun i => rfl⟩ fun s a s' _ ih _ hs => ?_
  · simp [machine, program, Program.machine, Spot.body?]
  · obtain ⟨done, cur, hser⟩ := ih
    rcases step_cases hs with ⟨i, -, hm, hloc⟩ | ⟨i, -, rfl⟩
    · exact hser.move hm hloc
    · exact ⟨done, cur, hser⟩

/-- **Mutual exclusion.** At most one thread is inside a section. -/
theorem exclusive {s : Config ι Unit (Shared ι A D) (Spot ι A)} (h : F.machine.Reach s) {i j : ι}
    (hi : (s.loc i).body?.isSome = true) (hj : (s.loc j).body?.isSome = true) : i = j := by
  obtain ⟨done, cur, hser⟩ := serializable h
  obtain ⟨ri, hri⟩ := (hser.inside i).mp hi
  obtain ⟨rj, hrj⟩ := (hser.inside j).mp hj
  rw [hri] at hrj
  exact (Prod.mk.inj (Option.some.inj hrj)).1

omit [DecidableEq ι] in
/-- A shorter sequence of sections has fewer actions. -/
lemma flat_mono {bs bs' : List (ι × List A)} (h : bs <+: bs') : flat bs <+: flat bs' := by
  obtain ⟨t, rfl⟩ := h
  exact ⟨flat t, (flat_append bs t).symm⟩

/-- **The order in which the lock was taken.** The guarded actions are those of the sections in
that order, where only the last one can be incomplete, and every thread enters its sections in the
order of its code. -/
theorem exists_order {s : Config ι Unit (Shared ι A D) (Spot ι A)} (h : F.machine.Reach s) :
    ∃ order, critical s.data.history <+: flat order ∧
      flat order.dropLast <+: critical s.data.history ∧
      ∀ i, sectionsOf i order ++ (s.loc i).ahead = blocks (F.script i) := by
  obtain ⟨done, cur, hser⟩ := serializable h
  rcases cur with _ | ⟨i, ran⟩
  · refine ⟨done, ?_, ?_, fun j => ?_⟩
    · rw [hser.order]
      simp
    · rw [hser.order]
      exact flat_mono (done.dropLast_prefix.trans (List.prefix_append _ _))
    · have hnone : (s.loc j).body? = none := by
        rw [← Option.not_isSome_iff_eq_none, hser.inside]
        simp
      rw [← hser.sections j]
      simp [unfinished, hnone]
  · obtain ⟨body, hbody⟩ := Option.isSome_iff_exists.mp ((hser.inside i).mpr ⟨ran, rfl⟩)
    refine ⟨done ++ [(i, ran ++ body)], ?_, ?_, fun j => ?_⟩
    · rw [hser.order]
      simp only [Option.toList_some, flat_append]
      exact (List.prefix_append_right_inj _).mpr ⟨body.map (i, ·), by simp [flat]⟩
    · rw [hser.order, List.dropLast_concat]
      exact flat_mono (List.prefix_append _ _)
    · rw [← hser.sections j]
      by_cases hj : j = i
      · subst hj
        rw [sectionsOf_append, sectionsOf_self, begun_self, unfinished, hbody]
        simp
      · have hnone : (s.loc j).body? = none := by
          rw [← Option.not_isSome_iff_eq_none, hser.inside]
          simp [Ne.symm hj]
        rw [sectionsOf_append, sectionsOf_of_ne (Ne.symm hj), unfinished, hnone]
        simp

/-- **What the threads have done when all of them have returned**: everything, and the sections
one after the other. -/
theorem exists_order_of_gone {s : Config ι Unit (Shared ι A D) (Spot ι A)}
    (h : F.machine.Reach s) (hgone : ∀ i, s.loc i = .gone) :
    (∀ i, trace i s.data.history = acts (F.script i)) ∧
      ∃ order, critical s.data.history = flat order ∧
        ∀ i, sectionsOf i order = blocks (F.script i) := by
  refine ⟨fun i => ?_, ?_⟩
  · rw [← program_order h i, hgone i]
    simp [Spot.todo]
  · obtain ⟨done, cur, hser⟩ := serializable h
    obtain rfl : cur = none := by
      rcases cur with _ | ⟨i, ran⟩
      · rfl
      · have hin := (hser.inside i).mpr ⟨ran, rfl⟩
        rw [hgone i] at hin
        cases hin
    refine ⟨done, by rw [hser.order]; simp, fun i => ?_⟩
    rw [← hser.sections i, hgone i]
    simp [unfinished, Spot.body?, Spot.ahead]

/-! ### Programs that act in sections only -/

/-- When the code of the threads has actions inside sections only, so has the history. -/
lemma guarded_of_acts (hF : ∀ i, ∀ x ∈ acts (F.script i), x.1 = true)
    {s : Config ι Unit (Shared ι A D) (Spot ι A)} (h : F.machine.Reach s) :
    ∀ e ∈ s.data.history, e.guarded = true := by
  intro e he
  have hmem : (e.guarded, e.act) ∈ trace e.thread s.data.history :=
    List.mem_map.mpr ⟨e, List.mem_filter.mpr ⟨he, by simp⟩, rfl⟩
  refine hF e.thread (e.guarded, e.act) ?_
  rw [← program_order h]
  exact List.mem_append_left _ hmem

/-- When the threads act in sections only, the data is what the guarded actions make of the initial
data. -/
theorem replay_critical (hF : ∀ i, ∀ x ∈ acts (F.script i), x.1 = true)
    {s : Config ι Unit (Shared ι A D) (Spot ι A)} (h : F.machine.Reach s) :
    s.data.data = (critical s.data.history).foldl (fun d x => F.apply x.2 d) F.data₀ := by
  rw [replay h, critical, List.filter_eq_self.mpr (guarded_of_acts hF h), List.foldl_map]

end ForkJoin

/-! ### Programs that only write -/

/-- Threads whose actions write something: the data is what has been written. -/
def writers [DecidableEq ι] (script : ι → List (Part ι A)) (root : ι) : ForkJoin ι A (List A) :=
  ⟨script, root, fun a out => out ++ [a], []⟩

section Writers

variable [DecidableEq ι] {script : ι → List (Part ι A)} {root : ι}
  {s : Config ι Unit (Shared ι A (List A)) (Spot ι A)}

/-- What has been written is what the history says. -/
lemma written (h : (writers script root).machine.Reach s) :
    s.data.data = s.data.history.map Event.act := by
  rw [ForkJoin.replay h]
  have hfold : ∀ (es : List (Event ι A)) (out : List A),
      es.foldl (fun d e => (writers script root).apply e.act d) out =
        out ++ es.map Event.act := by
    intro es
    induction es with
    | nil => simp
    | cons e es ih =>
      intro out
      rw [List.foldl_cons, ih]
      simp [writers]
  exact hfold _ []

/-- When the threads write in sections only, what has been written is what they wrote there. -/
lemma written_critical (hF : ∀ i, ∀ x ∈ acts (script i), x.1 = true)
    (h : (writers script root).machine.Reach s) :
    s.data.data = (critical s.data.history).map Prod.snd := by
  rw [written h, critical, List.filter_eq_self.mpr (ForkJoin.guarded_of_acts hF h), List.map_map]
  rfl

/-- **The output is serial** when the threads write in sections only: it is made of the sections in
the order in which the lock was taken, where only the last one can be incomplete. -/
theorem writers_serial (hF : ∀ i, ∀ x ∈ acts (script i), x.1 = true)
    (h : (writers script root).machine.Reach s) :
    ∃ order, s.data.data <+: order.flatMap Prod.snd ∧
      order.dropLast.flatMap Prod.snd <+: s.data.data ∧
      ∀ i, sectionsOf i order ++ (s.loc i).ahead = blocks (script i) := by
  have hflat : ∀ bs : List (ι × List A), (flat bs).map Prod.snd = bs.flatMap Prod.snd := by
    intro bs
    simp [flat, List.map_flatMap, Function.comp_def]
  obtain ⟨order, hle, hge, hsec⟩ := ForkJoin.exists_order h
  refine ⟨order, ?_, ?_, hsec⟩
  · rw [written_critical hF h, ← hflat]
    exact hle.map Prod.snd
  · rw [written_critical hF h, ← hflat]
    exact hge.map Prod.snd

/-- The output when all threads have returned. -/
theorem writers_serial_of_gone (hF : ∀ i, ∀ x ∈ acts (script i), x.1 = true)
    (h : (writers script root).machine.Reach s) (hgone : ∀ i, s.loc i = .gone) :
    ∃ order, s.data.data = order.flatMap Prod.snd ∧
      ∀ i, sectionsOf i order = blocks (script i) := by
  obtain ⟨-, order, hcrit, hsec⟩ := ForkJoin.exists_order_of_gone h hgone
  refine ⟨order, ?_, hsec⟩
  rw [written_critical hF h, hcrit]
  simp [flat, List.map_flatMap, Function.comp_def]

end Writers

/-! ### Orders of sections -/

section Orders

variable [DecidableEq ι] {order : List (ι × List A)} {bs : ι → List (List A)}

/-- A section of the order is a section of its thread. -/
lemma mem_of_sectionsOf (h : ∀ i, sectionsOf i order <+: bs i) {x : ι × List A}
    (hx : x ∈ order) : x.2 ∈ bs x.1 := by
  refine (h x.1).subset (List.mem_map.mpr ⟨x, List.mem_filter.mpr ⟨hx, by simp⟩, rfl⟩)

/-- The number of sections of a thread in the order. -/
lemma count_fst (i : ι) : (order.map Prod.fst).count i = (sectionsOf i order).length := by
  rw [sectionsOf, List.length_map, List.count_eq_countP, List.countP_map,
    List.countP_eq_length_filter]
  rfl

omit [DecidableEq ι] in
/-- Sections that are known by an index. -/
lemma exists_indices {κ : Type*} {f : κ → ι × List A} (h : ∀ x ∈ order, ∃ n, f n = x) :
    ∃ ns : List κ, order = ns.map f := by
  obtain ⟨ns, hns⟩ : order ∈ Set.range (List.map f) := by
    rw [Set.range_list_map]
    exact h
  exact ⟨ns, hns.symm⟩

/-- Threads with one section each take the lock once each. -/
lemma nodup_of_sectionsOf (h : ∀ i, sectionsOf i order <+: bs i) (hone : ∀ i, (bs i).length ≤ 1) :
    (order.map Prod.fst).Nodup := by
  rw [List.nodup_iff_count_le_one]
  intro i
  rw [count_fst]
  exact (h i).length_le.trans (hone i)

section OneSection

variable {κ : Type*} {thread : κ → ι} {body : κ → List A}

/-- Threads with one section each: the order is an order of different threads. -/
lemma exists_nodup (h : ∀ i, sectionsOf i order <+: bs i) (hbs : ∀ n, bs (thread n) = [body n])
    (hother : ∀ i, bs i ≠ [] → ∃ n, thread n = i) :
    ∃ ns : List κ, ns.Nodup ∧ order = ns.map fun n => (thread n, body n) := by
  have hmem : ∀ x ∈ order, ∃ n, (thread n, body n) = x := by
    intro x hx
    have hb := mem_of_sectionsOf h hx
    obtain ⟨n, hn⟩ := hother x.1 (List.ne_nil_of_mem hb)
    rw [← hn, hbs, List.mem_singleton] at hb
    exact ⟨n, Prod.ext hn hb.symm⟩
  obtain ⟨ns, hns⟩ := exists_indices hmem
  refine ⟨ns, ?_, hns⟩
  have hnodup := nodup_of_sectionsOf h fun i => by
    by_cases hi : bs i = []
    · simp [hi]
    · obtain ⟨n, rfl⟩ := hother i hi
      simp [hbs]
  rw [hns, List.map_map] at hnodup
  exact hnodup.of_map

/-- When they have entered all their sections, every thread is in the order. -/
lemma mem_of_sectionsOf_eq {ns : List κ}
    (h : ∀ i, sectionsOf i (ns.map fun n => (thread n, body n)) = bs i)
    (hbs : ∀ n, bs (thread n) = [body n]) (hinj : Function.Injective thread) (n : κ) : n ∈ ns := by
  have hn := h (thread n)
  rw [hbs] at hn
  have hmem : body n ∈ sectionsOf (thread n) (ns.map fun n => (thread n, body n)) := by
    rw [hn]
    exact List.mem_singleton_self _
  obtain ⟨x, hx, -⟩ := List.mem_map.mp hmem
  obtain ⟨hx, hxn⟩ := List.mem_filter.mp hx
  obtain ⟨m, hm, rfl⟩ := List.mem_map.mp hx
  obtain rfl : m = n := hinj (by simpa using hxn)
  exact hm

end OneSection

/-- The sections of a thread alone. -/
lemma sectionsOf_map_self (i : ι) (t : List (List A)) : sectionsOf i (t.map (i, ·)) = t := by
  simp [sectionsOf, List.filter_map, Function.comp_def]

/-- The sections of another thread. -/
lemma sectionsOf_map_of_ne {i j : ι} (h : j ≠ i) (t : List (List A)) :
    sectionsOf i (t.map (j, ·)) = [] := by
  simp [sectionsOf, List.filter_map, Function.comp_def, h]

end Orders

end PosixIntro
