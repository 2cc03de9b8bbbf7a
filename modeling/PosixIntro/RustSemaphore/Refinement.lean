import PosixIntro.RustSemaphore.Laws

set_option relaxedAutoImplicit false
set_option autoImplicit false

/-!
# Programs over `semaphore.rs` refine programs over counting semaphores

A program whose waits and posts are calls of `wait` and `post` of `semaphore.rs` is compared with
the same program over ideal counting semaphores, in which a wait or a post is one step. A call of
`wait` takes its effect when it does not have to park or when its thread is selected, a call of
`post` when it increments the value.

## Main definitions

* `Place.site` — the location a thread has in the ideal program.
* `ideal` — the state of the ideal program that a state stands for.
* `InRange` — the ideal program stays in the range of `i32`.

## Main results

* `ideal_reach` — without spurious wake-ups the ideal state is reachable in the ideal program.
* `not_panicked` — no call panics if the ideal semaphores and the numbers of waiting threads stay
  in range.
-/

namespace PosixIntro

namespace Rust

variable {ι S χ D L : Type*} [Fintype ι] [DecidableEq ι] [DecidableEq S]
  {P : Program ι S χ D L} {v : S → ℤ}

/-- The location a thread has in the ideal program. -/
def Place.site : Place S L → L
  | .out l => l
  | .wait _ here next p => if p = .relock ∨ p = .leave then next else here
  | .post _ here next p => if p = .notify ∨ p = .leave then next else here
  | .panicked l => l

/-- The values with which the ideal semaphores start. -/
def idealStart (v : S → ℤ) (x : S) : ℕ := (v x).toNat

/-- The state of the ideal program that a state stands for. -/
def ideal (v : S → ℤ) (s : State ι S D L) : Config ι S D L where
  sem x := idealStart v x + (s.sem x).posts - (s.sem x).granted
  data := s.data
  loc i := (s.place i).site

/-- A thread inside a call is at the statement that makes the call. -/
def Place.Calls (P : Program ι S χ D L) (i : ι) : Place S L → Prop
  | .wait x here next _ => ∃ intr, P.code i here = some (.wait x next intr)
  | .post x here next _ => P.code i here = some (.post x next)
  | _ => True

/-! ### The calls -/

omit [Fintype ι] [DecidableEq ι] [DecidableEq S] in
/-- A move keeps the thread at the statement that makes its call. -/
lemma Move.calls {i : ι} {x : S} {asleep : ℕ} {m m' : Semaphore} {pl pl' : Place S L}
    (h : Move P i x asleep m pl m' pl') (hc : pl.Calls P i) : pl'.Calls P i := by
  cases h with
  | callWait _ h => exact ⟨_, h⟩
  | callPost _ h => exact h
  | waitLockPanic | decrementPanic | relockPanic | waitLeave | postLockPanic | incrementPanic
  | postLeave => trivial
  | _ => exact hc

/-- Every thread inside a call is at the statement that makes the call. -/
lemma calls {s : State ι S D L} (h : (machine P v).Reach s) (i : ι) : (s.place i).Calls P i := by
  refine h.invariant (I := fun s => ∀ i, (s.place i).Calls P i) (fun _ => trivial)
    (fun s a s' _ ih _ hs i => ?_) i
  rcases step_cases hs with ⟨j, c, x, m, pl, -, hm, rfl⟩ |
    ⟨j, c, l, f, d, l', -, hl, -, -, rfl⟩ | ⟨j, k, x, l, next, l', next', -, hj, hk, rfl⟩ |
    ⟨k, x, l, next, -, hk, rfl⟩
  · exact State.forall_place_move (Q := fun i pl => pl.Calls P i) (hm.calls (ih j))
      (fun i _ => ih i) i
  · have hcj : (Place.out l' : Place S L).Calls P j := trivial
    exact (Function.forall_update_iff s.place fun i pl => pl.Calls P i).mpr
      ⟨hcj, fun i _ => ih i⟩ i
  · have hcj : (Place.post x l next .leave).Calls P j := by
      have h := ih j
      rw [hj] at h
      exact h
    have hck : (Place.wait x l' next' .relock).Calls P k := by
      have h := ih k
      rw [hk] at h
      exact h
    refine State.forall_place_move (Q := fun i pl => pl.Calls P i) hck (fun i _ => ?_) i
    exact State.forall_place_move (Q := fun i pl => pl.Calls P i) hcj (fun i _ => ih i) i
  · have hck : (Place.wait x l next .relock).Calls P k := by
      have h := ih k
      rw [hk] at h
      exact h
    exact State.forall_place_move (Q := fun i pl => pl.Calls P i) hck (fun i _ => ih i) i

/-! ### The simulation -/

omit [Fintype ι] in
/-- The ideal state after a move, when the move takes no effect in the ideal program. -/
lemma ideal_move_of_eq {s : State ι S D L} {i : ι} {x : S} {m : Semaphore} {pl : Place S L}
    (hsite : pl.site = (s.place i).site) (hp : m.posts = (s.sem x).posts)
    (hg : m.granted = (s.sem x).granted) : ideal v (s.move i x m pl) = ideal v s := by
  refine Config.ext (funext fun y => ?_) rfl (funext fun j => ?_)
  · by_cases hy : y = x
    · subst hy
      simp [ideal, hp, hg]
    · simp [ideal, State.sem_move_of_ne _ _ _ _ _ _ hy]
  · by_cases hj : j = i
    · subst hj
      simp [ideal, hsite]
    · simp [ideal, State.place_move_of_ne _ _ _ _ _ hj]

omit [Fintype ι] in
/-- The ideal state after a move, when the semaphore gets the ideal value `n`. -/
lemma ideal_move {s : State ι S D L} {i : ι} {x : S} {m : Semaphore} {pl : Place S L} {n : ℕ}
    (hn : idealStart v x + m.posts - m.granted = n) :
    ideal v (s.move i x m pl) = ⟨Function.update (ideal v s).sem x n, s.data,
      Function.update (ideal v s).loc i pl.site⟩ := by
  refine Config.ext (funext fun y => ?_) rfl (funext fun j => ?_)
  · by_cases hy : y = x
    · subst hy
      simp [ideal, hn]
    · simp [ideal, State.sem_move_of_ne _ _ _ _ _ _ hy, Function.update_of_ne hy]
  · by_cases hj : j = i
    · subst hj
      simp [ideal]
    · simp [ideal, State.place_move_of_ne _ _ _ _ _ hj, Function.update_of_ne hj]

omit [Fintype ι] in
/-- A thread that is let through takes its wait in the ideal program. -/
lemma ideal_wait {s : State ι S D L} {i : ι} {x : S} {here next intr : L} {c : χ}
    {m : Semaphore} {pl : Place S L} (hloc : (s.place i).site = here)
    (hc : P.code i here = some (.wait x next intr))
    (hpos : (s.sem x).granted < idealStart v x + (s.sem x).posts)
    (hp : m.posts = (s.sem x).posts) (hg : m.granted = (s.sem x).granted + 1)
    (hsite : pl.site = next) :
    (P.machine (idealStart v)).step (ideal v s) (.run i c) = some (ideal v (s.move i x m pl)) := by
  have hsem : (ideal v s).sem x = idealStart v x + (s.sem x).posts - (s.sem x).granted := rfl
  have hc' : P.code i ((ideal v s).loc i) = some (.wait x next intr) := by
    rw [← hc, ← hloc]
    rfl
  have hpos' : 0 < (ideal v s).sem x := by omega
  refine Program.step_run_iff.mpr ⟨_, _, _, _, hc', if_pos hpos', ?_⟩
  rw [ideal_move (n := (ideal v s).sem x - 1) (by omega), hsite]
  rfl

omit [Fintype ι] in
/-- A thread that increments the value takes its post in the ideal program. -/
lemma ideal_post {s : State ι S D L} {i : ι} {x : S} {here next : L} {c : χ}
    {m : Semaphore} {pl : Place S L} (hloc : (s.place i).site = here)
    (hc : P.code i here = some (.post x next))
    (hle : (s.sem x).granted ≤ idealStart v x + (s.sem x).posts)
    (hp : m.posts = (s.sem x).posts + 1) (hg : m.granted = (s.sem x).granted)
    (hsite : pl.site = next) :
    (P.machine (idealStart v)).step (ideal v s) (.run i c) = some (ideal v (s.move i x m pl)) := by
  have hsem : (ideal v s).sem x = idealStart v x + (s.sem x).posts - (s.sem x).granted := rfl
  have hc' : P.code i ((ideal v s).loc i) = some (.post x next) := by
    rw [← hc, ← hloc]
    rfl
  refine Program.step_run_iff.mpr ⟨_, _, _, _, hc', rfl, ?_⟩
  rw [ideal_move (n := (ideal v s).sem x + 1) (by omega), hsite]
  rfl

/-- A move is a step of the ideal program or takes no effect in it. -/
lemma Move.ideal_step {s : State ι S D L} (h : ∀ x, Laws (v x) x s)
    (hcalls : ∀ i, (s.place i).Calls P i) {i : ι} {x : S} {c : χ} {m : Semaphore}
    {pl : Place S L} (hm : Move P i x (s.waiting x .parked) (s.sem x) (s.place i) m pl) :
    ideal v (s.move i x m pl) = ideal v s ∨
      (P.machine (idealStart v)).step (ideal v s) (.run i c) =
        some (ideal v (s.move i x m pl)) := by
  have hbudget := (h x).budget
  have hci := hcalls i
  generalize hpl : s.place i = pl₀ at hm hci
  generalize hsem : s.sem x = m₀ at hm
  rw [hsem] at hbudget
  cases hm with
  | decrementPass _ hn =>
    obtain ⟨intr, hc⟩ := hci
    right
    refine ideal_wait (by rw [hpl]; rfl) hc ?_ ?_ ?_ rfl
    · rw [hsem, idealStart]
      omega
    · rw [hsem]
      rfl
    · rw [hsem]
      rfl
  | incrementNotify | incrementLeave =>
    right
    refine ideal_post (by rw [hpl]; rfl) hci ?_ ?_ ?_ rfl
    · rw [hsem, idealStart]
      omega
    · rw [hsem]
      rfl
    · rw [hsem]
      rfl
  | _ =>
    left
    refine ideal_move_of_eq ?_ ?_ ?_
    · rw [hpl]
      simp [Place.site]
    · simp [hsem, Semaphore.start, Semaphore.unlock, Semaphore.poison, Semaphore.decrement,
        Semaphore.finish]
    · simp [hsem, Semaphore.start, Semaphore.unlock, Semaphore.poison, Semaphore.decrement,
        Semaphore.finish]

/-- A step that is not a spurious wake-up is a step of the ideal program or takes no effect in
it. -/
theorem ideal_step [Inhabited χ] {s s' : State ι S D L} {a : Label ι χ}
    (h : ∀ x, Laws (v x) x s) (hcalls : ∀ i, (s.place i).Calls P i) (hok : Notified s a)
    (hs : (machine P v).step s a = some s') :
    ideal v s' = ideal v s ∨
      ∃ b, (P.machine (idealStart v)).step (ideal v s) b = some (ideal v s') := by
  rcases step_cases hs with ⟨i, c, x, m, pl, -, hm, rfl⟩ |
    ⟨i, c, l, f, d, l', -, hl, hst, hf, rfl⟩ | ⟨i, j, x, l, next, l', next', -, hi, hj, rfl⟩ |
    ⟨j, x, l, next, rfl, -⟩
  · rcases hm.ideal_step (c := c) h hcalls with he | he
    · exact .inl he
    · exact .inr ⟨_, he⟩
  · right
    refine ⟨.run i c, Program.step_run_iff.mpr ⟨.act f, (ideal v s).sem, d, l', ?_, ?_, ?_⟩⟩
    · rw [← hst]
      simp [ideal, hl, Place.site]
    · show (f c s.data).map _ = _
      rw [hf]
      rfl
    · refine Config.ext rfl rfl (funext fun j => ?_)
      by_cases hj : j = i
      · subst hj
        simp [ideal, Place.site]
      · simp [ideal, Function.update_of_ne hj]
  · right
    have hji := ne_of_notify hi hj
    set t := s.move i x (s.sem x) (.post x l next .leave) with ht
    have htj : t.place j = .wait x l' next' .parked := by
      rw [ht, State.place_move_of_ne _ _ _ _ _ hji, hj]
    have hts : t.sem x = s.sem x := State.sem_move ..
    have hideal : ideal v t = ideal v s :=
      ideal_move_of_eq (by rw [hi]; simp [Place.site]) rfl rfl
    obtain ⟨intr, hc⟩ : ∃ intr, P.code j l' = some (.wait x next' intr) := by
      have := hcalls j
      rwa [hj] at this
    have hnotify : 0 < s.posting x .notify := by
      have hle : (s.place i).posts x .notify ≤ s.posting x .notify :=
        le_tally (fun _ => Place.posts x .notify) s.place i
      simp only [hi, Place.posts, and_self, if_true] at hle
      omega
    have hbudget := (h x).budget
    have hsite : (t.place j).site = l' := by rw [htj]; rfl
    refine ⟨.run j default, ?_⟩
    rw [← hideal]
    refine ideal_wait hsite hc ?_ ?_ ?_ rfl
    · rw [hts, idealStart]
      omega
    · rw [hts]
      rfl
    · rw [hts]
      rfl
  · exact absurd rfl (hok j)

/-- **Refinement.** Without spurious wake-ups the ideal state is reachable in the program over
counting semaphores. -/
theorem ideal_reach [Inhabited χ] {s : State ι S D L} (h : (machine P v).ReachIf Notified s) :
    (P.machine (idealStart v)).Reach (ideal v s) := by
  induction h with
  | init =>
    have h0 : ideal v (machine P v).init = (P.machine (idealStart v)).init := by
      refine Config.ext (funext fun x => ?_) rfl rfl
      simp [ideal, machine, Semaphore.new, Program.machine]
    rw [h0]
    exact .init
  | step hr hok hs ih =>
    rcases ideal_step (laws hr) (calls hr.reach) hok hs with he | ⟨b, hb⟩
    · rw [he]
      exact ih
    · exact ih.next hb

/-! ### Panics -/

/-- Thread `i` is at a wait on `x`. -/
def waitsAt (P : Program ι S χ D L) (x : S) (i : ι) (l : L) : ℕ :=
  match P.code i l with
  | some (.wait y _ _) => if y = x then 1 else 0
  | _ => 0

omit [Fintype ι] [DecidableEq ι] in
/-- What a thread counts for is known from the statement it is at. -/
lemma waitsAt_le {x : S} {i : ι} {l : L} {n : ℕ}
    (h : ∀ next intr, P.code i l = some (.wait x next intr) → 1 ≤ n) : waitsAt P x i l ≤ n := by
  unfold waitsAt
  split
  · rename_i y next intr hc
    split_ifs with hy
    · exact h next intr (hy ▸ hc)
    · exact Nat.zero_le _
  · exact Nat.zero_le _

/-- The ideal program stays in the range of `i32`: no semaphore starts below zero or exceeds the
greatest `i32`, and there are never more than `2 ^ 31` threads at waits on the same semaphore. -/
structure InRange (P : Program ι S χ D L) (v : S → ℤ) : Prop where
  start : ∀ x, 0 ≤ v x
  sem : ∀ t, (P.machine (idealStart v)).Reach t → ∀ x, (t.sem x : ℤ) ≤ i32Max
  waits : ∀ t, (P.machine (idealStart v)).Reach t → ∀ x, tally (waitsAt P x) t.loc ≤ 2 ^ 31

omit [Fintype ι] [DecidableEq ι] in
/-- A move does not panic if the mutex is not poisoned and the value does not overflow. -/
lemma Move.not_panicked {i : ι} {x : S} {asleep : ℕ} {m m' : Semaphore} {pl pl' : Place S L}
    (h : Move P i x asleep m pl m' pl') (hp : m.poisoned = false)
    (hmin : pl.waits x .decrement = 1 → m.value ≠ i32Min)
    (hmax : pl.posts x .increment = 1 → m.value ≠ i32Max) :
    m'.poisoned = false ∧ ∀ l, pl' ≠ .panicked l := by
  cases h <;> simp_all [Place.waits, Place.posts, Semaphore.start, Semaphore.unlock,
    Semaphore.decrement, Semaphore.increment, Semaphore.finish]

omit [DecidableEq ι] in
/-- Every thread that was sent to park on `x`, or is about to decrement it, is at a wait on `x`. -/
lemma waiting_le_waitsAt {s : State ι S D L} (hcalls : ∀ i, (s.place i).Calls P i) (x : S) :
    s.waiting x .decrement + s.waiting x .park + s.waiting x .parked ≤
      tally (waitsAt P x) (ideal v s).loc := by
  have h₁ := tally_add (fun _ : ι => Place.waits x .decrement) (fun _ => Place.waits x .park)
    s.place
  have h₂ := tally_add
    (fun (_ : ι) (pl : Place S L) => pl.waits x .decrement + pl.waits x .park)
    (fun _ => Place.waits x .parked) s.place
  have hle : tally (fun (_ : ι) (pl : Place S L) =>
      pl.waits x .decrement + pl.waits x .park + pl.waits x .parked) s.place ≤
        tally (fun i (pl : Place S L) => waitsAt P x i pl.site) s.place := by
    refine tally_le_tally fun i => ?_
    have hc := hcalls i
    cases hpl : s.place i with
    | wait y here next p =>
      rw [hpl] at hc
      obtain ⟨intr, hc⟩ := hc
      by_cases hy : y = x
      · cases p <;> simp [Place.waits, Place.site, waitsAt, hc, hy]
      · simp [Place.waits, hy]
    | _ => simp [Place.waits]
  have hsite : tally (waitsAt P x) (ideal v s).loc =
      tally (fun i (pl : Place S L) => waitsAt P x i pl.site) s.place := rfl
  simp only [State.waiting]
  omega

/-- A thread that is about to decrement does not meet the least value. -/
lemma value_ne_min [Inhabited χ] (hr : InRange P v) {s : State ι S D L}
    (h : (machine P v).ReachIf Notified s) {i : ι} {x : S}
    (hi : (s.place i).waits x .decrement = 1) : (s.sem x).value ≠ i32Min := by
  intro hmin
  have hasleep := (laws h x).asleep (hr.start x)
  have hle := waiting_le_waitsAt (v := v) (calls h.reach) x
  have hbound := hr.waits _ (ideal_reach h) x
  have hone : (s.place i).waits x .decrement ≤ s.waiting x .decrement :=
    le_tally (fun _ => Place.waits x .decrement) s.place i
  rw [hmin] at hasleep
  unfold i32Min at hasleep
  omega

/-- A thread that is about to increment does not meet the greatest value. -/
lemma value_ne_max [Inhabited χ] (hr : InRange P v) {s : State ι S D L}
    (h : (machine P v).ReachIf Notified s) {i : ι} {x : S}
    (hi : (s.place i).posts x .increment = 1) : (s.sem x).value ≠ i32Max := by
  intro hmax
  have hbudget := (laws h x).budget
  have hc := calls h.reach i
  cases hpl : s.place i with
  | post y here next p =>
    rw [hpl] at hi hc
    obtain ⟨rfl, rfl⟩ : y = x ∧ p = .increment := by
      by_contra hne
      simp [Place.posts, hne] at hi
    -- the increment would take the ideal semaphore out of range
    have hstep : (P.machine (idealStart v)).step (ideal v s) (.run i default) =
        some (ideal v (s.move i y (s.sem y).increment (.post y here next .leave))) :=
      ideal_post (by rw [hpl]; rfl) hc (by unfold idealStart; omega) rfl rfl rfl
    have hsem := hr.sem _ ((ideal_reach h).next hstep) y
    have : (ideal v (s.move i y (s.sem y).increment (.post y here next .leave))).sem y =
        (v y).toNat + ((s.sem y).posts + 1) - (s.sem y).granted := by
      simp [ideal, idealStart, Semaphore.increment]
    unfold i32Max at hmax hsem
    omega
  | _ =>
    rw [hpl] at hi
    cases hi

/-- **No call panics** if the ideal program stays in range. -/
theorem not_panicked [Inhabited χ] (hr : InRange P v) {s : State ι S D L}
    (h : (machine P v).ReachIf Notified s) :
    (∀ x, (s.sem x).poisoned = false) ∧ ∀ i l, s.place i ≠ .panicked l := by
  refine h.invariant (I := fun s => (∀ x, (s.sem x).poisoned = false) ∧
    ∀ i l, s.place i ≠ .panicked l) ⟨fun _ => rfl, fun i l hl => by cases hl⟩
    fun s a s' hreach ih hok hs => ?_
  obtain ⟨hpois, hplace⟩ := ih
  rcases step_cases hs with ⟨i, c, x, m, pl, -, hm, rfl⟩ |
    ⟨i, c, l, f, d, l', -, hl, -, -, rfl⟩ | ⟨i, j, x, l, next, l', next', -, hi, hj, rfl⟩ |
    ⟨j, x, l, next, rfl, -⟩
  · obtain ⟨hp, hpl⟩ := hm.not_panicked (hpois x) (value_ne_min hr hreach)
      (value_ne_max hr hreach)
    exact ⟨State.forall_sem_move (Q := fun _ m => m.poisoned = false) hp fun y _ => hpois y,
      State.forall_place_move (Q := fun _ pl => ∀ l, pl ≠ .panicked l) hpl fun j _ => hplace j⟩
  · exact ⟨hpois, (Function.forall_update_iff s.place fun _ pl => ∀ l, pl ≠ .panicked l).mpr
      ⟨by simp, fun j _ => hplace j⟩⟩
  · constructor
    · refine State.forall_sem_move (Q := fun _ m => m.poisoned = false) (hpois x) fun y _ => ?_
      exact State.forall_sem_move (Q := fun _ m => m.poisoned = false) (hpois x)
        (fun y _ => hpois y) y
    · refine State.forall_place_move (Q := fun _ pl => ∀ l, pl ≠ .panicked l) (by simp)
        fun k _ => ?_
      exact State.forall_place_move (Q := fun _ pl => ∀ l, pl ≠ .panicked l) (by simp)
        (fun k _ => hplace k) k
  · exact absurd rfl (hok j)

end Rust

end PosixIntro
