import PosixIntro.Concurrency.CountingSemaphore
import PosixIntro.RustSemaphore.Model

set_option relaxedAutoImplicit false
set_option autoImplicit false

/-!
# The laws of `semaphore.rs`

The accounts that relate the value of a semaphore, the history of its calls and the numbers of
threads at the program points of `wait` and `post`. Each law is linear in these numbers, so one
move keeps it as soon as the move's own changes cancel out.

## Main definitions

* `Laws` — the laws of one semaphore.

## Main results

* `Move.account` — what a move changes in the semaphore it changes in the thread's place too.
* `Laws.parked_of_notify` — `notify_one` never meets an empty wait set.
* `laws` — the laws hold in every state reached without spurious wake-ups.
-/

namespace PosixIntro

namespace Rust

variable {ι S χ D L : Type*} [Fintype ι] [DecidableEq ι] [DecidableEq S]
  {P : Program ι S χ D L}

/-- The thread holds the mutex of `x`. -/
def Place.holds (x : S) : Place S L → ℕ
  | .wait y _ _ p => if y = x ∧ (p = .decrement ∨ p = .park ∨ p = .leave) then 1 else 0
  | .post y _ _ p => if y = x ∧ p ≠ .lock then 1 else 0
  | _ => 0

/-- The number of threads that hold the mutex of `x`. -/
def State.holding (s : State ι S D L) (x : S) : ℕ := tally (fun _ => Place.holds x) s.place

/-- The accounts of the semaphore `x` that started with the value `v`. -/
structure Laws (v : ℤ) (x : S) (s : State ι S D L) : Prop where
  /-- The mutex is locked iff one thread holds it. -/
  mutex : (s.sem x).locked.toNat = s.holding x
  value : (s.sem x).value = v + (s.sem x).posts - (s.sem x).waits
  started : (s.sem x).posts + s.posting x .lock + s.posting x .increment ≤ (s.sem x).started
  notifying : s.posting x .notify ≤ (s.sem x).posts
  /-- The waits that are not let through yet are about to park or parked. -/
  granted : (s.sem x).granted + s.waiting x .park + s.waiting x .parked = (s.sem x).waits
  returned : (s.sem x).returned + s.waiting x .relock + s.waiting x .leave ≤ (s.sem x).granted
  /-- A thread that was let through returns, unless the mutex is poisoned. -/
  returned_eq : (s.sem x).poisoned = false →
    (s.sem x).returned + s.waiting x .relock + s.waiting x .leave = (s.sem x).granted
  /-- Posts pay for the waits let through, those to be notified included. -/
  budget : (s.sem x).granted + s.posting x .notify + (s.sem x).value.toNat ≤
    v.toNat + (s.sem x).posts
  /-- Of the threads that are about to park or parked, one is about to be notified by each post
  that is about to notify, and the value counts the others. -/
  asleep : 0 ≤ v → s.waiting x .park + s.waiting x .parked =
    (-(s.sem x).value).toNat + s.posting x .notify

namespace State

variable (s : State ι S D L) (i : ι) (x y : S) (m : Semaphore) (pl : Place S L)

lemma waiting_move (p : WaitPoint) : (s.move i y m pl).waiting x p + (s.place i).waits x p =
    s.waiting x p + pl.waits x p :=
  tally_update (fun _ => Place.waits x p) s.place i pl

lemma posting_move (p : PostPoint) : (s.move i y m pl).posting x p + (s.place i).posts x p =
    s.posting x p + pl.posts x p :=
  tally_update (fun _ => Place.posts x p) s.place i pl

lemma holding_move : (s.move i y m pl).holding x + (s.place i).holds x =
    s.holding x + pl.holds x :=
  tally_update (fun _ => Place.holds x) s.place i pl

omit [Fintype ι] in
@[simp] lemma sem_move : (s.move i x m pl).sem x = m := Function.update_self ..

omit [Fintype ι] in
lemma sem_move_of_ne (h : x ≠ y) : (s.move i y m pl).sem x = s.sem x := Function.update_of_ne h ..

omit [Fintype ι] in
@[simp] lemma place_move : (s.move i y m pl).place i = pl := Function.update_self ..

omit [Fintype ι] in
lemma place_move_of_ne {j : ι} (h : j ≠ i) : (s.move i y m pl).place j = s.place j :=
  Function.update_of_ne h ..

variable {s i y m pl} in
omit [Fintype ι] in
/-- What holds of every semaphore after a move. -/
lemma forall_sem_move {Q : S → Semaphore → Prop} (hm : Q y m) (h : ∀ x, x ≠ y → Q x (s.sem x)) :
    ∀ x, Q x ((s.move i y m pl).sem x) :=
  (Function.forall_update_iff s.sem Q).mpr ⟨hm, h⟩

variable {s i y m pl} in
omit [Fintype ι] in
/-- What holds of every thread after a move. -/
lemma forall_place_move {Q : ι → Place S L → Prop} (hpl : Q i pl)
    (h : ∀ j, j ≠ i → Q j (s.place j)) : ∀ j, Q j ((s.move i y m pl).place j) :=
  (Function.forall_update_iff s.place Q).mpr ⟨hpl, h⟩

/-! Two threads move, one after the other. -/

variable {i} {j : ι} (h : j ≠ i) (m' : Semaphore) (pl' : Place S L)

include h

lemma waiting_move_move (p : WaitPoint) :
    ((s.move i y m pl).move j y m' pl').waiting x p + (s.place i).waits x p +
      (s.place j).waits x p = s.waiting x p + pl.waits x p + pl'.waits x p := by
  have h₁ := s.waiting_move i x y m pl p
  have h₂ := (s.move i y m pl).waiting_move j x y m' pl' p
  rw [place_move_of_ne _ _ _ _ _ h] at h₂
  omega

lemma posting_move_move (p : PostPoint) :
    ((s.move i y m pl).move j y m' pl').posting x p + (s.place i).posts x p +
      (s.place j).posts x p = s.posting x p + pl.posts x p + pl'.posts x p := by
  have h₁ := s.posting_move i x y m pl p
  have h₂ := (s.move i y m pl).posting_move j x y m' pl' p
  rw [place_move_of_ne _ _ _ _ _ h] at h₂
  omega

lemma holding_move_move :
    ((s.move i y m pl).move j y m' pl').holding x + (s.place i).holds x + (s.place j).holds x =
      s.holding x + pl.holds x + pl'.holds x := by
  have h₁ := s.holding_move i x y m pl
  have h₂ := (s.move i y m pl).holding_move j x y m' pl'
  rw [place_move_of_ne _ _ _ _ _ h] at h₂
  omega

end State

omit [Fintype ι] [DecidableEq ι] [DecidableEq S] in
/-- `notify_one` selects another thread. -/
lemma ne_of_notify {s : State ι S D L} {i j : ι} {y : S} {l next l' next' : L}
    (hi : s.place i = .post y l next .notify) (hj : s.place j = .wait y l' next' .parked) :
    j ≠ i := by
  rintro rfl
  rw [hi] at hj
  cases hj

omit [Fintype ι] [DecidableEq ι] in
/-- **The accounts of one move**: what it changes in the semaphore it changes in the thread's
place too. -/
lemma Move.account {i : ι} {x : S} {asleep : ℕ} {m m' : Semaphore} {pl pl' : Place S L}
    (h : Move P i x asleep m pl m' pl') (hl : pl.holds x = 1 → m.locked = true) :
    m'.locked.toNat + pl.holds x = m.locked.toNat + pl'.holds x ∧
      m'.value + m'.waits + m.posts = m.value + m.waits + m'.posts ∧
      m'.posts + pl'.posts x .lock + pl'.posts x .increment + m.started ≤
        m.posts + pl.posts x .lock + pl.posts x .increment + m'.started ∧
      pl'.posts x .notify + m.posts ≤ pl.posts x .notify + m'.posts ∧
      m'.granted + pl'.waits x .park + pl'.waits x .parked + m.waits =
        m.granted + pl.waits x .park + pl.waits x .parked + m'.waits ∧
      m'.returned + pl'.waits x .relock + pl'.waits x .leave + m.granted ≤
        m.returned + pl.waits x .relock + pl.waits x .leave + m'.granted ∧
      (m'.poisoned = false → m.poisoned = false ∧
        m'.returned + pl'.waits x .relock + pl'.waits x .leave + m.granted =
          m.returned + pl.waits x .relock + pl.waits x .leave + m'.granted) ∧
      m'.granted + pl'.posts x .notify + m'.value.toNat + m.posts ≤
        m.granted + pl.posts x .notify + m.value.toNat + m'.posts ∧
      ((pl.posts x .notify = 1 → asleep ≠ 0) →
        pl'.waits x .park + pl'.waits x .parked + (-m.value).toNat + pl.posts x .notify =
          pl.waits x .park + pl.waits x .parked + (-m'.value).toNat + pl'.posts x .notify) := by
  cases h
  all_goals
    simp_all [Place.holds, Place.waits, Place.posts, Semaphore.start, Semaphore.unlock,
      Semaphore.poison, Semaphore.decrement, Semaphore.increment, Semaphore.finish]
  all_goals omega

omit [Fintype ι] [DecidableEq ι] in
/-- A move on one semaphore does not count for another one. -/
lemma Move.elsewhere {i : ι} {x y : S} {asleep : ℕ} {m m' : Semaphore} {pl pl' : Place S L}
    (h : Move P i y asleep m pl m' pl') (hne : y ≠ x) :
    (∀ p, pl.waits x p = 0 ∧ pl'.waits x p = 0) ∧ (∀ p, pl.posts x p = 0 ∧ pl'.posts x p = 0) ∧
      pl.holds x = 0 ∧ pl'.holds x = 0 := by
  cases h <;> simp [Place.holds, Place.waits, Place.posts, hne]

omit [DecidableEq ι] in
/-- The laws depend on the semaphore and on the numbers of threads only. -/
lemma Laws.congr {v : ℤ} {x : S} {s s' : State ι S D L} (h : Laws v x s)
    (hsem : s'.sem x = s.sem x) (hw : ∀ p, s'.waiting x p = s.waiting x p)
    (hp : ∀ p, s'.posting x p = s.posting x p) (hh : s'.holding x = s.holding x) :
    Laws v x s' := by
  obtain ⟨h₁, h₂, h₃, h₄, h₅, h₆, h₇, h₈, h₉⟩ := h
  constructor <;> simp only [hsem, hw, hp, hh] <;> assumption

omit [DecidableEq ι] in
/-- A thread at the mutex holds it alone. -/
lemma Laws.alone {v : ℤ} {x : S} {s : State ι S D L} (h : Laws v x s) {i j : ι}
    (hi : 0 < (s.place i).holds x) (hj : 0 < (s.place j).holds x) : i = j := by
  have hle : tally (fun _ => Place.holds x) s.place ≤ 1 := by
    have := Bool.toNat_le (s.sem x).locked
    rw [h.mutex] at this
    exact this
  exact eq_of_tally_le_one hle hi hj

omit [DecidableEq ι] in
/-- The mutex of a thread that holds it is locked. -/
lemma Laws.locked {v : ℤ} {x : S} {s : State ι S D L} (h : Laws v x s) {i : ι}
    (hi : 0 < (s.place i).holds x) : (s.sem x).locked = true := by
  have hle : (s.place i).holds x ≤ s.holding x := le_tally (fun _ => Place.holds x) s.place i
  rw [← h.mutex] at hle
  cases hl : (s.sem x).locked with
  | true => rfl
  | false =>
    rw [hl, Bool.toNat_false] at hle
    omega

omit [DecidableEq ι] in
/-- While the mutex is free nobody is between its lock and its release. -/
lemma Laws.unlocked {v : ℤ} {x : S} {s : State ι S D L} (h : Laws v x s)
    (hl : (s.sem x).locked = false) :
    s.waiting x .park = 0 ∧ s.waiting x .leave = 0 ∧ s.posting x .notify = 0 := by
  have hzero : s.holding x = 0 := by
    rw [← h.mutex, hl]
    rfl
  have hplace : ∀ i, (s.place i).holds x = 0 := fun i => by
    have hle : (s.place i).holds x ≤ s.holding x := le_tally (fun _ => Place.holds x) s.place i
    omega
  have hw : ∀ pl : Place S L, pl.holds x = 0 →
      pl.waits x .park = 0 ∧ pl.waits x .leave = 0 ∧ pl.posts x .notify = 0 := by
    intro pl
    cases pl <;> simp_all [Place.holds, Place.waits, Place.posts]
  exact ⟨tally_eq_zero fun i => (hw _ (hplace i)).1, tally_eq_zero fun i => (hw _ (hplace i)).2.1,
    tally_eq_zero fun i => (hw _ (hplace i)).2.2⟩

omit [DecidableEq ι] in
/-- A post that is about to notify finds a parked thread: the decrements below zero and the parks
are done under the mutex that it holds. -/
lemma Laws.parked_of_notify {v : ℤ} {x : S} {s : State ι S D L} (h : Laws v x s) (hv : 0 ≤ v)
    {i : ι} (hi : (s.place i).posts x .notify = 1) : s.waiting x .parked ≠ 0 := by
  have hhold : 0 < (s.place i).holds x := by
    revert hi
    cases s.place i <;> simp_all [Place.posts, Place.holds]
  have hpark : s.waiting x .park = 0 := by
    refine tally_eq_zero fun j => ?_
    by_contra hne
    have hj : 0 < (s.place j).holds x := by
      revert hne
      cases s.place j <;> simp_all [Place.waits, Place.holds]
    rw [h.alone hj hhold] at hne
    revert hi hne
    cases s.place i <;> simp [Place.posts, Place.waits]
  have hnotify : (s.place i).posts x .notify ≤ s.posting x .notify :=
    le_tally (fun _ => Place.posts x .notify) s.place i
  have := h.asleep hv
  omega

/-- A move keeps the laws of every semaphore. -/
lemma Laws.move {v : ℤ} {x : S} {s : State ι S D L} (h : Laws v x s) {i : ι} {y : S}
    {m : Semaphore} {pl : Place S L}
    (hm : Move P i y (s.waiting y .parked) (s.sem y) (s.place i) m pl) :
    Laws v x (s.move i y m pl) := by
  have hw := s.waiting_move i x y m pl
  have hp := s.posting_move i x y m pl
  have hh := s.holding_move i x y m pl
  by_cases hne : y = x
  · subst hne
    obtain ⟨a₁, a₂, a₃, a₀, a₄, a₅, a₆, a₇, a₈⟩ :=
      hm.account fun hi => h.locked (i := i) (by omega)
    have e₁ := hw .park
    have e₂ := hw .parked
    have e₃ := hw .relock
    have e₄ := hw .leave
    have e₅ := hp .lock
    have e₆ := hp .increment
    have e₇ := hp .notify
    constructor
    all_goals
      rw [State.sem_move]
    · have := h.mutex
      omega
    · have := h.value
      omega
    · have := h.started
      omega
    · have := h.notifying
      omega
    · have := h.granted
      omega
    · have := h.returned
      omega
    · intro hpois
      obtain ⟨hpois, ha⟩ := a₆ hpois
      have := h.returned_eq hpois
      omega
    · have := h.budget
      omega
    · intro hv
      have := h.asleep hv
      have := a₈ fun hi => h.parked_of_notify hv hi
      omega
  · obtain ⟨h₁, h₂, h₃, h₄⟩ := hm.elsewhere hne
    refine h.congr (State.sem_move_of_ne _ _ _ _ _ _ (Ne.symm hne)) (fun p => ?_) (fun p => ?_) ?_
    · have := hw p
      rw [(h₁ p).1, (h₁ p).2] at this
      exact this
    · have := hp p
      rw [(h₂ p).1, (h₂ p).2] at this
      exact this
    · rw [h₃, h₄] at hh
      exact hh

/-- The selection of a parked thread keeps the laws of every semaphore. -/
lemma Laws.notify {v : ℤ} {x : S} {s : State ι S D L} (h : Laws v x s) {i j : ι} {y : S}
    {l next l' next' : L} (hi : s.place i = .post y l next .notify)
    (hj : s.place j = .wait y l' next' .parked) :
    Laws v x ((s.move i y (s.sem y) (.post y l next .leave)).move j y (s.sem y).grant
      (.wait y l' next' .relock)) := by
  have hji := ne_of_notify hi hj
  have hw := s.waiting_move_move x y (s.sem y) (.post y l next .leave) hji (s.sem y).grant
    (.wait y l' next' .relock)
  have hp := s.posting_move_move x y (s.sem y) (.post y l next .leave) hji (s.sem y).grant
    (.wait y l' next' .relock)
  have hh := s.holding_move_move x y (s.sem y) (.post y l next .leave) hji (s.sem y).grant
    (.wait y l' next' .relock)
  simp only [hi, hj] at hw hp hh
  set u := (s.move i y (s.sem y) (.post y l next .leave)).move j y (s.sem y).grant
    (.wait y l' next' .relock) with hu
  by_cases hne : y = x
  · subst hne
    have w₁ := hw .park
    have w₂ := hw .parked
    have w₃ := hw .relock
    have w₄ := hw .leave
    have p₁ := hp .lock
    have p₂ := hp .increment
    have p₃ := hp .notify
    simp [Place.waits, Place.posts, Place.holds] at w₁ w₂ w₃ w₄ p₁ p₂ p₃ hh
    have hsem : u.sem y = (s.sem y).grant := State.sem_move ..
    constructor
    all_goals
      rw [hsem]
      simp only [Semaphore.grant]
    · have := h.mutex
      omega
    · exact h.value
    · have := h.started
      omega
    · have := h.notifying
      omega
    · have := h.granted
      omega
    · have := h.returned
      omega
    · intro hpois
      have := h.returned_eq hpois
      omega
    · have := h.budget
      omega
    · intro hv
      have := h.asleep hv
      omega
  · simp [Place.waits, Place.posts, Place.holds, hne] at hw hp hh
    refine h.congr ?_ hw hp hh
    rw [hu, State.sem_move_of_ne _ _ _ _ _ _ (Ne.symm hne),
      State.sem_move_of_ne _ _ _ _ _ _ (Ne.symm hne)]

omit [DecidableEq ι] in
/-- The laws hold when every thread is outside `wait` and `post`. -/
lemma laws_new (v : S → ℤ) (x : S) (d : D) (loc : ι → L) :
    Laws (v x) x (⟨fun x => .new (v x), d, fun i => .out (loc i)⟩ : State ι S D L) := by
  have hw : ∀ p, tally (fun _ : ι => Place.waits x p) (fun i => Place.out (loc i)) = 0 :=
    fun p => tally_eq_zero fun _ => rfl
  have hp : ∀ p, tally (fun _ : ι => Place.posts x p) (fun i => Place.out (loc i)) = 0 :=
    fun p => tally_eq_zero fun _ => rfl
  have hh : tally (fun _ : ι => Place.holds x) (fun i => Place.out (loc i)) = 0 :=
    tally_eq_zero fun _ => rfl
  constructor
  all_goals
    simp only [State.waiting, State.posting, State.holding, hw, hp, hh, Semaphore.new]
  case mutex => rfl
  case value => simp
  case returned_eq => exact fun _ => trivial
  all_goals omega

/-- **The laws of the semaphore**, in every state reached without spurious wake-ups. -/
theorem laws {v : S → ℤ} {s : State ι S D L} (h : (machine P v).ReachIf Notified s) (x : S) :
    Laws (v x) x s := by
  refine h.invariant (I := Laws (v x) x) (laws_new v x P.data₀ P.loc₀) fun s a s' _ ih hok hs => ?_
  rcases step_cases hs with ⟨i, c, y, m, pl, -, hm, rfl⟩ | ⟨i, c, l, f, d, l', -, hl, -, -, rfl⟩ |
    ⟨i, j, y, l, next, l', next', -, hi, hj, rfl⟩ | ⟨j, y, l, next, rfl, -⟩
  · exact ih.move hm
  · refine ih.congr rfl (fun p => ?_) (fun p => ?_) ?_
    · have := tally_update (fun _ => Place.waits x p) s.place i (.out l')
      rw [hl] at this
      exact this
    · have := tally_update (fun _ => Place.posts x p) s.place i (.out l')
      rw [hl] at this
      exact this
    · have := tally_update (fun _ => Place.holds x) s.place i (.out l')
      rw [hl] at this
      exact this
  · exact ih.notify hi hj
  · exact absurd rfl (hok j)

end Rust

end PosixIntro
