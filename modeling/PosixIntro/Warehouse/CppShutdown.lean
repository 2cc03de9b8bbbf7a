import PosixIntro.Warehouse.CppModel

set_option relaxedAutoImplicit false
set_option autoImplicit false

/-!
# When the C++ warehouse shuts down cleanly

The SIGINT handler clears `running`, which the threads test at their loop heads only. A thread
that waits for an item or for a free place when the signal arrives leaves only if somebody still
posts for it. How many posts are still to come is determined by the state at the signal: a
thread before or inside its critical section posts once more, and nobody starts another round.

## Main definitions

* `waitsFull`, `waitsEmpty` — the threads that wait for an item and for a free place.
* `postsFull`, `postsEmpty` — the threads that will post `sem_full` and `sem_empty` once more.
* `Balanced` — there are enough posts, made or to come, for all threads that wait, and nobody waits
  when there has never been a place.

## Main results

* `left_behind` — three producers, two consumers, ten slots: a signal leaves both consumers
  blocked.
* `clean_shutdown_iff` — after a signal in a balanced state no thread is left behind, and after a
  signal in any other state the threads can be run into a state where some are.
-/

namespace PosixIntro

namespace CppWarehouse

variable {nP nC N : ℕ} [NeZero N] {mem : Sem → ℕ}

/-- Waits for an item. -/
def waitsFull : Loc → ℕ
  | .waitFull => 1
  | _ => 0

/-- Waits for a free place. -/
def waitsEmpty : Loc → ℕ
  | .waitEmpty => 1
  | _ => 0

/-- Posts `sem_full` once more before the next loop test, if it is not left waiting. -/
def postsFull : Loc → ℕ
  | .waitEmpty | .lockProducer | .takeSlot | .printTaken | .advanceProducer | .unlockProducer
  | .postFull => 1
  | _ => 0

/-- Posts `sem_empty` once more before the next loop test, if it is not left waiting. -/
def postsEmpty : Loc → ℕ
  | .waitFull | .lockConsumer | .markSlot | .advanceConsumer | .printMarked | .clearSlot
  | .unlockConsumer | .postEmpty => 1
  | _ => 0

/-- Nobody waits for an item or for a free place. -/
def NobodyWaits (s : Config (Fin nP ⊕ Fin nC) Sem (Store N) Loc) : Prop :=
  tally (fun _ => waitsFull) s.loc = 0 ∧ tally (fun _ => waitsEmpty) s.loc = 0

/-- No more threads wait for an item than there are posts of `sem_full`, made or to come, and
the same for free places. If `sem_empty` was `0` from the start, because `rk_sema_init` has failed,
then nobody waits. -/
def Balanced (mem : Sem → ℕ) (s : Config (Fin nP ⊕ Fin nC) Sem (Store N) Loc) : Prop :=
  tally (fun _ => waitsFull) s.loc ≤ s.sem .semFull + tally (fun _ => postsFull) s.loc ∧
    tally (fun _ => waitsEmpty) s.loc ≤ s.sem .semEmpty + tally (fun _ => postsEmpty) s.loc ∧
    (initSemaphores mem N .semEmpty = 0 → NobodyWaits s)

/-- The signal that stops the warehouse finds it balanced. -/
def BalancedSignal (mem : Sem → ℕ) (s : Config (Fin nP ⊕ Fin nC) Sem (Store N) Loc)
    (a : Label (Fin nP ⊕ Fin nC) Unit) : Prop :=
  a = .signal → s.data.running = true → Balanced mem s

/-- The state after the delivery of SIGINT. -/
def interrupt (s : Config (Fin nP ⊕ Fin nC) Sem (Store N) Loc) :
    Config (Fin nP ⊕ Fin nC) Sem (Store N) Loc :=
  { s with data := s.data.handler }

/-! ### One step after the signal -/

/-- Only the handler writes `running`. -/
lemma Move.running {l l' : Loc} {w w' : Store N} (h : Move l w l' w') :
    w'.running = w.running := by
  cases h <;> rfl

/-- The statements left to a thread before it returns, once `running` is cleared. -/
def rest : Loc → ℕ
  | .producerTest | .consumerTest => 1
  | .waitEmpty => 8
  | .lockProducer => 7
  | .takeSlot => 6
  | .printTaken => 5
  | .advanceProducer => 4
  | .unlockProducer => 3
  | .postFull => 2
  | .waitFull => 9
  | .lockConsumer => 8
  | .markSlot => 7
  | .advanceConsumer => 6
  | .printMarked => 5
  | .clearSlot => 4
  | .unlockConsumer => 3
  | .postEmpty => 2
  | .returned => 0

/-- What a statement does once `running` is cleared: it leaves `running` alone, brings the
thread closer to its return, and keeps the difference between the posts and the threads that
wait for them. -/
lemma exec_stopped {i : Fin nP ⊕ Fin nC} {l l' : Loc} {st : Stmt Sem Unit (Store N) Loc}
    {c : Unit} {sem sem' : Sem → ℕ} {w w' : Store N} (hrun : w.running = false)
    (hst : (program nP nC N).code i l = some st) (hx : st.exec c sem w = some (sem', w', l')) :
    w'.running = false ∧ rest l' < rest l ∧
      sem' .semFull + postsFull l' + waitsFull l = sem .semFull + postsFull l + waitsFull l' ∧
      sem' .semEmpty + postsEmpty l' + waitsEmpty l =
        sem .semEmpty + postsEmpty l + waitsEmpty l' := by
  rcases Stmt.exec_cases hx with ⟨x, intr, rfl, hpos, rfl, rfl⟩ | ⟨x, rfl, rfl, rfl⟩ |
    ⟨f, rfl, hf, rfl⟩
  · rcases code_wait hst with ⟨-, ⟨rfl, rfl, rfl⟩ | ⟨rfl, rfl, rfl⟩ | ⟨rfl, rfl, rfl⟩ |
      ⟨rfl, rfl, rfl⟩⟩ <;>
      simp [hrun, rest, postsFull, waitsFull, postsEmpty, waitsEmpty] <;> omega
  · rcases code_post hst with ⟨rfl, rfl, rfl⟩ | ⟨rfl, rfl, rfl⟩ | ⟨rfl, rfl, rfl⟩ |
      ⟨rfl, rfl, rfl⟩ <;>
      simp [hrun, rest, postsFull, waitsFull, postsEmpty, waitsEmpty]
  · have hmove := move_of_act hst hf
    refine ⟨by rw [hmove.running, hrun], ?_⟩
    cases hmove with
    | producerLoop _ h | consumerLoop _ h =>
      rw [hrun] at h
      cases h
    | _ =>
      refine ⟨?_, rfl, rfl⟩
      decide

/-- Where there has never been a place, nobody holds anything. -/
lemma idle_of_no_place {s : Config (Fin nP ⊕ Fin nC) Sem (Store N) Loc}
    (h : (machine nP nC N mem).Reach s) (hzero : initSemaphores mem N .semEmpty = 0) :
    s.sem .semFull = 0 ∧ s.sem .semEmpty = 0 ∧ ∀ i, holding (s.loc i) = .nothing := by
  have hb : s.sem .semFull + s.sem .semEmpty + tally (fun _ l => (holding l).units) s.loc =
      initSemaphores mem N .semEmpty := bufferProtocol.full_add_empty retries rfl h
  refine ⟨by omega, by omega, fun i => ?_⟩
  have hle : (holding (s.loc i)).units ≤ _ := le_tally (fun _ l => (holding l).units) s.loc i
  cases hi : holding (s.loc i) with
  | nothing => rfl
  | space | item =>
    have hone : (holding (s.loc i)).units = 1 := by rw [hi]; rfl
    omega

/-- So nobody who waits there comes any further, and after the signal nobody else begins to wait. -/
lemma waits_of_no_place {s : Config (Fin nP ⊕ Fin nC) Sem (Store N) Loc}
    (h : (machine nP nC N mem).Reach s) (hzero : initSemaphores mem N .semEmpty = 0)
    (hrun : s.data.running = false) {i : Fin nP ⊕ Fin nC} {l : Loc}
    {st : Stmt Sem Unit (Store N) Loc} {c : Unit} {sem : Sem → ℕ} {w : Store N}
    (hst : (program nP nC N).code i (s.loc i) = some st)
    (hx : st.exec c s.sem s.data = some (sem, w, l)) :
    waitsFull l = waitsFull (s.loc i) ∧ waitsEmpty l = waitsEmpty (s.loc i) := by
  obtain ⟨hfull, hempty, hidle⟩ := idle_of_no_place h hzero
  have hi := hidle i
  revert hst hi
  generalize s.loc i = l₀
  intro hst hi
  rcases Stmt.exec_cases hx with ⟨x, intr, rfl, hpos, -, -⟩ | ⟨x, rfl, -, -⟩ | ⟨f, rfl, hf, -⟩
  · rcases code_wait hst with ⟨-, ⟨rfl, rfl, rfl⟩ | ⟨rfl, rfl, rfl⟩ | ⟨rfl, rfl, rfl⟩ |
      ⟨rfl, rfl, rfl⟩⟩
    · omega
    · cases hi
    · omega
    · cases hi
  · rcases code_post hst with ⟨rfl, rfl, rfl⟩ | ⟨rfl, rfl, rfl⟩ | ⟨rfl, rfl, rfl⟩ |
      ⟨rfl, rfl, rfl⟩ <;> cases hi
  · cases move_of_act hst hf with
    | producerExit | consumerExit => exact ⟨rfl, rfl⟩
    | producerLoop _ hr | consumerLoop _ hr =>
      rw [hrun] at hr
      cases hr
    | _ => cases hi

/-- One step after the signal. Nobody restarts the warehouse, and the posts and the threads that
wait for them keep their difference. -/
lemma step_stopped {s s' : Config (Fin nP ⊕ Fin nC) Sem (Store N) Loc}
    {a : Label (Fin nP ⊕ Fin nC) Unit} (h : (machine nP nC N mem).Reach s)
    (hrun : s.data.running = false) (hs : (machine nP nC N mem).step s a = some s') :
    s'.data.running = false ∧ (Balanced mem s' ↔ Balanced mem s) := by
  rcases Program.step_cases retries hs with ⟨i, c, st, sem, d, l, -, hst, hx, rfl⟩ |
    ⟨i, -, rfl⟩ | ⟨d, -, hd, rfl⟩
  · obtain ⟨hr, -, hfull, hempty⟩ := exec_stopped hrun hst hx
    refine ⟨hr, ?_⟩
    have h₁ := tally_update (fun _ => waitsFull) s.loc i l
    have h₂ := tally_update (fun _ => postsFull) s.loc i l
    have h₃ := tally_update (fun _ => waitsEmpty) s.loc i l
    have h₄ := tally_update (fun _ => postsEmpty) s.loc i l
    have hplace := fun hzero => waits_of_no_place h hzero hrun hst hx
    unfold Balanced NobodyWaits
    simp only
    omega
  · exact ⟨hrun, Iff.rfl⟩
  · obtain rfl := by simpa [program] using hd
    exact ⟨rfl, Iff.rfl⟩

/-- A running warehouse is stopped by the signal only. -/
lemma step_running {s s' : Config (Fin nP ⊕ Fin nC) Sem (Store N) Loc}
    {a : Label (Fin nP ⊕ Fin nC) Unit} (hrun : s.data.running = true)
    (hs : (machine nP nC N mem).step s a = some s') :
    s'.data.running = true ∨ (a = .signal ∧ s' = interrupt s) := by
  rcases Program.step_cases retries hs with ⟨i, c, st, sem, d, l, rfl, hst, hx, rfl⟩ |
    ⟨i, -, rfl⟩ | ⟨d, rfl, hd, rfl⟩
  · left
    show d.running = true
    rcases Stmt.exec_cases hx with ⟨x, intr, rfl, -, rfl, -⟩ | ⟨x, rfl, rfl, -⟩ | ⟨f, rfl, hf, -⟩
    · exact hrun
    · exact hrun
    · rw [(move_of_act hst hf).running, hrun]
  · exact .inl hrun
  · obtain rfl := by simpa [program] using hd
    exact .inr ⟨rfl, rfl⟩

/-! ### Where the threads are left -/

/-- When no thread can move, all threads hold nothing, and each has returned or waits for an item
or for a free place that is not there. -/
lemma waits_of_stuck {s : Config (Fin nP ⊕ Fin nC) Sem (Store N) Loc}
    (h : (machine nP nC N mem).Reach s) (hstuck : (program nP nC N).Stuck s) (i : Fin nP ⊕ Fin nC) :
    holding (s.loc i) = .nothing ∧ (s.loc i = .returned ∨
      (s.loc i = .waitEmpty ∧ s.sem .semEmpty = 0) ∨
      (s.loc i = .waitFull ∧ s.sem .semFull = 0)) := by
  have hidle : holding (s.loc i) = .nothing := by
    by_contra hne
    obtain ⟨j, hj⟩ := exists_enabled_of_holding bufferProtocol lockProtocol retries rfl
      (fun x => by cases x <;> simp [bufferProtocol, lockProtocol]) act_total
      (fun j l hc => by rw [code_eq_none.mp hc]; exact ⟨rfl, rfl⟩) h hne
    exact hstuck j hj
  refine ⟨hidle, ?_⟩
  rcases Program.returned_or_waiting (fun f => act_total i _ f s.data) (hstuck i) with
    hc | ⟨x, next, intr, hc, hx⟩
  · exact .inl (code_eq_none.mp hc)
  · rcases code_wait hc with ⟨-, ⟨hl, rfl, -⟩ | ⟨hl, rfl, -⟩ | ⟨hl, rfl, -⟩ | ⟨hl, rfl, -⟩⟩
    · exact .inr (.inl ⟨hl, hx⟩)
    · rw [hl] at hidle
      cases hidle
    · exact .inr (.inr ⟨hl, hx⟩)
    · rw [hl] at hidle
      cases hidle

/-- In a balanced state in which no thread can move, all threads have returned.

**Proof sketch.** The whole capacity is in the two semaphores, so they are not both zero and the
threads left wait for the same one. They are not matched by any post, made or to come. Where there
is no capacity nobody waits at all. -/
lemma all_returned {s : Config (Fin nP ⊕ Fin nC) Sem (Store N) Loc}
    (h : (machine nP nC N mem).Reach s) (hstuck : (program nP nC N).Stuck s)
    (hb : Balanced mem s) (i : Fin nP ⊕ Fin nC) : s.loc i = .returned := by
  have hwaits := waits_of_stuck h hstuck
  have hcap : s.sem .semFull + s.sem .semEmpty = initSemaphores mem N .semEmpty :=
    bufferProtocol.full_add_empty_of_idle retries rfl h fun i => (hwaits i).1
  obtain ⟨hfull, hempty, hnobody⟩ := hb
  unfold NobodyWaits at hnobody
  rcases (hwaits i).2 with hl | ⟨hl, hz⟩ | ⟨hl, hz⟩
  · exact hl
  · have hone : waitsEmpty (s.loc i) ≤ _ := le_tally (fun _ => waitsEmpty) s.loc i
    have : waitsEmpty (s.loc i) = 1 := by rw [hl]; rfl
    -- nobody waits for an item, so nobody will post `sem_empty`
    have hposts : tally (fun _ => postsEmpty) s.loc = 0 := tally_eq_zero fun j => by
      rcases (hwaits j).2 with hj | ⟨hj, -⟩ | ⟨-, hj⟩
      · rw [hj]; rfl
      · rw [hj]; rfl
      · omega
    omega
  · have hone : waitsFull (s.loc i) ≤ _ := le_tally (fun _ => waitsFull) s.loc i
    have : waitsFull (s.loc i) = 1 := by rw [hl]; rfl
    have hposts : tally (fun _ => postsFull) s.loc = 0 := tally_eq_zero fun j => by
      rcases (hwaits j).2 with hj | ⟨-, hj⟩ | ⟨hj, -⟩
      · rw [hj]; rfl
      · omega
      · rw [hj]; rfl
    omega

omit [NeZero N] in
/-- When all threads have returned the state is balanced. -/
lemma balanced_of_returned {s : Config (Fin nP ⊕ Fin nC) Sem (Store N) Loc}
    (h : ∀ i, s.loc i = .returned) : Balanced mem s := by
  have h₁ : tally (fun _ => waitsFull) s.loc = 0 := tally_eq_zero fun i => by rw [h i]; rfl
  have h₂ : tally (fun _ => waitsEmpty) s.loc = 0 := tally_eq_zero fun i => by rw [h i]; rfl
  unfold Balanced NobodyWaits
  omega

/-- If every stopping signal met a balanced state, a stopped state is balanced. -/
lemma balanced_of_stopped {s : Config (Fin nP ⊕ Fin nC) Sem (Store N) Loc}
    (h : (machine nP nC N mem).ReachIf (BalancedSignal mem) s) :
    s.data.running = false → Balanced mem s := by
  refine h.invariant (I := fun s => s.data.running = false → Balanced mem s)
    (fun h₀ => by cases h₀) fun s a s' hr ih hok hs hstop => ?_
  cases hrun : s.data.running with
  | false => exact (step_stopped hr.reach hrun hs).2.mpr (ih hrun)
  | true =>
    rcases step_running hrun hs with hr | ⟨rfl, rfl⟩
    · rw [hr] at hstop
      cases hstop
    · exact hok rfl hrun

/-- From a stopped state the threads can be run until none of them can move, and the state
reached is balanced iff the state at the start was. -/
lemma exists_stuck {s : Config (Fin nP ⊕ Fin nC) Sem (Store N) Loc}
    (h : (machine nP nC N mem).Reach s) (hrun : s.data.running = false) :
    ∃ s', ((machine nP nC N mem).startAt s).Reach s' ∧ s'.data.running = false ∧
      (program nP nC N).Stuck s' ∧ (Balanced mem s' ↔ Balanced mem s) := by
  suffices ∃ s', ((machine nP nC N mem).startAt s).Reach s' ∧
      ((machine nP nC N mem).Reach s' ∧ s'.data.running = false ∧
        (Balanced mem s' ↔ Balanced mem s)) ∧ (program nP nC N).Stuck s' by
    obtain ⟨s', hr, ⟨-, hstop, hb⟩, hstuck⟩ := this
    exact ⟨s', hr, hstop, hstuck, hb⟩
  refine Machine.exists_reach_of_measure (fun t => tally (fun _ => rest) t.loc) (fun t => ?_)
    ⟨h, hrun, Iff.rfl⟩
  rintro ⟨ht, hstop, hb⟩ hno
  obtain ⟨i, hi⟩ := not_forall_not.mp hno
  obtain ⟨c, t', hs⟩ := hi.exists_step
  obtain ⟨hstop', hb'⟩ := step_stopped ht hstop hs
  refine ⟨.run i c, t', hs, ⟨ht.next hs, hstop', hb'.trans hb⟩, ?_⟩
  obtain ⟨st, sem, d, l, hst, hx, rfl⟩ := Program.step_run_iff.mp hs
  have hlt := (exec_stopped hstop hst hx).2.1
  have hup := tally_update (fun _ => rest) t.loc i l
  show tally (fun _ => rest) (Function.update t.loc i l) < tally (fun _ => rest) t.loc
  omega

/-! ### The main results -/

/-- **A signal can leave workers behind.** In the warehouse that `main` starts (three producers,
two consumers, ten slots), both consumers test `running` and wait for an item; the signal
arrives before any producer has tested it, so that all producers return at once. -/
theorem left_behind : ¬ ∀ s : Config (Fin 3 ⊕ Fin 2) Sem (Store 10) Loc,
    (machine 3 2 10 fun _ => 0).Reach s → s.data.running = false → (∃ i, s.loc i ≠ .returned) →
      ∃ i, (program 3 2 10).Enabled i s := by
  intro hall
  obtain ⟨s, hs, hrun, hfull, hP, hC⟩ : ∃ s : Config (Fin 3 ⊕ Fin 2) Sem (Store 10) Loc,
      (machine 3 2 10 fun _ => 0).exec (machine 3 2 10 fun _ => 0).init
        [.run (.inr 0) (), .run (.inr 1) (), .signal, .run (.inl 0) (), .run (.inl 1) (),
          .run (.inl 2) ()] = some s ∧
        s.data.running = false ∧ s.sem .semFull = 0 ∧ (∀ i, s.loc (.inl i) = .returned) ∧
          ∀ i, s.loc (.inr i) = .waitFull :=
    ⟨_, rfl, rfl, rfl, by decide, by decide⟩
  have hne : s.loc (.inr 0) ≠ .returned := by
    rw [hC]
    decide
  obtain ⟨i, st, c, r, hst, hx⟩ := hall s (Machine.reach_of_exec hs) hrun ⟨_, hne⟩
  cases i with
  | inl i =>
    rw [hP i] at hst
    cases hst
  | inr i =>
    rw [hC i] at hst
    obtain rfl := Option.some.inj hst
    simp [rkSemaWait, Stmt.exec, hfull] at hx

/-- **When the warehouse shuts down cleanly**, for every length and whatever the memory of the
semaphores held. If the signal that clears `running` meets a balanced state, then in every stopped
state reached in which some thread has not returned some thread can move. A signal in a state that
is not balanced can be followed by a run into a state in which some thread has not returned and none
can move. -/
theorem clean_shutdown_iff :
    (∀ s, (machine nP nC N mem).ReachIf (BalancedSignal mem) s → s.data.running = false →
      (∃ i, s.loc i ≠ .returned) → ∃ i, (program nP nC N).Enabled i s) ∧
    ∀ s, (machine nP nC N mem).Reach s → s.data.running = true → ¬ Balanced mem s →
      ∃ s', ((machine nP nC N mem).startAt (interrupt s)).Reach s' ∧ s'.data.running = false ∧
        (∃ i, s'.loc i ≠ .returned) ∧ (program nP nC N).Stuck s' := by
  refine ⟨fun s h hstop ⟨i, hi⟩ => ?_, fun s h _ hb => ?_⟩
  · by_contra hno
    have hstuck : (program nP nC N).Stuck s := fun j hj => hno ⟨j, hj⟩
    exact hi (all_returned h.reach hstuck (balanced_of_stopped h hstop) i)
  · have hnext : (machine nP nC N mem).Reach (interrupt s) := h.next (a := .signal) rfl
    obtain ⟨s', hr, hstop, hstuck, hiff⟩ := exists_stuck hnext rfl
    refine ⟨s', hr, hstop, ?_, hstuck⟩
    by_contra hall
    have hret : ∀ i, s'.loc i = .returned := fun i => not_not.mp fun hne => hall ⟨i, hne⟩
    exact hb (hiff.mp (balanced_of_returned hret))

/-- In the warehouse that `main` starts, one item has been added and the second producer has tested
`running` when the signal finds both consumers waiting. The third producer leaves and one consumer
takes the item; the other one still waits, and the second producer will wake it up. -/
theorem clean_shutdown_iff_main : ∃ s : Config (Fin 3 ⊕ Fin 2) Sem (Store 10) Loc,
    (machine 3 2 10 fun _ => 0).ReachIf (BalancedSignal fun _ => 0) s ∧ s.data.running = false ∧
      s.sem .semFull = 0 ∧ s.loc (.inr 1) = .waitFull ∧ s.loc (.inl 2) = .returned ∧
      ∃ i, (program 3 2 10).Enabled i s := by
  have hbefore : ∃ t, (machine 3 2 10 fun _ => 0).exec (machine 3 2 10 fun _ => 0).init
      (List.replicate 8 (.run (.inl 0) ()) ++ [.run (.inl 1) (), .run (.inr 0) (),
        .run (.inr 1) ()]) = some t ∧ Balanced (fun _ => 0) t ∧
      ∃ s, (machine 3 2 10 fun _ => 0).exec (interrupt t) [.run (.inl 2) (), .run (.inr 0) ()] =
        some s ∧ s.data.running = false ∧ s.sem .semFull = 0 ∧ s.loc (.inr 1) = .waitFull ∧
        s.loc (.inl 2) = .returned := by
    refine ⟨_, rfl, ?_, _, rfl, rfl, rfl, rfl, rfl⟩
    unfold Balanced NobodyWaits
    decide
  obtain ⟨t, ht, hb, s, hs, hstop, hfull, hC, hP⟩ := hbefore
  have hrt : (machine 3 2 10 fun _ => 0).ReachIf (BalancedSignal fun _ => 0) t :=
    Machine.ReachIf.exec .init _ (fun a ha s heq => by subst heq; simp at ha) ht
  have hri : (machine 3 2 10 fun _ => 0).ReachIf (BalancedSignal fun _ => 0) (interrupt t) :=
    .step (a := .signal) hrt (fun _ _ => hb) rfl
  have hr : (machine 3 2 10 fun _ => 0).ReachIf (BalancedSignal fun _ => 0) s :=
    hri.exec _ (fun a ha s heq => by subst heq; simp at ha) hs
  exact ⟨s, hr, hstop, hfull, hC, hP,
    clean_shutdown_iff.1 s hr hstop ⟨.inr 1, by rw [hC]; decide⟩⟩

end CppWarehouse

end PosixIntro
