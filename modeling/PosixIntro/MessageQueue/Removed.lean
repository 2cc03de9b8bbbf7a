import PosixIntro.MessageQueue.ExactlyOnce

set_option relaxedAutoImplicit false
set_option autoImplicit false

/-!
# When one of several readers has ended

A reader that leaves its loop removes the queue for all of them. The others do not notice: `msgrcv`
fails at once, and they look at what is in the buffer.

## Main definitions

* `Reader.shows` — what a reader has displayed or is about to.
* `Spinning` — a reader goes round its loop and displays the same text again and again.

## Main results

* `queue_of_closed` — the queue of a reader that has ended is gone for good.
* `others_spin` — the other readers on it never end and never block.
-/

namespace PosixIntro

namespace MessageQueue

/-- What a reader has displayed, and what it is about to display. -/
def Reader.shows (r : Reader) : List (List UInt8) :=
  if r.loc = .display then r.displayed ++ [r.msg.text.text] else r.displayed

/-- How many statements of its loop a reader has executed since the last `msgrcv`. -/
def Reader.turn (r : Reader) : ℕ :=
  match r.loc with
  | .display => 0
  | .test => 1
  | .call => 2
  | .inside => 3
  | .left => 0

/-- A statement of a reader whose queue has been removed: the buffer stays what it is, and its text
is displayed once more now and then, every fourth time unless it begins with `'0'`. -/
lemma Reader.runOn_none {lang : Lang} {r r' : Reader} {q : Option Queue}
    (h : r.runOn lang none = some (q, r')) :
    q = none ∧ r'.msg = r.msg ∧ ∃ n,
      r'.shows = r.shows ++ List.replicate n r.msg.text.text ∧
      (¬ r.msg.text.StartsZero → r'.loc ≠ .left ∧ r.turn + 1 = 4 * n + r'.turn) := by
  unfold Reader.runOn at h
  split_ifs at h with hl
  · obtain ⟨rfl, rfl⟩ := Prod.mk.inj (Option.some.inj h)
    exact ⟨rfl, rfl, 1, by simp [shows, hl], fun _ => ⟨by simp, by simp [turn, hl]⟩⟩
  · obtain ⟨⟨q₁, r₁⟩, hrun, heq⟩ := Option.map_eq_some_iff.mp h
    obtain ⟨rfl, rfl⟩ := Prod.mk.inj heq
    have hmove := reader_cases hrun
    generalize hloc : r.loc = loc at hmove hl
    refine ⟨rfl, ?_⟩
    cases hmove with
    | call | display | testOther =>
      exact ⟨rfl, 0, by simp [shows, hloc], fun _ => ⟨by simp, by simp [turn, hloc]⟩⟩
    | testZero hzero => exact ⟨rfl, 0, by simp [shows, hloc], fun hz => absurd hzero hz⟩
    | receive m hm hle => exact absurd rfl hl
    | tooLong m hm hlt => exact absurd rfl hl

/-- A reader whose queue has been removed does not block. -/
lemma Reader.exists_runOn_none (lang : Lang) {r : Reader} (hl : r.loc ≠ .left) :
    ∃ x, r.runOn lang none = some x := by
  unfold Reader.runOn
  split_ifs with hin
  · exact ⟨_, rfl⟩
  · obtain ⟨q, r', hrun⟩ := Reader.exists_run lang (q := []) hl fun h => absurd h hin
    rw [hrun]
    exact ⟨_, rfl⟩

variable {ω ρ : Type*} [DecidableEq ω] [DecidableEq ρ] {S : Setup ω ρ} {s s' t : Family ω ρ}
  {x : Label ω ρ} {i j : ρ} {id : ℕ}

/-! ### Removed queues -/

/-- Identifiers are never used again. -/
lemma Setup.Move.next_le (h : S.Move s x s') : s.office.next ≤ s'.office.next := by
  cases h with
  | openWriter | openReader | interruptWriter | interruptReader =>
    exact Office.next_le_createQueue
  | _ => exact Nat.le_refl _

/-- A queue that has been removed stays removed. -/
lemma Setup.Move.gone (h : S.Move s x s') (hv : s.office.Valid) (hid : id < s.office.next)
    (hq : s.office.queue id = none) : s'.office.queue id = none := by
  have hcreate : s.office.createQueue.1.queue id = none :=
    (Office.queue_createQueue_of_lt hid).trans hq
  have hother : id ≠ s.office.createQueue.2 := fun heq => hv.queue_createQueue (heq ▸ hcreate)
  have hsome : ∀ {q : Queue}, s.office.queue id ≠ some q := by simp [hq]
  cases h with
  | openWriter i h => exact hcreate
  | openReader j h => exact hcreate
  | interruptWriter i hc hl => exact (Function.update_of_ne hother _ _).trans hcreate
  | interruptReader j hc hl => exact (Function.update_of_ne hother _ _).trans hcreate
  | runWriter i id' q w h hrun =>
    by_cases heq : id = id'
    · subst heq
      rcases Writer.grows_of_runOn hrun with ⟨-, rfl⟩ | ⟨q₀, ms, hq₀, -⟩
      · exact Function.update_self ..
      · exact absurd hq₀ hsome
    · exact (Function.update_of_ne heq _ _).trans hq
  | runReader j id' q r h hl hrun =>
    by_cases heq : id = id'
    · subst heq
      rcases (Reader.takes_of_runOn hrun).1 with rfl | ⟨q₀, m, hq₀, -⟩
      · exact (Function.update_self ..).trans hq
      · exact absurd hq₀ hsome
    · exact (Function.update_of_ne heq _ _).trans hq
  | remove j id' h hl =>
    by_cases heq : id = id'
    · subst heq
      exact Function.update_self ..
    · exact (Function.update_of_ne heq _ _).trans hq
  | other id' m q hq₀ hm =>
    have heq : id ≠ id' := fun heq => hsome (heq ▸ hq₀)
    exact (Function.update_of_ne heq _ _).trans hq

/-- A step moves one reader at most. -/
lemma Setup.Move.reader_of_ne (h : S.Move s x s') (hx : ∀ e, x ≠ .reader j e) :
    s'.reader j = s.reader j := by
  cases h with
  | openReader i h => exact Function.update_of_ne (fun heq => hx _ (by rw [heq])) _ _
  | runReader i id q r h hl hrun => exact Function.update_of_ne (fun heq => hx _ (by rw [heq])) _ _
  | remove i id h hl => exact Function.update_of_ne (fun heq => hx _ (by rw [heq])) _ _
  | interruptReader i hc hl => exact Function.update_of_ne (fun heq => hx _ (by rw [heq])) _ _
  | _ => rfl

/-- What a step does to what a reader knows of its queue: nothing, `create_queue` or the `msgctl`
after the loop. -/
lemma Setup.Move.handle (h : S.Move s x s') (j : ρ) :
    (s'.reader j).handle = (s.reader j).handle ∨
      ((s'.reader j).handle = .opened s.office.createQueue.2 ∧
        s'.office = s.office.createQueue.1) ∨
      ∃ id, (s.reader j).handle = .opened id ∧ (s'.reader j).handle = .closed id ∧
        s'.office = s.office.remove id := by
  by_cases hx : ∀ e, x ≠ .reader j e
  · exact .inl (congrArg Party.handle (h.reader_of_ne hx))
  obtain ⟨e, rfl⟩ := not_forall_not.mp hx
  cases h with
  | openReader _ h => exact .inr (.inl ⟨by simp, rfl⟩)
  | runReader _ id q r h hl hrun => exact .inl (by simp [h])
  | remove _ id h hl => exact .inr (.inr ⟨id, h, by simp, rfl⟩)
  | interruptReader _ hc hl => exact .inl (by simp)

/-- The identifiers that readers know are old, and the queues of readers that have ended are gone. -/
structure Handles (s : Family ω ρ) : Prop where
  old : ∀ j id, (s.reader j).handle.id = some id → id < s.office.next
  closed : ∀ j id, (s.reader j).handle = .closed id → s.office.queue id = none

/-- The identifiers of a reachable state. -/
lemma Setup.handles (h : S.machine.Reach s) : Handles s := by
  refine h.invariant (I := Handles) ⟨fun j id hid => ?_, fun j id hid => ?_⟩
    fun s x s' hr ih _ hstep => ?_
  · cases hid
  · cases hid
  have hmove := step_cases hstep
  have hv := Setup.valid hr
  refine ⟨fun j id hid => ?_, fun j id hid => ?_⟩
  · rcases hmove.handle j with hh | ⟨hh, ho⟩ | ⟨id', hopen, hh, ho⟩
    · exact Nat.lt_of_lt_of_le (ih.old j id (hh ▸ hid)) hmove.next_le
    · rw [hh] at hid
      obtain rfl := Option.some.inj hid
      rw [ho]
      exact hv.createQueue.lt hv.queue_createQueue
    · rw [hh] at hid
      obtain rfl := Option.some.inj hid
      exact Nat.lt_of_lt_of_le (ih.old j id' (by rw [hopen]; rfl)) hmove.next_le
  · rcases hmove.handle j with hh | ⟨hh, -⟩ | ⟨id', -, hh, ho⟩
    · have hold : (s.reader j).handle = .closed id := hh.symm.trans hid
      exact hmove.gone hv (ih.old j id (by rw [hold]; rfl)) (ih.closed j id hold)
    · rw [hh] at hid
      cases hid
    · obtain rfl : id' = id := by simpa using hh.symm.trans hid
      rw [ho]
      exact Function.update_self ..

/-- **The queue of a reader that has ended is gone**, for whoever else uses it. -/
theorem queue_of_closed (h : S.machine.Reach s) (hi : (s.reader i).handle = .closed id) :
    s.office.queue id = none :=
  (Setup.handles h).closed i id hi

/-! ### The other readers -/

/-- The steps of a reader. -/
def stepsOf (j : ρ) (x : Family ω ρ × Label ω ρ) : Bool :=
  match x.2 with
  | .reader j' _ => j' = j
  | _ => false

/-- **A reader goes round its loop** after the state `s`: it has neither ended nor received anything,
and for every four statements of it the same text is displayed once more. `k` counts them. -/
structure Spinning (s : Family ω ρ) (j : ρ) (k : ℕ) (t : Family ω ρ) : Prop where
  handle : (t.reader j).handle = (s.reader j).handle
  loc : (t.reader j).prog.loc ≠ .left
  msg : (t.reader j).prog.msg = (s.reader j).prog.msg
  shows : ∃ n, (t.reader j).prog.shows =
      (s.reader j).prog.shows ++ List.replicate n (s.reader j).prog.msg.text.text ∧
    (s.reader j).prog.turn + k = 4 * n + (t.reader j).prog.turn

/-- A reader that goes on when its queue has been removed. -/
structure Stuck (s : Family ω ρ) (j : ρ) (id : ℕ) : Prop where
  handle : (s.reader j).handle = .opened id
  old : id < s.office.next
  gone : s.office.queue id = none
  loc : (s.reader j).prog.loc ≠ .left
  text : ¬ (s.reader j).prog.msg.text.StartsZero

/-- Such a reader can take the next step. -/
lemma Stuck.exists_step (h : Stuck s j id) : ∃ t, S.machine.step s (.reader j .run) = some t := by
  obtain ⟨x, hx⟩ := Reader.exists_runOn_none (S.reader j) h.loc
  have hstep : S.machine.step s (.reader j .run) =
      (Reader.runOn (S.reader j) (s.reader j).prog (s.office.queue id)).map fun x => { s with
        office := s.office.receives j id x.1
        reader := Function.update s.reader j ⟨.opened id, x.2⟩ } := by
    show S.stepReader s j .run = _
    unfold Setup.stepReader
    rw [h.handle]
    exact if_neg h.loc
  rw [h.gone, hx] at hstep
  exact ⟨_, hstep⟩

/-- One step, when the reader is not interrupted. -/
lemma Stuck.step (h : Stuck s j id) (hv : s.office.Valid) (hx : x ≠ .reader j .sigint)
    (hmove : S.Move s x s') :
    Stuck s' j id ∧ Spinning s j (if stepsOf j (s, x) then 1 else 0) s' := by
  have hold : id < s'.office.next := Nat.lt_of_lt_of_le h.old hmove.next_le
  have hgone := hmove.gone hv h.old h.gone
  by_cases hne : ∀ e, x ≠ .reader j e
  · have hsame := hmove.reader_of_ne hne
    have hcount : stepsOf j (s, x) = false := by
      unfold stepsOf
      split
      · rename_i j' e heq
        exact decide_eq_false fun hj => hne e (heq.trans (by rw [hj]))
      · rfl
    refine ⟨⟨hsame ▸ h.handle, hold, hgone, hsame ▸ h.loc, hsame ▸ h.text⟩, ?_⟩
    rw [hcount]
    exact ⟨by rw [hsame], hsame ▸ h.loc, by rw [hsame], 0, by simp [hsame], by simp [hsame]⟩
  obtain ⟨e, rfl⟩ := not_forall_not.mp hne
  have hcount : stepsOf j (s, (.reader j e : Label ω ρ)) = true := decide_eq_true rfl
  rw [hcount]
  cases hmove with
  | openReader _ hh => exact absurd (hh.symm.trans h.handle) (by simp)
  | remove _ id' hh hl => exact absurd hl h.loc
  | interruptReader _ hc hl => exact absurd rfl hx
  | runReader _ id' q r hh hl hrun =>
    obtain rfl : id' = id := by simpa using hh.symm.trans h.handle
    rw [h.gone] at hrun
    obtain ⟨rfl, hmsg, n, hshows, hgo⟩ := Reader.runOn_none hrun
    obtain ⟨hloc, hturn⟩ := hgo h.text
    refine ⟨⟨by simp, hold, hgone, by simpa using hloc, by simpa [hmsg] using h.text⟩, ?_⟩
    exact ⟨by simp [h.handle], by simpa using hloc, by simpa using hmsg, n, by simpa using hshows,
      by simpa using hturn⟩

omit [DecidableEq ω] [DecidableEq ρ] in
/-- A reader that has done nothing. -/
lemma Spinning.refl (hl : (s.reader j).prog.loc ≠ .left) : Spinning s j 0 s :=
  ⟨rfl, hl, rfl, 0, by simp, by simp⟩

omit [DecidableEq ω] [DecidableEq ρ] in
/-- What a reader does in several steps. -/
lemma Spinning.trans {k k' : ℕ} (h : Spinning s j k s') (h' : Spinning s' j k' t) :
    Spinning s j (k + k') t := by
  obtain ⟨n, hshows, hturn⟩ := h.shows
  obtain ⟨n', hshows', hturn'⟩ := h'.shows
  refine ⟨h'.handle.trans h.handle, h'.loc, h'.msg.trans h.msg, n + n', ?_, by omega⟩
  rw [hshows', hshows, h.msg, List.append_assoc, List.replicate_append_replicate]

/-- **The other readers never end.** When one reader has ended, every other one on the same queue
whose text does not begin with `'0'` goes round its loop and repeats that text as long as it is not
interrupted, whatever all others do; and it never blocks.

**Proof sketch.** The queue has been removed, and no identifier is used twice. So `msgrcv` fails at
once each time and leaves the buffer alone, and the test of the loop always finds the same text. -/
theorem others_spin (hs : S.machine.Reach s) (hi : (s.reader i).handle = .closed id)
    (hj : (s.reader j).handle = .opened id) (hl : (s.reader j).prog.loc ≠ .left)
    (hz : ¬ (s.reader j).prog.msg.text.StartsZero) {tr : List (Family ω ρ × Label ω ρ)}
    (hp : (S.machine.startAt s).Path tr t) (hok : ∀ x ∈ tr, x.2 ≠ .reader j .sigint) :
    Spinning s j (tr.countP (stepsOf j)) t ∧
      ∃ t', S.machine.step t (.reader j .run) = some t' := by
  have hstuck : Stuck s j id :=
    ⟨hj, (Setup.handles hs).old j id (by rw [hj]; rfl), queue_of_closed hs hi, hl, hz⟩
  have hinv : Stuck t j id ∧ Spinning s j (tr.countP (stepsOf j)) t := by
    induction hp with
    | nil => exact ⟨hstuck, .refl hl⟩
    | @snoc tr t t' x hp hstep ih =>
      obtain ⟨hstuck, hspin⟩ := ih fun y hy => hok y (by simp [hy])
      have hreach : S.machine.Reach t := Machine.Reach.trans hs hp.reach
      obtain ⟨hstuck', hspin'⟩ :=
        hstuck.step (Setup.valid hreach) (hok (t, x) (by simp)) (Setup.step_cases hstep)
      rw [List.countP_append, List.countP_singleton]
      exact ⟨hstuck', hspin.trans hspin'⟩
  exact ⟨hinv.2, hinv.1.exists_step⟩

/-- A C++ writer whose input is at its end and two C++ readers. -/
def writerAndTwo : Setup Unit Bool := ⟨fun _ => .cpp, fun _ => .cpp, fun _ _ => none⟩

/-- All open the queue, somebody sends `"0"`, and one reader receives it and ends. -/
def oneOfTwoEnds : List (Label Unit Bool) :=
  [.writer () .run, .reader false .run, .reader true .run, .other 0 ⟨1, [charZero]⟩] ++
    List.replicate 5 (.reader false .run)

/-- Then the writer and the other reader go on in turn. -/
def goOn : List (Label Unit Bool) :=
  (List.replicate 9 [.writer () .run, .reader true .run]).flatten

/-- The other reader displays an empty text again and again: in nine steps it goes round its loop
twice and calls `msgrcv` once more, while the writer makes nine steps as well. -/
theorem others_spin_two : ∃ s t tr,
    writerAndTwo.machine.exec writerAndTwo.machine.init oneOfTwoEnds = some s ∧
      (writerAndTwo.machine.startAt s).Path tr t ∧ tr.map Prod.snd = goOn ∧
      Spinning s true 9 t ∧ ∃ t', writerAndTwo.machine.step t (.reader true .run) = some t' := by
  have hrun : ∃ s t,
      writerAndTwo.machine.exec writerAndTwo.machine.init oneOfTwoEnds = some s ∧
      (writerAndTwo.machine.startAt s).exec s goOn = some t ∧
      (s.reader false).handle = .closed 0 ∧ (s.reader true).handle = .opened 0 ∧
      (s.reader true).prog.loc ≠ .left ∧ ¬ (s.reader true).prog.msg.text.StartsZero :=
    ⟨_, _, rfl, rfl, rfl, rfl, by decide, by decide⟩
  obtain ⟨s, t, hs, ht, hi, hj, hl, hz⟩ := hrun
  obtain ⟨tr, hp, hmap⟩ := Machine.exists_path_of_exec (M := writerAndTwo.machine.startAt s) ht
  have hlabels : ∀ x ∈ tr, x.2 = .writer () .run ∨ x.2 = .reader true .run := fun x hx => by
    have hmem : x.2 ∈ tr.map Prod.snd := List.mem_map_of_mem hx
    rw [hmap, goOn] at hmem
    obtain ⟨turn, hturn, hmem⟩ := List.mem_flatten.mp hmem
    rw [List.eq_of_mem_replicate hturn] at hmem
    simpa using hmem
  have hcount : tr.countP (stepsOf true) = 9 := by
    have hown : (tr.map Prod.snd).countP (fun l => stepsOf true (s, l)) =
        tr.countP (stepsOf true) := List.countP_map ..
    rw [← hown, hmap]
    rfl
  obtain ⟨hspin, hnext⟩ := others_spin (Machine.reach_of_exec hs) hi hj hl hz hp fun x hx heq => by
    rcases hlabels x hx with h | h <;> cases h.symm.trans heq
  exact ⟨s, t, tr, hs, hp, hmap, hcount ▸ hspin, hnext⟩

end MessageQueue

end PosixIntro
