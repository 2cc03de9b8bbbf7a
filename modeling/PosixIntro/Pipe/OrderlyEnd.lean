import PosixIntro.Pipe.LockStep

set_option relaxedAutoImplicit false
set_option autoImplicit false

/-!
# How the two-way pipe ends

The party that reads a `'0'` passes it on and leaves; its partner reads it, passes it on once more
and leaves too. Nobody reads the second `'0'`. If the first party has closed its read end by then,
the write kills the partner.

## Main definitions

* `WaitsForPartner` — the condition on a schedule that a party closes its read end only after its
  partner has made its last write.
* `Program.rank` — how many steps a process has left at most after a `'0'` was sent.

## Main results

* `orderly_end` — in these schedules nobody is killed and both processes come to their end.
* `Program.dies_of_early_close` — in the others the partner never comes to its end.
* `killed_parent` — one of these.
-/

namespace PosixIntro

namespace Pipe

variable {n : ℕ} [NeZero n] {P : Program n} {typed : Party → ℕ → Option (InputLine n)}
  {msg : Party → CharArray n}

/-- The party has made its last write. -/
def Loc.Left : Loc → Prop
  | .finish _ => True
  | _ => False

/-- The end that is closed by the next step, after the loop. -/
def Loc.closing : Loc → Option Fd
  | .finish fds => fds.head?
  | _ => none

/-- A process closes its read end only after its partner has made its last write. -/
def WaitsForPartner (s : State n) (i : Party) : Prop :=
  (s.proc i).loc.closing = some (.rd i.other) → (s.proc i.other).loc.Left

instance : (l : Loc) → Decidable l.Left
  | .finish _ => isTrue trivial
  | .closeFirst | .closeSecond | .enter | .write | .read | .test | .writeLast | .killed =>
    isFalse id

instance (s : State n) (i : Party) : Decidable (WaitsForPartner s i) :=
  inferInstanceAs (Decidable (_ → _))

/-- Nobody is killed, and a process that has left its loop has its read end still to close as long
as its partner has not left. -/
structure Orderly (s : State n) : Prop where
  not_killed : ∀ i, (s.proc i).loc ≠ .killed
  keeps : ∀ i fds, (s.proc i).loc = .finish fds →
    (s.proc i.other).loc.Left ∨ .rd i.other ∈ fds

/-- In an orderly state a party that has not left finds a reader. -/
lemma Orderly.isOpen {s : State n} (hr : (P.machine typed msg).Reach s) (h : Orderly s)
    {i : Party} (hi : ¬ (s.proc i).loc.Left) : s.IsOpen (.rd i) := by
  cases hl : (s.proc i.other).loc with
  | finish fds =>
    have hkeeps := h.keeps i.other fds hl
    rw [Party.other_other] at hkeeps
    refine ⟨i.other, (P.opened_iff hr i.other _).mpr ?_⟩
    rw [hl]
    exact ⟨hkeeps.resolve_left hi, rd_mem_used i⟩
  | killed => exact absurd hl (h.not_killed i.other)
  | _ => exact P.isOpen hr (by rw [hl]; trivial) (rd_mem_used i)

/-- A party that has left stays so. -/
lemma Move.left {s s' : State n} {i : Party} (hm : Move P typed s i (s.proc i).loc s')
    (h : (s.proc i).loc.Left) : (s'.proc i).loc.Left := by
  generalize (s.proc i).loc = l at h hm
  cases hm with
  | close fd fds => simp [Loc.Left]
  | _ => exact h.elim

/-- One step of an orderly run. -/
lemma Orderly.move {s s' : State n} {i : Party} (hr : (P.machine typed msg).Reach s)
    (h : Orderly s) (hok : WaitsForPartner s i) (hm : Move P typed s i (s.proc i).loc s') :
    Orderly s' := by
  have hother := (hm.other i.other_ne).2
  have hleft := fun hl => hm.left hl
  have hself : (s'.proc i).loc ≠ .killed ∧ ∀ fds, (s'.proc i).loc = .finish fds →
      (s.proc i.other).loc.Left ∨ .rd i.other ∈ fds := by
    have hopen : ¬ (s.proc i).loc.Left → s.IsOpen (.rd i) := fun hl => h.isOpen hr hl
    have hkeeps := h.keeps i
    generalize hl : (s.proc i).loc = l at hm hopen hkeeps
    cases hm with
    | writeKilled hno | lastKilled hno => exact absurd (hopen id) hno
    | last =>
      refine ⟨by simp, fun fds hfds => .inr ?_⟩
      simp only [State.send_proc_self, Loc.finish.injEq] at hfds
      rw [← hfds]
      exact P.used_subset i (by simp [used])
    | close fd fds =>
      refine ⟨by simp, fun fds' hfds => ?_⟩
      simp only [State.goto_proc_self, Loc.finish.injEq] at hfds
      subst hfds
      rcases hkeeps _ rfl with hleft | hmem
      · exact .inl hleft
      · rcases List.mem_cons.mp hmem with rfl | hmem
        · exact .inl (hok (by rw [hl]; rfl))
        · exact .inr hmem
    | closeSecond => cases i <;> simp [loopStart]
    | _ => simp [Program.enterMsg]
  refine ⟨Party.forall_of i hself.1 ?_, Party.forall_of i ?_ ?_⟩
  · rw [hother]
    exact h.not_killed i.other
  · intro fds hfds
    rw [hother]
    exact hself.2 fds hfds
  · intro fds hfds
    rw [hother] at hfds
    exact (h.keeps i.other fds hfds).imp (by rw [Party.other_other]; exact hleft) id

/-- Every state of an orderly run is orderly. -/
theorem Program.orderly {s : State n} (h : (P.machine typed msg).ReachIf WaitsForPartner s) :
    Orderly s := by
  refine h.invariant (I := Orderly) ⟨fun i => by simp [machine], fun i fds hl => by cases hl⟩ ?_
  intro s i s' hr ih hok hs
  exact ih.move hr.reach hok (P.move_of_step hs)

/-! ### Both come to their end -/

/-- How many steps a process has left at most when a `'0'` has been sent. -/
def Program.rank (P : Program n) (i : Party) : Loc → ℕ
  | .closeFirst => (P.leave i).length + 5
  | .closeSecond => (P.leave i).length + 4
  | .read => (P.leave i).length + 3
  | .test => (P.leave i).length + 2
  | .writeLast => (P.leave i).length + 1
  | .finish fds => fds.length
  | .enter | .write | .killed => 0

/-- When a `'0'` has been sent, what a party tests is one. -/
lemma Phase.startsZero {s : State n} {a : Party} (h : Phase s a) (hz : ZeroSent s) {i : Party}
    (hl : (s.proc i).loc = .test) : (s.proc i).msg.StartsZero := by
  rcases i.eq_or_eq_other a with rfl | rfl
  · cases h with
    | speaks _ _ _ _ hno => exact absurd hz hno
    | tests _ _ _ _ hiff => exact hiff.mp hz
    | flight _ ha | answers ha | lastFlight _ _ ha | lastTest _ ha | lastAnswer _ ha | ended _ ha =>
      rw [ha] at hl
      cases hl
  · cases h with
    | speaks _ _ _ _ hno => exact absurd hz hno
    | lastTest _ _ _ hm => exact hm
    | flight _ _ hb =>
      rcases hb with hb | ⟨-, hb | hb⟩ <;> rw [hb] at hl <;> cases hl
    | tests _ hb | answers _ hb | lastFlight _ _ _ hb | lastAnswer _ _ hb =>
      rw [hb] at hl
      cases hl
    | ended _ _ hb =>
      rcases hb with ⟨fds, hb⟩ | hb <;> rw [hb] at hl <;> cases hl

/-- When a `'0'` has been sent, every step lowers the rank of the process that moves, and the `'0'`
stays sent. -/
lemma Phase.rank_lt {s s' : State n} {a i : Party} (h : Phase s a) (hz : ZeroSent s)
    (hm : Move P typed s i (s.proc i).loc s') :
    P.rank i (s'.proc i).loc < P.rank i (s.proc i).loc ∧ ZeroSent s' := by
  have hspeaks := h.not_speaks hz i
  have htest := h.startsZero hz (i := i)
  generalize (s.proc i).loc = l at hm hspeaks htest
  cases hm with
  | closeSecond =>
    cases i with
    | parent => exact absurd (.inr (.inr ⟨rfl, .inr rfl⟩)) hspeaks
    | child => exact ⟨by simp [Program.rank, loopStart], by simpa using hz⟩
  | enter => exact absurd (.inl rfl) hspeaks
  | write | writeKilled => exact absurd (.inr (.inl rfl)) hspeaks
  | testOther hno => exact absurd (htest rfl) hno
  | last => exact ⟨by simp [Program.rank], by simp [hz]⟩
  | closeFirst | read | readEnd | testZero | lastKilled | close =>
    exact ⟨by simp [Program.rank], by simpa using hz⟩

/-- How many steps both processes have left at most. -/
def Program.totalRank (P : Program n) (s : State n) : ℕ :=
  P.rank .parent (s.proc .parent).loc + P.rank .child (s.proc .child).loc

/-- A step lowers the joint rank. -/
lemma Phase.totalRank_lt {s s' : State n} {a i : Party} (h : Phase s a) (hz : ZeroSent s)
    (hm : Move P typed s i (s.proc i).loc s') : P.totalRank s' < P.totalRank s := by
  have hlt := (h.rank_lt hz hm).1
  have hother := (hm.other i.other_ne).2
  unfold Program.totalRank
  cases i with
  | parent =>
    have hc : s'.proc .child = s.proc .child := hother
    rw [hc]
    omega
  | child =>
    have hp : s'.proc .parent = s.proc .parent := hother
    rw [hp]
    omega

/-- After a `'0'` was sent, the rest of the run is short. -/
theorem Program.length_le_totalRank {s : State n} (hr : (P.machine typed msg).Reach s)
    (hz : ZeroSent s) {tr : List (State n × Party)} {s' : State n}
    (h : ((P.machine typed msg).startAt s).Path tr s') : tr.length ≤ P.totalRank s := by
  refine hr.length_le (I := ZeroSent) hz P.totalRank (fun t i t' ht hzt _ hs => ?_) h
    fun _ _ => trivial
  obtain ⟨a, ha⟩ := P.exists_phase ht
  have hm := P.move_of_step hs
  exact ⟨(ha.rank_lt hzt hm).2, ha.totalRank_lt hzt hm⟩

/-- As long as a process has not come to its end, there is a step that keeps the run orderly. -/
lemma Program.exists_orderly_step {s : State n}
    (h : (P.machine typed msg).ReachIf WaitsForPartner s)
    (hend : ∃ i, (s.proc i).loc ≠ .finish []) :
    ∃ i s', WaitsForPartner s i ∧ (P.machine typed msg).step s i = some s' := by
  obtain ⟨a, ha⟩ := P.exists_phase h.reach
  rcases ha.exists_step P typed with ⟨i, s', hi, hs⟩ | ⟨⟨fds, hfa⟩, hfb⟩
  · refine ⟨i, s', fun hclosing => ?_, hs⟩
    cases hl : (s.proc i).loc with
    | finish =>
      rw [hl] at hi
      exact hi.elim
    | _ =>
      rw [hl] at hclosing
      cases hclosing
  · obtain ⟨fds', hfb⟩ := hfb.resolve_right ((P.orderly h).not_killed a.other)
    have hleft : ∀ i, (s.proc i).loc.Left := by
      refine Party.forall_of a ?_ ?_
      · rw [hfa]
        trivial
      · rw [hfb]
        trivial
    obtain ⟨i, hi⟩ := hend
    have hready : (s.proc i).loc.Ready := by
      have hl := hleft i
      cases hloc : (s.proc i).loc with
      | finish fds =>
        cases fds with
        | nil => exact absurd hloc hi
        | cons fd fds => trivial
      | _ =>
        rw [hloc] at hl
        exact hl.elim
    obtain ⟨s', hs⟩ := P.exists_step typed hready
    exact ⟨i, s', fun _ => hleft i.other, hs⟩

/-- **The orderly end.** In every run of the C or the C++ program in which a process closes its read
end only after its partner has made its last write: no process is killed, and every write finds a
reader; the run can go on in this way until both processes have come to the end of their function;
and after a message that begins with `'0'` has been sent, no run goes on for ever. -/
theorem orderly_end {lang : Lang} {typed : Party → ℕ → Option (InputLine (size lang))}
    {msg : Party → CharArray (size lang)} {s : State (size lang)}
    (h : ((program lang).machine typed msg).ReachIf WaitsForPartner s) :
    (∀ i, (s.proc i).loc ≠ .killed) ∧
    (∀ i, (s.proc i).loc = .write ∨ (s.proc i).loc = .writeLast → s.IsOpen (.rd i)) ∧
    ((∃ i, (s.proc i).loc ≠ .finish []) → ∃ i s', WaitsForPartner s i ∧
      ((program lang).machine typed msg).step s i = some s') ∧
    (ZeroSent s → ∃ B, ∀ tr s', (((program lang).machine typed msg).startAt s).Path tr s' →
      tr.length ≤ B) := by
  have horderly := (program lang).orderly h
  refine ⟨horderly.not_killed, fun i hw => horderly.isOpen h.reach ?_,
    (program lang).exists_orderly_step h,
    fun hz => ⟨_, fun tr s' => (program lang).length_le_totalRank h.reach hz⟩⟩
  rcases hw with hw | hw <;> rw [hw] <;> exact id

/-- The C program when the parent types `0`. -/
def machineZero : Machine (State (size .c)) Party :=
  (program .c).machine (fun _ _ => some (lineZero .c)) fun _ _ => 0

/-- The parent sends `0`, the child passes it on, the parent passes it on once more, and only then
both close what they hold. -/
def runOrderly : List Party :=
  List.replicate 4 .parent ++ List.replicate 5 .child ++ List.replicate 3 .parent ++
    List.replicate 2 .child ++ List.replicate 2 .parent

/-- Both come to the end of their function. -/
theorem orderly_end_zero :
    ∃ s, machineZero.execIf WaitsForPartner machineZero.init runOrderly = some s ∧
      (∀ i, (s.proc i).loc = .finish []) ∧ ∀ i, (s.proc i).loc ≠ .killed := by
  have hexec : ∃ s, machineZero.execIf WaitsForPartner machineZero.init runOrderly = some s ∧
      (s.proc .parent).loc = .finish [] ∧ (s.proc .child).loc = .finish [] := ⟨_, rfl, rfl, rfl⟩
  obtain ⟨s, hs, hp, hc⟩ := hexec
  obtain ⟨hkilled, -, -, -⟩ := @orderly_end .c _ _ s (.of_execIf .init hs)
  exact ⟨s, hs, Party.forall_of .parent hp hc, hkilled⟩

/-! ### The other schedules -/

/-- The parent sends `0`, the child passes it on and closes its read end, and the parent passes it
on once more. -/
def runZero : List Party :=
  List.replicate 4 .parent ++ List.replicate 6 .child ++ List.replicate 3 .parent

/-- The parent is killed by its last write. -/
theorem killed_parent :
    ¬ ∀ s, machineZero.Reach s → ∀ i, (s.proc i).loc ≠ .killed := by
  have hexec : ∃ s, machineZero.exec machineZero.init runZero = some s ∧
      (s.proc .parent).loc = .killed := ⟨_, rfl, rfl⟩
  obtain ⟨s, hs, hl⟩ := hexec
  exact fun h => h s (Machine.reach_of_exec hs) .parent hl

/-- A process that has not left does not leave by a step when nobody can read what it writes. -/
lemma Move.not_left {s s' : State n} {i : Party} (hm : Move P typed s i (s.proc i).loc s')
    (h : ¬ (s.proc i).loc.Left) (hclosed : ¬ s.IsOpen (.rd i)) : ¬ (s'.proc i).loc.Left := by
  generalize (s.proc i).loc = l at h hm
  cases hm with
  | close => exact absurd trivial h
  | write hr | last hr => exact absurd hr hclosed
  | closeSecond => cases i <;> simp [loopStart, Loc.Left]
  | _ => simp [Program.enterMsg, Loc.Left]

/-- When a party has left its loop, its partner has closed the unwanted ends. -/
lemma Phase.partner_started {s : State n} {a i : Party} {fds : List Fd} (h : Phase s a)
    (hl : (s.proc i).loc = .finish fds) :
    (s.proc i.other).loc ≠ .closeFirst ∧ (s.proc i.other).loc ≠ .closeSecond := by
  have hterm : (s.proc i).loc.Terminating := by rw [hl]; trivial
  rcases i.eq_or_eq_other a with rfl | rfl
  · cases h with
    | speaks ha => exact absurd hterm ha.not_terminating
    | ended _ _ hb => rcases hb with ⟨fds', hb⟩ | hb <;> simp [hb]
    | flight _ ha | tests ha | answers ha =>
      rw [ha] at hl
      cases hl
    | lastFlight _ _ _ hb | lastTest _ _ hb | lastAnswer _ _ hb => simp [hb]
  · rw [Party.other_other]
    cases h with
    | speaks _ hb | flight _ _ hb => exact absurd hterm hb.not_terminating
    | ended _ ha => simp [ha]
    | tests _ hb | answers _ hb | lastFlight _ _ _ hb | lastTest _ _ hb | lastAnswer _ _ hb =>
      rw [hb] at hl
      cases hl

/-- A process that closes an end next has left its loop. -/
lemma Loc.eq_of_closing {l : Loc} {fd : Fd} (h : l.closing = some fd) :
    ∃ fds, l = .finish (fd :: fds) := by
  cases l with
  | finish fds =>
    obtain ⟨fds', rfl⟩ := List.head?_eq_some_iff.mp h
    exact ⟨fds', rfl⟩
  | _ => cases h

/-- The partner writes to a pipe that nobody can read when a process that has left its loop has
closed its read end. -/
lemma Program.not_isOpen {s : State n} (hr : (P.machine typed msg).Reach s) {i : Party}
    {fds : List Fd} (hl : (s.proc i).loc = .finish fds) (hmem : .rd i.other ∉ fds)
    (hother : ¬ (s.proc i.other).loc.Left) : ¬ s.IsOpen (.rd i.other) := by
  rintro ⟨p, hp⟩
  have hholds := (P.opened_iff hr p _).mp hp
  rcases p.eq_or_eq_other i with rfl | rfl
  · rw [hl] at hholds
    exact hmem hholds.1
  · have hself : Fd.rd i.other ∉ used i.other := by simp [used]
    obtain ⟨a, ha⟩ := P.exists_phase hr
    obtain ⟨hfirst, hsecond⟩ := ha.partner_started hl
    cases hloc : (s.proc i.other).loc with
    | closeFirst => exact hfirst hloc
    | closeSecond => exact hsecond hloc
    | finish => exact hother (by rw [hloc]; trivial)
    | killed =>
      rw [hloc] at hholds
      exact hholds
    | _ =>
      rw [hloc] at hholds
      exact hself hholds

/-- **A read end closed too early dooms the partner.** When a process closes its read end before its
partner has made its last write, the partner never comes to its end: whatever it does, its last
write kills it.

**Proof sketch.** From then on nobody holds the read end that the partner writes to: the process has
closed it, the partner has closed its own copy before its loop. -/
theorem Program.dies_of_early_close {s s' : State n} {i : Party}
    (hr : (P.machine typed msg).Reach s) (hs : (P.machine typed msg).step s i = some s')
    (hearly : ¬ WaitsForPartner s i) :
    ∀ t, ((P.machine typed msg).startAt s').Reach t → ¬ (t.proc i.other).loc.Left := by
  obtain ⟨hclosing, hnot⟩ := Classical.not_imp.mp hearly
  have hm := P.move_of_step hs
  have hr' : (P.machine typed msg).Reach s' := hr.next hs
  obtain ⟨fds, hl⟩ := Loc.eq_of_closing hclosing
  have hnodup := (P.tableOk hr i).1 _ hl
  rw [hl] at hm
  cases hm with
  | close fd fds =>
    intro t ht
    -- the process keeps its read end closed, and the partner does not leave
    refine (ht.invariant (I := fun t => (∃ fds, (t.proc i).loc = .finish fds ∧
      .rd i.other ∉ fds) ∧ ¬ (t.proc i.other).loc.Left) ?_ ?_).2
    · exact ⟨⟨fds, by simp [machine, Machine.startAt], (List.nodup_cons.mp hnodup).1⟩,
        by simpa [Machine.startAt] using hnot⟩
    · intro t j t' htr ⟨⟨fds, hfds, hmem⟩, hleft⟩ _ hstep
      have hreach : (P.machine typed msg).Reach t := hr'.trans htr
      have hm := P.move_of_step hstep
      rcases j.eq_or_eq_other i with rfl | rfl
      · rw [(hm.other j.other_ne).2]
        rw [hfds] at hm
        cases hm with
        | close fd fds => exact ⟨⟨fds, by simp, fun h => hmem (List.mem_cons_of_mem _ h)⟩, hleft⟩
      · rw [(hm.other i.ne_other).2]
        exact ⟨⟨fds, hfds, hmem⟩, hm.not_left hleft (P.not_isOpen hreach hfds hmem hleft)⟩

end Pipe

end PosixIntro
