import PosixIntro.Pipe.Model

set_option relaxedAutoImplicit false
set_option autoImplicit false

/-!
# The two-way pipe is a dialogue in lock step

At every moment one token is somewhere: with the party that speaks, in its pipe, or with the party
that has just read. A message that begins with `'0'` is passed on as the last one by the party that
reads it, and again by its partner.

## Main definitions

* `ZeroSent` — a message that begins with `'0'` has been sent.
* `Phase s a` — the eight situations of the dialogue, with `a` as the party that spoke last or
  speaks.

## Main results

* `Program.exists_phase` — every reachable state is in one of them.
* `lock_step` — the dialogue: one record in flight, agreement on what was said, and what follows a
  message that begins with `'0'`.
-/

namespace PosixIntro

namespace Pipe

variable {n : ℕ} [NeZero n] {P : Program n} {typed : Party → ℕ → Option (InputLine n)}
  {msg : Party → CharArray n}

/-- A message that begins with `'0'` has been sent. -/
def ZeroSent (s : State n) : Prop := ∃ i, ∃ m ∈ (s.proc i).written, m.StartsZero

section ZeroSent

variable (s : State n) (i : Party)

/-- What was sent depends on what was written. -/
lemma zeroSent_congr {s s' : State n} (h : ∀ j, (s'.proc j).written = (s.proc j).written) :
    ZeroSent s' ↔ ZeroSent s := by
  simp only [ZeroSent, h]

@[simp] lemma zeroSent_set (q : Process n) (h : q.written = (s.proc i).written) :
    ZeroSent (s.set i q) ↔ ZeroSent s := by
  refine zeroSent_congr fun j => ?_
  rcases eq_or_ne j i with rfl | hj
  · simp [h]
  · simp [hj]

@[simp] lemma zeroSent_goto (l : Loc) : ZeroSent (s.goto i l) ↔ ZeroSent s :=
  zeroSent_set s i _ rfl

@[simp] lemma zeroSent_close (fd : Fd) : ZeroSent (s.close i fd) ↔ ZeroSent s := .rfl

@[simp] lemma zeroSent_kill : ZeroSent (s.kill i) ↔ ZeroSent s := zeroSent_goto _ i _

@[simp] lemma zeroSent_receive (m : CharArray n) (rest : List (CharArray n)) :
    ZeroSent (s.receive i m rest) ↔ ZeroSent s :=
  zeroSent_set _ i _ rfl

@[simp] lemma zeroSent_send (l : Loc) :
    ZeroSent (s.send i l) ↔ ZeroSent s ∨ (s.proc i).msg.StartsZero := by
  constructor
  · rintro ⟨j, m, hm, hz⟩
    rcases eq_or_ne j i with rfl | hj
    · rw [State.send_proc_self] at hm
      rcases List.mem_append.mp hm with hm | hm
      · exact .inl ⟨j, m, hm, hz⟩
      · exact .inr (List.mem_singleton.mp hm ▸ hz)
    · exact .inl ⟨j, m, by simpa [hj] using hm, hz⟩
  · rintro (⟨j, m, hm, hz⟩ | hz)
    · rcases eq_or_ne j i with rfl | hj
      · exact ⟨j, m, by simp [hm], hz⟩
      · exact ⟨j, m, by simpa [hj] using hm, hz⟩
    · exact ⟨i, (s.proc i).msg, by simp, hz⟩

end ZeroSent

/-! ### The phases -/

/-- The party has the word. -/
def Speaks (i : Party) (l : Loc) : Prop :=
  l = .enter ∨ l = .write ∨ i = .parent ∧ (l = .closeFirst ∨ l = .closeSecond)

/-- The party waits for an answer. -/
def Listens (i : Party) (l : Loc) : Prop :=
  l = .read ∨ i = .child ∧ (l = .closeFirst ∨ l = .closeSecond)

/-- The party has neither closed an end that it uses nor been killed. -/
def Loc.BeforeEnd : Loc → Prop
  | .finish _ | .killed => False
  | _ => True

/-- The situations of the dialogue. -/
inductive Phase (s : State n) (a : Party) : Prop
  /-- `a` has the word, its partner listens. -/
  | speaks (ha : Speaks a (s.proc a).loc) (hb : Listens a.other (s.proc a.other).loc)
      (hpa : s.pipe a = []) (hpb : s.pipe a.other = []) (hz : ¬ ZeroSent s)
  /-- A message of `a` is in flight. -/
  | flight (m : CharArray n) (ha : (s.proc a).loc = .read)
      (hb : Listens a.other (s.proc a.other).loc) (hpa : s.pipe a = [m])
      (hpb : s.pipe a.other = []) (hz : ZeroSent s ↔ m.StartsZero)
  /-- `a` has read a message. -/
  | tests (ha : (s.proc a).loc = .test) (hb : (s.proc a.other).loc = .read)
      (hpa : s.pipe a = []) (hpb : s.pipe a.other = [])
      (hz : ZeroSent s ↔ (s.proc a).msg.StartsZero)
  /-- `a` passes a `'0'` on. -/
  | answers (ha : (s.proc a).loc = .writeLast) (hb : (s.proc a.other).loc = .read)
      (hm : (s.proc a).msg.StartsZero)
      (hpa : s.pipe a = []) (hpb : s.pipe a.other = []) (hz : ZeroSent s)
  /-- The `'0'` that `a` has passed on is in flight. -/
  | lastFlight (m : CharArray n) (fds : List Fd) (ha : (s.proc a).loc = .finish fds)
      (hb : (s.proc a.other).loc = .read) (hm : m.StartsZero) (hpa : s.pipe a = [m])
      (hpb : s.pipe a.other = []) (hz : ZeroSent s)
  /-- The partner has read it. -/
  | lastTest (fds : List Fd) (ha : (s.proc a).loc = .finish fds)
      (hb : (s.proc a.other).loc = .test) (hm : (s.proc a.other).msg.StartsZero)
      (hpa : s.pipe a = []) (hpb : s.pipe a.other = []) (hz : ZeroSent s)
  /-- The partner passes it on. -/
  | lastAnswer (fds : List Fd) (ha : (s.proc a).loc = .finish fds)
      (hb : (s.proc a.other).loc = .writeLast) (hpa : s.pipe a = [])
      (hpb : s.pipe a.other = []) (hz : ZeroSent s)
  /-- Both have left their loops, or the partner was killed. -/
  | ended (fds : List Fd) (ha : (s.proc a).loc = .finish fds)
      (hb : (∃ fds', (s.proc a.other).loc = .finish fds') ∨ (s.proc a.other).loc = .killed)
      (hpa : s.pipe a = []) (hpb : (s.pipe a.other).length ≤ 1) (hz : ZeroSent s)

/-- An end in use is open until its process leaves the loop. -/
lemma Program.isOpen {s : State n} (h : (P.machine typed msg).Reach s) {i : Party}
    (hl : (s.proc i).loc.BeforeEnd) {fd : Fd} (hfd : fd ∈ used i) : s.IsOpen fd := by
  refine ⟨i, (P.opened_iff h i fd).mpr ?_⟩
  cases hloc : (s.proc i).loc with
  | closeFirst => trivial
  | closeSecond => exact ((mem_used_iff i fd).mp hfd).1
  | finish | killed =>
    rw [hloc] at hl
    exact hl.elim
  | _ => exact hfd

lemma Listens.beforeEnd {i : Party} {l : Loc} (h : Listens i l) : l.BeforeEnd := by
  rcases h with rfl | ⟨-, rfl | rfl⟩ <;> trivial

lemma Speaks.beforeEnd {i : Party} {l : Loc} (h : Speaks i l) : l.BeforeEnd := by
  rcases h with rfl | rfl | ⟨-, rfl | rfl⟩ <;> trivial

lemma wr_mem_used (i : Party) : Fd.wr i ∈ used i := by simp [used]

lemma rd_mem_used (i : Party) : Fd.rd i ∈ used i.other := by simp [used]

section Moves

variable {s s' : State n} {a : Party}

/-- The party that has the word moves. -/
lemma Phase.speaks_move (hrd : s.IsOpen (.rd a)) (ha : Speaks a (s.proc a).loc)
    (hb : Listens a.other (s.proc a.other).loc) (hpa : s.pipe a = [])
    (hpb : s.pipe a.other = []) (hz : ¬ ZeroSent s)
    (hm : Move P typed s a (s.proc a).loc s') : Phase s' a := by
  rcases ha with ha | ha | ⟨rfl, ha | ha⟩
  · rw [ha] at hm
    cases hm
    exact .speaks (.inr (.inl (by simp [Program.enterMsg]))) (by simpa [Program.enterMsg] using hb)
      hpa hpb (by simpa [Program.enterMsg] using hz)
  · rw [ha] at hm
    cases hm with
    | write h =>
      exact .flight (s.proc a).msg (by simp) (by simpa using hb) (by simp [hpa])
        (by simpa using hpb) (by simp [hz])
    | writeKilled h => exact absurd hrd h
  · rw [ha] at hm
    cases hm
    exact .speaks (.inr (.inr ⟨rfl, .inr (by simp)⟩)) (by simpa using hb) hpa hpb
      (by simpa using hz)
  · rw [ha] at hm
    cases hm
    exact .speaks (.inl (by simp [loopStart])) (by simpa using hb) hpa hpb (by simpa using hz)

/-- A `read` from an empty pipe blocks while somebody holds the write end. -/
lemma no_read {i : Party} (hl : (s.proc i).loc = .read) (hp : s.pipe i.other = [])
    (hwr : s.IsOpen (.wr i.other)) (hm : Move P typed s i (s.proc i).loc s') : False := by
  rw [hl] at hm
  cases hm with
  | read m rest h =>
    rw [hp] at h
    cases h
  | readEnd h hw => exact hw hwr

/-- The party that listens moves while its partner has the word. -/
lemma Phase.speaks_other (hwr : s.IsOpen (.wr a)) (ha : Speaks a (s.proc a).loc)
    (hb : Listens a.other (s.proc a.other).loc) (hpa : s.pipe a = [])
    (hpb : s.pipe a.other = []) (hz : ¬ ZeroSent s)
    (hm : Move P typed s a.other (s.proc a.other).loc s') : Phase s' a := by
  rcases hb with hb | ⟨hchild, hb | hb⟩
  · exact (no_read hb (by simpa using hpa) (by simpa using hwr) hm).elim
  · rw [hb] at hm
    cases hm
    exact .speaks (by simpa using ha) (.inr ⟨hchild, .inr (by simp)⟩) hpa hpb (by simpa using hz)
  · rw [hb] at hm
    cases hm
    exact .speaks (by simpa using ha) (.inl (by simp [hchild, loopStart])) hpa hpb
      (by simpa using hz)

/-- The party to which a message is on its way moves. -/
lemma Phase.flight_other {m : CharArray n} (ha : (s.proc a).loc = .read)
    (hb : Listens a.other (s.proc a.other).loc) (hpa : s.pipe a = [m])
    (hpb : s.pipe a.other = []) (hz : ZeroSent s ↔ m.StartsZero)
    (hm : Move P typed s a.other (s.proc a.other).loc s') : ∃ b, Phase s' b := by
  rcases hb with hb | ⟨hchild, hb | hb⟩
  · rw [hb] at hm
    cases hm with
    | read m' rest h =>
      rw [Party.other_other, hpa] at h
      obtain ⟨rfl, rfl⟩ := List.cons.inj h
      exact ⟨a.other, .tests (by simp) (by simpa using ha) (by simpa using hpb) (by simp)
        (by simpa using hz)⟩
    | readEnd h hw =>
      rw [Party.other_other, hpa] at h
      cases h
  · rw [hb] at hm
    cases hm
    exact ⟨a, .flight m (by simpa using ha) (.inr ⟨hchild, .inr (by simp)⟩) hpa hpb
      (by simpa using hz)⟩
  · rw [hb] at hm
    cases hm
    exact ⟨a, .flight m (by simpa using ha) (.inl (by simp [hchild, loopStart])) hpa hpb
      (by simpa using hz)⟩

/-- The party that has read a message tests it. -/
lemma Phase.tests_move (ha : (s.proc a).loc = .test) (hb : (s.proc a.other).loc = .read)
    (hpa : s.pipe a = []) (hpb : s.pipe a.other = [])
    (hz : ZeroSent s ↔ (s.proc a).msg.StartsZero)
    (hm : Move P typed s a (s.proc a).loc s') : Phase s' a := by
  rw [ha] at hm
  cases hm with
  | testZero h =>
    exact .answers (by simp) (by simpa using hb) (by simpa using h) hpa hpb
      (by simpa using hz.mpr h)
  | testOther h =>
    exact .speaks (.inl (by simp)) (.inl (by simpa using hb)) hpa hpb
      (by simpa using mt hz.mp h)

/-- The party that passes a `'0'` on writes it. -/
lemma Phase.answers_move (hrd : s.IsOpen (.rd a)) (ha : (s.proc a).loc = .writeLast)
    (hb : (s.proc a.other).loc = .read) (hmsg : (s.proc a).msg.StartsZero)
    (hpa : s.pipe a = []) (hpb : s.pipe a.other = []) (hz : ZeroSent s)
    (hm : Move P typed s a (s.proc a).loc s') : Phase s' a := by
  rw [ha] at hm
  cases hm with
  | last h =>
    exact .lastFlight (s.proc a).msg (P.leave a) (by simp) (by simpa using hb) hmsg (by simp [hpa])
      (by simpa using hpb) (by simp [hz])
  | lastKilled h => exact absurd hrd h

/-- A party that has left its loop closes an end. -/
lemma finish_move {i : Party} {fds : List Fd} (hl : (s.proc i).loc = .finish fds)
    (hm : Move P typed s i (s.proc i).loc s') :
    (∃ fds', (s'.proc i).loc = .finish fds') ∧ s'.pipe = s.pipe ∧
      (ZeroSent s' ↔ ZeroSent s) := by
  rw [hl] at hm
  cases hm with
  | close fd fds => exact ⟨⟨fds, by simp⟩, rfl, by simp⟩

/-- The partner of a party that has left its loop reads, tests and passes on the last message. -/
lemma Phase.last_other {fds : List Fd} (ha : (s.proc a).loc = .finish fds) (hz : ZeroSent s)
    (hm : Move P typed s a.other (s.proc a.other).loc s')
    (h : (∃ m, (s.proc a.other).loc = .read ∧ m.StartsZero ∧ s.pipe a = [m] ∧
        s.pipe a.other = []) ∨
      ((s.proc a.other).loc = .test ∧ (s.proc a.other).msg.StartsZero ∧ s.pipe a = [] ∧
        s.pipe a.other = []) ∨
      ((s.proc a.other).loc = .writeLast ∧ s.pipe a = [] ∧ s.pipe a.other = [])) :
    Phase s' a := by
  rcases h with ⟨m, hb, hzero, hpa, hpb⟩ | ⟨hb, hzero, hpa, hpb⟩ | ⟨hb, hpa, hpb⟩
  · rw [hb] at hm
    cases hm with
    | read m' rest h =>
      rw [Party.other_other, hpa] at h
      obtain ⟨rfl, rfl⟩ := List.cons.inj h
      exact .lastTest fds (by simpa using ha) (by simp) (by simpa using hzero) (by simp)
        (by simpa using hpb) (by simpa using hz)
    | readEnd h hw =>
      rw [Party.other_other, hpa] at h
      cases h
  · rw [hb] at hm
    cases hm with
    | testZero h =>
      exact .lastAnswer fds (by simpa using ha) (by simp) hpa hpb (by simpa using hz)
    | testOther h => exact absurd hzero h
  · rw [hb] at hm
    cases hm with
    | last h =>
      exact .ended fds (by simpa using ha) (.inl ⟨P.leave a.other, by simp⟩) (by simpa using hpa)
        (by simp [hpb]) (by simp [hz])
    | lastKilled h =>
      exact .ended fds (by simpa using ha) (.inr (by simp)) hpa (by simp [hpb]) (by simpa using hz)

end Moves

/-- **One step of the dialogue.** Every step leads from a phase to a phase.

**Proof sketch.** In each phase either party may be the one that moves; the one that listens can
only do so when there is something in its pipe, because the write end is open. -/
lemma Phase.step {s s' : State n} {a i : Party} (hr : (P.machine typed msg).Reach s)
    (h : Phase s a) (hm : Move P typed s i (s.proc i).loc s') : ∃ b, Phase s' b := by
  have hrd : (s.proc a.other).loc.BeforeEnd → s.IsOpen (.rd a) := fun hl =>
    P.isOpen hr hl (rd_mem_used a)
  have hwa : (s.proc a).loc.BeforeEnd → s.IsOpen (.wr a) := fun hl => P.isOpen hr hl (wr_mem_used a)
  have hwb : (s.proc a.other).loc.BeforeEnd → s.IsOpen (.wr a.other) := fun hl =>
    P.isOpen hr hl (wr_mem_used a.other)
  rcases i.eq_or_eq_other a with rfl | rfl
  · -- `i` is the party that spoke last or speaks
    cases h with
    | speaks ha hb hpa hpb hz => exact ⟨i, Phase.speaks_move (hrd hb.beforeEnd) ha hb hpa hpb hz hm⟩
    | flight m ha hb hpa hpb hz => exact (no_read ha hpb (hwb hb.beforeEnd) hm).elim
    | tests ha hb hpa hpb hz => exact ⟨i, Phase.tests_move ha hb hpa hpb hz hm⟩
    | answers ha hb hmsg hpa hpb hz =>
      exact ⟨i, Phase.answers_move (hrd (by rw [hb]; trivial)) ha hb hmsg hpa hpb hz hm⟩
    | lastFlight m fds ha hb hmsg hpa hpb hz =>
      obtain ⟨⟨fds', ha'⟩, hpipe, hzero⟩ := finish_move ha hm
      rw [← (hm.other i.other_ne).2] at hb
      rw [← hpipe] at hpa hpb
      exact ⟨i, .lastFlight m fds' ha' hb hmsg hpa hpb (hzero.mpr hz)⟩
    | lastTest fds ha hb hmsg hpa hpb hz =>
      obtain ⟨⟨fds', ha'⟩, hpipe, hzero⟩ := finish_move ha hm
      rw [← (hm.other i.other_ne).2] at hb hmsg
      rw [← hpipe] at hpa hpb
      exact ⟨i, .lastTest fds' ha' hb hmsg hpa hpb (hzero.mpr hz)⟩
    | lastAnswer fds ha hb hpa hpb hz =>
      obtain ⟨⟨fds', ha'⟩, hpipe, hzero⟩ := finish_move ha hm
      rw [← (hm.other i.other_ne).2] at hb
      rw [← hpipe] at hpa hpb
      exact ⟨i, .lastAnswer fds' ha' hb hpa hpb (hzero.mpr hz)⟩
    | ended fds ha hb hpa hpb hz =>
      obtain ⟨⟨fds', ha'⟩, hpipe, hzero⟩ := finish_move ha hm
      rw [← (hm.other i.other_ne).2] at hb
      rw [← hpipe] at hpa hpb
      exact ⟨i, .ended fds' ha' hb hpa hpb (hzero.mpr hz)⟩
  · -- the partner moves
    cases h with
    | speaks ha hb hpa hpb hz =>
      exact ⟨a, Phase.speaks_other (hwa ha.beforeEnd) ha hb hpa hpb hz hm⟩
    | flight m ha hb hpa hpb hz => exact Phase.flight_other ha hb hpa hpb hz hm
    | tests ha hb hpa hpb hz | answers ha hb _ hpa hpb hz =>
      have hopen : s.IsOpen (.wr a) := hwa (by rw [ha]; trivial)
      exact (no_read hb (by simpa using hpa) (by simpa using hopen) hm).elim
    | lastFlight m fds ha hb hmsg hpa hpb hz =>
      exact ⟨a, Phase.last_other ha hz hm (.inl ⟨m, hb, hmsg, hpa, hpb⟩)⟩
    | lastTest fds ha hb hmsg hpa hpb hz =>
      exact ⟨a, Phase.last_other ha hz hm (.inr (.inl ⟨hb, hmsg, hpa, hpb⟩))⟩
    | lastAnswer fds ha hb hpa hpb hz =>
      exact ⟨a, Phase.last_other ha hz hm (.inr (.inr ⟨hb, hpa, hpb⟩))⟩
    | ended fds ha hb hpa hpb hz =>
      rcases hb with ⟨fds', hb⟩ | hb
      · obtain ⟨hb', hpipe, hzero⟩ := finish_move hb hm
        rw [← (hm.other a.ne_other).2] at ha
        rw [← hpipe] at hpa hpb
        exact ⟨a, .ended fds ha (.inl hb') hpa hpb (hzero.mpr hz)⟩
      · rw [hb] at hm
        cases hm

/-- **Every reachable state is in a phase of the dialogue.** -/
theorem Program.exists_phase {s : State n} (h : (P.machine typed msg).Reach s) :
    ∃ a, Phase s a := by
  refine h.invariant (I := fun s => ∃ a, Phase s a) ?_ fun s i s' hr ih _ hs => ?_
  · exact ⟨.parent, .speaks (.inr (.inr ⟨rfl, .inl rfl⟩)) (.inr ⟨rfl, .inl rfl⟩) rfl rfl
      fun ⟨_, m, hm, _⟩ => by cases hm⟩
  · obtain ⟨a, ha⟩ := ih
    exact ha.step hr (Program.move_of_step hs)

/-! ### The dialogue -/

/-- The party has entered the branch of the terminator. -/
def Loc.Terminating : Loc → Prop
  | .writeLast | .finish _ | .killed => True
  | _ => False

/-- A statement that never blocks. -/
def Loc.Ready : Loc → Prop
  | .read | .finish [] | .killed => False
  | _ => True

variable (typed) in
/-- A statement that never blocks can be executed. -/
lemma Program.exists_step {s : State n} {i : Party} (h : (s.proc i).loc.Ready) :
    ∃ s', P.step typed s i = some s' := by
  unfold Program.step
  cases hl : (s.proc i).loc with
  | read | killed =>
    rw [hl] at h
    exact h.elim
  | finish fds =>
    rw [hl] at h
    cases fds with
    | nil => exact h.elim
    | cons fd fds => exact ⟨_, rfl⟩
  | _ => exact ⟨_, rfl⟩

variable (typed) in
/-- A `read` from a pipe with a record can be executed. -/
lemma Program.exists_step_read {s : State n} {i : Party} {m : CharArray n}
    (hl : (s.proc i).loc = .read) (hp : s.pipe i.other = [m]) :
    ∃ s', P.step typed s i = some s' := by
  unfold Program.step
  rw [hl, hp]
  exact ⟨_, rfl⟩

variable (P typed) in
/-- A party that listens can move when there is a record in its pipe. -/
lemma Listens.exists_step {s : State n} {i : Party} {m : CharArray n}
    (hl : Listens i (s.proc i).loc) (hp : s.pipe i.other = [m]) :
    ∃ s', P.step typed s i = some s' := by
  rcases hl with hl | ⟨-, hl | hl⟩
  · exact P.exists_step_read typed hl hp
  · exact P.exists_step typed (by rw [hl]; trivial)
  · exact P.exists_step typed (by rw [hl]; trivial)

variable (P typed) in
/-- In every phase a party that is not at its end can move, unless both have left their loops. -/
lemma Phase.exists_step {s : State n} {a : Party} (h : Phase s a) :
    (∃ i s', (s.proc i).loc.BeforeEnd ∧ P.step typed s i = some s') ∨
      (∃ fds, (s.proc a).loc = .finish fds) ∧
        ((∃ fds, (s.proc a.other).loc = .finish fds) ∨ (s.proc a.other).loc = .killed) := by
  cases h with
  | speaks ha =>
    have hready : (s.proc a).loc.Ready := by
      rcases ha with ha | ha | ⟨-, ha | ha⟩ <;> rw [ha] <;> trivial
    obtain ⟨s', hs⟩ := P.exists_step typed hready
    exact .inl ⟨a, s', ha.beforeEnd, hs⟩
  | flight m _ hb hpa =>
    obtain ⟨s', hs⟩ := hb.exists_step P typed (m := m) (by simpa using hpa)
    exact .inl ⟨a.other, s', hb.beforeEnd, hs⟩
  | tests ha | answers ha =>
    obtain ⟨s', hs⟩ := P.exists_step typed (s := s) (i := a) (by rw [ha]; trivial)
    exact .inl ⟨a, s', by rw [ha]; trivial, hs⟩
  | lastFlight m _ _ hb _ hpa =>
    obtain ⟨s', hs⟩ := P.exists_step_read typed (m := m) hb (by simpa using hpa)
    exact .inl ⟨a.other, s', by rw [hb]; trivial, hs⟩
  | lastTest _ _ hb | lastAnswer _ _ hb =>
    obtain ⟨s', hs⟩ := P.exists_step typed (s := s) (i := a.other) (by rw [hb]; trivial)
    exact .inl ⟨a.other, s', by rw [hb]; trivial, hs⟩
  | ended fds ha hb => exact .inr ⟨⟨fds, ha⟩, hb⟩

/-- At most one record is in flight. -/
lemma Phase.length_pipes_le {s : State n} {a : Party} (h : Phase s a) :
    (s.pipe a).length + (s.pipe a.other).length ≤ 1 := by
  cases h with
  | ended fds ha hb hpa hpb =>
    rw [hpa, List.length_nil, Nat.zero_add]
    exact hpb
  | speaks _ _ hpa hpb | flight _ _ _ hpa hpb | tests _ _ hpa hpb | answers _ _ _ hpa hpb
    | lastFlight _ _ _ _ _ hpa hpb | lastTest _ _ _ _ hpa hpb | lastAnswer _ _ _ hpa hpb =>
    simp [hpa, hpb]

/-- A party that speaks or listens is not in the branch of the terminator. -/
lemma Speaks.not_terminating {i : Party} {l : Loc} (h : Speaks i l) : ¬ l.Terminating := by
  rcases h with rfl | rfl | ⟨-, rfl | rfl⟩ <;> exact id

lemma Listens.not_terminating {i : Party} {l : Loc} (h : Listens i l) : ¬ l.Terminating := by
  rcases h with rfl | ⟨-, rfl | rfl⟩ <;> exact id

/-- A party is in the branch of the terminator only after a message that begins with `'0'`. -/
lemma Phase.zeroSent {s : State n} {a : Party} (h : Phase s a) {i : Party}
    (ht : (s.proc i).loc.Terminating) : ZeroSent s := by
  cases h with
  | speaks ha hb =>
    exact absurd ht (Party.forall_of (p := fun i => ¬ (s.proc i).loc.Terminating) a
      ha.not_terminating hb.not_terminating i)
  | flight m ha hb =>
    have ha' : ¬ (s.proc a).loc.Terminating := by rw [ha]; exact id
    exact absurd ht (Party.forall_of (p := fun i => ¬ (s.proc i).loc.Terminating) a ha'
      hb.not_terminating i)
  | tests ha hb =>
    have ha' : ¬ (s.proc a).loc.Terminating := by rw [ha]; exact id
    have hb' : ¬ (s.proc a.other).loc.Terminating := by rw [hb]; exact id
    exact absurd ht (Party.forall_of (p := fun i => ¬ (s.proc i).loc.Terminating) a ha' hb' i)
  | answers _ _ _ _ _ hz | lastFlight _ _ _ _ _ _ _ hz | lastTest _ _ _ _ _ _ hz
    | lastAnswer _ _ _ _ _ hz | ended _ _ _ _ _ hz => exact hz

/-- After such a message nobody has the word. -/
lemma Phase.not_speaks {s : State n} {a : Party} (h : Phase s a) (hz : ZeroSent s) (i : Party) :
    ¬ Speaks i (s.proc i).loc := by
  refine Party.forall_of (p := fun i => ¬ Speaks i (s.proc i).loc) a ?_ ?_ i
  · cases h with
    | speaks _ _ _ _ hno => exact absurd hz hno
    | flight _ ha | tests ha | answers ha | lastFlight _ _ ha | lastTest _ ha | lastAnswer _ ha
      | ended _ ha => simp [Speaks, ha]
  · cases h with
    | speaks _ _ _ _ hno => exact absurd hz hno
    | flight _ _ hb => rcases hb with hb | ⟨hchild, hb | hb⟩ <;> rw [hb] <;> simp [Speaks, *]
    | tests _ hb | answers _ hb | lastFlight _ _ _ hb | lastTest _ _ hb | lastAnswer _ _ hb =>
      simp [Speaks, hb]
    | ended _ _ hb => rcases hb with ⟨fds, hb⟩ | hb <;> simp [Speaks, hb]

/-- **The two-way pipe is a dialogue in lock step**, in C and in C++, whatever is typed and however
the two processes interleave: at most one record is in flight; each party has read a prefix of what
its partner has written, record by record; a party is in the branch of the terminator only after a
message that begins with `'0'` has been sent, and after that nobody enters another line; and as long
as some party has not come to that branch, one of the two can move. -/
theorem lock_step {lang : Lang} {typed : Party → ℕ → Option (InputLine (size lang))}
    {msg : Party → CharArray (size lang)} {s : State (size lang)}
    (h : ((program lang).machine typed msg).Reach s) :
    (s.pipe .parent).length + (s.pipe .child).length ≤ 1 ∧
    (∀ i, (s.proc i.other).records <+: (s.proc i).written) ∧
    (∀ i, (s.proc i).loc.Terminating → ZeroSent s) ∧
    (ZeroSent s → ∀ i, (s.proc i).loc ≠ .enter) ∧
    ((∃ i, ¬ (s.proc i).loc.Terminating) →
      ∃ i s', ((program lang).machine typed msg).step s i = some s') := by
  obtain ⟨a, ha⟩ := (program lang).exists_phase h
  refine ⟨?_, fun i => ⟨_, (program lang).records_append_pipe h i⟩, fun i => ha.zeroSent,
    fun hz i hl => ha.not_speaks hz i (.inl hl), fun hrun => ?_⟩
  · have hle := ha.length_pipes_le
    cases a
    · exact hle
    · rw [Nat.add_comm]
      exact hle
  · rcases ha.exists_step (program lang) typed with ⟨i, s', -, hs⟩ | ⟨hfa, hfb⟩
    · exact ⟨i, s', hs⟩
    · obtain ⟨fds, hfa⟩ := hfa
      have hta : (s.proc a).loc.Terminating := by rw [hfa]; trivial
      have htb : (s.proc a.other).loc.Terminating := by
        rcases hfb with ⟨fds', hfb⟩ | hfb <;> rw [hfb] <;> trivial
      obtain ⟨i, hi⟩ := hrun
      exact absurd (Party.forall_of (p := fun i => (s.proc i).loc.Terminating) a hta htb i) hi

/-- The line `hi`. -/
def lineHi : InputLine (size .cpp) := ⟨[104, 105, 10], by decide, by decide⟩

/-- The line `0`. -/
def lineZero (lang : Lang) : InputLine (size lang) :=
  ⟨[48, 10], by cases lang <;> decide, by decide⟩

/-- The parent types `hi` and the child answers `0`. -/
def typedHi : Party → ℕ → Option (InputLine (size .cpp))
  | .parent => fun _ => some lineHi
  | .child => fun _ => some (lineZero .cpp)

/-- The C++ program on this dialogue. -/
def machineHi : Machine (State (size .cpp)) Party := (program .cpp).machine typedHi fun _ _ => 0

/-- The dialogue until the parent has read the answer and tested it. -/
def runHi : List Party :=
  List.replicate 4 .parent ++ List.replicate 6 .child ++ List.replicate 2 .parent

/-- The parent has come to the branch of the terminator, and the `'0'` has been sent. -/
theorem lock_step_hi :
    ∃ s, machineHi.exec machineHi.init runHi = some s ∧ (s.proc .parent).loc = .writeLast ∧
      (s.proc .child).records <+: (s.proc .parent).written ∧ ZeroSent s := by
  have hexec : ∃ s, machineHi.exec machineHi.init runHi = some s ∧
      (s.proc .parent).loc = .writeLast := ⟨_, rfl, rfl⟩
  obtain ⟨s, hs, hl⟩ := hexec
  obtain ⟨-, hfifo, hzero, -, -⟩ := @lock_step .cpp _ _ s (Machine.reach_of_exec hs)
  exact ⟨s, hs, hl, hfifo .parent, hzero .parent (by rw [hl]; trivial)⟩

end Pipe

end PosixIntro
