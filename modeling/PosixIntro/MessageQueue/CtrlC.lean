import PosixIntro.MessageQueue.Traffic

set_option relaxedAutoImplicit false
set_option autoImplicit false

/-!
# How `SIGINT` ends the C message-queue programs

`close_ipc` writes `'0'` to the text of the interrupted loop and sends it. That fails in two places:
a writer that has not called `fgets` yet overwrites the `'0'` with the next line, and a reader that
has received nothing yet has a type of which no message can be sent. The reader also depends on the
others, who may take its `'0'` from the queue, or remove the queue.

## Main definitions

* `Admitted` — the condition on the steps that excludes these.
* `WriterEnds`, `ReaderEnds` — what a program does after `close_ipc` has run.
* `WriterGoesOn`, `ReaderStays` — what it does instead when a step is not admitted.
* `CtrlC` — the invariant of the admitted runs.

## Main results

* `ctrl_c_ends` — in the admitted runs both programs end, and the first step that is not admitted
  keeps one of them in its loop.
* `writer_goes_on`, `Reader.blocks_of_interrupt` — two such steps.
-/

namespace PosixIntro

namespace MessageQueue

/-- The line does not replace a `'0'` by something else: the input is at its end, or the line begins
with `'0'` itself. -/
def Harmless (line : Option (InputLine bufferSize)) : Prop := ∀ l ∈ line, l.StartsZero

instance : (line : Option (InputLine bufferSize)) → Decidable (Harmless line)
  | none => isTrue fun _ hl => by cases hl
  | some l => decidable_of_iff l.StartsZero
      ⟨fun h _ hl => Option.mem_some.mp hl ▸ h, fun h => h l rfl⟩

/-- The next test of the reader finds a text that begins with `'0'`: the text does, and no `msgrcv`
overwrites it before the test. -/
def Reader.TestsZero (q? : Option Queue) (r : Reader) : Prop :=
  r.msg.text.StartsZero ∧ r.loc ≠ .left ∧
    ((r.loc = .call ∨ r.loc = .inside) → ∀ q ∈ q?, KeepsText q)

/-- The reader has left its loop, or its next test finds `'0'`, or a message with `'0'` is queued
that it can take. -/
def Reader.Closing (q? : Option Queue) (r : Reader) : Prop :=
  r.loc = .left ∨ r.TestsZero q? ∨ ∃ q ∈ q?, Opens q

instance (q? : Option Queue) (r : Reader) : Decidable (r.TestsZero q?) :=
  inferInstanceAs (Decidable (_ ∧ _ ∧ (_ → _)))

instance (q? : Option Queue) (r : Reader) : Decidable (r.Closing q?) :=
  inferInstanceAs (Decidable (_ ∨ _ ∨ _))

/-- **The admitted steps.** An `fgets` of the writer that returns a line after `close_ipc` has run
returns a harmless one. A `SIGINT` that arrives before the reader is inside `msgrcv` finds the queue
removed, or the text safe from the next message, or a message with `'0'` that the reader can take,
or it finds that the reader has received a message before and can take all that are queued, so that
the handler's message comes after them. After `close_ipc` has run in the reader, what the others
receive is not the `'0'` that it depends on, and they do not remove the queue before the `'0'` is in
its text. -/
def Admitted (typed : ℕ → Option (InputLine bufferSize)) (s : Duo.State Box Writer Reader) :
    Duo.Label Event Event Traffic → Prop
  | .left .run =>
    s.left.loc = .inside → s.left.closed = true → Harmless (typed s.left.entered)
  | .right .sigint => s.right.loc = .call →
      ∀ q ∈ s.shared.queue, KeepsText q ∨ Opens q ∨ (s.right.msg.type = 1 ∧ Fits q)
  | .env (.receive i) => s.right.closed = true →
      ∀ q ∈ s.shared.queue, s.right.Closing (some (q.eraseIdx i))
  | .env .remove => s.right.closed = true → s.right.loc = .left ∨ s.right.msg.text.StartsZero
  | .left .sigint | .right .run | .env (.send _) => True

instance (typed : ℕ → Option (InputLine bufferSize)) (s : Duo.State Box Writer Reader) :
    (x : Duo.Label Event Event Traffic) → Decidable (Admitted typed s x)
  | .left .run => inferInstanceAs (Decidable (_ → _ → Harmless _))
  | .right .sigint => inferInstanceAs (Decidable (_ → ∀ q ∈ _, _ ∨ _ ∨ _))
  | .env (.receive _) => inferInstanceAs (Decidable (_ → ∀ q ∈ _, Reader.Closing _ _))
  | .env .remove => inferInstanceAs (Decidable (_ → _ ∨ _))
  | .left .sigint | .right .run | .env (.send _) => isTrue trivial

/-- How many steps of its own the writer has left at most after the handler. -/
def Writer.rank (w : Writer) : ℕ :=
  match w.loc with
  | .start => 6
  | .enter => 5
  | .inside => 4
  | .cut => 3
  | .send => 2
  | .test => 1
  | .left => 0

lemma Writer.rank_le (w : Writer) : w.rank ≤ 6 := by
  unfold Writer.rank
  split <;> omega

/-- `fgets` leaves a `'0'` at the start when the line is harmless. -/
lemma startsZero_fgets_iff {text : CharArray bufferSize} (h : text.StartsZero)
    (line : Option (InputLine bufferSize)) : (fgets text line).StartsZero ↔ Harmless line := by
  cases line with
  | none => exact iff_of_true h fun l hl => by cases hl
  | some l => simp [startsZero_fgets, Harmless]

/-- What is sent from a text with `'0'` begins with it. -/
lemma msgsnd_of_startsZero {msg : MessageBuffer} (h : msg.text.StartsZero) (q : Queue) :
    msgsnd q msg structSize = q ∨
      ∃ m : Message, m.StartsZero ∧ msgsnd q msg structSize = q ++ [m] := by
  unfold msgsnd
  split_ifs
  · exact .inr ⟨_, (msg.startsZero_message (by decide)).mpr h, rfl⟩
  · exact .inl rfl

section Steps

variable {typed : ℕ → Option (InputLine bufferSize)} {q q' : Queue} {w w' : Writer} {r r' : Reader}
  {b b' : Box} {q? q?' : Option Queue}

/-- **A step of the writer after the handler**: the `'0'` stays at the start of its text, unless
`fgets` returns a line that is not harmless. -/
lemma WriterMove.startsZero_iff (hm : WriterMove .c typed q w w.loc q' w')
    (hzero : w.msg.text.StartsZero) :
    w'.msg.text.StartsZero ↔ (w.loc = .inside → Harmless (typed w.entered)) := by
  generalize w.loc = l at hm
  cases hm with
  | inside =>
    rw [MessageBuffer.text_setText]
    exact (startsZero_fgets_iff hzero _).trans ⟨fun h _ => h, fun h => h rfl⟩
  | cut =>
    rw [MessageBuffer.text_setText]
    exact iff_of_true ((startsZero_strtokNewline _).mpr hzero) (by simp)
  | start | enter | send | testZero | testOther => exact iff_of_true hzero (by simp)

/-- It brings the writer closer to the end, and what it sends begins with `'0'`. -/
lemma WriterMove.rank_lt (hm : WriterMove .c typed q w w.loc q' w')
    (hzero : w.msg.text.StartsZero) :
    w'.rank + 1 ≤ w.rank ∧ (q' = q ∨ ∃ m : Message, m.StartsZero ∧ q' = q ++ [m]) := by
  unfold Writer.rank
  generalize w.loc = l at hm
  cases hm with
  | send => exact ⟨le_rfl, msgsnd_of_startsZero hzero q⟩
  | testOther hno => exact absurd hzero hno
  | start | enter | inside | cut | testZero => exact ⟨le_rfl, .inl rfl⟩

/-- A step of the writer at any time. -/
lemma WriterMove.msg_type {l : Writer.Loc} (hm : WriterMove .c typed q w l q' w') :
    w'.closed = w.closed ∧ ((l ≠ .start → w.msg.type = 1) → w'.msg.type = 1) := by
  cases hm with
  | start => exact ⟨rfl, fun _ => rfl⟩
  | enter | inside | cut | send | testZero | testOther => exact ⟨rfl, fun h => h (by decide)⟩

/-- The handler of the writer. -/
lemma Writer.interrupt_spec (q : Queue) (w : Writer) :
    (w.interrupt q).2.msg.text.StartsZero ∧ (w.interrupt q).2.rank ≤ w.rank ∧
      (w.interrupt q).2.closed = true ∧
      ((w.loc ≠ .start → w.msg.type = 1) →
        (w.interrupt q).2.loc ≠ .start → (w.interrupt q).2.msg.type = 1) := by
  refine ⟨w.msg.startsZero_zeroFirst, ?_, rfl, fun h hl => ?_⟩
  · by_cases hin : w.loc = .inside
    · simp [interrupt, Writer.rank, hin]
    · simp [interrupt, Writer.rank, hin]
  · refine h fun hstart => hl ?_
    simp [interrupt, hstart]

/-! ### What a handler sends -/

/-- A handler only adds to the queue. -/
lemma Box.grows_atKey {α : Type*} (msg : MessageBuffer) {handler : Queue → Queue × α}
    (h : ∀ q, (handler q).1 = (closeIpc q msg).1) (b : Box) :
    Grows b.queue (b.atKey handler).1.queue := by
  obtain ⟨queue, renewed⟩ := b
  cases queue with
  | none => exact .inl ⟨rfl, rfl⟩
  | some q =>
    obtain ⟨ms, hms⟩ := exists_msgsnd q msg.zeroFirst structSize
    exact .inr ⟨q, ms, rfl, congrArg some ((h q).trans hms)⟩

/-- A message with `'0'` gives a text with `'0'`. -/
lemma startsZero_receive_of_startsZero (msg : MessageBuffer) {m : Message} (h : m.StartsZero) :
    (msg.receive m).text.StartsZero := by
  have hne : m.payload ≠ [] := by
    intro hnil
    rw [Message.StartsZero, hnil] at h
    cases h
  exact (msg.startsZero_receive hne).mpr h

/-- Another message that fits gives one exactly when it has no text and one was there. -/
lemma startsZero_receive_of_not (msg : MessageBuffer) {m : Message} (h : ¬ m.StartsZero) :
    (msg.receive m).text.StartsZero ↔ msg.text.StartsZero ∧ m.payload = [] := by
  by_cases hnil : m.payload = []
  · simp [CharArray.StartsZero, MessageBuffer.text, MessageBuffer.receive, hnil]
  · rw [msg.startsZero_receive hnil]
    simp [h, hnil]

/-- **A step of the reader keeps its prospects**: they get neither better nor worse. -/
lemma Reader.closing_run (h : r.runOn .c q? = some (q?', r')) :
    r'.closed = r.closed ∧ (r'.Closing q?' ↔ r.Closing q?) := by
  unfold Reader.Closing Reader.TestsZero
  rcases Reader.runOn_cases h with ⟨q, q', rfl, rfl, hm⟩ | ⟨rfl, rfl, hm⟩
  · generalize r.loc = l at hm
    cases hm with
    | receive m hfind hle =>
      refine ⟨rfl, ?_⟩
      have hle' : m.payload.length ≤ structSize := hle
      by_cases hz : m.StartsZero
      · have htext := startsZero_receive_of_startsZero r.msg hz
        simp [htext, opens_of_find hfind hle' hz]
      · simp [startsZero_receive_of_not r.msg hz, keepsText_iff hfind, Nat.not_lt.mpr hle',
          (opens_eraseP hfind hle' hz).1]
    | tooLong m hfind hlt =>
      have hlt' : structSize < m.payload.length := hlt
      simp [keepsText_iff hfind, hlt', not_opens_of_find hfind hlt']
    | testZero hz => simp [hz]
    | testOther hno => simp [hno]
    | call | display => simp
  · generalize r.loc = l at hm
    cases hm with
    | testZero hz => simp [hz]
    | testOther hno => simp [hno]
    | call | fails | display => simp

/-- How many statements the reader has left when its next test finds `'0'`. -/
def Reader.Loc.last : Reader.Loc → ℕ
  | .call => 4
  | .inside => 3
  | .display => 2
  | .test => 1
  | .left => 0

/-- How many it has at most in its current turn and in the last one otherwise. -/
def Reader.Loc.more : Reader.Loc → ℕ
  | .call => 4
  | .inside => 3
  | .display => 6
  | .test => 5
  | .left => 0

lemma Reader.Loc.last_le_more (l : Reader.Loc) : l.last ≤ l.more := by
  cases l <;> decide

/-- How many steps of its own the reader has left at most after the handler. -/
def Reader.rank (q? : Option Queue) (r : Reader) : ℕ :=
  if r.loc = .left then 0
  else if r.TestsZero q? then r.loc.last
  else 4 * (q?.map ahead).getD 0 + r.loc.more

/-- The rank is never above that of a reader that waits for its `'0'`. -/
lemma Reader.rank_le (q? : Option Queue) (r : Reader) :
    r.rank q? ≤ 4 * (q?.map ahead).getD 0 + r.loc.more := by
  have hle := r.loc.last_le_more
  unfold rank
  split_ifs <;> omega

/-- The rank when the next test finds `'0'`. -/
lemma Reader.rank_of_testsZero (h : r.loc = .left ∨ r.TestsZero q?) :
    r.rank q? = r.loc.last := by
  unfold rank
  rcases h with hl | ht
  · rw [if_pos hl, hl]
    rfl
  · rw [if_neg ht.2.1, if_pos ht]

/-- The rank otherwise. -/
lemma Reader.rank_of_not_testsZero (hl : r.loc ≠ .left) (ht : ¬ r.TestsZero q?) :
    r.rank q? = 4 * (q?.map ahead).getD 0 + r.loc.more := by
  rw [rank, if_neg hl, if_neg ht]

/-- A reader whose next test finds `'0'` goes straight to it. -/
lemma Reader.TestsZero.run (h : r.TestsZero q?) (hs : r.runOn .c q? = some (q?', r')) :
    (r'.loc = .left ∨ r'.TestsZero q?') ∧ r'.loc.last + 1 = r.loc.last := by
  obtain ⟨hz, -, hkeep⟩ := h
  rcases Reader.runOn_cases hs with ⟨q, q', rfl, rfl, hm⟩ | ⟨rfl, rfl, hm⟩
  · generalize hloc : r.loc = l at hm
    cases hm with
    | call => exact ⟨.inr ⟨hz, by simp, fun _ => hkeep (.inl hloc)⟩, rfl⟩
    | receive m hfind hle =>
      have hnil : m.payload = [] :=
        ((keepsText_iff hfind).mp (hkeep (.inr hloc) q rfl)).resolve_left (Nat.not_lt.mpr hle)
      have hno : ¬ m.StartsZero := by simp [Message.StartsZero, hnil]
      have htext := (startsZero_receive_of_not r.msg hno).mpr ⟨hz, hnil⟩
      exact ⟨.inr ⟨htext, by simp, by simp⟩, rfl⟩
    | tooLong | display => exact ⟨.inr ⟨hz, by simp, by simp⟩, rfl⟩
    | testZero => exact ⟨.inl rfl, rfl⟩
    | testOther hno => exact absurd hz hno
  · generalize r.loc = l at hm
    cases hm with
    | call | fails | display => exact ⟨.inr ⟨hz, by simp, by simp⟩, rfl⟩
    | testZero => exact ⟨.inl rfl, rfl⟩
    | testOther hno => exact absurd hz hno

/-- What others add to the queue does not matter. -/
lemma Reader.Closing.grows (h : r.Closing q?) (hg : Grows q? q?') :
    r.Closing q?' ∧ r.rank q?' ≤ r.rank q? := by
  rcases hg with ⟨rfl, rfl⟩ | ⟨q, ms, rfl, rfl⟩
  · exact ⟨h, le_rfl⟩
  have htests : r.TestsZero (some q) → r.TestsZero (some (q ++ ms)) := by
    rintro ⟨hz, hl, hkeep⟩
    refine ⟨hz, hl, fun hloc q' hq' => ?_⟩
    obtain rfl := Option.mem_some_iff.mp hq'
    exact (hkeep hloc q rfl).append ms
  by_cases ht : r.TestsZero (some q)
  · refine ⟨.inr (.inl (htests ht)), ?_⟩
    rw [rank_of_testsZero (.inr ht), rank_of_testsZero (.inr (htests ht))]
  · rcases h with hl | ht' | ⟨q', hq', ho⟩
    · exact ⟨.inl hl, by simp [rank, hl]⟩
    · exact absurd ht' ht
    · obtain rfl := Option.mem_some_iff.mp hq'
      refine ⟨.inr (.inr ⟨_, rfl, ho.append ms⟩), ?_⟩
      by_cases hl : r.loc = .left
      · rw [rank_of_testsZero (.inl hl), rank_of_testsZero (.inl hl)]
      · have hle := r.rank_le (some (q ++ ms))
        rw [rank_of_not_testsZero hl ht]
        simpa only [Option.map_some, Option.getD_some, ahead_append ho] using hle

/-- What the handler's message does for a reader whose text begins with `'0'`. -/
lemma closing_msgsnd_iff (msg : MessageBuffer) (q : Queue) :
    (KeepsText (msgsnd q msg.zeroFirst structSize) ∨ Opens (msgsnd q msg.zeroFirst structSize)) ↔
      KeepsText q ∨ Opens q ∨ (msg.type = 1 ∧ Fits q) := by
  have hzero : (msg.zeroFirst.message structSize).StartsZero :=
    (msg.zeroFirst.startsZero_message (by decide)).mpr msg.startsZero_zeroFirst
  have hlen : (msg.zeroFirst.message structSize).payload.length = structSize := by
    simp [MessageBuffer.message]
  unfold msgsnd
  by_cases htype : msg.type = 1
  · have hw : (msg.zeroFirst.message structSize).isWanted := by
      simp [Message.isWanted, MessageBuffer.message, htype]
    rw [if_pos (by simp [htype]), keepsText_append_iff hzero hlen.le,
      opens_append_iff hzero hw hlen.le]
    simp [htype]
  · have hw : ¬ (msg.zeroFirst.message structSize).isWanted := by
      simp [Message.isWanted, MessageBuffer.message, htype]
    split_ifs
    · simp [KeepsText, Opens, reachable, filter_append_of_not_wanted hw, htype]
    · simp [htype]

/-- The handler of the reader is followed by a test that finds `'0'`, unless `msgrcv` comes first. -/
lemma Reader.testsZero_interrupt (hl : r.loc ≠ .left) (hcall : r.loc ≠ .call) (q : Queue) :
    (r.interrupt q).2.TestsZero q? := by
  refine ⟨r.msg.startsZero_zeroFirst, ?_, fun hc => ?_⟩
  · simp only [interrupt]
    split_ifs <;> simp [hl]
  · simp only [interrupt] at hc
    split_ifs at hc with hin
    · simp at hc
    · exact absurd hc (not_or.mpr ⟨hcall, hin⟩)

/-- The handler of the reader at `msgrcv` improves its prospects when it finds one of these. -/
lemma Reader.closing_interrupt_iff (hl : r.loc ≠ .left) (q : Queue) :
    (r.interrupt q).2.Closing (some (r.interrupt q).1) ↔
      (r.loc = .call → KeepsText q ∨ Opens q ∨ (r.msg.type = 1 ∧ Fits q)) := by
  have hzero : (r.interrupt q).2.msg.text.StartsZero := r.msg.startsZero_zeroFirst
  by_cases hloc : r.loc = .call
  · have hcall : (r.interrupt q).2.loc = .call := by simp [interrupt, hloc]
    have hsent : (r.interrupt q).1 = MessageQueue.msgsnd q r.msg.zeroFirst structSize := rfl
    simp only [Closing, TestsZero, hzero, hcall, hsent, hloc, reduceCtorEq, false_or, ne_eq,
      not_false_eq_true, true_or, true_and, forall_const, Option.mem_some_iff, exists_eq_left',
      forall_eq']
    exact closing_msgsnd_iff r.msg q
  · exact iff_of_true (.inr (.inl (testsZero_interrupt hl hloc q))) fun hc => absurd hc hloc

/-- The handler of a reader whose queue has been removed. -/
lemma Reader.testsZero_interrupt_none (hl : r.loc ≠ .left) (q : Queue) :
    (r.interrupt q).2.TestsZero none := by
  refine ⟨r.msg.startsZero_zeroFirst, ?_, by simp⟩
  simp only [interrupt]
  split_ifs <;> simp [hl]

/-- A step of the writer only adds to the queue. -/
lemma grows_left {e : Event} (h : (cPrograms typed).left e b w = some (b', w')) :
    Grows b.queue b'.queue := by
  rcases cPrograms_left h with ⟨-, q?, hrun, rfl⟩ | ⟨-, -, heq⟩
  · exact Writer.grows_of_runOn hrun
  · have hsame : ∀ q, (w.interrupt q).1 = (closeIpc q w.msg).1 := fun _ => rfl
    have hgrows := b.grows_atKey w.msg hsame
    rwa [← heq] at hgrows

/-- The handler runs with some queue. -/
lemma Box.exists_atKey {α : Type*} (handler : Queue → Queue × α) (b : Box) :
    ∃ q, (b.atKey handler).2 = (handler q).2 := by
  obtain ⟨queue, renewed⟩ := b
  cases queue with
  | none => exact ⟨renewed, rfl⟩
  | some q => exact ⟨q, rfl⟩

/-- The handler of the reader, when there is a queue and when there is none. -/
lemma interrupt_right (h : (b', r') = b.atKey fun q => r.interrupt q) :
    (∃ q, b.queue = some q ∧ b'.queue = some (r.interrupt q).1 ∧ r' = (r.interrupt q).2) ∨
      (b.queue = none ∧ b'.queue = none ∧ r' = (r.interrupt b.renewed).2) := by
  obtain ⟨queue, renewed⟩ := b
  cases queue with
  | none =>
    obtain ⟨rfl, rfl⟩ := Prod.mk.inj h
    exact .inr ⟨rfl, rfl, rfl⟩
  | some q =>
    obtain ⟨rfl, rfl⟩ := Prod.mk.inj h
    exact .inl ⟨q, rfl, rfl, rfl⟩

end Steps

/-! ### The admitted runs -/

/-- **The invariant of the admitted runs.** -/
structure CtrlC (b : Box) (w : Writer) (r : Reader) : Prop where
  type : w.loc ≠ .start → w.msg.type = 1
  writer : w.closed = true → w.msg.text.StartsZero
  reader : r.closed = true → r.Closing b.queue

section Runs

variable {typed : ℕ → Option (InputLine bufferSize)} {b b' : Box} {w w' : Writer} {r r' : Reader}
  {s s' : Duo.State Box Writer Reader}

/-- A step of the writer keeps the invariant iff it is admitted. -/
lemma CtrlC.left_iff {e : Event} (h : CtrlC b w r)
    (hs : (cPrograms typed).left e b w = some (b', w')) :
    CtrlC b' w' r ↔ Admitted typed ⟨b, w, r⟩ (.left e) := by
  have hreader : r.closed = true → r.Closing b'.queue := fun hc =>
    ((h.reader hc).grows (grows_left hs)).1
  rcases cPrograms_left hs with ⟨rfl, q?, hrun, rfl⟩ | ⟨rfl, -, heq⟩
  · obtain ⟨q, q', hm, -⟩ := Writer.runOn_cases hrun
    obtain ⟨hclosed, htype⟩ := hm.msg_type
    constructor
    · intro h' hin hc
      exact (hm.startsZero_iff (h.writer hc)).mp (h'.writer (hclosed ▸ hc)) hin
    · intro hok
      refine ⟨fun _ => htype h.type, fun hc => ?_, hreader⟩
      have hc : w.closed = true := hclosed ▸ hc
      exact (hm.startsZero_iff (h.writer hc)).mpr fun hin => hok hin hc
  · obtain ⟨q, hq⟩ := b.exists_atKey fun q => w.interrupt q
    obtain rfl : w' = (w.interrupt q).2 := by rw [← hq, ← heq]
    obtain ⟨hzero, -, -, htype⟩ := w.interrupt_spec q
    exact iff_of_true ⟨htype h.type, fun _ => hzero, hreader⟩ trivial

/-- A step of the reader does. -/
lemma CtrlC.right_iff {e : Event} (h : CtrlC b w r)
    (hs : (cPrograms typed).right e b r = some (b', r')) :
    CtrlC b' w r' ↔ Admitted typed ⟨b, w, r⟩ (.right e) := by
  rcases cPrograms_right hs with ⟨rfl, q?, hrun, rfl⟩ | ⟨rfl, hl, heq⟩
  · obtain ⟨hclosed, hiff⟩ := Reader.closing_run hrun
    exact iff_of_true ⟨h.type, h.writer, fun hc => hiff.mpr (h.reader (hclosed ▸ hc))⟩ trivial
  · have hiff : r'.Closing b'.queue ↔ Admitted typed ⟨b, w, r⟩ (.right .sigint) := by
      unfold Admitted
      rcases interrupt_right heq with ⟨q, hq, hq', rfl⟩ | ⟨hq, hq', rfl⟩
      · rw [hq', Reader.closing_interrupt_iff hl]
        simp [hq]
      · rw [hq']
        exact iff_of_true (.inr (.inl (Reader.testsZero_interrupt_none hl _))) (by simp [hq])
    have hclosed : r'.closed = true := by
      rcases interrupt_right heq with ⟨q, -, -, rfl⟩ | ⟨-, -, rfl⟩ <;> rfl
    exact ⟨fun h' => hiff.mp (h'.reader hclosed),
      fun hok => ⟨h.type, h.writer, fun _ => hiff.mpr hok⟩⟩

/-- So does a step of the others. -/
lemma CtrlC.traffic_iff {t : Traffic} (h : CtrlC b w r) (hs : b.traffic t = some b') :
    CtrlC b' w r ↔ Admitted typed ⟨b, w, r⟩ (.env t) := by
  have hiff : CtrlC b' w r ↔ (r.closed = true → r.Closing b'.queue) :=
    ⟨fun h' => h'.reader, fun h' => ⟨h.type, h.writer, h'⟩⟩
  rw [hiff]
  rcases traffic_cases hs with ⟨m, q, rfl, hq, hq'⟩ | ⟨i, q, rfl, hq, hq'⟩ | ⟨rfl, -, hq'⟩
  · refine iff_of_true (fun hc => ((h.reader hc).grows ?_).1) trivial
    exact .inr ⟨q, [m], hq, hq'⟩
  · simp [Admitted, hq, hq']
  · simp only [Admitted, Reader.Closing, Reader.TestsZero, hq']
    refine imp_congr_right fun _ => ?_
    by_cases hl : r.loc = .left <;> simp [hl]

/-- **The steps that keep the invariant are the admitted ones.** -/
lemma CtrlC.step_iff {x : Duo.Label Event Event Traffic} (h : CtrlC s.shared s.left s.right)
    (hs : (cPrograms typed).machine.step s x = some s') :
    CtrlC s'.shared s'.left s'.right ↔ Admitted typed s x := by
  rcases Duo.step_cases hs with ⟨e, b', w', rfl, hw, rfl⟩ | ⟨e, b', r', rfl, hr, rfl⟩ |
    ⟨t, b', rfl, ht, rfl⟩
  · exact h.left_iff hw
  · exact h.right_iff hr
  · exact h.traffic_iff ht

end Runs

/-- A signal that finds the reader before its first `msgrcv` queues nothing, and leaves it blocked
there as long as nobody sends it a message. -/
theorem Reader.blocks_of_interrupt {q : Queue} {r : Reader} (hl : r.loc = .call)
    (htype : r.msg.type ≤ 0) (hq : ∀ m ∈ q, ¬ m.isWanted) :
    (interrupt q r).1 = q ∧
      ∃ r', run .c q (interrupt q r).2 = some (q, r') ∧ run .c q r' = none := by
  have hnot : ¬ 0 < r.msg.zeroFirst.type := by
    rw [MessageBuffer.type_zeroFirst]
    omega
  have hfind : q.find? Message.isWanted = none := List.find?_eq_none.mpr hq
  refine ⟨if_neg hnot, { (interrupt q r).2 with loc := .inside }, ?_, ?_⟩
  · simp [run, interrupt, hl]
  · simp [run, msgrcv, hfind]

end MessageQueue

end PosixIntro
