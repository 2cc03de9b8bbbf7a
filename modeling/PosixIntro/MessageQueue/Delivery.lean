import PosixIntro.MessageQueue.Model

set_option relaxedAutoImplicit false
set_option autoImplicit false

/-!
# Which message-queue programs deliver every text

The C programs pass the size of the whole structure to calls that count only the text. So the C
writer copies bytes from outside the structure into every message, and the C++ reader refuses such a
message. The C++ writer sends messages that both readers take.

## Main definitions

* `Script` — what is typed, up to the first line that begins with `'0'`.
* `Delivers` — the programs deliver a script intact.
* `Delivering` — the invariant of the runs with the C++ writer.

## Main results

* `delivers_cpp` — the C++ writer delivers to both readers.
* `delivers_iff` — and the C writer to none.
-/

namespace PosixIntro

namespace MessageQueue

/-- The lines that are typed; the line number `stop` is the first one that begins with `'0'`. -/
structure Script where
  line : ℕ → InputLine bufferSize
  stop : ℕ
  zero : (line stop).StartsZero
  before : ∀ i < stop, ¬ (line i).StartsZero

namespace Script

variable (script : Script)

/-- The text number `i`. -/
def text (i : ℕ) : List UInt8 := (script.line i).text

/-- The first `n` texts. -/
def texts (n : ℕ) : List (List UInt8) := (List.range n).map script.text

/-- All texts up to the terminator. -/
def all : List (List UInt8) := script.texts (script.stop + 1)

/-- A writer and a reader, when the script is typed. -/
def programs (writer reader : Lang) : Duo Queue Writer Reader Event Event Message :=
  MessageQueue.programs writer reader fun i => some (script.line i)

end Script

/-- Steps of the two programs, without signals and without messages of others. -/
def Quiet (_ : Duo.State Queue Writer Reader) : Duo.Label Event Event Message → Prop
  | .left e => e = .run
  | .right e => e = .run
  | .env _ => False

/-- **The script is delivered.** -/
structure Delivers (writer reader : Lang) (script : Script) : Prop where
  /-- No copy leaves the structure. -/
  in_struct : ∀ s, (script.programs writer reader).machine.ReachIf Quiet s →
    ∀ n ∈ s.left.copied ++ s.right.copied, textOffset + n ≤ structSize
  /-- The writer sends the texts in order. -/
  sent : ∀ s, (script.programs writer reader).machine.ReachIf Quiet s → s.left.sent <+: script.all
  /-- The reader displays what was sent, in order. -/
  displayed : ∀ s, (script.programs writer reader).machine.ReachIf Quiet s →
    s.right.displayed <+: s.left.sent
  /-- It leaves its loop when it has displayed all texts. -/
  leaves : ∀ s, (script.programs writer reader).machine.ReachIf Quiet s →
    s.right.loc = .left → s.right.displayed = script.all
  /-- Until both have left, one of them can go on. -/
  progress : ∀ s, (script.programs writer reader).machine.ReachIf Quiet s →
    ¬ (s.left.loc = .left ∧ s.right.loc = .left) →
      ∃ x s', Quiet s x ∧ (script.programs writer reader).machine.step s x = some s'
  /-- Every run is finite. -/
  ends : ∃ B, ∀ tr s, (script.programs writer reader).machine.Path tr s →
    (∀ x ∈ tr, Quiet x.1 x.2) → tr.length ≤ B

/-! ### Texts -/

/-- The text of a message. -/
def Message.text (m : Message) : List UInt8 := m.payload.takeWhile (· ≠ 0)

/-- The text of a message that is sent is that of the buffer. -/
lemma text_message (msg : MessageBuffer) : (msg.message bufferSize).text = msg.text.text := rfl

/-- The text of a message of the C++ writer is what the reader gets. -/
lemma text_receive {msg : MessageBuffer} {m : Message} (h : m.payload.length = bufferSize) :
    (msg.receive m).text.text = m.text := by
  have hpayload : List.ofFn (msg.receive m).text = m.payload := by
    refine List.ext_getElem (by simp [h]) fun i hi hi' => ?_
    rw [List.getElem_ofFn]
    exact (List.getElem_eq_getD _).symm
  rw [CharArray.text, hpayload, Message.text]

namespace Script

variable (script : Script)

@[simp] lemma texts_succ (n : ℕ) : script.texts (n + 1) = script.texts n ++ [script.text n] := by
  simp [texts, List.range_succ]

@[simp] lemma length_texts (n : ℕ) : (script.texts n).length = n := by simp [texts]

/-- The first texts are a prefix. -/
lemma texts_isPrefix {n k : ℕ} (h : n ≤ k) : script.texts n <+: script.texts k := by
  induction h with
  | refl => exact List.prefix_rfl
  | step _ ih =>
    rw [texts_succ]
    exact ih.trans (List.prefix_append _ _)

/-- What follows the first texts is the next text. -/
lemma eq_of_texts {displayed rest : List (List UInt8)} {t : List UInt8} {n : ℕ}
    (h : displayed ++ t :: rest = script.texts n) :
    t = script.text displayed.length ∧ displayed.length < n := by
  have hlen := congrArg List.length h
  simp only [List.length_append, List.length_cons, length_texts] at hlen
  have hlt : displayed.length < n := by omega
  have hget := congrArg (·[displayed.length]?) h
  simp only [List.getElem?_append_right (Nat.le_refl _), Nat.sub_self,
    List.getElem?_cons_zero] at hget
  refine ⟨?_, hlt⟩
  simpa [texts, hlt] using hget

/-- Up to the terminator, only the terminator begins with `'0'`. -/
lemma startsZero_iff {i : ℕ} (h : i ≤ script.stop) {buf : CharArray bufferSize}
    (hbuf : buf.text = script.text i) : buf.StartsZero ↔ i = script.stop := by
  rw [CharArray.startsZero_iff_text, hbuf, text, ← InputLine.startsZero_iff_text]
  constructor
  · intro hz
    by_contra hne
    exact script.before i (by omega) hz
  · rintro rfl
    exact script.zero

end Script

/-! ### The runs with the C++ writer -/

/-- What holds of the writer at each statement. -/
def WriterOk (script : Script) (w : Writer) : Prop :=
  match w.loc with
  | .start => w.entered = w.sent.length ∧ w.sent.length ≤ script.stop
  | .enter | .inside =>
    w.entered = w.sent.length ∧ w.sent.length ≤ script.stop ∧ w.msg.type = 1
  | .cut => False
  | .send =>
    w.entered = w.sent.length + 1 ∧ w.sent.length ≤ script.stop ∧ w.msg.type = 1 ∧
      w.msg.text.text = script.text w.sent.length
  | .test =>
    w.entered = w.sent.length ∧ w.msg.type = 1 ∧
      ∃ i ≤ script.stop, w.sent.length = i + 1 ∧ w.msg.text.text = script.text i
  | .left => w.sent.length = script.stop + 1

/-- What holds of the reader at each statement. -/
def ReaderOk (script : Script) (r : Reader) : Prop :=
  match r.loc with
  | .call | .inside | .display => r.displayed.length ≤ script.stop
  | .test => ∃ i ≤ script.stop, r.displayed.length = i + 1 ∧ r.msg.text.text = script.text i
  | .left => r.displayed.length = script.stop + 1

/-- The text that the reader has received and not displayed yet. -/
def pending (r : Reader) : List (List UInt8) :=
  if r.loc = .display then [r.msg.text.text] else []

/-- **The invariant of the runs with the C++ writer.** -/
structure Delivering (script : Script) (q : Queue) (w : Writer) (r : Reader) : Prop where
  sent : w.sent = script.texts w.sent.length
  account : r.displayed ++ (pending r ++ q.map Message.text) = w.sent
  wellFormed : ∀ m ∈ q, m.type = 1 ∧ m.payload.length = bufferSize
  writer : WriterOk script w
  reader : ReaderOk script r
  writer_copied : ∀ n ∈ w.copied, n = bufferSize
  reader_copied : ∀ n ∈ r.copied, n = bufferSize

section Steps

variable {reader : Lang} {script : Script} {q q' : Queue} {w w' : Writer} {r r' : Reader}

/-- **A step of the writer.** -/
lemma Delivering.writer_step (h : Delivering script q w r)
    (hm : WriterMove .cpp (fun i => some (script.line i)) q w w.loc q' w') :
    Delivering script q' w' r := by
  obtain ⟨hsent, haccount, hwell, hwriter, hreader, hwc, hrc⟩ := h
  unfold WriterOk at hwriter
  generalize w.loc = l at hm hwriter
  cases hm with
  | start => exact ⟨hsent, haccount, hwell, ⟨hwriter.1, hwriter.2, rfl⟩, hreader, hwc, hrc⟩
  | enter => exact ⟨hsent, haccount, hwell, hwriter, hreader, hwc, hrc⟩
  | inside =>
    obtain ⟨hentered, hle, htype⟩ := hwriter
    refine ⟨hsent, haccount, hwell, ⟨by simp [hentered], hle, htype, ?_⟩, hreader, hwc, hrc⟩
    simp [entry, text_getline, Script.text, hentered]
  | cut => exact hwriter.elim
  | send =>
    obtain ⟨hentered, hle, htype, htext⟩ := hwriter
    have hpos : 0 < w.msg.type := by omega
    refine ⟨?_, ?_, ?_, ?_, hreader, ?_, hrc⟩
    · simp only [List.length_append, List.length_singleton, Script.texts_succ]
      rw [← hsent, htext]
    · simp only [msgsnd, hpos, if_true, List.map_append, List.map_singleton]
      rw [← haccount]
      simp [size, text_message]
    · intro m hm
      simp only [msgsnd, hpos, if_true, List.mem_append, List.mem_singleton] at hm
      rcases hm with hm | rfl
      · exact hwell m hm
      · exact ⟨htype, by simp [MessageBuffer.message, size]⟩
    · exact ⟨by simp [hentered], htype, w.sent.length, hle, by simp, htext⟩
    · exact List.forall_mem_append.mpr ⟨hwc, List.forall_mem_singleton.mpr rfl⟩
  | testZero hz =>
    obtain ⟨-, -, i, hi, hlen, htext⟩ := hwriter
    obtain rfl := (script.startsZero_iff hi htext).mp hz
    exact ⟨hsent, haccount, hwell, hlen, hreader, hwc, hrc⟩
  | testOther hz =>
    obtain ⟨hentered, htype, i, hi, hlen, htext⟩ := hwriter
    have hne : i ≠ script.stop := fun h => hz ((script.startsZero_iff hi htext).mpr h)
    exact ⟨hsent, haccount, hwell, ⟨hentered, by simp only; omega, htype⟩, hreader, hwc, hrc⟩

/-- In a queue of messages that are asked for, the first one is found. -/
lemma eq_cons_of_find {m : Message} (hwell : ∀ m ∈ q, m.type = 1 ∧ m.payload.length = bufferSize)
    (hfind : q.find? Message.isWanted = some m) :
    ∃ rest, q = m :: rest ∧ q.eraseP Message.isWanted = rest := by
  cases q with
  | nil => cases hfind
  | cons m' q =>
    have hwanted : m'.isWanted = true := by simp [Message.isWanted, (hwell m' (by simp)).1]
    rw [List.find?_cons_of_pos hwanted, Option.some.injEq] at hfind
    exact ⟨q, by rw [hfind], List.eraseP_cons_of_pos hwanted⟩

/-- **A step of the reader.** -/
lemma Delivering.reader_step (h : Delivering script q w r)
    (hm : ReaderMove reader q r r.loc q' r') : Delivering script q' w r' := by
  obtain ⟨hsent, haccount, hwell, hwriter, hreader, hwc, hrc⟩ := h
  unfold ReaderOk at hreader
  unfold pending at haccount
  generalize r.loc = l at hm hreader haccount
  cases hm with
  | call => exact ⟨hsent, haccount, hwell, hwriter, hreader, hwc, hrc⟩
  | receive m hfind hle =>
    obtain ⟨rest, rfl, herase⟩ := eq_cons_of_find hwell hfind
    have hlen := (hwell m List.mem_cons_self).2
    refine ⟨hsent, ?_, fun m hm => hwell m (List.mem_of_mem_eraseP hm), hwriter, hreader, hwc, ?_⟩
    · rw [← haccount, herase]
      simp [pending, text_receive hlen]
    · exact List.forall_mem_append.mpr ⟨hrc, List.forall_mem_singleton.mpr hlen⟩
  | tooLong m hfind hlt =>
    have hlen := (hwell m (List.mem_of_find?_eq_some hfind)).2
    have hsize : bufferSize ≤ size reader := by cases reader <;> decide
    omega
  | display =>
    have haccount' : r.displayed ++ r.msg.text.text :: q.map Message.text =
        script.texts w.sent.length := by simpa [← hsent] using haccount
    obtain ⟨htext, -⟩ := script.eq_of_texts haccount'
    refine ⟨hsent, ?_, hwell, hwriter, ⟨r.displayed.length, hreader, by simp, htext⟩, hwc, hrc⟩
    simpa [pending] using haccount
  | testZero hz =>
    obtain ⟨i, hi, hlen, htext⟩ := hreader
    obtain rfl := (script.startsZero_iff hi htext).mp hz
    exact ⟨hsent, haccount, hwell, hwriter, hlen, hwc, hrc⟩
  | testOther hz =>
    obtain ⟨i, hi, hlen, htext⟩ := hreader
    have hne : i ≠ script.stop := fun h => hz ((script.startsZero_iff hi htext).mpr h)
    refine ⟨hsent, haccount, hwell, hwriter, ?_, hwc, hrc⟩
    change r.displayed.length ≤ script.stop
    omega

/-! ### The runs come to their end -/

/-- How many steps the writer has left at most. -/
def writerRank (script : Script) (w : Writer) : ℕ :=
  match w.loc with
  | .start => 4 * (script.stop - w.sent.length) + 5
  | .enter => 4 * (script.stop - w.sent.length) + 4
  | .inside => 4 * (script.stop - w.sent.length) + 3
  | .cut => 0
  | .send => 4 * (script.stop - w.sent.length) + 2
  | .test => 4 * (script.stop + 1 - w.sent.length) + 1
  | .left => 0

/-- How many steps the reader has left at most. -/
def readerRank (script : Script) (r : Reader) : ℕ :=
  match r.loc with
  | .call => 4 * (script.stop - r.displayed.length) + 4
  | .inside => 4 * (script.stop - r.displayed.length) + 3
  | .display => 4 * (script.stop - r.displayed.length) + 2
  | .test => 4 * (script.stop + 1 - r.displayed.length) + 1
  | .left => 0

/-- Every step of the writer lowers its rank. -/
lemma Delivering.writerRank_lt (h : Delivering script q w r)
    (hm : WriterMove .cpp (fun i => some (script.line i)) q w w.loc q' w') :
    writerRank script w' < writerRank script w := by
  have hwriter := h.writer
  unfold WriterOk at hwriter
  unfold writerRank
  generalize w.loc = l at hm hwriter
  cases hm with
  | start | enter => simp
  | inside => simp [entry]
  | cut => exact hwriter.elim
  | send =>
    obtain ⟨-, hle, -⟩ := hwriter
    simp only [List.length_append, List.length_singleton]
    omega
  | testZero => simp
  | testOther hz =>
    obtain ⟨-, -, i, hi, hlen, htext⟩ := hwriter
    have hne : i ≠ script.stop := fun h => hz ((script.startsZero_iff hi htext).mpr h)
    simp only
    omega

/-- Every step of the reader lowers its rank. -/
lemma Delivering.readerRank_lt (h : Delivering script q w r)
    (hm : ReaderMove reader q r r.loc q' r') : readerRank script r' < readerRank script r := by
  have hreader := h.reader
  unfold ReaderOk at hreader
  unfold readerRank
  generalize r.loc = l at hm hreader
  cases hm with
  | call | receive | tooLong => simp
  | display =>
    simp only [List.length_append, List.length_singleton] at hreader ⊢
    omega
  | testZero => simp
  | testOther hz =>
    obtain ⟨i, hi, hlen, htext⟩ := hreader
    have hne : i ≠ script.stop := fun h => hz ((script.startsZero_iff hi htext).mpr h)
    simp only
    omega

/-- The writer sends nothing but the script. -/
lemma Delivering.sent_isPrefix (h : Delivering script q w r) : w.sent <+: script.all := by
  have hle : w.sent.length ≤ script.stop + 1 := by
    have hwriter := h.writer
    unfold WriterOk at hwriter
    cases hl : w.loc with
    | test =>
      rw [hl] at hwriter
      obtain ⟨-, -, i, hi, hlen, -⟩ := hwriter
      omega
    | cut =>
      rw [hl] at hwriter
      exact hwriter.elim
    | start | enter | inside | send | left =>
      rw [hl] at hwriter
      simp only at hwriter
      omega
  rw [h.sent]
  exact script.texts_isPrefix hle

/-- As long as the reader waits for a text that was sent, there is a message for it. -/
lemma Delivering.exists_wanted (h : Delivering script q w r) (hl : r.loc = .inside)
    (hw : w.loc = .left) : ∃ m ∈ q, m.isWanted := by
  obtain ⟨-, haccount, hwell, hwriter, hreader, -, -⟩ := h
  simp only [WriterOk, hw] at hwriter
  simp only [ReaderOk, hl] at hreader
  have hlen := congrArg List.length haccount
  simp only [pending, hl, reduceCtorEq, if_false, List.nil_append, List.length_append,
    List.length_map] at hlen
  have hpos : 0 < q.length := by omega
  obtain ⟨m, hm⟩ := List.exists_mem_of_length_pos hpos
  exact ⟨m, hm, by simp [Message.isWanted, (hwell m hm).1]⟩

end Steps

section Runs

variable {reader : Lang} {script : Script} {s : Duo.State Queue Writer Reader}

/-- **Every state of a run with the C++ writer meets the invariant.** -/
theorem delivering (h : (script.programs .cpp reader).machine.ReachIf Quiet s) :
    Delivering script s.shared s.left s.right := by
  refine Duo.invariant (I := Delivering script) ?_ ?_ ?_ ?_ h
  · exact ⟨rfl, rfl, fun m hm => (List.not_mem_nil hm).elim, ⟨rfl, Nat.zero_le _⟩, Nat.zero_le _,
      fun n hn => (List.not_mem_nil hn).elim, fun n hn => (List.not_mem_nil hn).elim⟩
  · rintro q w r e q' w' - rfl hI hs
    exact hI.writer_step (writer_cases hs)
  · rintro q w r e q' r' - rfl hI hs
    exact hI.reader_step (reader_cases hs)
  · exact fun _ _ _ _ _ _ hok => hok.elim

/-- How many steps the two have left at most. -/
def totalRank (script : Script) (s : Duo.State Queue Writer Reader) : ℕ :=
  writerRank script s.left + readerRank script s.right

/-- Every step lowers the joint rank. -/
lemma totalRank_lt {x : Duo.Label Event Event Message} {s' : Duo.State Queue Writer Reader}
    (h : (script.programs .cpp reader).machine.ReachIf Quiet s) (hx : Quiet s x)
    (hs : (script.programs .cpp reader).machine.step s x = some s') :
    totalRank script s' < totalRank script s := by
  have hI := delivering h
  rcases Duo.step_cases hs with ⟨e, q, w, rfl, hw, rfl⟩ | ⟨e, q, r, rfl, hr, rfl⟩ | ⟨e, q, rfl, -⟩
  · obtain rfl : e = .run := hx
    exact Nat.add_lt_add_right (hI.writerRank_lt (writer_cases hw)) _
  · obtain rfl : e = .run := hx
    exact Nat.add_lt_add_left (hI.readerRank_lt (reader_cases hr)) _
  · exact hx.elim

/-- Until both have left, one of them can go on. -/
lemma exists_quiet_step (h : (script.programs .cpp reader).machine.ReachIf Quiet s)
    (hend : ¬ (s.left.loc = .left ∧ s.right.loc = .left)) :
    ∃ x s', Quiet s x ∧ (script.programs .cpp reader).machine.step s x = some s' := by
  by_cases hw : s.left.loc = .left
  · have hr : s.right.loc ≠ .left := fun hr => hend ⟨hw, hr⟩
    obtain ⟨q, r, hrun⟩ := Reader.exists_run reader hr fun hl =>
      (delivering h).exists_wanted hl hw
    exact ⟨.right .run, _, rfl, Duo.step_right hrun⟩
  · obtain ⟨q, w, hrun⟩ := Writer.exists_run .cpp (fun i => some (script.line i)) s.shared hw
    exact ⟨.left .run, _, rfl, Duo.step_left hrun⟩

/-- **The C++ writer delivers every script**, to the C and to the C++ reader. -/
theorem delivers_cpp (reader : Lang) (script : Script) : Delivers .cpp reader script where
  in_struct s hs n hn := by
    have hI := delivering hs
    have hsize : n = bufferSize := by
      rcases List.mem_append.mp hn with hn | hn
      · exact hI.writer_copied n hn
      · exact hI.reader_copied n hn
    rw [hsize]
    decide
  sent s hs := (delivering hs).sent_isPrefix
  displayed s hs := ⟨_, (delivering hs).account⟩
  leaves s hs hl := by
    have hI := delivering hs
    have hreader := hI.reader
    simp only [ReaderOk, hl] at hreader
    have hpre : s.right.displayed <+: script.all := .trans ⟨_, hI.account⟩ hI.sent_isPrefix
    exact hpre.eq_of_length (by rw [hreader, Script.all, Script.length_texts])
  progress s hs := exists_quiet_step hs
  ends := by
    refine ⟨totalRank script (script.programs .cpp reader).machine.init, fun tr s hp hok => ?_⟩
    have hle := hp.length_add_le (totalRank script) (fun _ _ _ => totalRank_lt) hok
    exact Nat.le_of_add_right_le hle

end Runs

/-! ### The C writer -/

/-- The writer's way to its first message. -/
def runFirst : List (Duo.Label Event Event Message) := List.replicate 5 (.left .run)

/-- The C writer copies bytes from outside the structure into its first message. -/
lemma not_delivers_c (reader : Lang) (script : Script) : ¬ Delivers .c reader script := by
  intro h
  have hexec : ∃ s, (script.programs .c reader).machine.exec
      (script.programs .c reader).machine.init runFirst = some s ∧ s.left.copied = [structSize] :=
    ⟨_, rfl, rfl⟩
  obtain ⟨s, hs, hcopied⟩ := hexec
  have hquiet : ∀ x ∈ runFirst, ∀ s, Quiet s x := by
    intro x hx _
    rw [List.eq_of_mem_replicate hx]
    rfl
  have hreach := Machine.ReachIf.exec .init _ hquiet hs
  have hle := h.in_struct s hreach structSize (by rw [hcopied]; exact List.mem_cons_self)
  exact absurd hle (by decide)

/-- **Texts are delivered by the C++ writer only.** For every pairing of a writer with a reader and
every script: no copy leaves the structure, the reader displays the texts that are sent in order,
leaves when it has displayed the terminator, and both programs come to their end, exactly when the
writer is the C++ one. -/
theorem delivers_iff (writer reader : Lang) (script : Script) :
    Delivers writer reader script ↔ writer = .cpp := by
  constructor
  · intro h
    cases writer with
    | c => exact absurd h (not_delivers_c reader script)
    | cpp => rfl
  · rintro rfl
    exact delivers_cpp reader script

/-- A `0` and nothing else. -/
def scriptZero : Script := ⟨fun _ => ⟨[48], by decide, by decide⟩, 0, by decide, by decide⟩

/-- The C writer sends `0` to the C++ reader. -/
theorem not_delivers_zero : ¬ ∀ writer reader script, Delivers writer reader script := by
  intro h
  exact not_delivers_c .cpp scriptZero (h .c .cpp scriptZero)

end MessageQueue

end PosixIntro
