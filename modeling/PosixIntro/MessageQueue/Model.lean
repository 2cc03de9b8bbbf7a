import Mathlib.Data.Int.Notation
import Mathlib.Logic.Function.Basic
import PosixIntro.Concurrency.Duo
import PosixIntro.Stdio

set_option relaxedAutoImplicit false
set_option autoImplicit false

/-!
# The message-queue programs (`write.c`, `read.c`, `type.h` and `mqueue.hh`)

A writer sends what is typed to a System V message queue, a reader displays what it receives.

## Main definitions

* `MessageBuffer`, `Message`, `msgsnd`, `msgrcv` — the structure of the programs, what is in the
  queue, and the two calls.
* `Writer`, `Writer.step`, `Reader`, `Reader.step` — the two loops, statement by statement, with
  `SIGINT`.
* `closeIpc` — the handler.
* `programs` — a writer, a reader and what others send to the queue.

## Main results

* `WriterMove`, `ReaderMove` — everything that a step can do.

## Design

On an LP64 layout `struct message_buffer` has 32 bytes, 8 for the type, 20 for the text and 4 of
padding. A buffer is given with the memory that follows, because a copy of `8 + msgsz` bytes may
leave the structure. `msgrcv` asks for messages of type 1, fails with `E2BIG` and leaves a message
queued that is longer than `msgsz`, and blocks when there is none. A `SIGINT` may arrive before
every statement and inside `fgets` and `msgrcv`, which then fail and leave the buffer alone; only
the C programs have a handler. The queue is never full, and the `msgctl` after the reader's loop
is left out.
-/

namespace PosixIntro

namespace MessageQueue

/-- `BUFFER_SIZE` and `buffer`. -/
abbrev bufferSize : ℕ := 20

instance : NeZero bufferSize := ⟨by decide⟩

/-- `sizeof(struct message_buffer)`. -/
def structSize : ℕ := 32

/-- `sizeof(long)`: the offset of the text. -/
def textOffset : ℕ := 8

/-- `struct message_buffer`, with the memory that follows the type. -/
structure MessageBuffer where
  type : ℤ
  memory : ℕ → UInt8

namespace MessageBuffer

/-- `msg.text`. -/
def text (msg : MessageBuffer) : CharArray bufferSize := fun i => msg.memory i

/-- A write to `msg.text`. -/
def setText (msg : MessageBuffer) (text : CharArray bufferSize) : MessageBuffer :=
  { msg with memory := fun j => if h : j < bufferSize then text ⟨j, h⟩ else msg.memory j }

/-- A structure that is zero, in memory that is zero. -/
def zero : MessageBuffer := ⟨0, fun _ => 0⟩

end MessageBuffer

/-- What the queue holds of a message. -/
structure Message where
  type : ℤ
  payload : List UInt8

namespace Message

/-- The text of a message begins with `'0'`. -/
def StartsZero (m : Message) : Prop := m.payload.head? = some charZero

instance (m : Message) : Decidable m.StartsZero :=
  inferInstanceAs (Decidable (_ = _))

/-- A message that the readers ask for. -/
def isWanted (m : Message) : Bool := m.type = 1

end Message

/-- The messages in the queue, the oldest first. -/
abbrev Queue := List Message

/-- The message that `msgsnd(id, &msg, n, 0)` sends: `n` bytes from the text on. -/
def MessageBuffer.message (msg : MessageBuffer) (n : ℕ) : Message :=
  ⟨msg.type, List.ofFn fun i : Fin n => msg.memory i⟩

/-- `msgsnd(id, &msg, n, 0)`; it fails with `EINVAL` when the type is not positive. -/
def msgsnd (q : Queue) (msg : MessageBuffer) (n : ℕ) : Queue :=
  if 0 < msg.type then q ++ [msg.message n] else q

/-- The message `m` is copied to `msg`. -/
def MessageBuffer.receive (msg : MessageBuffer) (m : Message) : MessageBuffer :=
  ⟨m.type, fun j => m.payload.getD j (msg.memory j)⟩

/-- `msgrcv(id, &msg, n, 1, 0)`: the queue, the buffer and how many bytes were copied to the text.
`none` when it blocks. -/
def msgrcv (q : Queue) (msg : MessageBuffer) (n : ℕ) : Option (Queue × MessageBuffer × List ℕ) :=
  match q.find? Message.isWanted with
  | none => none
  | some m =>
    if m.payload.length ≤ n then
      some (q.eraseP Message.isWanted, msg.receive m, [m.payload.length])
    else
      some (q, msg, [])

/-- The size that the programs pass to `msgsnd` and `msgrcv`. -/
def size : Lang → ℕ
  | .c => structSize
  | .cpp => bufferSize

/-- What `close_ipc` does with the buffer. -/
def MessageBuffer.zeroFirst (msg : MessageBuffer) : MessageBuffer :=
  { msg with memory := Function.update msg.memory 0 charZero }

/-- `close_ipc`. -/
def closeIpc (q : Queue) (msg : MessageBuffer) : Queue × MessageBuffer :=
  (msgsnd q msg.zeroFirst structSize, msg.zeroFirst)

/-- What may happen next in a process. -/
inductive Event where
  | run
  | sigint
  deriving DecidableEq

/-! ### The writer -/

/-- The statements of a writer. -/
inductive Writer.Loc where
  /-- `msg.type = 1`. -/
  | start
  /-- Before `fgets` or `getline`. -/
  | enter
  /-- Inside `fgets` or `getline`. -/
  | inside
  /-- `strtok`, in C. -/
  | cut
  /-- `msgsnd`. -/
  | send
  /-- `strncmp(msg.text, "0", 1) == 0`. -/
  | test
  /-- After the loop. -/
  | left
  deriving DecidableEq

/-- A writer: its buffer, how many lines it has taken, whether `close_ipc` has run, and as history
the texts that it has sent and how many bytes from the text on each call of `msgsnd` copied. -/
structure Writer where
  loc : Writer.Loc
  msg : MessageBuffer
  entered : ℕ
  closed : Bool
  sent : List (List UInt8)
  copied : List ℕ

/-- What `fgets` or `getline` makes of the text, and the statement that follows. -/
def entry (lang : Lang) (text : CharArray bufferSize) (line : Option (InputLine bufferSize)) :
    CharArray bufferSize × Writer.Loc :=
  match lang with
  | .c => (fgets text line, .cut)
  | .cpp => (getline text line, .send)

namespace Writer

variable (lang : Lang) (typed : ℕ → Option (InputLine bufferSize))

/-- The next statement. -/
def run (q : Queue) (w : Writer) : Option (Queue × Writer) :=
  match w.loc with
  | .start => some (q, { w with loc := .enter, msg := { w.msg with type := 1 } })
  | .enter => some (q, { w with loc := .inside })
  | .inside =>
    some (q, { w with
      loc := (entry lang w.msg.text (typed w.entered)).2
      msg := w.msg.setText (entry lang w.msg.text (typed w.entered)).1
      entered := w.entered + 1 })
  | .cut => some (q, { w with loc := .send, msg := w.msg.setText (strtokNewline w.msg.text) })
  | .send =>
    some (msgsnd q w.msg (size lang), { w with
      loc := .test
      sent := w.sent ++ [w.msg.text.text]
      copied := w.copied ++ [size lang] })
  | .test => some (q, { w with loc := if w.msg.text.StartsZero then .left else .enter })
  | .left => none

/-- `SIGINT`. Inside `fgets` the call fails, and the next statement is `strtok`. -/
def interrupt (q : Queue) (w : Writer) : Queue × Writer :=
  ((closeIpc q w.msg).1, { w with
    loc := if w.loc = .inside then .cut else w.loc
    msg := (closeIpc q w.msg).2
    closed := true })

/-- A step of the writer. -/
def step (e : Event) (q : Queue) (w : Writer) : Option (Queue × Writer) :=
  match e with
  | .run => run lang typed q w
  | .sigint => if lang = .c ∧ w.loc ≠ .left then some (interrupt q w) else none

end Writer

/-! ### The reader -/

/-- The statements of a reader. -/
inductive Reader.Loc where
  /-- Before `msgrcv`. -/
  | call
  /-- Inside `msgrcv`. -/
  | inside
  /-- The output of the text. -/
  | display
  /-- `strncmp(msg.text, "0", 1) == 0`. -/
  | test
  /-- After the loop. -/
  | left
  deriving DecidableEq

/-- A reader: its buffer, whether `close_ipc` has run, and as history the texts that it has
displayed and how many bytes from the text on each successful call of `msgrcv` copied. -/
structure Reader where
  loc : Reader.Loc
  msg : MessageBuffer
  closed : Bool
  displayed : List (List UInt8)
  copied : List ℕ

namespace Reader

variable (lang : Lang)

/-- The next statement. -/
def run (q : Queue) (r : Reader) : Option (Queue × Reader) :=
  match r.loc with
  | .call => some (q, { r with loc := .inside })
  | .inside =>
    (msgrcv q r.msg (size lang)).map fun x =>
      (x.1, { r with loc := .display, msg := x.2.1, copied := r.copied ++ x.2.2 })
  | .display =>
    some (q, { r with loc := .test, displayed := r.displayed ++ [r.msg.text.text] })
  | .test => some (q, { r with loc := if r.msg.text.StartsZero then .left else .call })
  | .left => none

/-- `SIGINT`. Inside `msgrcv` the call fails, and the next statement is the output. -/
def interrupt (q : Queue) (r : Reader) : Queue × Reader :=
  ((closeIpc q r.msg).1, { r with
    loc := if r.loc = .inside then .display else r.loc
    msg := (closeIpc q r.msg).2
    closed := true })

/-- A step of the reader. -/
def step (e : Event) (q : Queue) (r : Reader) : Option (Queue × Reader) :=
  match e with
  | .run => run lang q r
  | .sigint => if lang = .c ∧ r.loc ≠ .left then some (interrupt q r) else none

end Reader

/-- A writer and a reader on a common key. Others may send to the queue as well. -/
def programs (writer reader : Lang) (typed : ℕ → Option (InputLine bufferSize)) :
    Duo Queue Writer Reader Event Event Message where
  shared₀ := []
  left₀ := ⟨.start, .zero, 0, false, [], []⟩
  right₀ := ⟨.call, .zero, false, [], []⟩
  left := Writer.step writer typed
  right := Reader.step reader
  env m q := if 0 < m.type then some (q ++ [m]) else none

/-! ### What the statements do -/

namespace MessageBuffer

variable (msg : MessageBuffer)

@[simp] lemma text_setText (text : CharArray bufferSize) : (msg.setText text).text = text := by
  funext i
  exact dif_pos i.isLt

/-- `close_ipc` leaves a text that begins with `'0'`. -/
lemma startsZero_zeroFirst : msg.zeroFirst.text.StartsZero := by
  change Function.update msg.memory 0 charZero 0 = charZero
  exact Function.update_self ..

@[simp] lemma type_zeroFirst : msg.zeroFirst.type = msg.type := rfl

/-- A message that is sent begins as the text does. -/
lemma startsZero_message {n : ℕ} (hn : 0 < n) :
    (msg.message n).StartsZero ↔ msg.text.StartsZero := by
  obtain ⟨n, rfl⟩ := Nat.exists_eq_succ_of_ne_zero (Nat.ne_of_gt hn)
  simp [Message.StartsZero, message, CharArray.StartsZero, text, List.ofFn_succ]

/-- A message that is copied begins the text as it begins itself. -/
lemma startsZero_receive {m : Message} (h : m.payload ≠ []) :
    (msg.receive m).text.StartsZero ↔ m.StartsZero := by
  obtain ⟨b, bs, hb⟩ := List.exists_cons_of_ne_nil h
  simp [Message.StartsZero, CharArray.StartsZero, text, receive, hb]

end MessageBuffer

/-- What a `msgrcv` that returns has done. -/
lemma msgrcv_eq_some {q q' : Queue} {msg msg' : MessageBuffer} {n : ℕ} {copied : List ℕ}
    (h : msgrcv q msg n = some (q', msg', copied)) :
    ∃ m, q.find? Message.isWanted = some m ∧
      ((m.payload.length ≤ n ∧ q' = q.eraseP Message.isWanted ∧ msg' = msg.receive m ∧
          copied = [m.payload.length]) ∨
        (n < m.payload.length ∧ q' = q ∧ msg' = msg ∧ copied = [])) := by
  unfold msgrcv at h
  cases hfind : q.find? Message.isWanted with
  | none =>
    rw [hfind] at h
    cases h
  | some m =>
    rw [hfind] at h
    refine ⟨m, rfl, ?_⟩
    by_cases hle : m.payload.length ≤ n
    · simp only [hle, if_true, Option.some.injEq, Prod.mk.injEq] at h
      exact .inl ⟨hle, h.1.symm, h.2.1.symm, h.2.2.symm⟩
    · simp only [hle, if_false, Option.some.injEq, Prod.mk.injEq] at h
      exact .inr ⟨Nat.not_le.mp hle, h.1.symm, h.2.1.symm, h.2.2.symm⟩

/-- The moves of a writer. -/
inductive WriterMove (lang : Lang) (typed : ℕ → Option (InputLine bufferSize)) (q : Queue)
    (w : Writer) : Writer.Loc → Queue → Writer → Prop
  | start : WriterMove lang typed q w .start q
      { w with loc := .enter, msg := { w.msg with type := 1 } }
  | enter : WriterMove lang typed q w .enter q { w with loc := .inside }
  | inside : WriterMove lang typed q w .inside q { w with
      loc := (entry lang w.msg.text (typed w.entered)).2
      msg := w.msg.setText (entry lang w.msg.text (typed w.entered)).1
      entered := w.entered + 1 }
  | cut : WriterMove lang typed q w .cut q
      { w with loc := .send, msg := w.msg.setText (strtokNewline w.msg.text) }
  | send : WriterMove lang typed q w .send (msgsnd q w.msg (size lang)) { w with
      loc := .test
      sent := w.sent ++ [w.msg.text.text]
      copied := w.copied ++ [size lang] }
  | testZero (h : w.msg.text.StartsZero) : WriterMove lang typed q w .test q { w with loc := .left }
  | testOther (h : ¬ w.msg.text.StartsZero) :
      WriterMove lang typed q w .test q { w with loc := .enter }

/-- Every statement of the writer is one of the moves. -/
lemma writer_cases {lang : Lang} {typed : ℕ → Option (InputLine bufferSize)} {q q' : Queue}
    {w w' : Writer} (h : Writer.run lang typed q w = some (q', w')) :
    WriterMove lang typed q w w.loc q' w' := by
  unfold Writer.run at h
  cases hl : w.loc with
  | test =>
    rw [hl] at h
    obtain ⟨rfl, rfl⟩ := Prod.mk.inj (Option.some.inj h)
    split_ifs with hz
    · exact .testZero hz
    · exact .testOther hz
  | left =>
    rw [hl] at h
    cases h
  | start | enter | inside | cut | send =>
    rw [hl] at h
    obtain ⟨rfl, rfl⟩ := Prod.mk.inj (Option.some.inj h)
    constructor

/-- The moves of a reader. -/
inductive ReaderMove (lang : Lang) (q : Queue) (r : Reader) :
    Reader.Loc → Queue → Reader → Prop
  | call : ReaderMove lang q r .call q { r with loc := .inside }
  | receive (m) (hm : q.find? Message.isWanted = some m) (hle : m.payload.length ≤ size lang) :
      ReaderMove lang q r .inside (q.eraseP Message.isWanted) { r with
        loc := .display
        msg := r.msg.receive m
        copied := r.copied ++ [m.payload.length] }
  | tooLong (m) (hm : q.find? Message.isWanted = some m) (hlt : size lang < m.payload.length) :
      ReaderMove lang q r .inside q { r with loc := .display, copied := r.copied ++ [] }
  | display : ReaderMove lang q r .display q
      { r with loc := .test, displayed := r.displayed ++ [r.msg.text.text] }
  | testZero (h : r.msg.text.StartsZero) : ReaderMove lang q r .test q { r with loc := .left }
  | testOther (h : ¬ r.msg.text.StartsZero) : ReaderMove lang q r .test q { r with loc := .call }

/-- Every statement of the reader is one of the moves. -/
lemma reader_cases {lang : Lang} {q q' : Queue} {r r' : Reader}
    (h : Reader.run lang q r = some (q', r')) : ReaderMove lang q r r.loc q' r' := by
  unfold Reader.run at h
  cases hl : r.loc with
  | inside =>
    rw [hl] at h
    obtain ⟨⟨q₁, msg, copied⟩, hr, heq⟩ := Option.map_eq_some_iff.mp h
    obtain ⟨rfl, rfl⟩ := Prod.mk.inj heq
    obtain ⟨m, hm, ⟨hle, rfl, rfl, rfl⟩ | ⟨hlt, rfl, rfl, rfl⟩⟩ := msgrcv_eq_some hr
    · exact .receive m hm hle
    · exact .tooLong m hm hlt
  | test =>
    rw [hl] at h
    obtain ⟨rfl, rfl⟩ := Prod.mk.inj (Option.some.inj h)
    split_ifs with hz
    · exact .testZero hz
    · exact .testOther hz
  | left =>
    rw [hl] at h
    cases h
  | call | display =>
    rw [hl] at h
    obtain ⟨rfl, rfl⟩ := Prod.mk.inj (Option.some.inj h)
    constructor

/-- A writer that has not left can go on. -/
lemma Writer.exists_run (lang : Lang) (typed : ℕ → Option (InputLine bufferSize)) (q : Queue)
    {w : Writer} (h : w.loc ≠ .left) : ∃ q' w', Writer.run lang typed q w = some (q', w') := by
  unfold Writer.run
  cases hl : w.loc with
  | left => exact absurd hl h
  | _ => exact ⟨_, _, rfl⟩

/-- A reader that has not left can go on, if there is a message for it when it asks for one. -/
lemma Reader.exists_run (lang : Lang) {q : Queue} {r : Reader} (h : r.loc ≠ .left)
    (hq : r.loc = .inside → ∃ m ∈ q, m.isWanted) :
    ∃ q' r', Reader.run lang q r = some (q', r') := by
  unfold Reader.run
  cases hl : r.loc with
  | left => exact absurd hl h
  | inside =>
    obtain ⟨m, hm, hwanted⟩ := hq hl
    have hfind : (q.find? Message.isWanted).isSome := List.find?_isSome.mpr ⟨m, hm, hwanted⟩
    obtain ⟨m', hm'⟩ := Option.isSome_iff_exists.mp hfind
    unfold msgrcv
    rw [hm']
    simp only
    split_ifs
    · exact ⟨_, _, rfl⟩
    · exact ⟨_, _, rfl⟩
  | _ => exact ⟨_, _, rfl⟩

end MessageQueue

end PosixIntro
