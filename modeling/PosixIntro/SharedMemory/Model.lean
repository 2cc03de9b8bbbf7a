import Mathlib.Logic.Function.Basic
import PosixIntro.Concurrency.Duo
import PosixIntro.Stdio

set_option relaxedAutoImplicit false
set_option autoImplicit false

/-!
# The shared-memory programs (`memory_based/shared_memory`)

A writer copies standard input, one character at a time, into a mapping that a reader prints. The
C programs are `main` of `write.c` and `read.c` with `write_shared` and `print_shared`, the C++
programs are `Write::run` and `Read::run`. Either writer may meet either reader.

## Main definitions

* `WriterLoc`, `Writer`, `Writer.step` — the writer, statement by statement, and what `SIGINT` does.
* `ReaderLoc`, `Reader`, `Reader.step` — the reader.
* `duo`, `machine` — both processes over fresh semaphores and a mapping of arbitrary contents.
* `WriterLoc.cell`, `ReaderLoc.cell` — the offset that the next statement reads or writes.

## Main results

* `WriterMove`, `ReaderMove` with `Writer.move_of_step`, `Reader.move_of_step` — everything a step
  can do.

## Design

The memory is a function of all offsets: an access beyond the mapping is possible in the model, and
that it does not happen is a theorem about `cell`. The C writer handles `SIGINT`; the C++ writer
installs no handler, so its runs are those without a signal.
-/

namespace PosixIntro

namespace SharedMemory

/-- `FILE_LEN`. -/
def fileLen : ℕ := 1024

/-- `Common::buff`. -/
def buff : ℕ := 255

/-- The number of bytes that a program maps. -/
def mapped : Lang → ℕ
  | .c => fileLen
  | .cpp => buff

/-- The two named semaphores and the mapping. -/
structure Shared where
  one : ℕ
  two : ℕ
  mem : ℕ → UInt8

/-- The program points of the writer; `c` is the offset of the pointer `c`. -/
inductive WriterLoc where
  /-- `sem_wait(sem_one)` in `main`. -/
  | waitReader
  /-- `sem_post(sem_one)` in `main`. -/
  | giveBack
  /-- `sem_wait(*one)`. -/
  | waitOne (c : ℕ)
  /-- `fgetc(stdin)`. -/
  | fgetc (c : ℕ)
  /-- `*c = v`, the value that `fgetc` has returned. -/
  | store (c : ℕ) (v : UInt8)
  /-- `if (!running)`. -/
  | testRunning (c : ℕ)
  /-- `*c = '0'`. -/
  | storeEnd (c : ℕ)
  /-- `sem_post(*two)`. -/
  | postTwo (c : ℕ)
  /-- `while (*c++ != END_CHAR)`. -/
  | test (c : ℕ)
  /-- After the loop. -/
  | done (c : ℕ)

/-- The writer. -/
structure Writer where
  loc : WriterLoc
  running : Bool
  stdin : List UInt8

/-- What happens to the writer: its next statement is executed, `SIGINT` is delivered between two
statements, or `SIGINT` is delivered inside a blocking call, which then fails. -/
inductive WriterLabel where
  | run
  | sigint
  | eintr
  deriving DecidableEq

/-- The next statement. The C++ loop has no `if (!running)`. -/
def Writer.run (lang : Lang) (m : Shared) (w : Writer) : Option (Shared × Writer) :=
  match w.loc with
  | .waitReader =>
    if 0 < m.one then some ({ m with one := m.one - 1 }, { w with loc := .giveBack }) else none
  | .giveBack => some ({ m with one := m.one + 1 }, { w with loc := .waitOne 0 })
  | .waitOne c =>
    if 0 < m.one then some ({ m with one := m.one - 1 }, { w with loc := .fgetc c }) else none
  | .fgetc c =>
    let r := fgetc w.stdin
    some (m, { w with loc := .store c r.1, stdin := r.2 })
  | .store c v =>
    some ({ m with mem := Function.update m.mem c v },
      { w with loc := match lang with | .c => .testRunning c | .cpp => .postTwo c })
  | .testRunning c => some (m, { w with loc := if w.running then .postTwo c else .storeEnd c })
  | .storeEnd c =>
    some ({ m with mem := Function.update m.mem c charZero }, { w with loc := .postTwo c })
  | .postTwo c => some ({ m with two := m.two + 1 }, { w with loc := .test c })
  | .test c =>
    some (m, { w with loc := if m.mem c = charZero then .done (c + 1) else .waitOne (c + 1) })
  | .done _ => none

/-- `close_write` runs. -/
def Writer.closeWrite (w : Writer) : Writer := { w with running := false }

/-- `SIGINT` inside a blocking call: `sem_wait` returns without decrementing, `fgetc` returns
`EOF`. -/
def Writer.interrupt (m : Shared) (w : Writer) : Option (Shared × Writer) :=
  match w.loc with
  | .waitReader => some (m, { w.closeWrite with loc := .giveBack })
  | .waitOne c => some (m, { w.closeWrite with loc := .fgetc c })
  | .fgetc c => some (m, { w.closeWrite with loc := .store c charEof })
  | _ => none

/-- A step of the writer. Between two statements a later `SIGINT` changes nothing, so only the
first one is a step. -/
def Writer.step (lang : Lang) : WriterLabel → Shared → Writer → Option (Shared × Writer)
  | .run, m, w => w.run lang m
  | .sigint, m, w => if lang = .c ∧ w.running then some (m, w.closeWrite) else none
  | .eintr, m, w => if lang = .c then w.interrupt m else none

/-- The program points of the reader. -/
inductive ReaderLoc where
  /-- `sem_post(sem_one)` before the loop. -/
  | greet
  /-- `sem_wait(*two)`. -/
  | waitTwo (c : ℕ)
  /-- `putchar(*c)`. -/
  | putchar (c : ℕ)
  /-- `sem_post(*one)`. -/
  | postOne (c : ℕ)
  /-- `while (*c++ != END_CHAR)`. -/
  | test (c : ℕ)
  /-- After the loop. -/
  | done (c : ℕ)

/-- The reader. -/
structure Reader where
  loc : ReaderLoc
  stdout : List UInt8

/-- The next statement of the C reader, `print_shared` after the post in `main`. -/
def Reader.printShared (m : Shared) (r : Reader) : Option (Shared × Reader) :=
  match r.loc with
  | .greet => some ({ m with one := m.one + 1 }, { r with loc := .waitTwo 0 })
  | .waitTwo c =>
    if 0 < m.two then some ({ m with two := m.two - 1 }, { r with loc := .putchar c }) else none
  | .putchar c => some (m, { r with loc := .postOne c, stdout := r.stdout ++ [m.mem c] })
  | .postOne c => some ({ m with one := m.one + 1 }, { r with loc := .test c })
  | .test c =>
    some (m, { r with loc := if m.mem c = charZero then .done (c + 1) else .waitTwo (c + 1) })
  | .done _ => none

/-- The next statement of the C++ reader. `Read::run` is the same but for `std::cout << *c` in the
place of `putchar(*c)`. -/
def Reader.readRun (m : Shared) (r : Reader) : Option (Shared × Reader) := r.printShared m

/-- A step of the reader. -/
def Reader.step (lang : Lang) (_ : Unit) (m : Shared) (r : Reader) : Option (Shared × Reader) :=
  match lang with
  | .c => r.printShared m
  | .cpp => r.readRun m

/-- Where a writer starts. -/
def writerStart : Lang → WriterLoc
  | .c => .waitReader
  | .cpp => .waitOne 0

/-- A writer of the language `W` with the given standard input, and a reader of the language
`R`. -/
def duo (W R : Lang) (stdin : List UInt8) (mem : ℕ → UInt8) :
    Duo Shared Writer Reader WriterLabel Unit Empty where
  shared₀ := ⟨0, 0, mem⟩
  left₀ := ⟨writerStart W, true, stdin⟩
  right₀ := ⟨.greet, []⟩
  left := Writer.step W
  right := Reader.step R
  env e := e.elim

/-- A joint state. -/
abbrev State := Duo.State Shared Writer Reader

/-- A label of the joint machine. -/
abbrev Label := Duo.Label WriterLabel Unit Empty

/-- The interleavings of a writer and a reader. -/
def machine (W R : Lang) (stdin : List UInt8) (mem : ℕ → UInt8) : Machine State Label :=
  (duo W R stdin mem).machine

/-- Not a signal: a process executes its next statement. -/
def Label.Ordinary : Label → Prop
  | .left a => a = .run
  | .right _ => True
  | .env _ => True

/-- No signal is delivered. -/
def NoSignal (_ : State) (x : Label) : Prop := x.Ordinary

/-- The offset that the writer's next statement reads or writes. -/
def WriterLoc.cell : WriterLoc → Option ℕ
  | .store c _ | .storeEnd c | .test c => some c
  | _ => none

/-- The offset that the reader's next statement reads. -/
def ReaderLoc.cell : ReaderLoc → Option ℕ
  | .putchar c | .test c => some c
  | _ => none

/-- The number of cells that the writer has finished and handed over. -/
def WriterLoc.finished : WriterLoc → ℕ
  | .waitReader | .giveBack => 0
  | .waitOne c | .fgetc c | .store c _ | .testRunning c | .storeEnd c | .postTwo c => c
  | .test c => c + 1
  | .done c => c

/-- The number of rounds that a loop which has ended has made. -/
def WriterLoc.rounds : WriterLoc → Option ℕ
  | .done c => some c
  | _ => none

/-- The number of rounds that a loop which has ended has made. -/
def ReaderLoc.rounds : ReaderLoc → Option ℕ
  | .done c => some c
  | _ => none

/-- Both loops have ended. -/
def Ended (s : State) : Prop := s.left.loc.rounds ≠ none ∧ s.right.loc.rounds ≠ none

/-! ### What the statements do -/

/-- The steps of a writer. -/
inductive WriterMove (lang : Lang) : WriterLabel → Shared → Writer → Shared → Writer → Prop
  | waitReader (m b is) (h : 0 < m.one) : WriterMove lang .run m ⟨.waitReader, b, is⟩
      { m with one := m.one - 1 } ⟨.giveBack, b, is⟩
  | giveBack (m b is) : WriterMove lang .run m ⟨.giveBack, b, is⟩
      { m with one := m.one + 1 } ⟨.waitOne 0, b, is⟩
  | waitOne (m b is c) (h : 0 < m.one) : WriterMove lang .run m ⟨.waitOne c, b, is⟩
      { m with one := m.one - 1 } ⟨.fgetc c, b, is⟩
  | fgetc (m b is c) : WriterMove lang .run m ⟨.fgetc c, b, is⟩
      m ⟨.store c (fgetc is).1, b, (fgetc is).2⟩
  | storeC (m b is c v) (h : lang = .c) : WriterMove lang .run m ⟨.store c v, b, is⟩
      { m with mem := Function.update m.mem c v } ⟨.testRunning c, b, is⟩
  | storeCpp (m b is c v) (h : lang = .cpp) : WriterMove lang .run m ⟨.store c v, b, is⟩
      { m with mem := Function.update m.mem c v } ⟨.postTwo c, b, is⟩
  | keep (m is c) : WriterMove lang .run m ⟨.testRunning c, true, is⟩ m ⟨.postTwo c, true, is⟩
  | stop (m is c) : WriterMove lang .run m ⟨.testRunning c, false, is⟩ m ⟨.storeEnd c, false, is⟩
  | storeEnd (m b is c) : WriterMove lang .run m ⟨.storeEnd c, b, is⟩
      { m with mem := Function.update m.mem c charZero } ⟨.postTwo c, b, is⟩
  | postTwo (m b is c) : WriterMove lang .run m ⟨.postTwo c, b, is⟩
      { m with two := m.two + 1 } ⟨.test c, b, is⟩
  | again (m b is c) (h : m.mem c ≠ charZero) : WriterMove lang .run m ⟨.test c, b, is⟩
      m ⟨.waitOne (c + 1), b, is⟩
  | leave (m b is c) (h : m.mem c = charZero) : WriterMove lang .run m ⟨.test c, b, is⟩
      m ⟨.done (c + 1), b, is⟩
  | sigint (m l is) (h : lang = .c) : WriterMove lang .sigint m ⟨l, true, is⟩ m ⟨l, false, is⟩
  | intrReader (m b is) (h : lang = .c) : WriterMove lang .eintr m ⟨.waitReader, b, is⟩
      m ⟨.giveBack, false, is⟩
  | intrOne (m b is c) (h : lang = .c) : WriterMove lang .eintr m ⟨.waitOne c, b, is⟩
      m ⟨.fgetc c, false, is⟩
  | intrFgetc (m b is c) (h : lang = .c) : WriterMove lang .eintr m ⟨.fgetc c, b, is⟩
      m ⟨.store c charEof, false, is⟩

/-- Every statement of the writer is one of the moves. -/
lemma Writer.move_of_run {lang : Lang} {m m' : Shared} {w w' : Writer}
    (h : w.run lang m = some (m', w')) : WriterMove lang .run m w m' w' := by
  obtain ⟨l, b, is⟩ := w
  cases l with
  | waitReader =>
    obtain ⟨hpos, h⟩ := Option.ite_none_right_eq_some.mp h
    obtain ⟨rfl, rfl⟩ := by simpa using h
    exact .waitReader m b is hpos
  | waitOne c =>
    obtain ⟨hpos, h⟩ := Option.ite_none_right_eq_some.mp h
    obtain ⟨rfl, rfl⟩ := by simpa using h
    exact .waitOne m b is c hpos
  | giveBack | fgetc c | storeEnd c | postTwo c =>
    obtain ⟨rfl, rfl⟩ := by simpa [Writer.run] using h
    constructor
  | store c v =>
    cases lang <;> obtain ⟨rfl, rfl⟩ := by simpa [Writer.run] using h
    · exact .storeC m b is c v rfl
    · exact .storeCpp m b is c v rfl
  | testRunning c =>
    cases b <;> obtain ⟨rfl, rfl⟩ := by simpa [Writer.run] using h
    · exact .stop m is c
    · exact .keep m is c
  | test c =>
    by_cases hc : m.mem c = charZero
    · obtain ⟨rfl, rfl⟩ := by simpa [Writer.run, hc] using h
      exact .leave m b is c hc
    · obtain ⟨rfl, rfl⟩ := by simpa [Writer.run, hc] using h
      exact .again m b is c hc
  | done c => simp [Writer.run] at h

/-- Every step of the writer is one of the moves. -/
lemma Writer.move_of_step {lang : Lang} {a : WriterLabel} {m m' : Shared} {w w' : Writer}
    (h : w.step lang a m = some (m', w')) : WriterMove lang a m w m' w' := by
  cases a with
  | run => exact Writer.move_of_run h
  | sigint =>
    obtain ⟨⟨hl, hb⟩, h⟩ := Option.ite_none_right_eq_some.mp h
    obtain ⟨l, b, is⟩ := w
    obtain rfl : b = true := hb
    obtain ⟨rfl, rfl⟩ := by simpa [Writer.closeWrite] using h
    exact .sigint m l is hl
  | eintr =>
    obtain ⟨hl, h⟩ := Option.ite_none_right_eq_some.mp h
    obtain ⟨l, b, is⟩ := w
    cases l with
    | waitReader =>
      obtain ⟨rfl, rfl⟩ := by simpa [Writer.interrupt, Writer.closeWrite] using h
      exact .intrReader m b is hl
    | waitOne c =>
      obtain ⟨rfl, rfl⟩ := by simpa [Writer.interrupt, Writer.closeWrite] using h
      exact .intrOne m b is c hl
    | fgetc c =>
      obtain ⟨rfl, rfl⟩ := by simpa [Writer.interrupt, Writer.closeWrite] using h
      exact .intrFgetc m b is c hl
    | _ => simp [Writer.interrupt] at h

/-- The steps of a reader. -/
inductive ReaderMove : Shared → Reader → Shared → Reader → Prop
  | greet (m out) : ReaderMove m ⟨.greet, out⟩ { m with one := m.one + 1 } ⟨.waitTwo 0, out⟩
  | waitTwo (m out c) (h : 0 < m.two) : ReaderMove m ⟨.waitTwo c, out⟩
      { m with two := m.two - 1 } ⟨.putchar c, out⟩
  | putchar (m out c) : ReaderMove m ⟨.putchar c, out⟩ m ⟨.postOne c, out ++ [m.mem c]⟩
  | postOne (m out c) : ReaderMove m ⟨.postOne c, out⟩
      { m with one := m.one + 1 } ⟨.test c, out⟩
  | again (m out c) (h : m.mem c ≠ charZero) : ReaderMove m ⟨.test c, out⟩
      m ⟨.waitTwo (c + 1), out⟩
  | leave (m out c) (h : m.mem c = charZero) : ReaderMove m ⟨.test c, out⟩ m ⟨.done (c + 1), out⟩

/-- Every statement of the reader is one of the moves. -/
lemma Reader.move_of_printShared {m m' : Shared} {r r' : Reader}
    (h : r.printShared m = some (m', r')) : ReaderMove m r m' r' := by
  obtain ⟨l, out⟩ := r
  cases l with
  | waitTwo c =>
    obtain ⟨hpos, h⟩ := Option.ite_none_right_eq_some.mp h
    obtain ⟨rfl, rfl⟩ := by simpa using h
    exact .waitTwo m out c hpos
  | greet | putchar c | postOne c =>
    obtain ⟨rfl, rfl⟩ := by simpa [Reader.printShared] using h
    constructor
  | test c =>
    by_cases hc : m.mem c = charZero
    · obtain ⟨rfl, rfl⟩ := by simpa [Reader.printShared, hc] using h
      exact .leave m out c hc
    · obtain ⟨rfl, rfl⟩ := by simpa [Reader.printShared, hc] using h
      exact .again m out c hc
  | done c => simp [Reader.printShared] at h

/-- The readers of both languages take the same steps. -/
lemma Reader.step_eq (lang : Lang) (u : Unit) (m : Shared) (r : Reader) :
    r.step lang u m = r.printShared m := by
  cases lang <;> rfl

/-- Every step of the reader is one of the moves. -/
lemma Reader.move_of_step {lang : Lang} {u : Unit} {m m' : Shared} {r r' : Reader}
    (h : r.step lang u m = some (m', r')) : ReaderMove m r m' r' :=
  Reader.move_of_printShared (Reader.step_eq lang u m r ▸ h)

/-- The invariant rule for a writer and a reader. -/
lemma invariant {W R : Lang} {stdin : List UInt8} {mem : ℕ → UInt8}
    {ok : State → Label → Prop} {I : Shared → Writer → Reader → Prop}
    (h₀ : I ⟨0, 0, mem⟩ ⟨writerStart W, true, stdin⟩ ⟨.greet, []⟩)
    (hw : ∀ m w r a m' w', (machine W R stdin mem).ReachIf ok ⟨m, w, r⟩ →
      ok ⟨m, w, r⟩ (.left a) → I m w r → WriterMove W a m w m' w' → I m' w' r)
    (hr : ∀ m w r m' r', (machine W R stdin mem).ReachIf ok ⟨m, w, r⟩ →
      I m w r → ReaderMove m r m' r' → I m' w r')
    {s : State} (h : (machine W R stdin mem).ReachIf ok s) : I s.shared s.left s.right :=
  Duo.invariant (P := duo W R stdin mem) h₀
    (fun _ _ _ _ _ _ hs hok hI hstep => hw _ _ _ _ _ _ hs hok hI (Writer.move_of_step hstep))
    (fun _ _ _ u _ _ hs _ hI hstep => hr _ _ _ _ _ hs hI (Reader.move_of_step (u := u) hstep))
    (fun _ _ _ e => e.elim) h

end SharedMemory

end PosixIntro
