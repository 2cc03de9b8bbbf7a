import Mathlib.Logic.Function.Basic
import PosixIntro.Concurrency.Machine
import PosixIntro.Stdio

set_option relaxedAutoImplicit false
set_option autoImplicit false

/-!
# The two-way pipe (`twowaypipe.c` and `twowaypipe.cc`)

Two processes talk over two pipes. Both loops go round the same four statements, entering a
message, writing it, reading the answer and testing it, the parent from the first and the child
from the third; so one definition serves both.

## Main definitions

* `Party`, `Fd` — the two processes, the four ends of the two pipes.
* `Program`, `cProgram`, `cppProgram` — what the C and the C++ program have of their own: the size
  of the buffer, how a message is entered and which ends are closed after the loop.
* `Loc`, `Process`, `State`, `Program.step`, `Program.machine` — the interleavings.

## Main results

* `Program.opened_iff` — which ends a process holds at each program point.
* `Program.records_append_pipe` — what was read and what is in the pipe is what was written.

## Design

Reads and writes move whole records, pipes are FIFO and never full, and no signal is delivered, so
that `running` stays true and every message is a typed line. The lines typed on a side are a
function of the number of the call; `none` is end of file. A write to a pipe without a read end
kills the process (`SIGPIPE`).
-/

namespace PosixIntro

namespace Pipe

/-- The two processes. -/
inductive Party where
  | parent
  | child
  deriving DecidableEq

/-- The partner. -/
def Party.other : Party → Party
  | .parent => .child
  | .child => .parent

/-- The ends of the two pipes, named by the process that writes to the pipe: pipe 1 is the
parent's, pipe 2 the child's. -/
inductive Fd where
  /-- `pipe_fds[0]`. -/
  | rd (p : Party)
  /-- `pipe_fds[1]`. -/
  | wr (p : Party)
  deriving DecidableEq

/-- The ends that a process uses. -/
def used (p : Party) : List Fd := [.wr p, .rd p.other]

/-- What a program has of its own. -/
structure Program (n : ℕ) where
  /-- How a message is entered into the buffer. -/
  enter : CharArray n → Option (InputLine n) → CharArray n
  /-- The ends that a process closes after its loop, in this order. -/
  leave : Party → List Fd
  /-- No end is closed twice. -/
  leave_nodup : ∀ p, (leave p).Nodup
  /-- The ends in use are among them. -/
  used_subset : ∀ p, used p ⊆ leave p

/-- `twowaypipe.c`: `fgets` and `strtok`, and two calls of `close` after each loop. -/
def cProgram : Program 256 where
  enter := enter .c
  leave
    | .parent => [.wr .parent, .rd .child]
    | .child => [.rd .parent, .wr .child]
  leave_nodup p := by cases p <;> decide
  used_subset p := by cases p <;> decide

/-- `twowaypipe.cc`: `getline`, and `~Pipe` closes all four ends. -/
def cppProgram : Program 20 where
  enter := enter .cpp
  leave _ := [.rd .parent, .wr .parent, .rd .child, .wr .child]
  leave_nodup _ := by decide
  used_subset p := by cases p <;> decide

/-- `STR_BUF` and `buff_size`. -/
def size : Lang → ℕ
  | .c => 256
  | .cpp => 20

instance (lang : Lang) : NeZero (size lang) := ⟨by cases lang <;> decide⟩

/-- The C or the C++ program. -/
def program : (lang : Lang) → Program (size lang)
  | .c => cProgram
  | .cpp => cppProgram

/-- The program points. -/
inductive Loc where
  /-- `close`, the unwanted side of pipe 1. -/
  | closeFirst
  /-- `close`, the unwanted side of pipe 2. -/
  | closeSecond
  /-- `fgets` and `strtok`, or `getline`. -/
  | enter
  /-- `write`, in the loop. -/
  | write
  /-- `read`. -/
  | read
  /-- `if (strncmp(msg, "0", 1) == 0)`. -/
  | test
  /-- `write`, before `break`. -/
  | writeLast
  /-- After the loop, with the ends that are still to be closed. -/
  | finish (fds : List Fd)
  /-- Killed by `SIGPIPE`. -/
  | killed

/-- A process: its program point, its buffer, how many messages it has entered, and as history the
records it has written and read. -/
structure Process (n : ℕ) where
  loc : Loc
  msg : CharArray n
  entered : ℕ
  written : List (CharArray n)
  records : List (CharArray n)

/-- The pipes, the ends that each process holds, and the processes. -/
structure State (n : ℕ) where
  pipe : Party → List (CharArray n)
  opened : Party → Fd → Bool
  proc : Party → Process n

/-- The unwanted side of pipe 1. -/
def unwantedFirst : Party → Fd
  | .parent => .rd .parent
  | .child => .wr .parent

/-- The unwanted side of pipe 2. -/
def unwantedSecond : Party → Fd
  | .parent => .wr .child
  | .child => .rd .child

/-- The statement with which a loop begins. -/
def loopStart : Party → Loc
  | .parent => .enter
  | .child => .read

namespace State

variable {n : ℕ} (s : State n)

/-- Process `i` becomes `q`. -/
def set (i : Party) (q : Process n) : State n := { s with proc := Function.update s.proc i q }

/-- Process `i` goes on at `l`. -/
def goto (i : Party) (l : Loc) : State n := s.set i { s.proc i with loc := l }

/-- Process `i` closes an end. -/
def close (i : Party) (fd : Fd) : State n :=
  { s with opened := Function.update s.opened i (Function.update (s.opened i) fd false) }

/-- Some process holds the end. -/
def IsOpen (fd : Fd) : Prop := ∃ p, s.opened p fd = true

instance (fd : Fd) : Decidable (s.IsOpen fd) :=
  decidable_of_iff (s.opened .parent fd = true ∨ s.opened .child fd = true)
    ⟨fun h => h.elim (fun h => ⟨_, h⟩) fun h => ⟨_, h⟩,
      fun ⟨p, hp⟩ => by cases p <;> simp [hp]⟩

/-- Process `i` writes its buffer to its pipe and goes on at `next`. -/
def send (i : Party) (next : Loc) : State n :=
  { s with pipe := Function.update s.pipe i (s.pipe i ++ [(s.proc i).msg]) }.set i
    { s.proc i with loc := next, written := (s.proc i).written ++ [(s.proc i).msg] }

/-- Process `i` is killed: all its ends are closed. -/
def kill (i : Party) : State n :=
  { s with opened := Function.update s.opened i fun _ => false }.goto i .killed

/-- `write`. -/
def write (i : Party) (next : Loc) : State n :=
  if s.IsOpen (.rd i) then s.send i next else s.kill i

/-- Process `i` reads the record `m` and leaves `rest` in the pipe. -/
def receive (i : Party) (m : CharArray n) (rest : List (CharArray n)) : State n :=
  { s with pipe := Function.update s.pipe i.other rest }.set i
    { s.proc i with loc := .test, msg := m, records := (s.proc i).records ++ [m] }

end State

namespace Program

variable {n : ℕ} [NeZero n] (P : Program n) (typed : Party → ℕ → Option (InputLine n))

/-- Process `i` enters a message. -/
def enterMsg (s : State n) (i : Party) : State n :=
  s.set i { s.proc i with
    loc := .write
    msg := P.enter (s.proc i).msg (typed i (s.proc i).entered)
    entered := (s.proc i).entered + 1 }

/-- The next statement of process `i`. A `read` from an empty pipe blocks as long as somebody holds
the write end, and returns without a record otherwise. -/
def step (s : State n) (i : Party) : Option (State n) :=
  match (s.proc i).loc with
  | .closeFirst => some ((s.close i (unwantedFirst i)).goto i .closeSecond)
  | .closeSecond => some ((s.close i (unwantedSecond i)).goto i (loopStart i))
  | .enter => some (P.enterMsg typed s i)
  | .write => some (s.write i .read)
  | .read =>
    match s.pipe i.other with
    | m :: rest => some (s.receive i m rest)
    | [] => if s.IsOpen (.wr i.other) then none else some (s.goto i .test)
  | .test => some (s.goto i (if (s.proc i).msg.StartsZero then .writeLast else .enter))
  | .writeLast => some (s.write i (.finish (P.leave i)))
  | .finish [] => none
  | .finish (fd :: fds) => some ((s.close i fd).goto i (.finish fds))
  | .killed => none

/-- The interleavings after `fork`: both processes hold all ends. The buffers are `msg` at the
start. -/
def machine (msg : Party → CharArray n) : Machine (State n) Party where
  init := ⟨fun _ => [], fun _ _ => true, fun i => ⟨.closeFirst, msg i, 0, [], []⟩⟩
  step := P.step typed

end Program

/-! ### Parties -/

namespace Party

@[simp] lemma other_other (i : Party) : i.other.other = i := by cases i <;> rfl

@[simp] lemma other_ne (i : Party) : i.other ≠ i := by cases i <;> decide

@[simp] lemma ne_other (i : Party) : i ≠ i.other := by cases i <;> decide

@[simp] lemma other_inj {i j : Party} : i.other = j.other ↔ i = j := by
  cases i <;> cases j <;> decide

/-- A party is `a` or its partner. -/
lemma eq_or_eq_other (i a : Party) : i = a ∨ i = a.other := by
  cases i <;> cases a <;> decide

/-- What holds for a party and its partner holds for both. -/
lemma forall_of {p : Party → Prop} (a : Party) (ha : p a) (hb : p a.other) (i : Party) : p i := by
  rcases i.eq_or_eq_other a with rfl | rfl
  · exact ha
  · exact hb

end Party

/-! ### What the statements do -/

namespace State

variable {n : ℕ} (s : State n) (i : Party)

@[simp] lemma set_pipe (q : Process n) : (s.set i q).pipe = s.pipe := rfl
@[simp] lemma set_opened (q : Process n) : (s.set i q).opened = s.opened := rfl
@[simp] lemma set_proc_self (q : Process n) : (s.set i q).proc i = q :=
  Function.update_self ..
@[simp] lemma set_proc_of_ne (q : Process n) {j : Party} (h : j ≠ i) :
    (s.set i q).proc j = s.proc j :=
  Function.update_of_ne h ..

@[simp] lemma goto_pipe (l : Loc) : (s.goto i l).pipe = s.pipe := rfl
@[simp] lemma goto_opened (l : Loc) : (s.goto i l).opened = s.opened := rfl
@[simp] lemma goto_proc_self (l : Loc) : (s.goto i l).proc i = { s.proc i with loc := l } :=
  Function.update_self ..
@[simp] lemma goto_proc_of_ne (l : Loc) {j : Party} (h : j ≠ i) :
    (s.goto i l).proc j = s.proc j :=
  Function.update_of_ne h ..

@[simp] lemma close_pipe (fd : Fd) : (s.close i fd).pipe = s.pipe := rfl
@[simp] lemma close_proc (fd : Fd) : (s.close i fd).proc = s.proc := rfl
@[simp] lemma close_opened_self (fd : Fd) :
    (s.close i fd).opened i = Function.update (s.opened i) fd false :=
  Function.update_self ..
@[simp] lemma close_opened_of_ne (fd : Fd) {j : Party} (h : j ≠ i) :
    (s.close i fd).opened j = s.opened j :=
  Function.update_of_ne h ..

@[simp] lemma send_pipe_self (l : Loc) : (s.send i l).pipe i = s.pipe i ++ [(s.proc i).msg] :=
  Function.update_self ..
@[simp] lemma send_pipe_of_ne (l : Loc) {j : Party} (h : j ≠ i) :
    (s.send i l).pipe j = s.pipe j :=
  Function.update_of_ne h ..
@[simp] lemma send_opened (l : Loc) : (s.send i l).opened = s.opened := rfl
@[simp] lemma send_proc_self (l : Loc) : (s.send i l).proc i =
    { s.proc i with loc := l, written := (s.proc i).written ++ [(s.proc i).msg] } :=
  Function.update_self ..
@[simp] lemma send_proc_of_ne (l : Loc) {j : Party} (h : j ≠ i) :
    (s.send i l).proc j = s.proc j :=
  Function.update_of_ne h ..

@[simp] lemma kill_pipe : (s.kill i).pipe = s.pipe := rfl
@[simp] lemma kill_opened_self : (s.kill i).opened i = fun _ => false :=
  Function.update_self ..
@[simp] lemma kill_opened_of_ne {j : Party} (h : j ≠ i) : (s.kill i).opened j = s.opened j :=
  Function.update_of_ne h ..
@[simp] lemma kill_proc_self : (s.kill i).proc i = { s.proc i with loc := .killed } :=
  Function.update_self ..
@[simp] lemma kill_proc_of_ne {j : Party} (h : j ≠ i) : (s.kill i).proc j = s.proc j :=
  Function.update_of_ne h ..

variable (m : CharArray n) (rest : List (CharArray n))

@[simp] lemma receive_pipe (j : Party) :
    (s.receive i m rest).pipe j = if j = i.other then rest else s.pipe j :=
  Function.update_apply ..
@[simp] lemma receive_opened : (s.receive i m rest).opened = s.opened := rfl
@[simp] lemma receive_proc_self : (s.receive i m rest).proc i =
    { s.proc i with loc := .test, msg := m, records := (s.proc i).records ++ [m] } :=
  Function.update_self ..
@[simp] lemma receive_proc_of_ne {j : Party} (h : j ≠ i) :
    (s.receive i m rest).proc j = s.proc j :=
  Function.update_of_ne h ..

end State

variable {n : ℕ} [NeZero n] {P : Program n} {typed : Party → ℕ → Option (InputLine n)}

/-- The steps of process `i`. -/
inductive Move (P : Program n) (typed : Party → ℕ → Option (InputLine n)) (s : State n)
    (i : Party) : Loc → State n → Prop
  | closeFirst : Move P typed s i .closeFirst
      ((s.close i (unwantedFirst i)).goto i .closeSecond)
  | closeSecond : Move P typed s i .closeSecond
      ((s.close i (unwantedSecond i)).goto i (loopStart i))
  | enter : Move P typed s i .enter (P.enterMsg typed s i)
  | write (h : s.IsOpen (.rd i)) : Move P typed s i .write (s.send i .read)
  | writeKilled (h : ¬ s.IsOpen (.rd i)) : Move P typed s i .write (s.kill i)
  | read (m rest) (h : s.pipe i.other = m :: rest) : Move P typed s i .read (s.receive i m rest)
  | readEnd (h : s.pipe i.other = []) (hw : ¬ s.IsOpen (.wr i.other)) :
      Move P typed s i .read (s.goto i .test)
  | testZero (h : (s.proc i).msg.StartsZero) : Move P typed s i .test (s.goto i .writeLast)
  | testOther (h : ¬ (s.proc i).msg.StartsZero) : Move P typed s i .test (s.goto i .enter)
  | last (h : s.IsOpen (.rd i)) : Move P typed s i .writeLast (s.send i (.finish (P.leave i)))
  | lastKilled (h : ¬ s.IsOpen (.rd i)) : Move P typed s i .writeLast (s.kill i)
  | close (fd fds) : Move P typed s i (.finish (fd :: fds))
      ((s.close i fd).goto i (.finish fds))

/-- Every step of a process is one of the moves. -/
lemma Program.move_of_step {s s' : State n} {i : Party} (h : P.step typed s i = some s') :
    Move P typed s i (s.proc i).loc s' := by
  unfold Program.step at h
  cases hl : (s.proc i).loc with
  | read =>
    rw [hl] at h
    cases hp : s.pipe i.other with
    | nil =>
      simp only [hp, Option.ite_none_left_eq_some, Option.some.injEq] at h
      obtain ⟨hw, rfl⟩ := h
      exact .readEnd hp hw
    | cons m rest =>
      simp only [hp, Option.some.injEq] at h
      subst h
      exact .read m rest hp
  | write | writeLast =>
    rw [hl] at h
    obtain rfl := Option.some.inj h
    unfold State.write
    split_ifs with hr
    · constructor
      exact hr
    · constructor
      exact hr
  | test =>
    rw [hl] at h
    obtain rfl := Option.some.inj h
    split_ifs with hz
    · exact .testZero hz
    · exact .testOther hz
  | finish fds =>
    rw [hl] at h
    cases fds with
    | nil => cases h
    | cons fd fds =>
      obtain rfl := Option.some.inj h
      exact .close fd fds
  | killed =>
    rw [hl] at h
    cases h
  | closeFirst | closeSecond | enter =>
    rw [hl] at h
    obtain rfl := Option.some.inj h
    constructor

/-! ### The ends that a process holds -/

/-- The ends that process `i` holds at a program point. -/
def Holds (i : Party) : Loc → Fd → Prop
  | .closeFirst, _ => True
  | .closeSecond, fd => fd ≠ unwantedFirst i
  | .finish fds, fd => fd ∈ fds ∧ fd ∈ used i
  | .killed, _ => False
  | _, fd => fd ∈ used i

/-- The table of process `i` is what its program point says, and no end is left twice for
closing. -/
def TableOk (i : Party) (opened : Fd → Bool) (l : Loc) : Prop :=
  (∀ fds, l = .finish fds → fds.Nodup) ∧ ∀ fd, opened fd = true ↔ Holds i l fd

/-- The two unwanted ends are those not in use. -/
lemma mem_used_iff (i : Party) (fd : Fd) :
    fd ∈ used i ↔ fd ≠ unwantedFirst i ∧ fd ≠ unwantedSecond i := by
  cases i <;> cases fd with
  | rd p => cases p <;> decide
  | wr p => cases p <;> decide

/-- Closing one more end. -/
lemma update_false_iff {opened : Fd → Bool} {fd x : Fd} :
    Function.update opened fd false x = true ↔ x ≠ fd ∧ opened x = true := by
  by_cases h : x = fd
  · subst h
    simp
  · simp [h]

/-- A move of process `i` keeps its table. -/
lemma Move.tableOk {s s' : State n} {i : Party} (h : TableOk i (s.opened i) (s.proc i).loc)
    (hm : Move P typed s i (s.proc i).loc s') : TableOk i (s'.opened i) (s'.proc i).loc := by
  generalize hl : (s.proc i).loc = l at h hm
  cases hm with
  | closeFirst =>
    refine ⟨by simp, fun fd => ?_⟩
    simp only [State.goto_opened, State.close_opened_self, State.goto_proc_self, update_false_iff,
      h.2, Holds, and_true]
  | closeSecond =>
    have hstart : ∀ fd, Holds i (loopStart i) fd ↔ fd ∈ used i := by cases i <;> exact fun _ => .rfl
    refine ⟨by cases i <;> simp [loopStart], fun fd => ?_⟩
    simp only [State.goto_opened, State.close_opened_self, State.goto_proc_self, update_false_iff,
      h.2]
    rw [hstart, mem_used_iff]
    exact and_comm
  | last =>
    refine ⟨by simp [P.leave_nodup], fun fd => ?_⟩
    simp only [State.send_opened, State.send_proc_self, h.2, Holds]
    exact ⟨fun hu => ⟨P.used_subset i hu, hu⟩, fun hu => hu.2⟩
  | close fd fds =>
    have hnodup := List.nodup_cons.mp (h.1 _ rfl)
    refine ⟨by simpa using hnodup.2, fun x => ?_⟩
    simp only [State.goto_opened, State.close_opened_self, State.goto_proc_self, update_false_iff,
      h.2, Holds, List.mem_cons]
    constructor
    · rintro ⟨hne, hx, hu⟩
      exact ⟨hx.resolve_left hne, hu⟩
    · rintro ⟨hx, hu⟩
      exact ⟨fun heq => hnodup.1 (heq ▸ hx), .inr hx, hu⟩
  | writeKilled | lastKilled => exact ⟨by simp, by simp [Holds]⟩
  | enter | write | read | readEnd | testZero | testOther =>
    exact ⟨by simp [Program.enterMsg], by simpa [Program.enterMsg, Holds] using h.2⟩

/-- A move of a process changes nothing of the other. -/
lemma Move.other {s s' : State n} {i : Party} {l : Loc} (hm : Move P typed s i l s') {j : Party}
    (hj : j ≠ i) : s'.opened j = s.opened j ∧ s'.proc j = s.proc j := by
  cases hm <;> simp [Program.enterMsg, hj]

variable {msg : Party → CharArray n}

/-- The tables of all processes are what their program points say. -/
lemma Program.tableOk {s : State n} (h : (P.machine typed msg).Reach s) (i : Party) :
    TableOk i (s.opened i) (s.proc i).loc := by
  refine h.invariant (I := fun s => ∀ i, TableOk i (s.opened i) (s.proc i).loc) ?_ ?_ i
  · exact fun i => ⟨fun fds hf => (by cases hf), fun fd => ⟨fun _ => trivial, fun _ => rfl⟩⟩
  · intro s i s' _ ih _ hs j
    have hm := Program.move_of_step hs
    rcases eq_or_ne j i with rfl | hj
    · exact hm.tableOk (ih j)
    · rw [(hm.other hj).1, (hm.other hj).2]
      exact ih j

/-- **Which ends a process holds** is what its program point says. -/
theorem Program.opened_iff {s : State n} (h : (P.machine typed msg).Reach s) (i : Party)
    (fd : Fd) : s.opened i fd = true ↔ Holds i (s.proc i).loc fd :=
  (P.tableOk h i).2 fd

/-! ### The records -/

/-- **FIFO**: the records that a process has read, and then those in its pipe, are the records that
its partner has written. -/
theorem Program.records_append_pipe {s : State n} (h : (P.machine typed msg).Reach s)
    (i : Party) : (s.proc i.other).records ++ s.pipe i = (s.proc i).written := by
  refine h.invariant (I := fun s => ∀ i, (s.proc i.other).records ++ s.pipe i = (s.proc i).written)
    (fun _ => rfl) ?_ i
  intro s j s' _ ih _ hs
  have hm := Program.move_of_step hs
  generalize (s.proc j).loc = l at hm
  have hself := ih j
  have hother := ih j.other
  rw [Party.other_other] at hother
  refine Party.forall_of j ?_ ?_
  · cases hm <;> simp [Program.enterMsg, ← hself]
  · cases hm with
    | read m rest hp => simp [← hother, hp]
    | _ => simp [Program.enterMsg, hother]

end Pipe

end PosixIntro
