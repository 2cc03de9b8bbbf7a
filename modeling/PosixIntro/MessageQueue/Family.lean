import PosixIntro.MessageQueue.Model

set_option relaxedAutoImplicit false
set_option autoImplicit false

/-!
# Any number of writers and readers

All programs call `create_queue` with the same key, and every reader that leaves its loop removes
the queue, for all of them. Who calls `create_queue` after that gets a new one.

## Main definitions

* `Office` — the queues of the system, with the messages ever sent and received as history.
* `Writer.runOn`, `Reader.runOn` — a program whose queue may have been removed.
* `Setup`, `Setup.machine` — any number of writers and readers, with `SIGINT`, and others who send to
  the queue.

## Main results

* `Setup.step_cases` — everything a step can do.

## Design

Queues are known by identifiers that are never used again. A call for a removed queue fails at once:
`msgsnd` sends nothing, `msgrcv` leaves the buffer alone, and the programs look at neither result.
The handler calls `create_queue` itself, so after a removal it sends to a new queue.
-/

namespace PosixIntro

namespace MessageQueue

/-! ### The queues of the system -/

/-- Who has sent a message. -/
inductive Sender (ω ρ : Type*) where
  | writer (i : ω)
  | reader (j : ρ)
  | other
  deriving DecidableEq

/-- The queues of the system: the one that the key leads to, the next new identifier and what each
queue holds, `none` where there is no queue; and as history the messages that were ever sent to each
and received from it. -/
structure Office (ω ρ : Type*) where
  key : Option ℕ
  next : ℕ
  queue : ℕ → Option Queue
  sent : ℕ → List (Sender ω ρ × Message)
  received : ℕ → List (ρ × Message)

/-- The messages that were added to a queue. -/
def appended : Option Queue → Option Queue → List Message
  | some q, some q' => q'.drop q.length
  | _, _ => []

/-- The messages that were taken from a queue. -/
def taken : Option Queue → Option Queue → List Message
  | some q, some q' => if q'.length < q.length then (q.find? Message.isWanted).toList else []
  | _, _ => []

namespace Office

variable {ω ρ : Type*} (o : Office ω ρ)

/-- `create_queue`. -/
def createQueue : Office ω ρ × ℕ :=
  match o.key with
  | some id => (o, id)
  | none =>
    ({ o with
        key := some o.next
        next := o.next + 1
        queue := Function.update o.queue o.next (some []) }, o.next)

/-- The queue `id` is `q` after a step of `x`. -/
def sends (x : Sender ω ρ) (id : ℕ) (q : Option Queue) : Office ω ρ :=
  { o with
    queue := Function.update o.queue id q
    sent := Function.update o.sent id (o.sent id ++ (appended (o.queue id) q).map (x, ·)) }

/-- The queue `id` is `q` after a step of the reader `j`. -/
def receives (j : ρ) (id : ℕ) (q : Option Queue) : Office ω ρ :=
  { o with
    queue := Function.update o.queue id q
    received := Function.update o.received id
      (o.received id ++ (taken (o.queue id) q).map (j, ·)) }

/-- `msgctl(id, IPC_RMID, NULL)`. -/
def remove (id : ℕ) : Office ω ρ :=
  { o with
    key := if o.key = some id then none else o.key
    queue := Function.update o.queue id none }

end Office

/-! ### The programs -/

/-- The next statement of a writer, whose queue may have been removed. -/
def Writer.runOn (lang : Lang) (typed : ℕ → Option (InputLine bufferSize)) (w : Writer) :
    Option Queue → Option (Option Queue × Writer)
  | some q => (Writer.run lang typed q w).map fun x => (some x.1, x.2)
  | none => (Writer.run lang typed [] w).map fun x => (none, x.2)

/-- The next statement of a reader, whose queue may have been removed. -/
def Reader.runOn (lang : Lang) (r : Reader) : Option Queue → Option (Option Queue × Reader)
  | some q => (Reader.run lang q r).map fun x => (some x.1, x.2)
  | none =>
    if r.loc = .inside then some (none, { r with loc := .display })
    else (Reader.run lang [] r).map fun x => (none, x.2)

/-- What a process knows of its queue. -/
inductive Handle where
  /-- Before `create_queue`. -/
  | unopened
  | opened (id : ℕ)
  /-- After the `msgctl` of a reader. -/
  | closed (id : ℕ)
  deriving DecidableEq

/-- The process has ended. -/
def Handle.isClosed : Handle → Bool
  | .closed _ => true
  | _ => false

/-- A process that runs one of the programs. -/
structure Party (α : Type*) where
  handle : Handle
  prog : α

/-- A joint state. -/
structure Family (ω ρ : Type*) where
  office : Office ω ρ
  writer : ω → Party Writer
  reader : ρ → Party Reader

/-- Who moves. -/
inductive Label (ω ρ : Type*) where
  | writer (i : ω) (e : Event)
  | reader (j : ρ) (e : Event)
  | other (id : ℕ) (m : Message)

/-- The languages of the programs and what is typed to the writers. -/
structure Setup (ω ρ : Type*) where
  writer : ω → Lang
  reader : ρ → Lang
  typed : ω → ℕ → Option (InputLine bufferSize)

namespace Setup

variable {ω ρ : Type*} [DecidableEq ω] [DecidableEq ρ] (S : Setup ω ρ)

/-- A step of the writer `i`. -/
def stepWriter (s : Family ω ρ) (i : ω) : Event → Option (Family ω ρ)
  | .run =>
    match (s.writer i).handle with
    | .unopened => some { s with
        office := s.office.createQueue.1
        writer := Function.update s.writer i
          ⟨.opened s.office.createQueue.2, (s.writer i).prog⟩ }
    | .opened id =>
      (Writer.runOn (S.writer i) (S.typed i) (s.writer i).prog (s.office.queue id)).map fun x =>
        { s with
          office := s.office.sends (.writer i) id x.1
          writer := Function.update s.writer i ⟨.opened id, x.2⟩ }
    | .closed _ => none
  | .sigint =>
    if S.writer i = .c ∧ (s.writer i).prog.loc ≠ .left then
      let x := s.office.createQueue
      let y := Writer.interrupt ((x.1.queue x.2).getD []) (s.writer i).prog
      some { s with
        office := x.1.sends (.writer i) x.2 (some y.1)
        writer := Function.update s.writer i ⟨(s.writer i).handle, y.2⟩ }
    else none

/-- A step of the reader `j`. -/
def stepReader (s : Family ω ρ) (j : ρ) : Event → Option (Family ω ρ)
  | .run =>
    match (s.reader j).handle with
    | .unopened => some { s with
        office := s.office.createQueue.1
        reader := Function.update s.reader j
          ⟨.opened s.office.createQueue.2, (s.reader j).prog⟩ }
    | .opened id =>
      if (s.reader j).prog.loc = .left then
        some { s with
          office := s.office.remove id
          reader := Function.update s.reader j ⟨.closed id, (s.reader j).prog⟩ }
      else
        (Reader.runOn (S.reader j) (s.reader j).prog (s.office.queue id)).map fun x =>
          { s with
            office := s.office.receives j id x.1
            reader := Function.update s.reader j ⟨.opened id, x.2⟩ }
    | .closed _ => none
  | .sigint =>
    if S.reader j = .c ∧ (s.reader j).handle.isClosed = false then
      let x := s.office.createQueue
      let y := Reader.interrupt ((x.1.queue x.2).getD []) (s.reader j).prog
      some { s with
        office := x.1.sends (.reader j) x.2 (some y.1)
        reader := Function.update s.reader j ⟨(s.reader j).handle, y.2⟩ }
    else none

/-- All processes, before they have called `create_queue`. -/
def machine : Machine (Family ω ρ) (Label ω ρ) where
  init :=
    ⟨⟨none, 0, fun _ => none, fun _ => [], fun _ => []⟩,
      fun _ => ⟨.unopened, ⟨.start, .zero, 0, false, [], []⟩⟩,
      fun _ => ⟨.unopened, ⟨.call, .zero, false, [], []⟩⟩⟩
  step s x :=
    match x with
    | .writer i e => S.stepWriter s i e
    | .reader j e => S.stepReader s j e
    | .other id m => (s.office.queue id).bind fun q =>
        if 0 < m.type then some { s with office := s.office.sends .other id (some (q ++ [m])) }
        else none

end Setup

/-! ### What a step does to the queues -/

/-- A queue to which messages were added. -/
def Grows (q q' : Option Queue) : Prop :=
  (q = none ∧ q' = none) ∨ ∃ q₀ ms, q = some q₀ ∧ q' = some (q₀ ++ ms)

/-- A queue from which at most one message was taken, the oldest that the readers ask for. -/
def Takes (q q' : Option Queue) : Prop :=
  q' = q ∨ ∃ q₀ m, q = some q₀ ∧ q₀.find? Message.isWanted = some m ∧
    q' = some (q₀.eraseP Message.isWanted)

@[simp] lemma appended_append (q ms : Queue) : appended (some q) (some (q ++ ms)) = ms := by
  simp [appended]

@[simp] lemma appended_none (q : Option Queue) : appended none q = [] := by
  simp [appended]

@[simp] lemma taken_self (q : Option Queue) : taken q q = [] := by
  cases q <;> simp [taken]

lemma taken_eraseP {q : Queue} {m : Message} (h : q.find? Message.isWanted = some m) :
    taken (some q) (some (q.eraseP Message.isWanted)) = [m] := by
  have hmem : m ∈ q := List.mem_of_find?_eq_some h
  have hwanted : m.isWanted := List.find?_some h
  have hlen := List.length_eraseP_of_mem hmem hwanted
  have hpos : 0 < q.length := List.length_pos_of_mem hmem
  have hlt : (q.eraseP Message.isWanted).length < q.length := by omega
  rw [taken, if_pos hlt, h]
  rfl

/-- `msgsnd` adds to a queue. -/
lemma exists_msgsnd (q : Queue) (msg : MessageBuffer) (n : ℕ) :
    ∃ ms, msgsnd q msg n = q ++ ms := by
  unfold msgsnd
  split_ifs
  · exact ⟨_, rfl⟩
  · exact ⟨[], (List.append_nil q).symm⟩

/-- A statement of a writer adds to its queue. -/
lemma Writer.grows_of_runOn {lang : Lang} {typed : ℕ → Option (InputLine bufferSize)}
    {w w' : Writer} {q q' : Option Queue} (h : w.runOn lang typed q = some (q', w')) :
    Grows q q' := by
  cases q with
  | none =>
    obtain ⟨x, -, heq⟩ := Option.map_eq_some_iff.mp h
    exact .inl ⟨rfl, (Prod.mk.inj heq).1.symm⟩
  | some q =>
    obtain ⟨⟨q₁, w₁⟩, hrun, heq⟩ := Option.map_eq_some_iff.mp h
    obtain ⟨rfl, rfl⟩ := Prod.mk.inj heq
    refine .inr ⟨q, ?_⟩
    have hmove := writer_cases hrun
    generalize w.loc = loc at hmove
    cases hmove with
    | send =>
      obtain ⟨ms, hms⟩ := exists_msgsnd q w.msg (size lang)
      exact ⟨ms, rfl, congrArg some hms⟩
    | _ => exact ⟨[], rfl, by rw [List.append_nil]⟩

/-- A statement of a reader takes at most one message, and copies as much as the message has. -/
lemma Reader.takes_of_runOn {lang : Lang} {r r' : Reader} {q q' : Option Queue}
    (h : r.runOn lang q = some (q', r')) :
    Takes q q' ∧ r'.copied = r.copied ++ (taken q q').map fun m => m.payload.length := by
  cases q with
  | none =>
    unfold Reader.runOn at h
    split_ifs at h with hl
    · obtain ⟨rfl, rfl⟩ := Prod.mk.inj (Option.some.inj h)
      exact ⟨.inl rfl, by simp⟩
    · obtain ⟨⟨q₁, r₁⟩, hrun, heq⟩ := Option.map_eq_some_iff.mp h
      obtain ⟨rfl, rfl⟩ := Prod.mk.inj heq
      refine ⟨.inl rfl, ?_⟩
      have hmove := reader_cases hrun
      generalize r.loc = loc at hmove hl
      cases hmove with
      | receive m hm hle => exact absurd rfl hl
      | tooLong m hm hlt => exact absurd rfl hl
      | _ => simp
  | some q =>
    obtain ⟨⟨q₁, r₁⟩, hrun, heq⟩ := Option.map_eq_some_iff.mp h
    obtain ⟨rfl, rfl⟩ := Prod.mk.inj heq
    have hmove := reader_cases hrun
    generalize r.loc = loc at hmove
    cases hmove with
    | receive m hm hle => exact ⟨.inr ⟨q, m, rfl, hm, rfl⟩, by simp [taken_eraseP hm]⟩
    | tooLong m hm hlt => exact ⟨.inl rfl, by simp⟩
    | _ => exact ⟨.inl rfl, by simp⟩

/-! ### Everything a step can do -/

section Moves

variable {ω ρ : Type*} [DecidableEq ω] [DecidableEq ρ] (S : Setup ω ρ) (s : Family ω ρ)

/-- The moves of a family. -/
inductive Setup.Move : Label ω ρ → Family ω ρ → Prop
  | openWriter (i : ω) (h : (s.writer i).handle = .unopened) : Move (.writer i .run) { s with
      office := s.office.createQueue.1
      writer := Function.update s.writer i ⟨.opened s.office.createQueue.2, (s.writer i).prog⟩ }
  | runWriter (i : ω) (id : ℕ) (q : Option Queue) (w : Writer)
      (h : (s.writer i).handle = .opened id)
      (hrun : (s.writer i).prog.runOn (S.writer i) (S.typed i) (s.office.queue id) = some (q, w)) :
      Move (.writer i .run) { s with
        office := s.office.sends (.writer i) id q
        writer := Function.update s.writer i ⟨.opened id, w⟩ }
  | interruptWriter (i : ω) (hc : S.writer i = .c) (hl : (s.writer i).prog.loc ≠ .left) :
      Move (.writer i .sigint) { s with
        office := s.office.createQueue.1.sends (.writer i) s.office.createQueue.2
          (some (Writer.interrupt ((s.office.createQueue.1.queue s.office.createQueue.2).getD [])
            (s.writer i).prog).1)
        writer := Function.update s.writer i ⟨(s.writer i).handle,
          (Writer.interrupt ((s.office.createQueue.1.queue s.office.createQueue.2).getD [])
            (s.writer i).prog).2⟩ }
  | openReader (j : ρ) (h : (s.reader j).handle = .unopened) : Move (.reader j .run) { s with
      office := s.office.createQueue.1
      reader := Function.update s.reader j ⟨.opened s.office.createQueue.2, (s.reader j).prog⟩ }
  | runReader (j : ρ) (id : ℕ) (q : Option Queue) (r : Reader)
      (h : (s.reader j).handle = .opened id) (hl : (s.reader j).prog.loc ≠ .left)
      (hrun : (s.reader j).prog.runOn (S.reader j) (s.office.queue id) = some (q, r)) :
      Move (.reader j .run) { s with
        office := s.office.receives j id q
        reader := Function.update s.reader j ⟨.opened id, r⟩ }
  | remove (j : ρ) (id : ℕ) (h : (s.reader j).handle = .opened id)
      (hl : (s.reader j).prog.loc = .left) : Move (.reader j .run) { s with
        office := s.office.remove id
        reader := Function.update s.reader j ⟨.closed id, (s.reader j).prog⟩ }
  | interruptReader (j : ρ) (hc : S.reader j = .c) (hl : (s.reader j).handle.isClosed = false) :
      Move (.reader j .sigint) { s with
        office := s.office.createQueue.1.sends (.reader j) s.office.createQueue.2
          (some (Reader.interrupt ((s.office.createQueue.1.queue s.office.createQueue.2).getD [])
            (s.reader j).prog).1)
        reader := Function.update s.reader j ⟨(s.reader j).handle,
          (Reader.interrupt ((s.office.createQueue.1.queue s.office.createQueue.2).getD [])
            (s.reader j).prog).2⟩ }
  | other (id : ℕ) (m : Message) (q : Queue) (hq : s.office.queue id = some q) (hm : 0 < m.type) :
      Move (.other id m) { s with office := s.office.sends .other id (some (q ++ [m])) }

variable {S s} {x : Label ω ρ} {s' : Family ω ρ}

/-- **Every step is one of the moves.** -/
theorem Setup.step_cases (h : S.machine.step s x = some s') : S.Move s x s' := by
  cases x with
  | writer i e =>
    cases e with
    | run =>
      change S.stepWriter s i .run = some s' at h
      unfold stepWriter at h
      cases hh : (s.writer i).handle with
      | unopened =>
        rw [hh] at h
        obtain rfl := Option.some.inj h
        exact .openWriter i hh
      | opened id =>
        rw [hh] at h
        obtain ⟨⟨q, w⟩, hrun, rfl⟩ := Option.map_eq_some_iff.mp h
        exact .runWriter i id q w hh hrun
      | closed id =>
        rw [hh] at h
        cases h
    | sigint =>
      obtain ⟨⟨hc, hl⟩, h⟩ := Option.ite_none_right_eq_some.mp h
      obtain rfl := Option.some.inj h
      exact .interruptWriter i hc hl
  | reader j e =>
    cases e with
    | run =>
      change S.stepReader s j .run = some s' at h
      unfold stepReader at h
      cases hh : (s.reader j).handle with
      | unopened =>
        rw [hh] at h
        obtain rfl := Option.some.inj h
        exact .openReader j hh
      | opened id =>
        rw [hh] at h
        change (if _ then _ else _) = some s' at h
        split_ifs at h with hl
        · obtain rfl := Option.some.inj h
          exact .remove j id hh hl
        · obtain ⟨⟨q, r⟩, hrun, rfl⟩ := Option.map_eq_some_iff.mp h
          exact .runReader j id q r hh hl hrun
      | closed id =>
        rw [hh] at h
        cases h
    | sigint =>
      obtain ⟨⟨hc, hl⟩, h⟩ := Option.ite_none_right_eq_some.mp h
      obtain rfl := Option.some.inj h
      exact .interruptReader j hc hl
  | other id m =>
    obtain ⟨q, hq, h⟩ := Option.bind_eq_some_iff.mp h
    obtain ⟨hm, h⟩ := Option.ite_none_right_eq_some.mp h
    obtain rfl := Option.some.inj h
    exact .other id m q hq hm

end Moves

end MessageQueue

end PosixIntro
