import Mathlib.Data.List.TakeWhile
import PosixIntro.MessageQueue.Family

set_option relaxedAutoImplicit false
set_option autoImplicit false

/-!
# The C programs in the traffic of others

A C writer and a C reader share a queue with other processes, which may send to it, receive any
message from it and remove it: every reader that leaves its loop does so.

## Main definitions

* `Box`, `Traffic` — the queue of the two programs, and what others do with it.
* `cPrograms` — the two programs among the others.
* `Opens`, `KeepsText`, `Fits` — what the messages for the reader do to its text.
* `ahead` — how many messages it has to take before the first one with `'0'`.

## Main results

* `Writer.runOn_cases`, `Reader.runOn_cases` — what the statements of the programs do.
* `Opens.append`, `opens_eraseP` — how the messages ahead change.

## Design

The handler calls `create_queue` itself, so after a removal it sends to a new queue, from which
neither program receives.
-/

namespace PosixIntro

namespace MessageQueue

/-! ### The queue and the others -/

/-- The queue of the two programs, `none` when it has been removed, and what their handlers have
sent to the queue that has the key after that. -/
structure Box where
  queue : Option Queue
  renewed : Queue

/-- What another process does with the queue. -/
inductive Traffic where
  /-- `msgsnd`. -/
  | send (m : Message)
  /-- `msgrcv` of the message at a place of the queue. -/
  | receive (i : ℕ)
  /-- `msgctl(id, IPC_RMID, NULL)`. -/
  | remove

namespace Box

variable (b : Box)

/-- A step of another process. -/
def traffic : Traffic → Option Box
  | .send m => b.queue.bind fun q =>
      if 0 < m.type then some { b with queue := some (q ++ [m]) } else none
  | .receive i => b.queue.bind fun q =>
      if i < q.length then some { b with queue := some (q.eraseIdx i) } else none
  | .remove => b.queue.map fun _ => { b with queue := none }

/-- A handler acts on the queue that the key leads to. -/
def atKey {α : Type*} (handler : Queue → Queue × α) : Box × α :=
  match b.queue with
  | some q => ({ b with queue := some (handler q).1 }, (handler q).2)
  | none => ({ b with renewed := (handler b.renewed).1 }, (handler b.renewed).2)

end Box

/-- A C writer and a C reader, and others who use the queue as they like. -/
def cPrograms (typed : ℕ → Option (InputLine bufferSize)) :
    Duo Box Writer Reader Event Event Traffic where
  shared₀ := ⟨some [], []⟩
  left₀ := ⟨.start, .zero, 0, false, [], []⟩
  right₀ := ⟨.call, .zero, false, [], []⟩
  left e b w :=
    match e with
    | .run => (w.runOn .c typed b.queue).map fun x => ({ b with queue := x.1 }, x.2)
    | .sigint => if w.loc ≠ .left then some (b.atKey fun q => w.interrupt q) else none
  right e b r :=
    match e with
    | .run => (r.runOn .c b.queue).map fun x => ({ b with queue := x.1 }, x.2)
    | .sigint => if r.loc ≠ .left then some (b.atKey fun q => r.interrupt q) else none
  env t b := b.traffic t

/-! ### What the statements do -/

section Statements

variable {typed : ℕ → Option (InputLine bufferSize)} {b b' : Box} {w w' : Writer} {r r' : Reader}
  {q? q?' : Option Queue}

/-- A statement of the writer: one of its moves, on the queue or, when that has been removed, on
none. -/
lemma Writer.runOn_cases (h : w.runOn .c typed q? = some (q?', w')) :
    ∃ q q', WriterMove .c typed q w w.loc q' w' ∧
      ((q? = some q ∧ q?' = some q') ∨ (q? = none ∧ q?' = none)) := by
  cases q? with
  | some q =>
    obtain ⟨⟨q', w₁⟩, hrun, heq⟩ := Option.map_eq_some_iff.mp h
    obtain ⟨rfl, rfl⟩ := Prod.mk.inj heq
    exact ⟨q, q', writer_cases hrun, .inl ⟨rfl, rfl⟩⟩
  | none =>
    obtain ⟨⟨q', w₁⟩, hrun, heq⟩ := Option.map_eq_some_iff.mp h
    obtain ⟨rfl, rfl⟩ := Prod.mk.inj heq
    exact ⟨[], q', writer_cases hrun, .inr ⟨rfl, rfl⟩⟩

/-- A statement of a reader whose queue has been removed. -/
inductive Reader.RemovedMove (r : Reader) : Reader.Loc → Reader → Prop
  | call : RemovedMove r .call { r with loc := .inside }
  | fails : RemovedMove r .inside { r with loc := .display }
  | display : RemovedMove r .display
      { r with loc := .test, displayed := r.displayed ++ [r.msg.text.text] }
  | testZero (h : r.msg.text.StartsZero) : RemovedMove r .test { r with loc := .left }
  | testOther (h : ¬ r.msg.text.StartsZero) : RemovedMove r .test { r with loc := .call }

/-- A statement of the reader: one of its moves on the queue, or one without a queue. -/
lemma Reader.runOn_cases (h : r.runOn .c q? = some (q?', r')) :
    (∃ q q', q? = some q ∧ q?' = some q' ∧ ReaderMove .c q r r.loc q' r') ∨
      (q? = none ∧ q?' = none ∧ r.RemovedMove r.loc r') := by
  cases q? with
  | some q =>
    obtain ⟨⟨q', r₁⟩, hrun, heq⟩ := Option.map_eq_some_iff.mp h
    obtain ⟨rfl, rfl⟩ := Prod.mk.inj heq
    exact .inl ⟨q, q', rfl, rfl, reader_cases hrun⟩
  | none =>
    right
    unfold Reader.runOn at h
    split_ifs at h with hl
    · obtain ⟨rfl, rfl⟩ := Prod.mk.inj (Option.some.inj h)
      exact ⟨rfl, rfl, hl ▸ .fails⟩
    · obtain ⟨⟨q', r₁⟩, hrun, heq⟩ := Option.map_eq_some_iff.mp h
      obtain ⟨rfl, rfl⟩ := Prod.mk.inj heq
      have hmove := reader_cases hrun
      refine ⟨rfl, rfl, ?_⟩
      generalize r.loc = loc at hmove hl
      cases hmove with
      | call => exact .call
      | receive m hm hle => exact absurd rfl hl
      | tooLong m hm hlt => exact absurd rfl hl
      | display => exact .display
      | testZero hz => exact .testZero hz
      | testOther hno => exact .testOther hno

/-- A step of the writer. -/
lemma cPrograms_left {e : Event} (h : (cPrograms typed).left e b w = some (b', w')) :
    (e = .run ∧ ∃ q?, w.runOn .c typed b.queue = some (q?, w') ∧ b' = { b with queue := q? }) ∨
      (e = .sigint ∧ w.loc ≠ .left ∧ (b', w') = b.atKey fun q => w.interrupt q) := by
  cases e with
  | run =>
    obtain ⟨⟨q?, w₁⟩, hrun, heq⟩ := Option.map_eq_some_iff.mp h
    obtain ⟨rfl, rfl⟩ := Prod.mk.inj heq
    exact .inl ⟨rfl, q?, hrun, rfl⟩
  | sigint =>
    obtain ⟨hl, heq⟩ := Option.ite_none_right_eq_some.mp h
    exact .inr ⟨rfl, hl, (Option.some.inj heq).symm⟩

/-- A step of the reader. -/
lemma cPrograms_right {e : Event} (h : (cPrograms typed).right e b r = some (b', r')) :
    (e = .run ∧ ∃ q?, r.runOn .c b.queue = some (q?, r') ∧ b' = { b with queue := q? }) ∨
      (e = .sigint ∧ r.loc ≠ .left ∧ (b', r') = b.atKey fun q => r.interrupt q) := by
  cases e with
  | run =>
    obtain ⟨⟨q?, r₁⟩, hrun, heq⟩ := Option.map_eq_some_iff.mp h
    obtain ⟨rfl, rfl⟩ := Prod.mk.inj heq
    exact .inl ⟨rfl, q?, hrun, rfl⟩
  | sigint =>
    obtain ⟨hl, heq⟩ := Option.ite_none_right_eq_some.mp h
    exact .inr ⟨rfl, hl, (Option.some.inj heq).symm⟩

/-- A step of another process. -/
lemma traffic_cases {t : Traffic} (h : b.traffic t = some b') :
    (∃ m q, t = .send m ∧ b.queue = some q ∧ b'.queue = some (q ++ [m])) ∨
      (∃ i q, t = .receive i ∧ b.queue = some q ∧ b'.queue = some (q.eraseIdx i)) ∨
      (t = .remove ∧ (∃ q, b.queue = some q) ∧ b'.queue = none) := by
  cases t with
  | send m =>
    obtain ⟨q, hq, h⟩ := Option.bind_eq_some_iff.mp h
    obtain ⟨-, heq⟩ := Option.ite_none_right_eq_some.mp h
    obtain rfl := Option.some.inj heq
    exact .inl ⟨m, q, rfl, hq, rfl⟩
  | receive i =>
    obtain ⟨q, hq, h⟩ := Option.bind_eq_some_iff.mp h
    obtain ⟨-, heq⟩ := Option.ite_none_right_eq_some.mp h
    obtain rfl := Option.some.inj heq
    exact .inr (.inl ⟨i, q, rfl, hq, rfl⟩)
  | remove =>
    obtain ⟨q, hq, rfl⟩ := Option.map_eq_some_iff.mp h
    exact .inr (.inr ⟨rfl, ⟨q, hq⟩, rfl⟩)

end Statements

/-! ### The messages for the reader -/

/-- The messages for the reader that it can take: those ahead of the first one that is too long. -/
def reachable (q : Queue) : Queue :=
  (q.filter Message.isWanted).takeWhile fun m => m.payload.length ≤ structSize

/-- Among the messages that the reader can take one begins with `'0'`. -/
def Opens (q : Queue) : Prop := ∃ m ∈ reachable q, m.StartsZero

/-- The first message for the reader leaves its text alone: it is too long or it has no text. -/
def KeepsText (q : Queue) : Prop :=
  ∃ m ∈ (q.filter Message.isWanted).head?, structSize < m.payload.length ∨ m.payload = []

/-- The reader can take every message that is there for it. -/
def Fits (q : Queue) : Prop := ∀ m ∈ q.filter Message.isWanted, m.payload.length ≤ structSize

/-- How many messages the reader takes before the first one that begins with `'0'`. -/
def ahead (q : Queue) : ℕ := ((reachable q).takeWhile fun m => ¬ m.StartsZero).length

instance (q : Queue) : Decidable (Opens q) :=
  inferInstanceAs (Decidable (∃ m ∈ reachable q, m.StartsZero))

instance (q : Queue) : Decidable (Fits q) :=
  inferInstanceAs (Decidable (∀ m ∈ q.filter Message.isWanted, _))

instance (q : Queue) : Decidable (KeepsText q) :=
  inferInstanceAs (Decidable (∃ m ∈ (q.filter Message.isWanted).head?, _))

section Queues

variable {q : Queue} {m : Message}

/-- `msgrcv` takes the first message for the reader. -/
lemma filter_of_find (h : q.find? Message.isWanted = some m) :
    q.filter Message.isWanted = m :: (q.eraseP Message.isWanted).filter Message.isWanted := by
  obtain ⟨hm, front, back, rfl, hfront⟩ := List.find?_eq_some_iff_append.mp h
  have hnone : ∀ b ∈ front, ¬ b.isWanted = true := fun b hb => by simpa using hfront b hb
  have hempty : front.filter Message.isWanted = [] := List.filter_eq_nil_iff.mpr hnone
  rw [List.eraseP_append_right _ hnone, List.eraseP_cons_of_pos hm]
  simp [List.filter_append, hempty, hm]

/-- The message that `msgrcv` is about to take decides about the text. -/
lemma keepsText_iff (h : q.find? Message.isWanted = some m) :
    KeepsText q ↔ structSize < m.payload.length ∨ m.payload = [] := by
  simp [KeepsText, filter_of_find h]

/-- A message that fits is the first one that the reader can take. -/
lemma reachable_of_find (h : q.find? Message.isWanted = some m)
    (hle : m.payload.length ≤ structSize) :
    reachable q = m :: reachable (q.eraseP Message.isWanted) := by
  rw [reachable, filter_of_find h, List.takeWhile_cons_of_pos (by simpa using hle)]
  rfl

/-- Nothing can be taken behind a message that is too long. -/
lemma not_opens_of_find (h : q.find? Message.isWanted = some m)
    (hlt : structSize < m.payload.length) : ¬ Opens q := by
  rintro ⟨m', hm', -⟩
  rw [reachable, filter_of_find h, List.takeWhile_cons_of_neg (by simpa using hlt)] at hm'
  exact List.not_mem_nil hm'

/-- A message for the reader makes `msgrcv` return. -/
lemma Opens.exists_wanted (h : Opens q) : ∃ m ∈ q, m.isWanted := by
  obtain ⟨m, hm, -⟩ := h
  exact ⟨m, List.mem_filter.mp ((List.takeWhile_prefix _).subset hm)⟩

lemma KeepsText.exists_wanted (h : KeepsText q) : ∃ m ∈ q, m.isWanted := by
  obtain ⟨m, hm, -⟩ := h
  exact ⟨m, List.mem_filter.mp (List.mem_of_mem_head? hm)⟩

/-- What is sent does not come first. -/
lemma KeepsText.append (h : KeepsText q) (x : Queue) : KeepsText (q ++ x) := by
  obtain ⟨m, hm, hkeep⟩ := h
  obtain ⟨front, hfront⟩ := List.head?_eq_some_iff.mp (Option.mem_def.mp hm)
  exact ⟨m, by simp [hfront], hkeep⟩

/-- A message with `'0'` that fits does not leave the text alone. -/
lemma keepsText_append_iff (hz : m.StartsZero) (hle : m.payload.length ≤ structSize) :
    KeepsText (q ++ [m]) ↔ KeepsText q := by
  refine ⟨?_, fun h => h.append _⟩
  rintro ⟨m', hm', hkeep⟩
  rw [List.filter_append] at hm'
  cases hfront : q.filter Message.isWanted with
  | nil =>
    rw [hfront] at hm'
    have hmem : m' ∈ [m].filter Message.isWanted := List.mem_of_mem_head? hm'
    obtain rfl := List.mem_singleton.mp (List.mem_of_mem_filter hmem)
    rcases hkeep with hlt | hnil
    · omega
    · simp [Message.StartsZero, hnil] at hz
  | cons m₁ front =>
    rw [hfront] at hm'
    exact ⟨m', by rwa [hfront], hkeep⟩

/-- What can be taken stays so. -/
lemma reachable_append (q x : Queue) : reachable q <+: reachable (q ++ x) := by
  rw [reachable, reachable, List.filter_append, List.takeWhile_append]
  split_ifs with hlen
  · rw [(List.takeWhile_prefix _).eq_of_length hlen]
    exact List.prefix_append _ _
  · exact List.prefix_refl _

lemma Opens.append (h : Opens q) (x : Queue) : Opens (q ++ x) := by
  obtain ⟨m, hm, hz⟩ := h
  exact ⟨m, (reachable_append q x).subset hm, hz⟩

/-- What is sent is not ahead of the first message with `'0'`. -/
lemma ahead_append (h : Opens q) (x : Queue) : ahead (q ++ x) = ahead q := by
  obtain ⟨m, hm, hz⟩ := h
  obtain ⟨y, hy⟩ := reachable_append q x
  have hne : ((reachable q).takeWhile fun m => ¬ m.StartsZero).length ≠ (reachable q).length := by
    intro hlen
    rw [← (List.takeWhile_prefix _).eq_of_length hlen] at hm
    simpa [hz] using List.mem_takeWhile_imp hm
  rw [ahead, ahead, ← hy, List.takeWhile_append, if_neg hne]

/-- The message with `'0'` stays when another one is taken, and comes closer. -/
lemma opens_eraseP (hfind : q.find? Message.isWanted = some m)
    (hle : m.payload.length ≤ structSize) (hm : ¬ m.StartsZero) :
    (Opens (q.eraseP Message.isWanted) ↔ Opens q) ∧
      ahead (q.eraseP Message.isWanted) + 1 = ahead q := by
  constructor
  · simp [Opens, reachable_of_find hfind hle, hm]
  · rw [ahead, ahead, reachable_of_find hfind hle,
      List.takeWhile_cons_of_pos (by simpa using hm), List.length_cons]

/-- A message with `'0'` that can be taken lets the reader leave. -/
lemma opens_of_find (hfind : q.find? Message.isWanted = some m)
    (hle : m.payload.length ≤ structSize) (hm : m.StartsZero) : Opens q :=
  ⟨m, by simp [reachable_of_find hfind hle], hm⟩

/-- Everything that fits can be taken. -/
lemma Fits.reachable_eq (h : Fits q) : reachable q = q.filter Message.isWanted :=
  List.takeWhile_eq_self_iff.mpr fun m hm => by simpa using h m hm

/-- A message with `'0'` that is sent behind messages that fit can be taken. -/
lemma opens_append_iff {m : Message} (hz : m.StartsZero) (hw : m.isWanted)
    (hle : m.payload.length ≤ structSize) : Opens (q ++ [m]) ↔ Opens q ∨ Fits q := by
  by_cases hfits : Fits q
  · refine iff_of_true ⟨m, ?_, hz⟩ (.inr hfits)
    have hfits' : Fits (q ++ [m]) := by
      intro m' hm'
      rw [List.filter_append] at hm'
      rcases List.mem_append.mp hm' with hm' | hm'
      · exact hfits m' hm'
      · obtain rfl := List.mem_singleton.mp (List.mem_of_mem_filter hm')
        exact hle
    rw [hfits'.reachable_eq]
    simp [hw]
  · have heq : reachable (q ++ [m]) = reachable q := by
      rw [reachable, List.filter_append, List.takeWhile_append, if_neg]
      · rfl
      · intro hlen
        refine hfits fun m' hm' => ?_
        rw [← (List.takeWhile_prefix _).eq_of_length hlen] at hm'
        simpa using List.mem_takeWhile_imp hm'
    simp [Opens, heq, hfits]

/-- A message for somebody else changes nothing for the reader. -/
lemma filter_append_of_not_wanted {m : Message} (hw : ¬ m.isWanted) :
    (q ++ [m]).filter Message.isWanted = q.filter Message.isWanted := by
  simp [List.filter_append, hw]

end Queues

end MessageQueue

end PosixIntro
