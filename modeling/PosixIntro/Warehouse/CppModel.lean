import PosixIntro.Concurrency.BoundedBuffer
import PosixIntro.Concurrency.Ring
import PosixIntro.PosixSemaphore

set_option relaxedAutoImplicit false
set_option autoImplicit false

/-!
# The C++ warehouse (`buffer.hh`, `ProducerConsumer::Semaphore`)

The template `Semaphore<BUFFER_LEN>` with its SIGINT handler. The slots carry no items, only
whether they are empty, taken or recently emptied. Each statement of `producer` and `consumer`
is a step of its own, the loop test `while (running)` included. `BUFFER_LEN` is a `std::size_t`, and
may be more than the semaphore `sem_empty` can hold.

## Main definitions

* `Slot`, `Store` — the slot array `cont` and the other members.
* `Loc`, `code`, `program`, `machine` — the program points, the statements and the interleavings.

## Main results

* `code_wait`, `code_post`, `move_of_act` — everything a statement can do.
* `bufferProtocol`, `lockProtocol` — the disciplines the threads follow.
-/

namespace PosixIntro

namespace CppWarehouse

/-- The three semaphores. -/
inductive Sem where
  | semFull
  | semEmpty
  | semLock
  deriving DecidableEq

/-- `enum class Slot`. -/
inductive Slot where
  | EMPTY
  | TAKEN
  | RECENTLY
  deriving DecidableEq

/-- `operator<<` for a slot. -/
def Slot.text : Slot → String
  | .EMPTY => "0"
  | .TAKEN => "+"
  | .RECENTLY => "*"

/-- The members of `Semaphore`. `produced` and `consumed` are history: how many critical
sections of producers have taken a slot, and how many of consumers have emptied one; no
statement reads them. -/
structure Store (N : ℕ) where
  cont : Fin N → Slot
  producerIdx : Fin N
  consumerIdx : Fin N
  running : Bool
  stdout : String
  produced : ℕ
  consumed : ℕ

namespace Store

variable {N : ℕ} (w : Store N)

/-- `cont[producer_idx] = Slot::TAKEN`. -/
def takeSlot : Store N :=
  { w with
    cont := Function.update w.cont w.producerIdx .TAKEN
    produced := w.produced + 1 }

/-- `cont[consumer_idx] = Slot::RECENTLY`. -/
def markSlot : Store N :=
  { w with
    cont := Function.update w.cont w.consumerIdx .RECENTLY
    consumed := w.consumed + 1 }

/-- `cont[consumer_idx] = Slot::EMPTY`. -/
def clearSlot : Store N := { w with cont := Function.update w.cont w.consumerIdx .EMPTY }

/-- `producer_idx = (producer_idx + 1) % BUFFER_LEN`. -/
def advanceProducer [NeZero N] : Store N := { w with producerIdx := Ring.next w.producerIdx }

/-- `consumer_idx = (consumer_idx + 1) % BUFFER_LEN`. -/
def advanceConsumer [NeZero N] : Store N := { w with consumerIdx := Ring.next w.consumerIdx }

/-- `std::cout << *this`. -/
def print : Store N :=
  { w with
    stdout := w.stdout ++ "[" ++ String.join ((List.finRange N).map fun i => (w.cont i).text) ++
      "]\n" }

/-- The SIGINT handler. -/
def handler : Store N :=
  { w with
    running := false
    stdout := w.stdout ++ "shutting down producer consumer: 2\n" }

end Store

/-- The program points of `producer` and `consumer`. -/
inductive Loc where
  -- producer
  | producerTest
  | waitEmpty
  | lockProducer
  | takeSlot
  | printTaken
  | advanceProducer
  | unlockProducer
  | postFull
  -- consumer
  | consumerTest
  | waitFull
  | lockConsumer
  | markSlot
  | advanceConsumer
  | printMarked
  | clearSlot
  | unlockConsumer
  | postEmpty
  -- the thread has returned
  | returned
  deriving DecidableEq

variable {nP nC N : ℕ} [NeZero N]

/-- The statements of `producer` and `consumer`. -/
def code : Loc → Option (Stmt Sem Unit (Store N) Loc)
  | .producerTest => some (.act fun _ w => some (w, if w.running then .waitEmpty else .returned))
  | .waitEmpty => some (rkSemaWait .waitEmpty .semEmpty .lockProducer)
  | .lockProducer => some (rkSemaWait .lockProducer .semLock .takeSlot)
  | .takeSlot => some (.update (·.takeSlot) .printTaken)
  | .printTaken => some (.update (·.print) .advanceProducer)
  | .advanceProducer => some (.update (·.advanceProducer) .unlockProducer)
  | .unlockProducer => some (rkSemaPost .semLock .postFull)
  | .postFull => some (rkSemaPost .semFull .producerTest)
  | .consumerTest => some (.act fun _ w => some (w, if w.running then .waitFull else .returned))
  | .waitFull => some (rkSemaWait .waitFull .semFull .lockConsumer)
  | .lockConsumer => some (rkSemaWait .lockConsumer .semLock .markSlot)
  | .markSlot => some (.update (·.markSlot) .advanceConsumer)
  | .advanceConsumer => some (.update (·.advanceConsumer) .printMarked)
  | .printMarked => some (.update (·.print) .clearSlot)
  | .clearSlot => some (.update (·.clearSlot) .unlockConsumer)
  | .unlockConsumer => some (rkSemaPost .semLock .postEmpty)
  | .postEmpty => some (rkSemaPost .semEmpty .consumerTest)
  | .returned => none

/-- What the constructor leaves in the semaphores, whose memory holds `mem` before. It reports a
failure of `rk_sema_init` on `std::cerr` and goes on. -/
def initSemaphores (mem : Sem → ℕ) (N : ℕ) : Sem → ℕ
  | .semFull => (rkSemaInit (mem .semFull) 0).2
  | .semEmpty => (rkSemaInit (mem .semEmpty) N).2
  | .semLock => (rkSemaInit (mem .semLock) 1).2

/-- The free places at the start: `BUFFER_LEN`, unless that is more than a semaphore can hold. -/
lemma initSemaphores_semEmpty {mem : Sem → ℕ} {N : ℕ} (hN : N ≤ semValueMax) :
    initSemaphores mem N .semEmpty = N := by
  rw [initSemaphores, rkSemaInit_of_le hN]

variable (nP nC N) (mem : Sem → ℕ)

/-- The program: `n_producers` and `n_consumers` threads over an empty buffer, with the SIGINT
handler of the constructor installed. -/
def program : Program (Fin nP ⊕ Fin nC) Sem Unit (Store N) Loc where
  code _ := code
  handler w := some w.handler
  data₀ := ⟨fun _ => .EMPTY, 0, 0, true, "", 0, 0⟩
  loc₀ := Sum.elim (fun _ => .producerTest) (fun _ => .consumerTest)

/-- The interleavings of the warehouse. -/
def machine : Machine (Config (Fin nP ⊕ Fin nC) Sem (Store N) Loc)
    (Label (Fin nP ⊕ Fin nC) Unit) :=
  (program nP nC N).machine (initSemaphores mem N)

variable {nP nC N} {mem : Sem → ℕ}

/-! ### What the statements do -/

/-- The four calls of `rk_sema_wait`. -/
lemma code_wait {i : Fin nP ⊕ Fin nC} {l next intr : Loc} {x : Sem}
    (h : (program nP nC N).code i l = some (.wait x next intr)) :
    intr = l ∧
      ((l = .waitEmpty ∧ x = .semEmpty ∧ next = .lockProducer) ∨
      (l = .lockProducer ∧ x = .semLock ∧ next = .takeSlot) ∨
      (l = .waitFull ∧ x = .semFull ∧ next = .lockConsumer) ∨
      (l = .lockConsumer ∧ x = .semLock ∧ next = .markSlot)) := by
  cases l with
  | waitEmpty | lockProducer | waitFull | lockConsumer =>
    simp only [program, code, rkSemaWait, Option.some.injEq, Stmt.wait.injEq] at h
    obtain ⟨rfl, rfl, rfl⟩ := h
    simp
  | _ => simp [program, code, rkSemaPost, Stmt.update] at h

/-- The four calls of `rk_sema_post`. -/
lemma code_post {i : Fin nP ⊕ Fin nC} {l next : Loc} {x : Sem}
    (h : (program nP nC N).code i l = some (.post x next)) :
    (l = .unlockProducer ∧ x = .semLock ∧ next = .postFull) ∨
      (l = .postFull ∧ x = .semFull ∧ next = .producerTest) ∨
      (l = .unlockConsumer ∧ x = .semLock ∧ next = .postEmpty) ∨
      (l = .postEmpty ∧ x = .semEmpty ∧ next = .consumerTest) := by
  cases l with
  | unlockProducer | postFull | unlockConsumer | postEmpty =>
    simp only [program, code, rkSemaPost, Option.some.injEq, Stmt.post.injEq] at h
    obtain ⟨rfl, rfl⟩ := h
    simp
  | _ => simp [program, code, rkSemaWait, Stmt.update] at h

/-- The statements that are not calls on a semaphore: from where to where, and the update. -/
inductive Move : Loc → Store N → Loc → Store N → Prop
  | producerLoop (w) (h : w.running = true) : Move .producerTest w .waitEmpty w
  | producerExit (w) (h : w.running = false) : Move .producerTest w .returned w
  | takeSlot (w) : Move .takeSlot w .printTaken w.takeSlot
  | printTaken (w) : Move .printTaken w .advanceProducer w.print
  | advanceProducer (w) : Move .advanceProducer w .unlockProducer w.advanceProducer
  | consumerLoop (w) (h : w.running = true) : Move .consumerTest w .waitFull w
  | consumerExit (w) (h : w.running = false) : Move .consumerTest w .returned w
  | markSlot (w) : Move .markSlot w .advanceConsumer w.markSlot
  | advanceConsumer (w) : Move .advanceConsumer w .printMarked w.advanceConsumer
  | printMarked (w) : Move .printMarked w .clearSlot w.print
  | clearSlot (w) : Move .clearSlot w .unlockConsumer w.clearSlot

/-- Every other statement is one of the moves. -/
lemma move_of_act {i : Fin nP ⊕ Fin nC} {l l' : Loc} {f : Unit → Store N → Option (Store N × Loc)}
    {c : Unit} {w w' : Store N} (h : (program nP nC N).code i l = some (.act f))
    (hf : f c w = some (w', l')) : Move l w l' w' := by
  cases l with
  | waitEmpty | lockProducer | waitFull | lockConsumer =>
    simp [program, code, rkSemaWait] at h
  | unlockProducer | postFull | unlockConsumer | postEmpty =>
    simp [program, code, rkSemaPost] at h
  | returned => simp [program, code] at h
  | producerTest | consumerTest =>
    simp only [program, code, Option.some.injEq, Stmt.act.injEq] at h
    subst h
    obtain ⟨rfl, rfl⟩ := by simpa using hf
    cases hrun : w.running
    · constructor
      exact hrun
    · constructor
      exact hrun
  | takeSlot | printTaken | advanceProducer | markSlot | advanceConsumer | printMarked
    | clearSlot =>
    simp only [program, code, Stmt.update, Option.some.injEq, Stmt.act.injEq] at h
    subst h
    obtain ⟨rfl, rfl⟩ := by simpa using hf
    constructor

/-- `rk_sema_wait` retries. -/
lemma retries : (program nP nC N).Retries := fun _ _ _ _ _ h => (code_wait h).1

/-- Only `rk_sema_wait` blocks. -/
lemma act_total (i : Fin nP ⊕ Fin nC) (l : Loc) (f : Unit → Store N → Option (Store N × Loc))
    (w : Store N) (h : (program nP nC N).code i l = some (.act f)) : ∃ c r, f c w = some r := by
  refine ⟨(), ?_⟩
  cases l <;> simp [program, code, rkSemaWait, rkSemaPost, Stmt.update] at h <;> subst h <;> simp

/-- The only thread without a next statement has returned. -/
lemma code_eq_none {i : Fin nP ⊕ Fin nC} {l : Loc} :
    (program nP nC N).code i l = none ↔ l = .returned := by
  cases l <;> simp [program, code]

/-! ### The protocols -/

/-- What a thread holds at each program point. -/
def holding : Loc → Holding
  | .producerTest | .waitEmpty | .consumerTest | .waitFull | .returned => .nothing
  | .lockProducer | .takeSlot => .space
  | .printTaken | .advanceProducer | .unlockProducer | .postFull => .item
  | .lockConsumer | .markSlot => .item
  | .advanceConsumer | .printMarked | .clearSlot | .unlockConsumer | .postEmpty => .space

/-- The warehouse follows the bounded-buffer protocol. -/
def bufferProtocol : BufferProtocol (program nP nC N) where
  full := .semFull
  empty := .semEmpty
  full_ne_empty := by decide
  holding := holding
  adds w := w.produced
  removes w := w.consumed
  start i := by cases i <;> rfl
  adds_start := rfl
  removes_start := rfl
  wait h := by
    rcases code_wait h with ⟨-, ⟨rfl, rfl, rfl⟩ | ⟨rfl, rfl, rfl⟩ | ⟨rfl, rfl, rfl⟩ |
      ⟨rfl, rfl, rfl⟩⟩ <;> simp [holding]
  post h := by
    rcases code_post h with ⟨rfl, rfl, rfl⟩ | ⟨rfl, rfl, rfl⟩ | ⟨rfl, rfl, rfl⟩ |
      ⟨rfl, rfl, rfl⟩ <;> simp [holding]
  act h hf := by
    cases move_of_act h hf with
    | takeSlot => exact .inr (.inl ⟨rfl, rfl, rfl, rfl⟩)
    | markSlot => exact .inr (.inr ⟨rfl, rfl, rfl, rfl⟩)
    | _ => exact .inl ⟨rfl, rfl, rfl⟩
  signal h := by
    obtain rfl := by simpa [program] using h
    exact ⟨rfl, rfl⟩

/-- The phases of the critical section. -/
inductive Phase where
  /-- The indices and the slots agree. -/
  | exact
  /-- A slot has been taken, `producer_idx` is still to be advanced. -/
  | taken
  /-- A slot has been marked, `consumer_idx` is still to be advanced. -/
  | marked
  /-- `consumer_idx` has been advanced, `cont[consumer_idx] = Slot::EMPTY` is still to come. -/
  | clearing

/-- The phase of a program point, `none` where the thread does not hold `sem_lock`. -/
def phase : Loc → Option Phase
  | .takeSlot | .unlockProducer | .markSlot | .unlockConsumer => some .exact
  | .printTaken | .advanceProducer => some .taken
  | .advanceConsumer => some .marked
  | .printMarked | .clearSlot => some .clearing
  | _ => none

/-- The critical sections follow the lock protocol. -/
def lockProtocol : LockProtocol (program nP nC N) Phase where
  lock := .semLock
  phase := phase
  start i := by cases i <;> rfl
  wait h := by
    rcases code_wait h with ⟨-, ⟨rfl, rfl, rfl⟩ | ⟨rfl, rfl, rfl⟩ | ⟨rfl, rfl, rfl⟩ |
      ⟨rfl, rfl, rfl⟩⟩ <;> simp [phase]
  post h := by
    rcases code_post h with ⟨rfl, rfl, rfl⟩ | ⟨rfl, rfl, rfl⟩ | ⟨rfl, rfl, rfl⟩ |
      ⟨rfl, rfl, rfl⟩ <;> simp [phase]
  act h hf := by cases move_of_act h hf <;> simp [phase]

/-- The program points of `producer` and of `consumer`. -/
def Runs : Fin nP ⊕ Fin nC → Loc → Prop
  | .inl _ => fun l => match l with
    | .producerTest | .waitEmpty | .lockProducer | .takeSlot | .printTaken | .advanceProducer
    | .unlockProducer | .postFull | .returned => True
    | _ => False
  | .inr _ => fun l => match l with
    | .consumerTest | .waitFull | .lockConsumer | .markSlot | .advanceConsumer | .printMarked
    | .clearSlot | .unlockConsumer | .postEmpty | .returned => True
    | _ => False

/-- Producers run `producer` and consumers run `consumer`. -/
lemma runs {s : Config (Fin nP ⊕ Fin nC) Sem (Store N) Loc} (h : (machine nP nC N mem).Reach s)
    (i : Fin nP ⊕ Fin nC) : Runs i (s.loc i) := by
  refine Program.loc_invariant retries Runs (fun i => by cases i <;> trivial) ?_ ?_ ?_ h i
  · intro i l x next intr hst hl
    rcases code_wait hst with ⟨-, ⟨rfl, rfl, rfl⟩ | ⟨rfl, rfl, rfl⟩ | ⟨rfl, rfl, rfl⟩ |
      ⟨rfl, rfl, rfl⟩⟩ <;> cases i <;> exact hl
  · intro i l x next hst hl
    rcases code_post hst with ⟨rfl, rfl, rfl⟩ | ⟨rfl, rfl, rfl⟩ | ⟨rfl, rfl, rfl⟩ |
      ⟨rfl, rfl, rfl⟩ <;> cases i <;> exact hl
  · intro i l f c d d' l' hst hf hl
    cases move_of_act hst hf <;> cases i <;> first | exact hl | trivial

end CppWarehouse

end PosixIntro
