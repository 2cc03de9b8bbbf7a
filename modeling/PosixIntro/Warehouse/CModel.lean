import Mathlib.Data.Int.Init
import PosixIntro.Concurrency.BoundedBuffer
import PosixIntro.Concurrency.Ring
import PosixIntro.PosixSemaphore

set_option relaxedAutoImplicit false
set_option autoImplicit false

/-!
# The C warehouse (`c_lab05_b.c`)

Producers (trucks) and consumers (workers) over a circular buffer of `BUFFER_LEN` slots. The
model is statement by statement: each statement of `producer`, `consumer`, `add_to_buffer` and
`remove_from_buffer` and each round of the loop of `print_buffer` is a step of its own.

## Main definitions

* `Store` — the shared variables, the two output streams, and the history of the items.
* `Loc`, `code` — the program points of both threads and their statements.
* `program`, `machine` — the program with `nP` producers, `nC` consumers and `N` slots.
* `bufferProtocol`, `lockProtocol` — it follows the bounded-buffer and the lock protocol.

## Design

`BUFFER_LEN` is the parameter `N`, with `[NeZero N]` for `BUFFER_LEN >= 1`. Indices are `Fin N`,
so that an access outside the buffer cannot be built. The items are `int32_t` values; only `0`,
`-1` and `1` to `9` ever occur, so they are integers here.
-/

namespace PosixIntro

namespace CWarehouse

/-- The three semaphores. -/
inductive Sem where
  | semFull
  | semEmpty
  | semLock
  deriving DecidableEq

/-- The shared variables. `added` and `removed` are history: the items stored by `add_to_buffer`
and taken by `remove_from_buffer`, in this order; no statement reads them. -/
structure Store (N : ℕ) where
  buffer : Fin N → ℤ
  producerIdxBuff : Fin N
  consumerIdxBuff : Fin N
  stdout : String
  stderr : String
  added : List ℤ
  removed : List ℤ

/-- `produce`: `rand() % 9 + 1`. -/
def produce (rand : ℕ) : ℤ := ((rand % 9 : ℕ) : ℤ) + 1

/-- `print_item`. -/
def printItem (item : ℤ) : String :=
  match item with
  | 1 => "hat"
  | 2 => "phone"
  | 3 => "dress"
  | 4 => "pants"
  | 5 => "shoes"
  | 6 => "burrito"
  | 7 => "sushi"
  | 8 => "sandals"
  | 9 => "pc"
  | _ => "other"

namespace Store

variable {N : ℕ} (w : Store N)

/-- `putchar` and `printf`. -/
def printf (text : String) : Store N := { w with stdout := w.stdout ++ text }

/-- `fprintf(stderr, ..)`. -/
def eprintf (text : String) : Store N := { w with stderr := w.stderr ++ text }

/-- The first statement of `add_to_buffer`: `buffer[producer_idx_buff] = item`. -/
def storeItem (item : ℤ) : Store N :=
  { w with
    buffer := Function.update w.buffer w.producerIdxBuff item
    added := w.added ++ [item] }

/-- The second statement of `remove_from_buffer`: `buffer[consumer_idx_buff] = -1`. -/
def markSlot (item : ℤ) : Store N :=
  { w with
    buffer := Function.update w.buffer w.consumerIdxBuff (-1)
    removed := w.removed ++ [item] }

/-- The body of the loop of `print_buffer`. -/
def printSlot (i : Fin N) : Store N :=
  if w.buffer i = 0 then w.printf "0"
  else if w.buffer i = -1 then
    { w.printf "+" with buffer := Function.update w.buffer i 0 }
  else w.printf "*"

/-- The last statement of `add_to_buffer`. -/
def advanceProducer [NeZero N] : Store N :=
  { w with producerIdxBuff := Ring.next w.producerIdxBuff }

/-- The last statement of `remove_from_buffer`. -/
def advanceConsumer [NeZero N] : Store N :=
  { w with consumerIdxBuff := Ring.next w.consumerIdxBuff }

end Store

/-- The two kinds of threads. -/
inductive Role where
  | producer
  | consumer
  deriving DecidableEq

/-- The program points of `producer` and `consumer`, with their local variables. Both call
`print_buffer` and `printf` inside the lock. -/
inductive Loc where
  -- producer
  | produce
  | waitEmpty (item : ℤ)
  | lockProducer (item : ℤ)
  | storeItem (item : ℤ)
  | advanceProducer (item : ℤ)
  | unlockProducer
  | postFull
  -- consumer
  | waitFull
  | lockConsumer
  | readItem
  | markSlot (item : ℤ)
  | advanceConsumer (item : ℤ)
  | unlockConsumer (item : ℤ)
  | postEmpty (item : ℤ)
  | consume (item : ℤ)
  -- print_buffer, and the printf after it
  | printOpen (r : Role) (item : ℤ)
  | printSlot (r : Role) (item : ℤ) (i : ℕ)
  | report (r : Role) (item : ℤ)

/-- `producer_id` and `consumer_id`: the number passed to the thread, plus one. -/
def threadId {nP nC : ℕ} : Fin nP ⊕ Fin nC → ℕ
  | .inl i => i + 1
  | .inr i => i + 1

/-- The line printed inside the lock. -/
def reportLine (id : ℕ) (item : ℤ) : Role → String
  | .producer =>
    "\t\tTruck [" ++ toString id ++ "] added " ++ printItem item ++ " to warehouse\n"
  | .consumer =>
    "\t\tWorker [" ++ toString id ++ "] take " ++ printItem item ++ " from warehouse\n"

/-- `consume`: the line printed outside the lock. -/
def consumeLine (id : ℕ) (item : ℤ) : String :=
  "Worker [" ++ toString id ++ "] sending " ++ printItem item ++ " to costumer\n"

variable {nP nC N : ℕ} [NeZero N]

/-- The statements of `producer` and `consumer`. The environment's choice is the value that
`rand` returns. -/
def code (i : Fin nP ⊕ Fin nC) : Loc → Option (Stmt Sem ℕ (Store N) Loc)
  | .produce => some (.act fun rand w => some (w, .waitEmpty (produce rand)))
  | .waitEmpty item => some (rkSemaWait (.waitEmpty item) .semEmpty (.lockProducer item))
  | .lockProducer item => some (rkSemaWait (.lockProducer item) .semLock (.storeItem item))
  | .storeItem item => some (.update (·.storeItem item) (.advanceProducer item))
  | .advanceProducer item => some (.update (·.advanceProducer) (.printOpen .producer item))
  | .unlockProducer => some (rkSemaPost .semLock .postFull)
  | .postFull => some (rkSemaPost .semFull .produce)
  | .waitFull => some (rkSemaWait .waitFull .semFull .lockConsumer)
  | .lockConsumer => some (rkSemaWait .lockConsumer .semLock .readItem)
  | .readItem => some (.act fun _ w => some (w, .markSlot (w.buffer w.consumerIdxBuff)))
  | .markSlot item => some (.update (·.markSlot item) (.advanceConsumer item))
  | .advanceConsumer item => some (.update (·.advanceConsumer) (.printOpen .consumer item))
  | .unlockConsumer item => some (rkSemaPost .semLock (.postEmpty item))
  | .postEmpty item => some (rkSemaPost .semEmpty (.consume item))
  | .consume item => some (.update (·.eprintf (consumeLine (threadId i) item)) .waitFull)
  | .printOpen r item => some (.update (·.printf "[") (.printSlot r item 0))
  | .printSlot r item k =>
    if h : k < N then some (.update (·.printSlot ⟨k, h⟩) (.printSlot r item (k + 1)))
    else some (.update (·.printf "]") (.report r item))
  | .report r item =>
    some (.update (·.printf (reportLine (threadId i) item r))
      (match r with
        | .producer => .unlockProducer
        | .consumer => .unlockConsumer item))

/-- The values `init_semaphores` gives to the semaphores. With a `BUFFER_LEN` above the greatest
`int` the loops over `buffer` do not compile under `-Wall -Werror`, so none of the calls fails. -/
def initSemaphores (N : ℕ) : Sem → ℕ
  | .semFull => 0
  | .semEmpty => N
  | .semLock => 1

/-- They are what the calls of `rk_sema_init` leave in the static variables. -/
lemma initSemaphores_eq {N : ℕ} (hN : N ≤ semValueMax) :
    (rkSemaInit 0 0).2 = initSemaphores N .semFull ∧
      (rkSemaInit 0 N).2 = initSemaphores N .semEmpty ∧
      (rkSemaInit 0 1).2 = initSemaphores N .semLock :=
  ⟨rfl, by rw [rkSemaInit_of_le hN]; rfl, rfl⟩

variable (nP nC N)

/-- The program: `nP` producers and `nC` consumers, an empty buffer, no signal handler. -/
def program : Program (Fin nP ⊕ Fin nC) Sem ℕ (Store N) Loc where
  code := code
  handler _ := none
  data₀ := ⟨fun _ => 0, 0, 0, "", "", [], []⟩
  loc₀ := Sum.elim (fun _ => .produce) (fun _ => .waitFull)

/-- The interleavings of the warehouse. -/
def machine : Machine (Config (Fin nP ⊕ Fin nC) Sem (Store N) Loc)
    (Label (Fin nP ⊕ Fin nC) ℕ) :=
  (program nP nC N).machine (initSemaphores N)

variable {nP nC N}

/-! ### What the statements do -/

/-- The four calls of `rk_sema_wait`. -/
lemma code_wait {i : Fin nP ⊕ Fin nC} {l next intr : Loc} {x : Sem}
    (h : (program nP nC N).code i l = some (.wait x next intr)) :
    intr = l ∧
      ((∃ item, l = .waitEmpty item ∧ x = .semEmpty ∧ next = .lockProducer item) ∨
      (∃ item, l = .lockProducer item ∧ x = .semLock ∧ next = .storeItem item) ∨
      (l = .waitFull ∧ x = .semFull ∧ next = .lockConsumer) ∨
      (l = .lockConsumer ∧ x = .semLock ∧ next = .readItem)) := by
  cases l with
  | waitEmpty | lockProducer | waitFull | lockConsumer =>
    simp only [program, code, rkSemaWait, Option.some.injEq, Stmt.wait.injEq] at h
    obtain ⟨rfl, rfl, rfl⟩ := h
    simp
  | printSlot r item k =>
    simp only [program, code, Stmt.update] at h
    split at h <;> simp at h
  | _ => simp [program, code, rkSemaPost, Stmt.update] at h

/-- The four calls of `rk_sema_post`. -/
lemma code_post {i : Fin nP ⊕ Fin nC} {l next : Loc} {x : Sem}
    (h : (program nP nC N).code i l = some (.post x next)) :
    (l = .unlockProducer ∧ x = .semLock ∧ next = .postFull) ∨
      (l = .postFull ∧ x = .semFull ∧ next = .produce) ∨
      (∃ item, l = .unlockConsumer item ∧ x = .semLock ∧ next = .postEmpty item) ∨
      (∃ item, l = .postEmpty item ∧ x = .semEmpty ∧ next = .consume item) := by
  cases l with
  | unlockProducer | postFull | unlockConsumer | postEmpty =>
    simp only [program, code, rkSemaPost, Option.some.injEq, Stmt.post.injEq] at h
    obtain ⟨rfl, rfl⟩ := h
    simp
  | printSlot r item k =>
    simp only [program, code, Stmt.update] at h
    split at h <;> simp at h
  | _ => simp [program, code, rkSemaWait, Stmt.update] at h

/-- The statements that are not calls on a semaphore: from where to where, and the update. -/
inductive Move (i : Fin nP ⊕ Fin nC) : Loc → Store N → Loc → Store N → Prop
  | produce (rand : ℕ) (w) : Move i .produce w (.waitEmpty (produce rand)) w
  | storeItem (item : ℤ) (w) :
      Move i (.storeItem item) w (.advanceProducer item) (w.storeItem item)
  | advanceProducer (item : ℤ) (w) :
      Move i (.advanceProducer item) w (.printOpen .producer item) w.advanceProducer
  | readItem (w) : Move i .readItem w (.markSlot (w.buffer w.consumerIdxBuff)) w
  | markSlot (item : ℤ) (w) : Move i (.markSlot item) w (.advanceConsumer item) (w.markSlot item)
  | advanceConsumer (item : ℤ) (w) :
      Move i (.advanceConsumer item) w (.printOpen .consumer item) w.advanceConsumer
  | consume (item : ℤ) (w) :
      Move i (.consume item) w .waitFull (w.eprintf (consumeLine (threadId i) item))
  | printOpen (r : Role) (item : ℤ) (w) :
      Move i (.printOpen r item) w (.printSlot r item 0) (w.printf "[")
  | printSlot (r : Role) (item : ℤ) (k : Fin N) (w) :
      Move i (.printSlot r item k) w (.printSlot r item (k + 1)) (w.printSlot k)
  | printClose (r : Role) (item : ℤ) (k : ℕ) (w) (h : N ≤ k) :
      Move i (.printSlot r item k) w (.report r item) (w.printf "]")
  | reportAdd (item : ℤ) (w) : Move i (.report .producer item) w .unlockProducer
      (w.printf (reportLine (threadId i) item .producer))
  | reportRemove (item : ℤ) (w) : Move i (.report .consumer item) w (.unlockConsumer item)
      (w.printf (reportLine (threadId i) item .consumer))

/-- Every other statement is one of the moves. -/
lemma move_of_act {i : Fin nP ⊕ Fin nC} {l l' : Loc} {f : ℕ → Store N → Option (Store N × Loc)}
    {c : ℕ} {w w' : Store N} (h : (program nP nC N).code i l = some (.act f))
    (hf : f c w = some (w', l')) : Move i l w l' w' := by
  cases l with
  | waitEmpty | lockProducer | waitFull | lockConsumer =>
    simp [program, code, rkSemaWait] at h
  | unlockProducer | postFull | unlockConsumer | postEmpty =>
    simp [program, code, rkSemaPost] at h
  | produce | storeItem | advanceProducer | readItem | markSlot | advanceConsumer | consume
    | printOpen =>
    simp only [program, code, Stmt.update, Option.some.injEq, Stmt.act.injEq] at h
    subst h
    obtain ⟨rfl, rfl⟩ := by simpa using hf
    constructor
  | printSlot r item k =>
    simp only [program, code, Stmt.update] at h
    split at h
    · rename_i hk
      obtain rfl := by simpa using h
      obtain ⟨rfl, rfl⟩ := by simpa using hf
      exact .printSlot r item ⟨k, hk⟩ w
    · rename_i hk
      obtain rfl := by simpa using h
      obtain ⟨rfl, rfl⟩ := by simpa using hf
      exact .printClose r item k w (by omega)
  | report r item =>
    simp only [program, code, Stmt.update, Option.some.injEq, Stmt.act.injEq] at h
    subst h
    obtain ⟨rfl, rfl⟩ := by simpa using hf
    cases r <;> constructor

/-- `rk_sema_wait` retries. -/
lemma retries : (program nP nC N).Retries := fun _ _ _ _ _ h => (code_wait h).1

/-! ### The protocols -/

/-- What a thread holds at each program point. -/
def holding : Loc → Holding
  | .produce | .waitEmpty _ | .waitFull | .consume _ => .nothing
  | .lockProducer _ | .storeItem _ => .space
  | .advanceProducer _ | .unlockProducer | .postFull => .item
  | .lockConsumer | .readItem | .markSlot _ => .item
  | .advanceConsumer _ | .unlockConsumer _ | .postEmpty _ => .space
  | .printOpen .producer _ | .printSlot .producer _ _ | .report .producer _ => .item
  | .printOpen .consumer _ | .printSlot .consumer _ _ | .report .consumer _ => .space

omit [NeZero N] in
@[simp] lemma added_printSlot (w : Store N) (i : Fin N) :
    (w.printSlot i).added = w.added := by
  unfold Store.printSlot
  split_ifs <;> rfl

omit [NeZero N] in
@[simp] lemma removed_printSlot (w : Store N) (i : Fin N) :
    (w.printSlot i).removed = w.removed := by
  unfold Store.printSlot
  split_ifs <;> rfl

/-- The warehouse follows the bounded-buffer protocol. -/
def bufferProtocol : BufferProtocol (program nP nC N) where
  full := .semFull
  empty := .semEmpty
  full_ne_empty := by decide
  holding := holding
  adds w := w.added.length
  removes w := w.removed.length
  start i := by cases i <;> rfl
  adds_start := rfl
  removes_start := rfl
  wait h := by
    rcases code_wait h with ⟨-, ⟨_, rfl, rfl, rfl⟩ | ⟨_, rfl, rfl, rfl⟩ | ⟨rfl, rfl, rfl⟩ |
      ⟨rfl, rfl, rfl⟩⟩ <;> simp [holding]
  post h := by
    rcases code_post h with ⟨rfl, rfl, rfl⟩ | ⟨rfl, rfl, rfl⟩ | ⟨_, rfl, rfl, rfl⟩ |
      ⟨_, rfl, rfl, rfl⟩ <;> simp [holding]
  act h hf := by
    cases move_of_act h hf with
    | storeItem => exact .inr (.inl ⟨rfl, rfl, by simp [Store.storeItem], rfl⟩)
    | markSlot => exact .inr (.inr ⟨rfl, rfl, rfl, by simp [Store.markSlot]⟩)
    | printOpen r | printSlot r | printClose r =>
      cases r <;> exact .inl ⟨rfl, by simp [Store.printf], by simp [Store.printf]⟩
    | _ => exact .inl ⟨rfl, rfl, rfl⟩
  signal h := by simp [program] at h

/-- The phases of the critical section. -/
inductive Phase where
  /-- The window is exact. -/
  | exact
  /-- An item has been stored behind the window, `producer_idx_buff` is still to be advanced. -/
  | stored
  /-- The item at the start of the window has been read. -/
  | read (item : ℤ)
  /-- The slot has been marked as removed, `consumer_idx_buff` is still to be advanced. -/
  | marked
  /-- `print_buffer` has come to slot `k`. -/
  | printing (k : ℕ)

/-- The phase of a program point, `none` where the thread does not hold `sem_lock`. -/
def phase : Loc → Option Phase
  | .storeItem _ | .readItem | .report _ _ | .unlockProducer | .unlockConsumer _ => some .exact
  | .advanceProducer _ => some .stored
  | .markSlot item => some (.read item)
  | .advanceConsumer _ => some .marked
  | .printOpen _ _ => some (.printing 0)
  | .printSlot _ _ k => some (.printing k)
  | _ => none

/-- The critical sections follow the lock protocol. -/
def lockProtocol : LockProtocol (program nP nC N) Phase where
  lock := .semLock
  phase := phase
  start i := by cases i <;> rfl
  wait h := by
    rcases code_wait h with ⟨-, ⟨_, rfl, rfl, rfl⟩ | ⟨_, rfl, rfl, rfl⟩ | ⟨rfl, rfl, rfl⟩ |
      ⟨rfl, rfl, rfl⟩⟩ <;> simp [phase]
  post h := by
    rcases code_post h with ⟨rfl, rfl, rfl⟩ | ⟨rfl, rfl, rfl⟩ | ⟨_, rfl, rfl, rfl⟩ |
      ⟨_, rfl, rfl, rfl⟩ <;> simp [phase]
  act h hf := by cases move_of_act h hf <;> simp [phase]

end CWarehouse

end PosixIntro
