import PosixIntro.Concurrency.BoundedBuffer
import PosixIntro.Concurrency.Ring
import PosixIntro.RustSemaphore.Model

set_option relaxedAutoImplicit false
set_option autoImplicit false

/-!
# The Rust warehouse (`r_lab05_b.rs`)

The ring buffer `Buffer` inside a `Mutex`, and the closures of the producer and consumer threads.
Each statement of the closures and of `add`, `remove` and `fmt` is a step of its own. The calls of
`wait` and `post` are waits and posts of the program, which `Rust.machine` runs by `semaphore.rs`;
the buffer's `Mutex` is a flag that `lock` blocks on.

## Main definitions

* `Sloth`, `Item`, `Buffer`, `Store` — the data.
* `produce`, `Buffer.fmtSloth` — the pure parts of the code.
* `Loc`, `code`, `program`, `machine` — the program points, the statements and the interleavings.

## Main results

* `code_wait`, `code_post`, `move_of_act` — everything a statement can do.
* `bufferProtocol` — the discipline the threads follow.
-/

namespace PosixIntro

namespace RustWarehouse

/-- The two semaphores. -/
inductive Sem where
  | semFull
  | semEmpty
  deriving DecidableEq

/-- `enum Item`. -/
inductive Item where
  | Hat
  | Phone
  | Dress
  | Pants
  | Shoes
  | Burrito
  | Sushi
  | Sandals
  | PC
  | Other
  deriving DecidableEq

/-- `impl fmt::Display for Item`. -/
def Item.text : Item → String
  | .Hat => "hat"
  | .Phone => "phone"
  | .Dress => "dress"
  | .Pants => "pants"
  | .Shoes => "shoes"
  | .Burrito => "burrito"
  | .Sushi => "sushi"
  | .Sandals => "sandals"
  | .PC => "pc"
  | .Other => "other"

/-- `enum Sloth`. -/
inductive Sloth where
  | Empty
  | Taken (item : Item)
  | Deleted
  deriving DecidableEq

/-- The item of a taken slot. -/
def Sloth.taken : Sloth → Option Item
  | .Taken item => some item
  | _ => none

/-- The `match` of `remove`. -/
def Sloth.item : Sloth → Item
  | .Taken item => item
  | _ => .Other

/-- `struct Buffer`, whose `len` is the type's parameter. -/
structure Buffer (N : ℕ) where
  sloths : Fin N → Sloth
  producerIdx : Fin N
  consumerIdx : Fin N

/-- The shared data: the `Mutex` with the buffer, and the outputs. `added` and `removed` are
history: the items passed to `add` and returned by `remove`; no statement reads them. -/
structure Store (N : ℕ) where
  locked : Bool
  buffer : Buffer N
  stdout : String
  stderr : String
  added : List Item
  removed : List Item

/-- `produce`, when the clock shows `micros` microseconds. -/
def produce (micros : ℕ) : Item :=
  match micros % 9 + 1 with
  | 1 => .Hat
  | 2 => .Phone
  | 3 => .Dress
  | 4 => .Pants
  | 5 => .Shoes
  | 6 => .Burrito
  | 7 => .Sushi
  | 8 => .Sandals
  | 9 => .PC
  | _ => .Other

namespace Buffer

variable {N : ℕ} (b : Buffer N)

/-- `Buffer::new`. -/
def new (N : ℕ) [NeZero N] : Buffer N := ⟨fun _ => .Empty, 0, 0⟩

/-- The first statement of `add`. -/
def setTaken (item : Item) : Buffer N :=
  { b with sloths := Function.update b.sloths b.producerIdx (.Taken item) }

/-- The second statement of `add`. -/
def advanceProducer [NeZero N] : Buffer N := { b with producerIdx := Ring.next b.producerIdx }

/-- The first statement of `remove`, and its `match`. -/
def getItem : Item := (b.sloths b.consumerIdx).item

/-- The third statement of `remove`. -/
def setDeleted : Buffer N :=
  { b with sloths := Function.update b.sloths b.consumerIdx .Deleted }

/-- The fourth statement of `remove`. -/
def advanceConsumer [NeZero N] : Buffer N := { b with consumerIdx := Ring.next b.consumerIdx }

/-- The body of the loop of `fmt`: the buffer it leaves and the text it adds. -/
def fmtSloth (i : Fin N) : Buffer N × String :=
  match b.sloths i with
  | .Empty => (b, "0")
  | .Taken _ => (b, "*")
  | .Deleted => ({ b with sloths := Function.update b.sloths i .Empty }, "+")

end Buffer

/-- The two kinds of threads. -/
inductive Role where
  | producer
  | consumer
  deriving DecidableEq

/-- The program points of the closures, with their local variables. Both closures format the
buffer in their `println!`; `res` is the text built so far. -/
inductive Loc where
  -- producer
  | waitEmpty
  | lockProducer
  | produce
  | setTaken (item : Item)
  | advanceProducer (item : Item)
  | unlockProducer
  | postFull
  -- consumer
  | waitFull
  | lockConsumer
  | getItem
  | setDeleted (item : Item)
  | advanceConsumer (item : Item)
  | consume (item : Item)
  | unlockConsumer
  | postEmpty
  -- println!
  | fmt (r : Role) (item : Item) (i : ℕ) (res : String)
  | println (r : Role) (item : Item) (res : String)

/-- The number printed for a thread, `i + 1`. -/
def threadId {nP nC : ℕ} : Fin nP ⊕ Fin nC → ℕ
  | .inl i => i + 1
  | .inr i => i + 1

/-- The line of `println!`. -/
def line (res : String) (id : ℕ) (item : Item) : Role → String
  | .producer =>
    res ++ "\t\tTruck [" ++ toString id ++ "] added " ++ item.text ++ " to warehouse\n"
  | .consumer =>
    res ++ "\t\tWorker [" ++ toString id ++ "] take " ++ item.text ++ " from warehouse\n"

/-- The line of `consume`. -/
def consumeLine (id : ℕ) (item : Item) : String :=
  "Worker [" ++ toString id ++ "] sending " ++ item.text ++ " to cosumer\n"

variable {nP nC N : ℕ} [NeZero N]

/-- The statements of the closures. The environment's choice is what the clock shows. -/
def code (i : Fin nP ⊕ Fin nC) : Loc → Option (Stmt Sem ℕ (Store N) Loc)
  | .waitEmpty => some (.wait .semEmpty .lockProducer .waitEmpty)
  | .lockProducer =>
    some (.act fun _ w => if w.locked then none else some ({ w with locked := true }, .produce))
  | .produce => some (.act fun micros w => some (w, .setTaken (produce micros)))
  | .setTaken item =>
    some (.update (fun w => { w with
      buffer := w.buffer.setTaken item
      added := w.added ++ [item] }) (.advanceProducer item))
  | .advanceProducer item =>
    some (.update (fun w => { w with buffer := w.buffer.advanceProducer })
      (.fmt .producer item 0 "["))
  | .unlockProducer => some (.update (fun w => { w with locked := false }) .postFull)
  | .postFull => some (.post .semFull .waitEmpty)
  | .waitFull => some (.wait .semFull .lockConsumer .waitFull)
  | .lockConsumer =>
    some (.act fun _ w => if w.locked then none else some ({ w with locked := true }, .getItem))
  | .getItem => some (.act fun _ w => some (w, .setDeleted w.buffer.getItem))
  | .setDeleted item =>
    some (.update (fun w => { w with
      buffer := w.buffer.setDeleted
      removed := w.removed ++ [item] }) (.advanceConsumer item))
  | .advanceConsumer item =>
    some (.update (fun w => { w with buffer := w.buffer.advanceConsumer })
      (.fmt .consumer item 0 "["))
  | .consume item =>
    some (.update (fun w => { w with stderr := w.stderr ++ consumeLine (threadId i) item })
      .unlockConsumer)
  | .unlockConsumer => some (.update (fun w => { w with locked := false }) .postEmpty)
  | .postEmpty => some (.post .semEmpty .waitFull)
  | .fmt r item k res =>
    if h : k < N then
      some (.act fun _ w => some ({ w with buffer := (w.buffer.fmtSloth ⟨k, h⟩).1 },
        .fmt r item (k + 1) (res ++ (w.buffer.fmtSloth ⟨k, h⟩).2)))
    else some (.act fun _ w => some (w, .println r item (res ++ "]")))
  | .println r item res =>
    some (.update (fun w => { w with stdout := w.stdout ++ line res (threadId i) item r })
      (match r with
        | .producer => .unlockProducer
        | .consumer => .consume item))

/-- `as i32`: the low 32 bits, read as a signed number. -/
def asI32 (n : ℕ) : ℤ :=
  if n % 2 ^ 32 < 2 ^ 31 then (n % 2 ^ 32 : ℕ) else (n % 2 ^ 32 : ℕ) - 2 ^ 32

/-- The values passed to `Semaphore::new`. -/
def initSemaphores (N : ℕ) : Sem → ℤ
  | .semFull => 0
  | .semEmpty => asI32 N

variable (nP nC N)

/-- The program: `n_producers` and `n_consumers` threads over an empty buffer, no signal
handler. -/
def program : Program (Fin nP ⊕ Fin nC) Sem ℕ (Store N) Loc where
  code := code
  handler _ := none
  data₀ := ⟨false, .new N, "", "", [], []⟩
  loc₀ := Sum.elim (fun _ => .waitEmpty) (fun _ => .waitFull)

/-- The interleavings of the warehouse, with the semaphores of `semaphore.rs`. -/
def machine : Machine (Rust.State (Fin nP ⊕ Fin nC) Sem (Store N) Loc)
    (Rust.Label (Fin nP ⊕ Fin nC) ℕ) :=
  Rust.machine (program nP nC N) (initSemaphores N)

variable {nP nC N}

/-! ### What the statements do -/

/-- The two calls of `wait`. -/
lemma code_wait {i : Fin nP ⊕ Fin nC} {l next intr : Loc} {x : Sem}
    (h : (program nP nC N).code i l = some (.wait x next intr)) :
    intr = l ∧ ((l = .waitEmpty ∧ x = .semEmpty ∧ next = .lockProducer) ∨
      (l = .waitFull ∧ x = .semFull ∧ next = .lockConsumer)) := by
  cases l with
  | waitEmpty | waitFull =>
    simp only [program, code, Option.some.injEq, Stmt.wait.injEq] at h
    obtain ⟨rfl, rfl, rfl⟩ := h
    simp
  | fmt r item k res =>
    simp only [program, code] at h
    split at h <;> simp at h
  | _ => simp [program, code, Stmt.update] at h

/-- The two calls of `post`. -/
lemma code_post {i : Fin nP ⊕ Fin nC} {l next : Loc} {x : Sem}
    (h : (program nP nC N).code i l = some (.post x next)) :
    (l = .postFull ∧ x = .semFull ∧ next = .waitEmpty) ∨
      (l = .postEmpty ∧ x = .semEmpty ∧ next = .waitFull) := by
  cases l with
  | postFull | postEmpty =>
    simp only [program, code, Option.some.injEq, Stmt.post.injEq] at h
    obtain ⟨rfl, rfl⟩ := h
    simp
  | fmt r item k res =>
    simp only [program, code] at h
    split at h <;> simp at h
  | _ => simp [program, code, Stmt.update] at h

/-- The statements that are not calls on a semaphore: from where to where, and the update. -/
inductive Move (i : Fin nP ⊕ Fin nC) : Loc → Store N → Loc → Store N → Prop
  | lockProducer (w) (h : w.locked = false) :
      Move i .lockProducer w .produce { w with locked := true }
  | produce (micros : ℕ) (w) : Move i .produce w (.setTaken (produce micros)) w
  | setTaken (item : Item) (w) : Move i (.setTaken item) w (.advanceProducer item)
      { w with buffer := w.buffer.setTaken item, added := w.added ++ [item] }
  | advanceProducer (item : Item) (w) : Move i (.advanceProducer item) w
      (.fmt .producer item 0 "[") { w with buffer := w.buffer.advanceProducer }
  | unlockProducer (w) : Move i .unlockProducer w .postFull { w with locked := false }
  | lockConsumer (w) (h : w.locked = false) :
      Move i .lockConsumer w .getItem { w with locked := true }
  | getItem (w) : Move i .getItem w (.setDeleted w.buffer.getItem) w
  | setDeleted (item : Item) (w) : Move i (.setDeleted item) w (.advanceConsumer item)
      { w with buffer := w.buffer.setDeleted, removed := w.removed ++ [item] }
  | advanceConsumer (item : Item) (w) : Move i (.advanceConsumer item) w
      (.fmt .consumer item 0 "[") { w with buffer := w.buffer.advanceConsumer }
  | consume (item : Item) (w) : Move i (.consume item) w .unlockConsumer
      { w with stderr := w.stderr ++ consumeLine (threadId i) item }
  | unlockConsumer (w) : Move i .unlockConsumer w .postEmpty { w with locked := false }
  | fmtSloth (r : Role) (item : Item) (k : Fin N) (res : String) (w) :
      Move i (.fmt r item k res) w (.fmt r item (k + 1) (res ++ (w.buffer.fmtSloth k).2))
        { w with buffer := (w.buffer.fmtSloth k).1 }
  | fmtDone (r : Role) (item : Item) (k : ℕ) (res : String) (w) :
      Move i (.fmt r item k res) w (.println r item (res ++ "]")) w
  | printlnAdd (item : Item) (res : String) (w) :
      Move i (.println .producer item res) w .unlockProducer
        { w with stdout := w.stdout ++ line res (threadId i) item .producer }
  | printlnRemove (item : Item) (res : String) (w) :
      Move i (.println .consumer item res) w (.consume item)
        { w with stdout := w.stdout ++ line res (threadId i) item .consumer }

/-- Every other statement is one of the moves. -/
lemma move_of_act {i : Fin nP ⊕ Fin nC} {l l' : Loc} {f : ℕ → Store N → Option (Store N × Loc)}
    {c : ℕ} {w w' : Store N} (h : (program nP nC N).code i l = some (.act f))
    (hf : f c w = some (w', l')) : Move i l w l' w' := by
  cases l with
  | waitEmpty | postFull | waitFull | postEmpty => simp [program, code] at h
  | lockProducer | lockConsumer =>
    simp only [program, code, Option.some.injEq, Stmt.act.injEq] at h
    subst h
    obtain ⟨hl, hf⟩ := Option.ite_none_left_eq_some.mp hf
    obtain ⟨rfl, rfl⟩ := by simpa using hf
    constructor
    simpa using hl
  | fmt r item k res =>
    simp only [program, code] at h
    split at h
    · rename_i hk
      obtain rfl := by simpa using h
      obtain ⟨rfl, rfl⟩ := by simpa using hf
      exact .fmtSloth r item ⟨k, hk⟩ res w
    · obtain rfl := by simpa using h
      obtain ⟨rfl, rfl⟩ := by simpa using hf
      exact .fmtDone r item k res w
  | println r item res =>
    simp only [program, code, Stmt.update, Option.some.injEq, Stmt.act.injEq] at h
    subst h
    obtain ⟨rfl, rfl⟩ := by simpa using hf
    cases r <;> constructor
  | _ =>
    simp only [program, code, Stmt.update, Option.some.injEq, Stmt.act.injEq] at h
    subst h
    obtain ⟨rfl, rfl⟩ := by simpa using hf
    constructor

/-- A call of `wait` is not interrupted. -/
lemma retries : (program nP nC N).Retries := fun _ _ _ _ _ h => (code_wait h).1

/-- No thread ever returns, and only the locks of the buffer's mutex block. -/
lemma code_total (i : Fin nP ⊕ Fin nC) (l : Loc) : (program nP nC N).code i l ≠ none ∧
    ∀ f w, (program nP nC N).code i l = some (.act f) →
      (w.locked = false ∨ (l ≠ .lockProducer ∧ l ≠ .lockConsumer)) → ∃ c r, f c w = some r := by
  cases l with
  | lockProducer | lockConsumer =>
    refine ⟨by simp [program, code], fun f w h hw => ⟨0, ?_⟩⟩
    obtain rfl := by simpa [program, code] using h
    simp_all
  | fmt r item k res =>
    simp only [program, code]
    split <;> exact ⟨by simp, fun f w h _ => ⟨0, by simp at h; subst h; simp⟩⟩
  | _ =>
    simp only [program, code, Stmt.update]
    exact ⟨by simp, fun f w h _ => ⟨0, by simp at h; try (subst h; simp)⟩⟩

/-! ### The protocols -/

/-- What a thread holds at each program point. -/
def holding : Loc → Holding
  | .waitEmpty | .waitFull => .nothing
  | .lockProducer | .produce | .setTaken _ => .space
  | .advanceProducer _ | .unlockProducer | .postFull => .item
  | .lockConsumer | .getItem | .setDeleted _ => .item
  | .advanceConsumer _ | .consume _ | .unlockConsumer | .postEmpty => .space
  | .fmt .producer _ _ _ | .println .producer _ _ => .item
  | .fmt .consumer _ _ _ | .println .consumer _ _ => .space

/-- The warehouse follows the bounded-buffer protocol. -/
def bufferProtocol : BufferProtocol (program nP nC N) where
  full := .semFull
  empty := .semEmpty
  full_ne_empty := by decide
  holding := holding
  adds w := w.added.length
  removes w := w.removed.length
  start i := by cases i <;> rfl
  adds_start := rfl
  removes_start := rfl
  wait h := by
    rcases code_wait h with ⟨-, ⟨rfl, rfl, rfl⟩ | ⟨rfl, rfl, rfl⟩⟩ <;> simp [holding]
  post h := by
    rcases code_post h with ⟨rfl, rfl, rfl⟩ | ⟨rfl, rfl, rfl⟩ <;> simp [holding]
  act h hf := by
    cases move_of_act h hf with
    | setTaken => exact .inr (.inl ⟨rfl, rfl, by simp, rfl⟩)
    | setDeleted => exact .inr (.inr ⟨rfl, rfl, rfl, by simp⟩)
    | fmtSloth r | fmtDone r => cases r <;> exact .inl ⟨rfl, rfl, rfl⟩
    | _ => exact .inl ⟨rfl, rfl, rfl⟩
  signal h := by simp [program] at h

/-- The phases of the region that the buffer's mutex protects. -/
inductive Phase where
  /-- The window is exact. -/
  | exact
  /-- An item has been stored behind the window, `producer_idx` is still to be advanced. -/
  | stored
  /-- The item at the start of the window has been read. -/
  | read (item : Item)
  /-- The slot has been marked as deleted, `consumer_idx` is still to be advanced. -/
  | deleted

/-- The phase of a program point, `none` where the thread does not hold the buffer's mutex. -/
def phase : Loc → Option Phase
  | .waitEmpty | .lockProducer | .postFull | .waitFull | .lockConsumer | .postEmpty => none
  | .advanceProducer _ => some .stored
  | .setDeleted item => some (.read item)
  | .advanceConsumer _ => some .deleted
  | _ => some .exact

/-- The program points of the two closures. -/
def Runs : Fin nP ⊕ Fin nC → Loc → Prop
  | .inl _ => fun l => match l with
    | .waitEmpty | .lockProducer | .produce | .setTaken _ | .advanceProducer _
    | .unlockProducer | .postFull | .fmt .producer _ _ _ | .println .producer _ _ => True
    | _ => False
  | .inr _ => fun l => match l with
    | .waitFull | .lockConsumer | .getItem | .setDeleted _ | .advanceConsumer _ | .consume _
    | .unlockConsumer | .postEmpty | .fmt .consumer _ _ _ | .println .consumer _ _ => True
    | _ => False

end RustWarehouse

end PosixIntro
