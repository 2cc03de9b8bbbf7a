import Mathlib.Data.List.FinRange
import PosixIntro.Concurrency.Object
import PosixIntro.Warehouse.CModel
import PosixIntro.Warehouse.RustModel

set_option relaxedAutoImplicit false
set_option autoImplicit false

/-!
# The C and the Rust ring buffer simulate each other

`add_to_buffer`, `remove_from_buffer` and `print_buffer` of `c_lab05_b.c` and `add`, `remove` and
`fmt` of `r_lab05_b.rs`, each as one call on a sequential object. The calls are the statements of
the thread models in the order in which a thread executes them. Histories are arbitrary: an `add`
may meet a full buffer and a `remove` an empty one.

## Main definitions

* `CWarehouse.ringObject`, `RustWarehouse.ringObject` — the two buffers as objects.
* `RingSimulation.SlotRel`, `Related`, `ResultRel` — slots, states and results that correspond.

## Main results

* `CWarehouse.actRun_printBuffer`, `RustWarehouse.actRun_fmt` and the like — the calls are what a
  thread does in its critical section, statement by statement.
* `RingSimulation.ring_buffers_simulate` — corresponding histories have corresponding outcomes.
-/

namespace PosixIntro

/-- The operations of both buffers, over a type of items. -/
inductive RingOp (ι : Type*) where
  | add (item : ι)
  | remove
  | print

/-- What a caller sees of an operation. -/
inductive RingResult (ι : Type*) where
  | added
  | removed (item : ι)
  | printed (text : String)

/-! ### The C buffer -/

namespace CWarehouse

namespace Store

variable {N : ℕ} [NeZero N] (w : Store N)

/-- `add_to_buffer`. -/
def addToBuffer (item : ℤ) : Store N := (w.storeItem item).advanceProducer

/-- `remove_from_buffer`: the item returned and the buffer left. -/
def removeFromBuffer : ℤ × Store N :=
  let item := w.buffer w.consumerIdxBuff
  (item, (w.markSlot item).advanceConsumer)

omit [NeZero N] in
/-- `print_buffer`. -/
def printBuffer : Store N := ((List.finRange N).foldl printSlot (w.printf "[")).printf "]"

end Store

/-- The text that a call has written: what is on the stream after it beyond what was before. -/
def written (before after : String) : String := String.ofList (after.toList.drop before.length)

lemma written_append (s t : String) : written s (s ++ t) = t := by
  simp [written, ← String.length_toList]

/-- The C buffer as an object, as `init` leaves it. -/
def ringObject (N : ℕ) [NeZero N] : SeqObject (Store N) (RingOp ℤ) (RingResult ℤ) where
  init := (program 0 0 N).data₀
  call w
    | .add item => (w.addToBuffer item, .added)
    | .remove => (w.removeFromBuffer.2, .removed w.removeFromBuffer.1)
    | .print => (w.printBuffer, .printed (written w.stdout w.printBuffer.stdout))

section Threads

variable {nP nC N : ℕ} [NeZero N] (i : Fin nP ⊕ Fin nC) (w : Store N)

/-- A producer in its critical section executes `add_to_buffer`. -/
theorem actRun_addToBuffer (item : ℤ) :
    (program nP nC N).ActRun i (.storeItem item) w (.printOpen .producer item)
      (w.addToBuffer item) :=
  .update rfl (.update rfl (.refl _ _))

/-- A consumer in its critical section executes `remove_from_buffer`. -/
theorem actRun_removeFromBuffer :
    (program nP nC N).ActRun i .readItem w (.printOpen .consumer w.removeFromBuffer.1)
      w.removeFromBuffer.2 :=
  .head (c := 0) rfl rfl (.update rfl (.update rfl (.refl _ _)))

/-- The loop of `print_buffer` from slot `k` on.

**Proof sketch.** Induction on the number of slots left. -/
lemma actRun_printSlot (r : Role) (item : ℤ) (n k : ℕ) (hn : N - k = n) :
    (program nP nC N).ActRun i (.printSlot r item k) w (.report r item)
      ((((List.finRange N).drop k).foldl Store.printSlot w).printf "]") := by
  induction n generalizing k w with
  | zero =>
    have hk : ¬ k < N := by omega
    have hcode : (program nP nC N).code i (.printSlot r item k) =
        some (.update (·.printf "]") (.report r item)) := dif_neg hk
    rw [List.drop_eq_nil_of_le (by simp; omega)]
    exact .update hcode (.refl _ _)
  | succ n ih =>
    have hk : k < N := by omega
    have hcode : (program nP nC N).code i (.printSlot r item k) =
        some (.update (·.printSlot ⟨k, hk⟩) (.printSlot r item (k + 1))) := dif_pos hk
    rw [List.drop_eq_getElem_cons (by simpa using hk), List.getElem_finRange, List.foldl_cons]
    exact .update hcode (ih _ _ (by omega))

/-- A thread in its critical section executes `print_buffer`. -/
theorem actRun_printBuffer (r : Role) (item : ℤ) :
    (program nP nC N).ActRun i (.printOpen r item) w (.report r item) w.printBuffer :=
  .update rfl (actRun_printSlot i (w.printf "[") r item N 0 (by omega))

end Threads

end CWarehouse

/-! ### The Rust buffer -/

namespace RustWarehouse

namespace Buffer

variable {N : ℕ} [NeZero N] (b : Buffer N)

/-- `Buffer::add`. -/
def add (item : Item) : Buffer N := (b.setTaken item).advanceProducer

/-- `Buffer::remove`: the item returned and the buffer left. -/
def remove : Item × Buffer N := (b.getItem, b.setDeleted.advanceConsumer)

omit [NeZero N] in
/-- One round of the loop of `fmt`, on the buffer and the text built so far. -/
def fmtRound (r : Buffer N × String) (i : Fin N) : Buffer N × String :=
  ((r.1.fmtSloth i).1, r.2 ++ (r.1.fmtSloth i).2)

omit [NeZero N] in
/-- `fmt`: the buffer left and the text written. -/
def fmt : Buffer N × String :=
  let r := (List.finRange N).foldl fmtRound (b, "[")
  (r.1, r.2 ++ "]")

end Buffer

/-- The Rust buffer as an object. -/
def ringObject (N : ℕ) [NeZero N] : SeqObject (Buffer N) (RingOp Item) (RingResult Item) where
  init := .new N
  call b
    | .add item => (b.add item, .added)
    | .remove => (b.remove.2, .removed b.remove.1)
    | .print => (b.fmt.1, .printed b.fmt.2)

section Threads

variable {nP nC N : ℕ} [NeZero N] (i : Fin nP ⊕ Fin nC) (w : Store N)

/-- A producer that holds the lock executes `add`. -/
theorem actRun_add (item : Item) :
    (program nP nC N).ActRun i (.setTaken item) w (.fmt .producer item 0 "[")
      { w with buffer := w.buffer.add item, added := w.added ++ [item] } :=
  .update rfl (.update rfl (.refl _ _))

/-- A consumer that holds the lock executes `remove`. -/
theorem actRun_remove :
    (program nP nC N).ActRun i .getItem w (.fmt .consumer w.buffer.remove.1 0 "[")
      { w with buffer := w.buffer.remove.2, removed := w.removed ++ [w.buffer.remove.1] } :=
  .head (c := 0) rfl rfl (.update rfl (.update rfl (.refl _ _)))

/-- The loop of `fmt` from slot `k` on.

**Proof sketch.** Induction on the number of slots left. -/
lemma actRun_fmtSloth (r : Role) (item : Item) (n k : ℕ) (res : String) (hn : N - k = n) :
    (program nP nC N).ActRun i (.fmt r item k res) w
      (.println r item
        ((((List.finRange N).drop k).foldl Buffer.fmtRound (w.buffer, res)).2 ++ "]"))
      { w with
        buffer := (((List.finRange N).drop k).foldl Buffer.fmtRound (w.buffer, res)).1 } := by
  induction n generalizing k w res with
  | zero =>
    have hk : ¬ k < N := by omega
    have hcode : (program nP nC N).code i (.fmt r item k res) =
        some (.act fun _ w => some (w, .println r item (res ++ "]"))) := dif_neg hk
    rw [List.drop_eq_nil_of_le (by simp; omega)]
    exact .head (c := 0) hcode rfl (.refl _ _)
  | succ n ih =>
    have hk : k < N := by omega
    have hcode : (program nP nC N).code i (.fmt r item k res) =
        some (.act fun _ w => some ({ w with buffer := (w.buffer.fmtSloth ⟨k, hk⟩).1 },
          .fmt r item (k + 1) (res ++ (w.buffer.fmtSloth ⟨k, hk⟩).2))) := dif_pos hk
    rw [List.drop_eq_getElem_cons (by simpa using hk), List.getElem_finRange, List.foldl_cons]
    exact .head (c := 0) hcode rfl (ih _ _ _ (by omega))

/-- A thread that holds the lock executes `fmt`. -/
theorem actRun_fmt (r : Role) (item : Item) :
    (program nP nC N).ActRun i (.fmt r item 0 "[") w (.println r item w.buffer.fmt.2)
      { w with buffer := w.buffer.fmt.1 } :=
  actRun_fmtSloth i w r item N 0 "[" (by omega)

end Threads

end RustWarehouse

/-! ### Corresponding values -/

namespace RingSimulation

open CWarehouse (Store printItem)
open RustWarehouse (Item Sloth Buffer)

/-- The item codes of the C program and the items of the Rust program. -/
inductive ItemRel : ℤ → Item → Prop
  | hat : ItemRel 1 .Hat
  | phone : ItemRel 2 .Phone
  | dress : ItemRel 3 .Dress
  | pants : ItemRel 4 .Pants
  | shoes : ItemRel 5 .Shoes
  | burrito : ItemRel 6 .Burrito
  | sushi : ItemRel 7 .Sushi
  | sandals : ItemRel 8 .Sandals
  | pc : ItemRel 9 .PC

/-- The values of a slot. -/
inductive SlotRel : ℤ → Sloth → Prop
  | empty : SlotRel 0 .Empty
  | taken {code : ℤ} {item : Item} : ItemRel code item → SlotRel code (.Taken item)
  | deleted : SlotRel (-1) .Deleted

/-- Operations on corresponding items. -/
inductive OpRel : RingOp ℤ → RingOp Item → Prop
  | add {code : ℤ} {item : Item} : ItemRel code item → OpRel (.add code) (.add item)
  | remove : OpRel .remove .remove
  | print : OpRel .print .print

/-- Results that correspond: the same text is displayed for an item, a C result `0` or `-1` goes
with `Item::Other`, and the same text is printed. -/
inductive ResultRel : RingResult ℤ → RingResult Item → Prop
  | added : ResultRel .added .added
  | removed {code : ℤ} {item : Item} :
      printItem code = item.text → (ItemRel code item ∨ (code = 0 ∨ code = -1) ∧ item = .Other) →
      ResultRel (.removed code) (.removed item)
  | printed (text : String) : ResultRel (.printed text) (.printed text)

/-- States that correspond. -/
structure Related {N : ℕ} (w : Store N) (b : Buffer N) : Prop where
  producer : w.producerIdxBuff = b.producerIdx
  consumer : w.consumerIdxBuff = b.consumerIdx
  slots : ∀ i, SlotRel (w.buffer i) (b.sloths i)

/-- The codes are from `1` to `9`. -/
lemma ItemRel.bounds {code : ℤ} {item : Item} (h : ItemRel code item) : 1 ≤ code ∧ code ≤ 9 := by
  cases h <;> decide

/-- Corresponding items are displayed alike. -/
lemma ItemRel.text {code : ℤ} {item : Item} (h : ItemRel code item) :
    printItem code = item.text := by
  cases h <;> rfl

/-- What `remove` makes of corresponding slots. -/
lemma SlotRel.item {code : ℤ} {sloth : Sloth} (h : SlotRel code sloth) :
    ResultRel (.removed code) (.removed sloth.item) := by
  cases h with
  | empty => exact .removed rfl (.inr ⟨.inl rfl, rfl⟩)
  | taken hi => exact .removed hi.text (.inl hi)
  | deleted => exact .removed rfl (.inr ⟨.inr rfl, rfl⟩)

variable {N : ℕ}

/-- Writing corresponding values into the same slot. -/
lemma Related.update {w w' : Store N} {b b' : Buffer N} (h : Related w b) {k : Fin N} {code : ℤ}
    {sloth : Sloth} (hv : SlotRel code sloth)
    (hw : w'.buffer = Function.update w.buffer k code)
    (hb : b'.sloths = Function.update b.sloths k sloth)
    (hp : w'.producerIdxBuff = b'.producerIdx) (hc : w'.consumerIdxBuff = b'.consumerIdx) :
    Related w' b' := by
  refine ⟨hp, hc, fun i => ?_⟩
  rw [hw, hb]
  by_cases hi : i = k
  · subst hi
    simpa using hv
  · simpa [Function.update_of_ne hi] using h.slots i

/-- One round of the two printing loops: the buffers still correspond and both add the same
text. -/
lemma Related.print_slot {w : Store N} {b : Buffer N} (h : Related w b) (i : Fin N) :
    Related (w.printSlot i) (b.fmtSloth i).1 ∧
      (w.printSlot i).stdout = w.stdout ++ (b.fmtSloth i).2 := by
  have hslot := h.slots i
  cases hb : b.sloths i with
  | Empty =>
    rw [hb] at hslot
    generalize hw : w.buffer i = code at hslot
    cases hslot
    simp only [Store.printSlot, hw, Buffer.fmtSloth, hb, if_pos]
    exact ⟨⟨h.producer, h.consumer, h.slots⟩, rfl⟩
  | Taken item =>
    rw [hb] at hslot
    generalize hw : w.buffer i = code at hslot
    cases hslot with
    | taken hi =>
      have hcode := hi.bounds
      have h0 : code ≠ 0 := by omega
      have h1 : code ≠ -1 := by omega
      simp only [Store.printSlot, hw, Buffer.fmtSloth, hb, if_neg h0, if_neg h1]
      exact ⟨⟨h.producer, h.consumer, h.slots⟩, rfl⟩
  | Deleted =>
    rw [hb] at hslot
    generalize hw : w.buffer i = code at hslot
    cases hslot
    have h0 : (-1 : ℤ) ≠ 0 := by decide
    simp only [Store.printSlot, hw, Buffer.fmtSloth, hb, if_neg h0, if_pos]
    exact ⟨h.update .empty rfl rfl h.producer h.consumer, rfl⟩

/-- The two printing loops over the same slots.

**Proof sketch.** Induction on the slots that are still to be printed. -/
lemma Related.print_slots (is : List (Fin N)) {w : Store N} {b : Buffer N} (h : Related w b)
    (text : String) :
    Related (is.foldl Store.printSlot w) (is.foldl Buffer.fmtRound (b, text)).1 ∧
      ∃ u, (is.foldl Store.printSlot w).stdout = w.stdout ++ u ∧
        (is.foldl Buffer.fmtRound (b, text)).2 = text ++ u := by
  induction is generalizing w b text with
  | nil => exact ⟨h, "", by simp⟩
  | cons i is ih =>
    obtain ⟨hi, hout⟩ := h.print_slot i
    obtain ⟨hend, u, hw, hb⟩ := ih hi (text ++ (b.fmtSloth i).2)
    refine ⟨hend, (b.fmtSloth i).2 ++ u, ?_, ?_⟩
    · rw [List.foldl_cons, hw, hout, String.append_assoc]
    · rw [← String.append_assoc, ← hb]
      rfl

/-- `print_buffer` and `fmt`: the buffers still correspond and the same text is written. -/
lemma Related.print {w : Store N} {b : Buffer N} (h : Related w b) :
    Related w.printBuffer b.fmt.1 ∧ w.printBuffer.stdout = w.stdout ++ b.fmt.2 := by
  have hopen : Related (w.printf "[") b := ⟨h.producer, h.consumer, h.slots⟩
  obtain ⟨hend, u, hw, hb⟩ := hopen.print_slots (List.finRange N) "["
  refine ⟨⟨hend.producer, hend.consumer, hend.slots⟩, ?_⟩
  have hclose : w.printBuffer.stdout =
      ((List.finRange N).foldl Store.printSlot (w.printf "[")).stdout ++ "]" := rfl
  have hfmt : b.fmt.2 = ((List.finRange N).foldl Buffer.fmtRound (b, "[")).2 ++ "]" := rfl
  have hstart : (w.printf "[").stdout = w.stdout ++ "[" := rfl
  rw [hclose, hfmt, hw, hb, hstart]
  simp only [String.append_assoc]

variable [NeZero N]

/-- The initial buffers correspond. -/
lemma related_init : Related (CWarehouse.ringObject N).init (RustWarehouse.ringObject N).init :=
  ⟨rfl, rfl, fun _ => .empty⟩

/-- `add_to_buffer` and `add`. -/
lemma Related.add {w : Store N} {b : Buffer N} (h : Related w b) {code : ℤ} {item : Item}
    (hi : ItemRel code item) : Related (w.addToBuffer code) (b.add item) := by
  refine h.update (k := w.producerIdxBuff) (.taken hi) rfl ?_ ?_ h.consumer
  · rw [h.producer]
    rfl
  · change Ring.next w.producerIdxBuff = Ring.next b.producerIdx
    rw [h.producer]

/-- `remove_from_buffer` and `remove`. -/
lemma Related.remove {w : Store N} {b : Buffer N} (h : Related w b) :
    Related w.removeFromBuffer.2 b.remove.2 ∧
      ResultRel (.removed w.removeFromBuffer.1) (.removed b.remove.1) := by
  constructor
  · refine h.update (k := w.consumerIdxBuff) .deleted rfl ?_ h.producer ?_
    · rw [h.consumer]
      rfl
    · change Ring.next w.consumerIdxBuff = Ring.next b.consumerIdx
      rw [h.consumer]
  · have hslot := (h.slots w.consumerIdxBuff).item
    rw [h.consumer] at hslot
    change ResultRel (.removed (w.buffer w.consumerIdxBuff))
      (.removed (b.sloths b.consumerIdx).item)
    rwa [h.consumer]

/-- One call of corresponding operations on corresponding states. -/
lemma Related.call {w : Store N} {b : Buffer N} (h : Related w b) {op : RingOp ℤ}
    {op' : RingOp Item} (hop : OpRel op op') :
    Related ((CWarehouse.ringObject N).call w op).1 ((RustWarehouse.ringObject N).call b op').1 ∧
      ResultRel ((CWarehouse.ringObject N).call w op).2
        ((RustWarehouse.ringObject N).call b op').2 := by
  cases hop with
  | add hi => exact ⟨h.add hi, .added⟩
  | remove => exact h.remove
  | print =>
    obtain ⟨hend, hout⟩ := h.print
    refine ⟨hend, ?_⟩
    change ResultRel (.printed (CWarehouse.written w.stdout w.printBuffer.stdout))
      (.printed b.fmt.2)
    rw [hout, CWarehouse.written_append]
    exact .printed _

/-- **The C and the Rust ring buffer simulate each other.** After corresponding histories of
`add`, `remove` and `print`, legal or not, the indices are equal and the slots correspond; every
`remove` has returned corresponding items and every `print` has written the same text. -/
theorem ring_buffers_simulate {ops : List (RingOp ℤ)} {ops' : List (RingOp Item)}
    (h : List.Forall₂ OpRel ops ops') :
    Related ((CWarehouse.ringObject N).after ops) ((RustWarehouse.ringObject N).after ops') ∧
      List.Forall₂ ResultRel ((CWarehouse.ringObject N).results ops)
        ((RustWarehouse.ringObject N).results ops') :=
  SeqObject.simulation (fun _ _ _ _ hs hop => hs.call hop) h related_init

/-- Two slots: three items are added, so that the third overwrites the first, three are removed,
and the buffer is printed twice. -/
theorem ring_buffers_simulate_overfull :
    List.Forall₂ ResultRel
      ((CWarehouse.ringObject 2).results
        [.add 1, .add 2, .add 9, .print, .remove, .remove, .remove, .print, .print])
      ((RustWarehouse.ringObject 2).results
        [.add .Hat, .add .Phone, .add .PC, .print, .remove, .remove, .remove, .print, .print]) :=
  (ring_buffers_simulate (N := 2)
    (.cons (.add .hat) (.cons (.add .phone) (.cons (.add .pc) (.cons .print (.cons .remove
      (.cons .remove (.cons .remove (.cons .print (.cons .print .nil)))))))))).2

end RingSimulation

end PosixIntro
