import Mathlib.Algebra.Group.Nat.Defs
import Mathlib.Data.Fin.Tuple.Basic
import Mathlib.Data.List.Basic
import PosixIntro.Concurrency.Machine

set_option relaxedAutoImplicit false
set_option autoImplicit false

/-!
# The allocator of `c_lab07_b.c`

`my_malloc` serves every request by a mapping of its own, whose length is the size class of the
request, and keeps a table with one entry for each class. The first request of a class maps a
region whose address only serves as the hint of the later calls of `mmap`.

## Main definitions

* `MyHeap`, `arrHeap` — an entry of the table and the table at the start.
* `Mmap` — a call of `mmap` with its answer; `Fresh` — answers that the system can give.
* `findHeap`, `allocate`, `myMalloc` — the code.
* `classOf` — the class of a request, from the sizes alone.
* `process` — a process that calls `my_malloc` again and again.

## Main results

* `classOf_eq_some_iff` — the class of a request is the smallest that fits.

## Design

Pointers are addresses; a pointer to an entry of the table is the index of the entry. The answers of
`mmap` are not the program's choice, so they are arguments. A store through `MAP_FAILED` ends the
process: such a call returns nothing.
-/

namespace PosixIntro

namespace MyMalloc

/-- `NULL`. -/
def null : ℕ := 0

/-- `MAP_FAILED`, that is `(void *)-1`. -/
def mapFailed : ℕ := 2 ^ 64 - 1

/-- `sizeof(my_heap *)`. -/
def header : ℕ := 8

/-- `my_heap`. -/
structure MyHeap where
  p : ℕ
  counter : ℕ
  maxSize : ℕ

/-- The sizes in the initializer of `arr_heap`. -/
def maxSizes : List ℕ := [
  0x00000008, 0x00000010, 0x00000020,
  0x00000040, 0x00000080, 0x00000100,
  0x00000200, 0x00000400, 0x00000800,
  0x00001000, 0x00002000, 0x00004000,
  0x00008000, 0x00010000, 0x00020000,
  0x00040000, 0x00080000, 0x00100000,
  0x00200000, 0x00400000, 0x00800000,
  0x01000000, 0x02000000, 0x04000000,
  0x08000000, 0x10000000, 0x20000000,
  0x40000000, 0x7f000000]

/-- `sizeof(arr_heap) / sizeof(arr_heap[0])`. -/
def heapLen : ℕ := maxSizes.length

/-- An entry of the table, or a pointer to it. -/
abbrev Entry := Fin heapLen

/-- The size of a class. -/
def classSize (i : Entry) : ℕ := maxSizes.get i

/-- `arr_heap` at the start. -/
def arrHeap (i : Entry) : MyHeap := ⟨null, 0, classSize i⟩

/-- A call of `mmap`: the hint, the requested length and the answer, `none` for `MAP_FAILED`. -/
structure Mmap where
  addr : ℕ
  length : ℕ
  answer : Option ℕ

/-- The pointer that a call of `mmap` returns. -/
def returned : Option ℕ → ℕ
  | some a => a
  | none => mapFailed

/-- What the process has written: the table, and the header words of the blocks. -/
structure Heap where
  arrHeap : Entry → MyHeap
  word : ℕ → Option Entry

/-- A request: the size, and the answers of the two calls of `mmap`. -/
structure Request where
  size : ℕ
  first : Option ℕ
  second : Option ℕ

/-- What a call of `my_malloc` comes to: what it has written, the calls of `mmap` that it made, the
address of the header that it stored and the pointer returned, `none` if the process was killed. -/
structure Outcome where
  heap : Heap
  mmaps : List Mmap
  wrote : Option ℕ
  ret : Option ℕ

/-- `find_heap`: the table, the calls of `mmap` and the entry returned. -/
def findHeap (r : Request) (t : Entry → MyHeap) : (Entry → MyHeap) × List Mmap × Option Entry :=
  match Fin.find? fun i => r.size ≤ (t i).maxSize with
  | none => (t, [], none)
  | some i =>
    if (t i).p = null then
      let p := returned r.first
      (Function.update t i { t i with p := p }, [⟨null, (t i).maxSize, r.first⟩],
        if p = null then none else some i)
    else (t, [], some i)

/-- `my_malloc` from its own call of `mmap` on, for the entry `i`. `counter` is a `uint64_t`. -/
def allocate (r : Request) (i : Entry) (h : Heap) (mmaps : List Mmap) : Outcome :=
  let t := h.arrHeap
  let tmp := returned r.second
  let mmaps := mmaps ++ [⟨(t i).p, (t i).maxSize, r.second⟩]
  let counted := Function.update t i { t i with counter := ((t i).counter + 1) % 2 ^ 64 }
  if tmp = null then ⟨h, mmaps, none, some tmp⟩
  else if tmp = mapFailed then ⟨{ h with arrHeap := counted }, mmaps, some tmp, none⟩
  else ⟨⟨counted, Function.update h.word tmp (some i)⟩, mmaps, some tmp, some (tmp + header)⟩

/-- `my_malloc`. -/
def myMalloc (r : Request) (h : Heap) : Outcome :=
  let found := findHeap r h.arrHeap
  let h' := { h with arrHeap := found.1 }
  match found.2.2 with
  | none => ⟨h', found.2.1, none, some null⟩
  | some i => allocate r i h' found.2.1

/-! ### The system -/

/-- A mapping. -/
structure Region where
  start : ℕ
  len : ℕ

/-- Two mappings have no byte in common. -/
def Region.Apart (g g' : Region) : Prop :=
  g.start + g.len ≤ g'.start ∨ g'.start + g'.len ≤ g.start

/-- A length rounded up to whole pages. -/
def pages (length : ℕ) : ℕ := (length + 4095) / 4096 * 4096

/-- The mapping that a call of `mmap` creates. -/
def Mmap.region (m : Mmap) : Option Region := m.answer.map fun a => ⟨a, pages m.length⟩

/-- The mappings after some calls of `mmap`. Nothing is ever unmapped. -/
def mapped : List Region → List Mmap → List Region
  | gs, [] => gs
  | gs, m :: ms => mapped (m.region.toList ++ gs) ms

/-- A region that the system can give out: it is inside the address space, not at `NULL`, and has
nothing in common with the other mappings. -/
structure Fits (gs : List Region) (g : Region) : Prop where
  pos : 0 < g.start
  inside : g.start + g.len ≤ 2 ^ 64
  apart : ∀ g' ∈ gs, g.Apart g'

/-- Answers of `mmap` that the system can give: each is a failure or a fresh region. -/
def Fresh : List Region → List Mmap → Prop
  | _, [] => True
  | gs, m :: ms => (∀ g, m.region = some g → Fits gs g) ∧ Fresh (m.region.toList ++ gs) ms

/-- A process and its mappings. -/
structure Process where
  heap : Heap
  regions : List Region

/-- One more call of `my_malloc`, unless the process is killed in it. -/
def Process.call (s : Process) (r : Request) : Option Process :=
  let o := myMalloc r s.heap
  o.ret.map fun _ => ⟨o.heap, mapped s.regions o.mmaps⟩

/-- The calls of a process that has mapped nothing yet. -/
def process : Machine Process Request := ⟨⟨⟨arrHeap, fun _ => none⟩, []⟩, Process.call⟩

/-- The calls of `mmap` in a call of `my_malloc` are answered by failures and fresh regions. -/
def Answered (s : Process) (r : Request) : Prop := Fresh s.regions (myMalloc r s.heap).mmaps

/-- All of them succeed. -/
def Succeeds (s : Process) (r : Request) : Prop :=
  Answered s r ∧ ∀ m ∈ (myMalloc r s.heap).mmaps, m.answer ≠ none

instance (g g' : Region) : Decidable (g.Apart g') := inferInstanceAs (Decidable (_ ∨ _))

instance (gs : List Region) (g : Region) : Decidable (Fits gs g) :=
  decidable_of_iff (0 < g.start ∧ g.start + g.len ≤ 2 ^ 64 ∧ ∀ g' ∈ gs, g.Apart g')
    ⟨fun h => ⟨h.1, h.2.1, h.2.2⟩, fun h => ⟨h.pos, h.inside, h.apart⟩⟩

instance decidableFresh : (gs : List Region) → (ms : List Mmap) → Decidable (Fresh gs ms)
  | _, [] => isTrue trivial
  | gs, m :: ms =>
    have := decidableFresh (m.region.toList ++ gs) ms
    inferInstanceAs (Decidable ((∀ g ∈ m.region, Fits gs g) ∧ Fresh (m.region.toList ++ gs) ms))

instance (s : Process) (r : Request) : Decidable (Answered s r) :=
  inferInstanceAs (Decidable (Fresh _ _))

instance (s : Process) (r : Request) : Decidable (Succeeds s r) :=
  inferInstanceAs (Decidable (_ ∧ ∀ m ∈ _, _))

/-! ### The classes -/

/-- The class of a request: the first whose size is at least the requested one. -/
def classOf (size : ℕ) : Option Entry := Fin.find? fun i => size ≤ classSize i

/-- The sizes increase. -/
lemma classSize_lt {i j : Entry} (h : i < j) : classSize i < classSize j := by
  have hsorted : maxSizes.Pairwise (· < ·) := by decide
  exact List.pairwise_iff_getElem.mp hsorted i j i.isLt j.isLt h

/-- Every class has a size of the initializer. -/
lemma classSize_mem (i : Entry) : classSize i ∈ maxSizes := List.get_mem _ _

/-- **The class of a request** is the smallest that fits. -/
theorem classOf_eq_some_iff {size : ℕ} {i : Entry} :
    classOf size = some i ↔
      size ≤ classSize i ∧ ∀ j, size ≤ classSize j → classSize i ≤ classSize j := by
  rw [classOf, Fin.find?_eq_some_iff, decide_eq_true_eq]
  refine and_congr_right fun _ => forall_congr' fun j => ?_
  rw [decide_eq_false_iff_not]
  constructor
  · intro h hj
    by_contra hlt
    have hji : j < i := by
      by_contra hij
      rcases Nat.lt_or_eq_of_le (Nat.le_of_not_lt hij) with hlt' | heq
      · exact hlt (Nat.le_of_lt (classSize_lt hlt'))
      · exact hlt (Nat.le_of_eq (congrArg classSize (Fin.ext heq)))
    exact h hji hj
  · intro h hji hj
    exact Nat.not_lt.mpr (h hj) (classSize_lt hji)

/-- The mapping of a class has a page or more. -/
lemma le_pages (i : Entry) : 4096 ≤ pages (classSize i) := by
  have hall : ∀ m ∈ maxSizes, 4096 ≤ pages m := by decide
  exact hall _ (classSize_mem i)

/-- A request has no class when it is above the largest. -/
lemma classOf_eq_none_iff {size : ℕ} : classOf size = none ↔ 0x7f000000 < size := by
  have hmax : ∀ m ∈ maxSizes, m ≤ 0x7f000000 := by decide
  rw [classOf, Fin.find?_eq_none_iff]
  simp only [decide_eq_false_iff_not, Nat.not_le]
  constructor
  · exact fun h => h ⟨28, by decide⟩
  · exact fun h i => Nat.lt_of_le_of_lt (hmax _ (classSize_mem i)) h

end MyMalloc

end PosixIntro
