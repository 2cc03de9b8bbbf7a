import Mathlib.Data.List.Perm.Subperm
import PosixIntro.MyMalloc.Calls

set_option relaxedAutoImplicit false
set_option autoImplicit false

/-!
# The books of `my_malloc`

As long as every call of `mmap` succeeds, the table counts the requests class by class. The
counters cannot wrap around: every request that is counted has a mapping of its own, and the
address space has room for fewer than `2 ^ 64`.

## Main definitions

* `Layout` — the mappings of a process start at different addresses of the address space.
* `ExactCall` — what one call does to the table.
* `Books` — the table after a history of calls.

## Main results

* `Layout.length_lt` — there are fewer than `2 ^ 64` mappings.
* `exact_books` — after every history the books are exact, and so is the next call.
-/

namespace PosixIntro

namespace MyMalloc

/-! ### Mappings -/

/-- The mappings of a process: none is empty, all are inside the address space and not at `NULL`,
and they start at different addresses. -/
structure Layout (gs : List Region) : Prop where
  starts : (gs.map Region.start).Nodup
  inside : ∀ g ∈ gs, 0 < g.start ∧ 0 < g.len ∧ g.start + g.len ≤ 2 ^ 64

variable {gs : List Region}

/-- One more mapping. -/
lemma Layout.cons (h : Layout gs) {g : Region} (hg : Fits gs g) (hpos : 0 < g.len) :
    Layout (g :: gs) := by
  refine ⟨?_, ?_⟩
  · rw [List.map_cons, List.nodup_cons]
    refine ⟨fun hmem => ?_, h.starts⟩
    obtain ⟨g', hg', heq⟩ := List.mem_map.mp hmem
    have hpos' := (h.inside g' hg').2.1
    rcases hg.apart g' hg' with hbelow | habove <;> omega
  · intro g' hg'
    rcases List.mem_cons.mp hg' with rfl | hold
    · exact ⟨hg.pos, hpos, hg.inside⟩
    · exact h.inside g' hold

/-- The mappings after some calls of `mmap` for whole pages. -/
lemma Layout.mapped {ms : List Mmap} (h : Layout gs) (hf : Fresh gs ms)
    (hpos : ∀ m ∈ ms, 0 < pages m.length) : Layout (mapped gs ms) := by
  induction ms generalizing gs with
  | nil => exact h
  | cons m ms ih =>
    refine ih ?_ hf.2 fun m' hm' => hpos m' (List.mem_cons_of_mem m hm')
    cases ha : m.answer with
    | none => simpa [Mmap.region, ha] using h
    | some a =>
      have hregion : m.region = some ⟨a, pages m.length⟩ := by simp [Mmap.region, ha]
      rw [hregion]
      exact h.cons (hf.1 _ hregion) (hpos m List.mem_cons_self)

/-- No mapping goes away. -/
lemma length_le_mapped (gs : List Region) (ms : List Mmap) :
    gs.length ≤ (mapped gs ms).length := by
  induction ms generalizing gs with
  | nil => exact Nat.le_refl _
  | cons m ms ih =>
    refine Nat.le_trans ?_ (ih _)
    rw [List.length_append]
    exact Nat.le_add_left _ _

/-- **The address space has room for fewer than `2 ^ 64` mappings.** Their addresses, and `NULL`,
are different numbers below `2 ^ 64`. -/
theorem Layout.length_lt (h : Layout gs) : gs.length < 2 ^ 64 := by
  have hnodup : (0 :: gs.map Region.start).Nodup := by
    refine List.nodup_cons.mpr ⟨fun hmem => ?_, h.starts⟩
    obtain ⟨g, hg, hzero⟩ := List.mem_map.mp hmem
    exact absurd hzero (Nat.ne_of_gt (h.inside g hg).1)
  have hsub : 0 :: gs.map Region.start ⊆ List.range (2 ^ 64) := by
    intro a ha
    rw [List.mem_range]
    rcases List.mem_cons.mp ha with rfl | ha
    · decide
    · obtain ⟨g, hg, rfl⟩ := List.mem_map.mp ha
      have hin := h.inside g hg
      omega
  have hlen := (hnodup.subperm hsub).length_le
  rw [List.length_cons, List.length_map, List.length_range] at hlen
  exact hlen

/-! ### One call -/

/-- The class `i` is the smallest that fits. -/
def Smallest (size : ℕ) (i : Entry) : Prop :=
  size ≤ classSize i ∧ ∀ j, size ≤ classSize j → classSize i ≤ classSize j

/-- What a call does: above the largest class it returns `NULL` and does nothing; otherwise
`find_heap` returns the one smallest class that fits, no other entry changes, and the word before
the block holds the address of the entry. -/
structure ExactCall (s : Process) (r : Request) : Prop where
  returns : ∃ s', process.step s r = some s'
  null_iff : (myMalloc r s.heap).ret = some null ↔ 0x7f000000 < r.size
  unchanged : 0x7f000000 < r.size →
    (myMalloc r s.heap).heap = s.heap ∧ (myMalloc r s.heap).mmaps = []
  served : r.size ≤ 0x7f000000 → ∃ i, Smallest r.size i ∧ (∀ j, Smallest r.size j → j = i) ∧
    (findHeap r s.heap.arrHeap).2.2 = some i ∧
    (∀ j, j ≠ i → (myMalloc r s.heap).heap.arrHeap j = s.heap.arrHeap j) ∧
    ∃ ptr, (myMalloc r s.heap).ret = some ptr ∧ header ≤ ptr ∧
      (myMalloc r s.heap).heap.word (ptr - header) = some i

variable {s : Process} {r : Request}

/-- Every call is exact when no call of `mmap` fails. -/
theorem exactCall (hs : s.heap.Sized) (hr : Succeeds s r) : ExactCall s r := by
  rcases hr.cases hs with ⟨hc, heq⟩ | ⟨i, a, h', ms, hc, hserved⟩
  · have hlarge := classOf_eq_none_iff.mp hc
    refine ⟨⟨_, call_of_ret (by rw [heq])⟩, by simp [heq, hlarge], fun _ => by simp [heq],
      fun hle => absurd hlarge (Nat.not_lt.mpr hle)⟩
  · have hsmall : ¬ 0x7f000000 < r.size := by
      rw [← classOf_eq_none_iff, hc]
      exact Option.some_ne_none i
    refine ⟨⟨_, call_of_ret hserved.ret⟩, ?_, fun h => absurd h hsmall,
      fun _ => ⟨i, classOf_eq_some_iff.mp hc, fun j hj => ?_, findHeap_entry hs hc hr.1,
        fun j hj => ?_, a + header, hserved.ret, Nat.le_add_left _ _, ?_⟩⟩
    · rw [hserved.ret]
      exact iff_of_false (fun h => Nat.succ_ne_zero _ (Option.some.inj h)) hsmall
    · exact Option.some.inj ((classOf_eq_some_iff.mpr hj).symm.trans hc)
    · rw [hserved.heap]
      exact (Function.update_of_ne hj _ _).trans (hserved.found.others j hj)
    · rw [hserved.heap, Nat.add_sub_cancel]
      exact Function.update_self _ _ _

/-! ### Histories -/

/-- The table after a history of calls: a counter is the number of the requests of its class, the
pointers are those of the classes that were used, and the sizes are what they were. -/
structure Books (tr : List (Process × Request)) (s : Process) : Prop where
  counter : ∀ i, (s.heap.arrHeap i).counter = tr.countP fun x => classOf x.2.size = some i
  p : ∀ i, (s.heap.arrHeap i).p ≠ null ↔ 0 < (s.heap.arrHeap i).counter
  maxSize : ∀ i, (s.heap.arrHeap i).maxSize = classSize i

/-- The mappings account for all requests that were counted. -/
structure Account (s : Process) : Prop where
  layout : Layout s.regions
  counter_le : ∀ i, (s.heap.arrHeap i).counter ≤ s.regions.length

/-- The account after a request that is served. -/
lemma Account.served {i : Entry} {a : ℕ} {h' : Heap} {ms : List Mmap} (h : Account s)
    (hserved : Served s r i a h' ms) :
    Layout (mapped s.regions (myMalloc r s.heap).mmaps) ∧
      ∀ j, (s.heap.arrHeap j).counter < (mapped s.regions (myMalloc r s.heap).mmaps).length := by
  have hpage := le_pages i
  have hlayout : Layout (mapped s.regions ms) := h.layout.mapped hserved.fresh fun m hm => by
    rw [hserved.lengths m hm]
    omega
  have hlen := length_le_mapped s.regions ms
  rw [hserved.regions, List.length_cons]
  refine ⟨hlayout.cons hserved.fits (Nat.lt_of_lt_of_le (by decide) hpage), fun j => ?_⟩
  have hle := h.counter_le j
  omega

/-- The entries after a request that is served and whose counter does not wrap around. -/
lemma Served.entry {tr : List (Process × Request)} {i : Entry} {a : ℕ} {h' : Heap}
    {ms : List Mmap} (hserved : Served s r i a h' ms) (h : Books tr s)
    (hc : classOf r.size = some i) (hlt : (s.heap.arrHeap i).counter + 1 < 2 ^ 64) (j : Entry) :
    ((myMalloc r s.heap).heap.arrHeap j).counter =
        (s.heap.arrHeap j).counter + (if classOf r.size = some j then 1 else 0) ∧
      (((myMalloc r s.heap).heap.arrHeap j).p ≠ null ↔
        0 < ((myMalloc r s.heap).heap.arrHeap j).counter) ∧
      ((myMalloc r s.heap).heap.arrHeap j).maxSize = classSize j := by
  have htable : (myMalloc r s.heap).heap.arrHeap = h'.count i := by rw [hserved.heap]
  rw [htable]
  by_cases hji : j = i
  · subst hji
    have hself : h'.count j j =
        ⟨(h'.arrHeap j).p, (s.heap.arrHeap j).counter + 1, classSize j⟩ := by
      simp only [Heap.count, Function.update_self, hserved.found.counter, hserved.found.maxSize,
        Nat.mod_eq_of_lt hlt]
    rw [hself, if_pos hc]
    exact ⟨rfl, iff_of_true hserved.found.p_ne (Nat.succ_pos _), rfl⟩
  · have hother : h'.count i j = s.heap.arrHeap j :=
      (Function.update_of_ne hji _ _).trans (hserved.found.others j hji)
    have hne : classOf r.size ≠ some j := fun hj => hji (Option.some.inj (hj.symm.trans hc))
    rw [hother, if_neg hne]
    exact ⟨rfl, h.p j, h.maxSize j⟩

/-- One call keeps the books. -/
lemma Books.step {tr : List (Process × Request)} {s' : Process} (h : Books tr s) (hacc : Account s)
    (hr : Succeeds s r) (hstep : process.step s r = some s') :
    Books (tr ++ [(s, r)]) s' ∧ Account s' := by
  obtain ⟨ptr, -, rfl⟩ := call_eq_some hstep
  have hcount : ∀ i : Entry, (tr ++ [(s, r)]).countP (fun x => classOf x.2.size = some i) =
      (s.heap.arrHeap i).counter + if classOf r.size = some i then 1 else 0 := by
    intro i
    rw [List.countP_append, List.countP_singleton, h.counter]
    simp only [decide_eq_true_eq]
  rcases hr.cases h.maxSize with ⟨hc, heq⟩ | ⟨i, a, h', ms, hc, hserved⟩
  · have hnone : ∀ i, classOf r.size ≠ some i := fun i hi => by
      rw [hc] at hi
      cases hi
    rw [heq]
    refine ⟨⟨fun i => ?_, h.p, h.maxSize⟩, hacc⟩
    rw [hcount, if_neg (hnone i)]
    rfl
  · obtain ⟨hlayout, hlt⟩ := hacc.served hserved
    have hwrap : (s.heap.arrHeap i).counter + 1 < 2 ^ 64 :=
      Nat.lt_of_le_of_lt (hlt i) hlayout.length_lt
    have hentry := hserved.entry h hc hwrap
    refine ⟨⟨fun j => ?_, fun j => (hentry j).2.1, fun j => (hentry j).2.2⟩, hlayout, fun j => ?_⟩
    · rw [hcount]
      exact (hentry j).1
    · have hle := hlt j
      have hcounter := (hentry j).1
      show ((myMalloc r s.heap).heap.arrHeap j).counter ≤
        (mapped s.regions (myMalloc r s.heap).mmaps).length
      split_ifs at hcounter <;> omega

/-- **The books are exact** after every history of calls in which every call of `mmap` succeeds, and
so is the call that follows. -/
theorem exact_books {tr : List (Process × Request)} {s : Process} (hp : process.Path tr s)
    (hok : ∀ x ∈ tr, Succeeds x.1 x.2) : Books tr s ∧ ∀ r, Succeeds s r → ExactCall s r := by
  have hbooks : Books tr s ∧ Account s := by
    induction hp with
    | nil =>
      exact ⟨⟨fun _ => rfl, fun _ => iff_of_false (fun h => h rfl) (Nat.lt_irrefl 0), fun _ => rfl⟩,
        ⟨List.nodup_nil, fun g hg => absurd hg List.not_mem_nil⟩, fun _ => Nat.le_refl 0⟩
    | @snoc tr s s' r hp hstep ih =>
      obtain ⟨h, hacc⟩ := ih fun x hx => hok x (by simp [hx])
      exact h.step hacc (hok (s, r) (by simp)) hstep
  exact ⟨hbooks.1, fun r hr => exactCall hbooks.1.maxSize hr⟩

/-- Requests in two classes: 24 and 30 bytes are in one, 100 bytes in another. -/
def twoClasses : List Request :=
  [⟨24, some 0x50000, some 0x60000⟩, ⟨100, some 0x70000, some 0x80000⟩, ⟨30, none, some 0x90000⟩]

/-- The books after them, and one more request of the first class. -/
theorem exact_books_two_classes : ∃ tr s, process.Path tr s ∧ tr.map Prod.snd = twoClasses ∧
    Books tr s ∧ ExactCall s ⟨24, none, some 0xa0000⟩ := by
  have hrun : ∃ s, process.execIf Succeeds process.init twoClasses = some s ∧
      Succeeds s ⟨24, none, some 0xa0000⟩ := ⟨_, rfl, by decide +kernel⟩
  obtain ⟨s, hexec, hnext⟩ := hrun
  obtain ⟨tr, hp, hmap, hok⟩ := Machine.exists_path_of_execIf hexec
  obtain ⟨hbooks, hcall⟩ := exact_books hp hok
  exact ⟨tr, s, hp, hmap, hbooks, hcall _ hnext⟩

end MyMalloc

end PosixIntro
