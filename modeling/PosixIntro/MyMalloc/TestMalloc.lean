import Mathlib.Algebra.BigOperators.Ring.Finset
import PosixIntro.MyMalloc.Blocks

set_option relaxedAutoImplicit false
set_option autoImplicit false

/-!
# `test_malloc(my_malloc)`

`main` fills `arr` with blocks of random sizes below `CHAR_MAX`.

## Main definitions

* `testMalloc` — the loop, with the answers of `rand` and `mmap`.
* `Filled` — the array and the heap when the loop has ended.

## Main results

* `testMalloc_filled` — whatever `rand` and `mmap` answer, the pointers in `arr` lead to as many
  bytes as were asked for, nobody else's and no header among them, and the table accounts for all
  requests.
-/

namespace PosixIntro

namespace MyMalloc

/-- `CHAR_MAX`, where `char` is signed. -/
def charMax : ℕ := 127

/-- The answers of one round of the loop: that of `rand` and those of the two calls of `mmap`. -/
structure Draw where
  rand : ℕ
  first : Option ℕ
  second : Option ℕ

/-- `size_t size = rand() % CHAR_MAX`. -/
def Draw.size (d : Draw) : ℕ := d.rand % charMax

/-- `f(size)`. -/
def Draw.request (d : Draw) : Request := ⟨d.size, d.first, d.second⟩

/-- The loop of `test_malloc(my_malloc)`: the process afterwards and the pointers in `arr`. `none` if
the process is killed. -/
def testMalloc : List Draw → Process → Option (Process × List ℕ)
  | [], s => some (s, [])
  | d :: ds, s =>
    (myMalloc d.request s.heap).ret.bind fun ptr => (process.step s d.request).bind fun s' =>
      (testMalloc ds s').map fun x => (x.1, ptr :: x.2)

/-- All calls of `mmap` in the loop succeed. -/
def AllSucceed : List Draw → Process → Prop
  | [], _ => True
  | d :: ds, s => Succeeds s d.request ∧
      ∀ s', process.step s d.request = some s' → AllSucceed ds s'

instance decidableAllSucceed : (ds : List Draw) → (s : Process) → Decidable (AllSucceed ds s)
  | [], _ => isTrue trivial
  | d :: ds, s =>
    have := fun s' => decidableAllSucceed ds s'
    inferInstanceAs (Decidable (Succeeds s d.request ∧
      ∀ s' ∈ process.step s d.request, AllSucceed ds s'))

/-- The pointers in `arr` with the sizes that were asked for. -/
def grants (ds : List Draw) (arr : List ℕ) : List Grant :=
  List.zipWith (fun d ptr => ⟨ptr, d.size⟩) ds arr

variable {ds : List Draw} {d : Draw} {s : Process} {arr : List ℕ} {tr : List (Process × Request)}

/-- A random size has one of the classes up to 128. -/
lemma Draw.classOf_size (d : Draw) : ∃ i, classOf d.size = some i ∧ classSize i ≤ 128 := by
  have hlt : d.size < 127 := Nat.mod_lt _ (by decide)
  have hsome : classOf d.size ≠ none := fun h => by
    have hlarge := classOf_eq_none_iff.mp h
    omega
  obtain ⟨i, hi⟩ := Option.ne_none_iff_exists'.mp hsome
  refine ⟨i, hi, (classOf_eq_some_iff.mp hi).2 ⟨4, by decide⟩ ?_⟩
  show d.size ≤ 128
  omega

/-- A random size is not short. -/
lemma Draw.not_short (d : Draw) : ¬ Short d.size := by
  rintro ⟨m, -, hm, -, hlt⟩
  have hsize : d.size < 127 := Nat.mod_lt _ (by decide)
  have hheader : header = 8 := rfl
  omega

/-- The history of the loop. -/
structure Loop (ds : List Draw) (tr : List (Process × Request)) (s : Process) (arr : List ℕ) :
    Prop where
  path : process.Path tr s
  succeed : ∀ x ∈ tr, Succeeds x.1 x.2
  handed : granted tr = grants ds arr
  sizes : tr.map (fun x => x.2.size) = ds.map Draw.size
  length : arr.length = ds.length

/-- One round of the loop. -/
lemma Loop.round {done : List Draw} (h : Loop done tr s arr) (hr : Succeeds s d.request) :
    ∃ ptr s', (myMalloc d.request s.heap).ret = some ptr ∧ process.step s d.request = some s' ∧
      Loop (done ++ [d]) (tr ++ [(s, d.request)]) s' (arr ++ [ptr]) := by
  have hsized : s.heap.Sized :=
    sized_of_succeeds (h.path.reachIf h.succeed)
  obtain ⟨i, hc, -⟩ := d.classOf_size
  obtain ⟨a, gs, hands, -⟩ := hr.hands hsized hc
  have hstep := call_of_ret hands.ret
  refine ⟨a + header, _, hands.ret, hstep, h.path.snoc hstep, fun x hx => ?_, ?_, ?_, ?_⟩
  · rcases List.mem_append.mp hx with hx | hx
    · exact h.succeed x hx
    · exact List.mem_singleton.mp hx ▸ hr
  · rw [granted_append, grant_of_ret hands.ret, h.handed, grants, grants,
      List.zipWith_append h.length.symm]
    rfl
  · rw [List.map_append, h.sizes, List.map_append]
    rfl
  · rw [List.length_append, h.length, List.length_append]
    rfl

/-- The loop goes on to its end. -/
lemma Loop.finish {done : List Draw} (h : Loop done tr s arr) (hs : AllSucceed ds s) :
    ∃ s' arr' tr', testMalloc ds s = some (s', arr') ∧ Loop (done ++ ds) tr' s' (arr ++ arr') := by
  induction ds generalizing done tr s arr with
  | nil => exact ⟨s, [], tr, rfl, by simpa using h⟩
  | cons d ds ih =>
    obtain ⟨ptr, s₁, hret, hstep, hround⟩ := h.round hs.1
    obtain ⟨s', arr', tr', hrest, hloop⟩ := ih hround (hs.2 s₁ hstep)
    refine ⟨s', ptr :: arr', tr', ?_, by simpa using hloop⟩
    rw [testMalloc, hret, Option.bind_some, hstep, Option.bind_some, hrest]
    rfl

/-- Counting by class counts everything that has a class. -/
lemma sum_countP {α : Type*} (f : α → Option Entry) (l : List α) (h : ∀ x ∈ l, f x ≠ none) :
    ∑ i, l.countP (fun x => f x = some i) = l.length := by
  induction l with
  | nil => simp
  | cons x l ih =>
    obtain ⟨j, hj⟩ := Option.ne_none_iff_exists'.mp (h x List.mem_cons_self)
    have hone : ∑ i, (if decide (f x = some i) = true then 1 else 0) = 1 := by
      simp [hj]
    simp only [List.countP_cons]
    rw [Finset.sum_add_distrib, ih fun y hy => h y (List.mem_cons_of_mem _ hy), hone]
    rfl

/-- The array and the heap when the loop has ended: the bytes that were asked for are apart from
each other and from all headers and inside mappings of their own; the headers are intact; and the
table and the mappings account for all requests. -/
structure Filled (ds : List Draw) (s : Process) (arr : List ℕ) : Prop where
  length : arr.length = ds.length
  ne_null : null ∉ arr
  areas : (grants ds arr).Pairwise fun b b' => b.area.Apart b'.area
  areas_heads : ∀ b ∈ grants ds arr, ∀ b' ∈ grants ds arr, b.area.Apart b'.head
  mapped : ∀ b ∈ grants ds arr, b.block ∈ s.regions ∧ b.block.start ≤ b.area.start ∧
    b.area.start + b.area.len ≤ b.block.start + b.block.len
  heads : ∀ b ∈ grants ds arr, s.heap.word b.head.start = classOf b.size
  counters : ∑ i, (s.heap.arrHeap i).counter = ds.length
  large : ∀ i, 128 < classSize i → (s.heap.arrHeap i).counter = 0 ∧ (s.heap.arrHeap i).p = null
  mappings : s.regions.length = ds.length + (used s.heap).length

/-- The sizes of the grants. -/
lemma not_short_of_mem {b : Grant} (h : b ∈ grants ds arr) : ¬ Short b.size := by
  obtain ⟨k, hk, rfl⟩ := List.getElem_of_mem h
  simp only [grants, List.getElem_zipWith]
  exact Draw.not_short _

/-- Every pointer in `arr` is that of a grant. -/
lemma exists_grant (hlen : arr.length = ds.length) {ptr : ℕ} (h : ptr ∈ arr) :
    ∃ b ∈ grants ds arr, b.ptr = ptr := by
  obtain ⟨k, hk, rfl⟩ := List.getElem_of_mem h
  have hk' : k < (grants ds arr).length := by
    rw [grants, List.length_zipWith]
    omega
  refine ⟨(grants ds arr)[k], List.getElem_mem hk', ?_⟩
  simp only [grants, List.getElem_zipWith]

/-- The classes that the loop has used. -/
lemma Loop.classOf_size (h : Loop ds tr s arr) {x : Process × Request} (hx : x ∈ tr) :
    ∃ i, classOf x.2.size = some i ∧ classSize i ≤ 128 := by
  have hsize : x.2.size ∈ ds.map Draw.size := by
    rw [← h.sizes]
    exact List.mem_map_of_mem hx
  obtain ⟨d, -, hd⟩ := List.mem_map.mp hsize
  rw [← hd]
  exact d.classOf_size

/-- The bytes of a grant are inside its block, behind the header. -/
lemma Loop.area_inside (h : Loop ds tr s arr) {b : Grant} (hb : b ∈ grants ds arr) :
    b.head.start + b.head.len ≤ b.area.start ∧ b.block.start ≤ b.area.start ∧
      b.area.start + b.area.len ≤ b.block.start + b.block.len :=
  (ledger h.path h.succeed).area_inside (h.handed ▸ hb) (not_short_of_mem hb)

/-- The bytes of one grant are apart from the block of another. -/
lemma Loop.area_apart (h : Loop ds tr s arr) {b b' : Grant} (hb : b ∈ grants ds arr)
    (hapart : b.block.Apart b'.block) : b.area.Apart b'.block :=
  hapart.of_inside (h.area_inside hb).2.1 (h.area_inside hb).2.2

/-- The bytes of one grant are apart from the header of another. -/
lemma Loop.area_apart_head (h : Loop ds tr s arr) {b b' : Grant} (hb : b ∈ grants ds arr)
    (hb' : b' ∈ grants ds arr) (hapart : b.block.Apart b'.block) : b.area.Apart b'.head :=
  ((h.area_apart hb hapart).symm.of_inside (x := b'.head) (Nat.le_refl _)
    ((ledger h.path h.succeed).head_inside (h.handed ▸ hb'))).symm

/-- The table accounts for all rounds of the loop. -/
lemma Loop.counters (h : Loop ds tr s arr) :
    ∑ i, (s.heap.arrHeap i).counter = ds.length := by
  have hbooks := (exact_books h.path h.succeed).1
  have hsome : ∀ x ∈ tr, classOf x.2.size ≠ none := fun x hx => by
    obtain ⟨j, hj, -⟩ := h.classOf_size hx
    rw [hj]
    exact Option.some_ne_none j
  have hlen : tr.length = ds.length := by
    have heq := congrArg List.length h.sizes
    rwa [List.length_map, List.length_map] at heq
  calc ∑ i, (s.heap.arrHeap i).counter
      = ∑ i, tr.countP (fun x => classOf x.2.size = some i) :=
        Finset.sum_congr rfl fun i _ => hbooks.counter i
    _ = tr.length := by
        apply sum_countP
        exact hsome
    _ = ds.length := hlen

/-- The loop uses no class above 128. -/
lemma Loop.large (h : Loop ds tr s arr) {i : Entry} (hi : 128 < classSize i) :
    (s.heap.arrHeap i).counter = 0 ∧ (s.heap.arrHeap i).p = null := by
  have hbooks := (exact_books h.path h.succeed).1
  have hzero : (s.heap.arrHeap i).counter = 0 := by
    rw [hbooks.counter, List.countP_eq_zero]
    intro x hx heq
    obtain ⟨j, hj, hle⟩ := h.classOf_size hx
    obtain rfl : j = i := Option.some.inj (hj.symm.trans (of_decide_eq_true heq))
    exact Nat.not_lt.mpr hle hi
  refine ⟨hzero, by_contra fun hne => ?_⟩
  have hpos := (hbooks.p i).mp hne
  exact absurd hzero (Nat.ne_of_gt hpos)

/-- The array and the heap after a history of the loop. -/
lemma Loop.filled (h : Loop ds tr s arr) : Filled ds s arr := by
  have hledger := ledger h.path h.succeed
  have hmem : ∀ b ∈ grants ds arr, b ∈ granted tr := fun b hb => h.handed ▸ hb
  have hblocks := hledger.blocks_apart
  rw [h.handed] at hblocks
  refine ⟨h.length, fun hnull => ?_, hblocks.imp_of_mem fun hb hb' hapart => ?_, ?_,
    fun b hb => ⟨hledger.block_mem (hmem b hb), (h.area_inside hb).2⟩,
    fun b hb => (hledger.heads b (hmem b hb)).2.1, h.counters, fun i hi => h.large hi, ?_⟩
  · obtain ⟨b, hb, hptr⟩ := exists_grant h.length hnull
    have hle := (hledger.heads b (hmem b hb)).1
    rw [hptr] at hle
    exact absurd hle (by decide)
  · have hleft := h.area_apart hb hapart
    exact (hleft.symm.of_inside (h.area_inside hb').2.1 (h.area_inside hb').2.2).symm
  · refine List.Pairwise.forall_of_forall_of_flip (fun b hb => .inr (h.area_inside hb).1)
      (hblocks.imp_of_mem fun hb hb' hapart => h.area_apart_head hb hb' hapart)
      (hblocks.imp_of_mem fun hb hb' hapart => h.area_apart_head hb' hb hapart.symm)
  · have hlen := hledger.mappings.length_eq
    rw [h.handed, List.length_append, List.length_map, List.length_map, grants,
      List.length_zipWith, h.length, Nat.min_self] at hlen
    exact hlen

/-- **`test_malloc(my_malloc)` fills the array**: whatever `rand` answers, and wherever the system
puts the mappings, as long as it makes them, the loop ends, every pointer leads to as many bytes as
were asked for, and the table and the mappings account for all requests. -/
theorem testMalloc_filled (h : AllSucceed ds process.init) :
    ∃ s arr, testMalloc ds process.init = some (s, arr) ∧ Filled ds s arr := by
  have hstart : Loop [] [] process.init [] :=
    ⟨.nil, fun _ hx => absurd hx List.not_mem_nil, rfl, rfl, rfl⟩
  obtain ⟨s, arr, tr, hrun, hloop⟩ := hstart.finish h
  exact ⟨s, arr, hrun, hloop.filled⟩

/-- Random numbers that give requests of 24, 100 and 30 bytes. -/
def threeDraws : List Draw :=
  [⟨151, some 0x50000, some 0x60000⟩, ⟨100, some 0x70000, some 0x80000⟩, ⟨157, none, some 0x90000⟩]

/-- The array after three rounds. -/
theorem testMalloc_filled_three :
    ∃ s arr, testMalloc threeDraws process.init = some (s, arr) ∧ Filled threeDraws s arr :=
  testMalloc_filled (by decide +kernel)

end MyMalloc

end PosixIntro
