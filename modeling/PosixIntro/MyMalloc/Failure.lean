import PosixIntro.MyMalloc.Calls

set_option relaxedAutoImplicit false
set_option autoImplicit false

/-!
# What `my_malloc` does when `mmap` fails

`mmap` reports a failure by `MAP_FAILED`, which is not `NULL`, and the code compares with `NULL`.
So a failure in `find_heap` is kept as the pointer of the class, and a failure in `my_malloc` is
counted as an allocation and written through.

## Main definitions

* `CleanFailure`, `FailsCleanly` — how a request that cannot be served should end.
* `NeededSucceed` — the answers to all calls of `mmap` that a request needs are regions.

## Main results

* `second_failed`, `first_failed` — what a failure does instead.
* `failsCleanly_iff` — no request with a failure ends cleanly.
-/

namespace PosixIntro

namespace MyMalloc

/-- A request ends cleanly when `NULL` is returned, nothing is written through `MAP_FAILED`, nothing
is counted, and the pointers in the table are `NULL` or those of mappings. -/
structure CleanFailure (s : Process) (r : Request) : Prop where
  ret : (myMalloc r s.heap).ret = some null
  wrote : (myMalloc r s.heap).wrote ≠ some mapFailed
  counter : ∀ i, ((myMalloc r s.heap).heap.arrHeap i).counter = (s.heap.arrHeap i).counter
  p : ∀ i, ((myMalloc r s.heap).heap.arrHeap i).p = null ∨
    ∃ g ∈ mapped s.regions (myMalloc r s.heap).mmaps,
      g.start = ((myMalloc r s.heap).heap.arrHeap i).p

/-- If a call of `mmap` that is made fails, the request ends cleanly. -/
def FailsCleanly (s : Process) (r : Request) : Prop :=
  (∃ m ∈ (myMalloc r s.heap).mmaps, m.answer = none) → CleanFailure s r

/-- No call of `mmap` that the request needs fails: the one of `my_malloc`, and the one of
`find_heap` if the class has no pointer. -/
def NeededSucceed (s : Process) (r : Request) : Prop :=
  ∀ i, classOf r.size = some i →
    ((s.heap.arrHeap i).p = null → r.first ≠ none) ∧ r.second ≠ none

variable {s : Process} {r : Request} {i : Entry}

/-- **A failure in `my_malloc`** is counted and written through: the process is killed. -/
theorem second_failed (hs : process.ReachIf Answered s) (hr : Answered s r)
    (hc : classOf r.size = some i) (h₂ : r.second = none) :
    (myMalloc r s.heap).ret = none ∧ (myMalloc r s.heap).wrote = some mapFailed ∧
      ((myMalloc r s.heap).heap.arrHeap i).counter =
        ((s.heap.arrHeap i).counter + 1) % 2 ^ 64 := by
  obtain ⟨h', ms, hfound, heq, -⟩ := myMalloc_of_class (sized (fun _ _ h => h) hs) hr hc
  rw [heq, allocate_of_failed h₂]
  refine ⟨rfl, rfl, ?_⟩
  simp [Heap.count, hfound.counter]

/-- **A failure in `find_heap`** is kept as the pointer of the class. -/
theorem first_failed (hs : process.ReachIf Answered s) (hr : Answered s r)
    (hc : classOf r.size = some i) (hp : (s.heap.arrHeap i).p = null) (h₁ : r.first = none) :
    ((myMalloc r s.heap).heap.arrHeap i).p = mapFailed := by
  obtain ⟨h', ms, -, heq, ⟨hne, -⟩ | ⟨-, rfl, -⟩⟩ :=
    myMalloc_of_class (sized (fun _ _ h => h) hs) hr hc
  · exact absurd hp hne
  · rw [heq]
    simp only [allocate]
    split_ifs <;> simp [Heap.setP, h₁, returned]

/-- A request that has a class never returns `NULL`. -/
lemma ret_ne_null (hs : process.ReachIf Answered s) (hr : Answered s r)
    (hc : classOf r.size = some i) : (myMalloc r s.heap).ret ≠ some null := by
  cases h₂ : r.second with
  | none =>
    rw [(second_failed hs hr hc h₂).1]
    exact Option.some_ne_none null ∘ Eq.symm
  | some a =>
    obtain ⟨h', ms, hfound, heq, -⟩ := myMalloc_of_class (sized (fun _ _ h => h) hs) hr hc
    rw [Answered, heq, allocate_mmaps, fresh_append, hfound.maxSize] at hr
    have hfits := hr.2 ⟨a, pages (classSize i)⟩ (by simp [Mmap.region, h₂])
    rw [heq, allocate_of_mapped h₂ hfits.ne_null hfits.ne_mapFailed]
    exact fun hret => Nat.succ_ne_zero _ (Option.some.inj hret)

/-- **No request with a failure ends cleanly**, in whatever state the process is: requests meet
`FailsCleanly` only as long as none of the calls of `mmap` that they need fails. -/
theorem failsCleanly_iff (hs : process.ReachIf Answered s) (hr : Answered s r) :
    FailsCleanly s r ↔ NeededSucceed s r := by
  constructor
  · intro h i hc
    have hclean : ∀ m ∈ (myMalloc r s.heap).mmaps, m.answer ≠ none := by
      intro m hm hfail
      exact ret_ne_null hs hr hc (h ⟨m, hm, hfail⟩).ret
    obtain ⟨h', ms, -, heq, hwhich⟩ := myMalloc_of_class (sized (fun _ _ h => h) hs) hr hc
    rw [heq, allocate_mmaps] at hclean
    refine ⟨fun hp => ?_, hclean _ (List.mem_append_right _ List.mem_cons_self)⟩
    rcases hwhich with ⟨hne, -⟩ | ⟨-, -, rfl⟩
    · exact absurd hp hne
    · exact hclean _ (List.mem_append_left _ List.mem_cons_self)
  · rintro hall ⟨m, hm, hfail⟩
    exfalso
    rcases myMalloc_cases (sized (fun _ _ h => h) hs) hr with
      ⟨-, heq⟩ | ⟨i, h', ms, hc, -, heq, hwhich⟩
    · rw [heq] at hm
      exact List.not_mem_nil hm
    obtain ⟨hfirst, hsecond⟩ := hall i hc
    rw [heq, allocate_mmaps] at hm
    rcases List.mem_append.mp hm with hm | hm
    · rcases hwhich with ⟨-, -, rfl⟩ | ⟨hp, -, rfl⟩
      · exact List.not_mem_nil hm
      · obtain rfl := List.mem_singleton.mp hm
        exact hfirst hp hfail
    · obtain rfl := List.mem_singleton.mp hm
      exact hsecond hfail

/-- The first request of a process, when the address space is used up. -/
lemma answered_exhausted : Answered process.init ⟨8, none, none⟩ :=
  ⟨fun _ hg => (Option.some_ne_none _ hg.symm).elim,
    fun _ hg => (Option.some_ne_none _ hg.symm).elim, trivial⟩

/-- A class is in use when the `mmap` of its next request fails: that is not clean. If it succeeds
there is nothing to end cleanly. -/
theorem failsCleanly_in_use : ∃ s,
    process.execIf Answered process.init [⟨24, some 0x50000, some 0x60000⟩] = some s ∧
      ¬ FailsCleanly s ⟨30, none, none⟩ ∧ FailsCleanly s ⟨30, none, some 0x70000⟩ := by
  have hrun : ∃ s,
      process.execIf Answered process.init [⟨24, some 0x50000, some 0x60000⟩] = some s ∧
      Answered s ⟨30, none, none⟩ ∧ Answered s ⟨30, none, some 0x70000⟩ ∧
      (s.heap.arrHeap ⟨2, by decide⟩).p ≠ null :=
    ⟨_, rfl, by decide +kernel, by decide +kernel, by decide +kernel⟩
  obtain ⟨s, hexec, hfail, hserve, hp⟩ := hrun
  have hs := Machine.ReachIf.of_execIf .init hexec
  have hclass : classOf 30 = some ⟨2, by decide⟩ := rfl
  refine ⟨s, hexec, fun hclean => ?_, (failsCleanly_iff hs hserve).mpr fun i hi => ?_⟩
  · exact ((failsCleanly_iff hs hfail).mp hclean _ hclass).2 rfl
  · obtain rfl := Option.some.inj (hclass.symm.trans hi)
    exact ⟨fun hnull => absurd hnull hp, Option.some_ne_none _⟩

/-- When the address space is used up, a request kills the process. -/
theorem not_failsCleanly_exhausted :
    ¬ ∀ s r, process.ReachIf Answered s → Answered s r → FailsCleanly s r := by
  intro hall
  have hclean := hall _ _ .init answered_exhausted ⟨_, List.mem_cons_self, rfl⟩
  exact Option.some_ne_none _ hclean.ret.symm

end MyMalloc

end PosixIntro
