import PosixIntro.MyMalloc.Model

set_option relaxedAutoImplicit false
set_option autoImplicit false

/-!
# What a call of `my_malloc` does

## Main definitions

* `Heap.Sized` — the sizes in the table are those of the initializer.
* `Found` — what `find_heap` leaves of a heap.
* `Served` — a request that is served when no call of `mmap` fails.

## Main results

* `allocate_of_failed`, `allocate_of_mapped` — the second call of `mmap`.
* `myMalloc_of_class`, `myMalloc_cases` — everything a call can do.
* `sized` — the sizes never change.
* `Succeeds.cases` — what a call does when no call of `mmap` fails.
-/

namespace PosixIntro

namespace MyMalloc

/-! ### The search -/

/-- The sizes are those of the initializer. -/
def Heap.Sized (h : Heap) : Prop := ∀ i, (h.arrHeap i).maxSize = classSize i

/-- The table after the first call of `mmap` for the entry `i` has returned `p`. -/
def Heap.setP (h : Heap) (i : Entry) (p : ℕ) : Heap :=
  { h with arrHeap := Function.update h.arrHeap i { h.arrHeap i with p := p } }

variable {h : Heap} {r : Request} {i : Entry}

/-- Setting a pointer changes no size. -/
lemma Heap.Sized.setP (hs : h.Sized) (i : Entry) (p : ℕ) : (h.setP i p).Sized := by
  intro j
  by_cases hji : j = i
  · subst hji
    simpa [Heap.setP] using hs j
  · simpa [Heap.setP, Function.update_of_ne hji] using hs j

/-- The search in a table with the right sizes. -/
lemma Heap.Sized.find (hs : h.Sized) (size : ℕ) :
    (Fin.find? fun i => size ≤ (h.arrHeap i).maxSize) = classOf size := by
  have hsame : ∀ i, (h.arrHeap i).maxSize = classSize i := hs
  simp only [hsame, classOf]

/-- `find_heap` for a request that has no class. -/
lemma findHeap_of_none (hs : h.Sized) (hc : classOf r.size = none) :
    findHeap r h.arrHeap = (h.arrHeap, [], none) := by
  unfold findHeap
  rw [hs.find, hc]

/-- `find_heap` for a request of a class that has been used. -/
lemma findHeap_of_mapped (hs : h.Sized) (hc : classOf r.size = some i)
    (hp : (h.arrHeap i).p ≠ null) : findHeap r h.arrHeap = (h.arrHeap, [], some i) := by
  unfold findHeap
  rw [hs.find, hc]
  exact if_neg hp

/-- `find_heap` for the first request of a class. -/
lemma findHeap_of_unmapped (hs : h.Sized) (hc : classOf r.size = some i)
    (hp : (h.arrHeap i).p = null) (hf : returned r.first ≠ null) :
    findHeap r h.arrHeap =
      ((h.setP i (returned r.first)).arrHeap, [⟨null, classSize i, r.first⟩], some i) := by
  unfold findHeap
  rw [hs.find, hc]
  simp only [if_pos hp, if_neg hf, hs i, Heap.setP]

/-! ### The second call of `mmap` -/

variable {ms : List Mmap}

/-- The calls of `mmap` when the second one is made. -/
lemma allocate_mmaps : (allocate r i h ms).mmaps =
    ms ++ [⟨(h.arrHeap i).p, (h.arrHeap i).maxSize, r.second⟩] := by
  simp only [allocate]
  split_ifs <;> rfl

/-- The entry `i` of a table after a request was counted. -/
def Heap.count (h : Heap) (i : Entry) : Entry → MyHeap :=
  Function.update h.arrHeap i
    { h.arrHeap i with counter := ((h.arrHeap i).counter + 1) % 2 ^ 64 }

/-- The second call of `mmap` fails: the request is counted, and the store of the header kills the
process. -/
lemma allocate_of_failed (h₂ : r.second = none) :
    allocate r i h ms = ⟨{ h with arrHeap := h.count i },
      ms ++ [⟨(h.arrHeap i).p, (h.arrHeap i).maxSize, r.second⟩], some mapFailed, none⟩ := by
  have hnull : mapFailed ≠ null := by decide
  simp only [allocate, h₂, returned, if_neg hnull, if_true, Heap.count]

/-- The second call of `mmap` succeeds. -/
lemma allocate_of_mapped {a : ℕ} (h₂ : r.second = some a) (hnull : a ≠ null)
    (hfailed : a ≠ mapFailed) :
    allocate r i h ms = ⟨⟨h.count i, Function.update h.word a (some i)⟩,
      ms ++ [⟨(h.arrHeap i).p, (h.arrHeap i).maxSize, r.second⟩], some a, some (a + header)⟩ := by
  simp only [allocate, h₂, returned, if_neg hnull, if_neg hfailed, Heap.count]

/-! ### The cases of a call -/

/-- **A request that has no class** is answered by `NULL`. -/
theorem myMalloc_of_none (hs : h.Sized) (hc : classOf r.size = none) :
    myMalloc r h = ⟨h, [], none, some null⟩ := by
  unfold myMalloc
  rw [findHeap_of_none hs hc]

/-- **A request of a class that has been used** is served by one call of `mmap`. -/
theorem myMalloc_of_mapped (hs : h.Sized) (hc : classOf r.size = some i)
    (hp : (h.arrHeap i).p ≠ null) : myMalloc r h = allocate r i h [] := by
  unfold myMalloc
  rw [findHeap_of_mapped hs hc hp]

/-- **The first request of a class** is served by two. -/
theorem myMalloc_of_unmapped (hs : h.Sized) (hc : classOf r.size = some i)
    (hp : (h.arrHeap i).p = null) (hf : returned r.first ≠ null) :
    myMalloc r h =
      allocate r i (h.setP i (returned r.first)) [⟨null, classSize i, r.first⟩] := by
  unfold myMalloc
  rw [findHeap_of_unmapped hs hc hp hf]
  rfl

/-- What `find_heap` leaves of a heap when it returns the entry `i`. -/
structure Found (h : Heap) (i : Entry) (h' : Heap) : Prop where
  others : ∀ j, j ≠ i → h'.arrHeap j = h.arrHeap j
  counter : (h'.arrHeap i).counter = (h.arrHeap i).counter
  maxSize : (h'.arrHeap i).maxSize = classSize i
  p_ne : (h'.arrHeap i).p ≠ null
  word : h'.word = h.word

/-- An entry that has been used is returned as it is. -/
lemma Found.refl (hs : h.Sized) (hp : (h.arrHeap i).p ≠ null) : Found h i h :=
  ⟨fun _ _ => rfl, rfl, hs i, hp, rfl⟩

/-- An entry that is used for the first time gets its pointer. -/
lemma Found.setP (hs : h.Sized) {p : ℕ} (hp : p ≠ null) : Found h i (h.setP i p) where
  others j hj := Function.update_of_ne hj _ _
  counter := by simp [Heap.setP]
  maxSize := by simpa [Heap.setP] using hs i
  p_ne := by simpa [Heap.setP] using hp
  word := rfl

/-! ### Mappings -/

/-- The mappings after some calls and one more. -/
lemma mapped_append (gs : List Region) (ms : List Mmap) (m : Mmap) :
    mapped gs (ms ++ [m]) = m.region.toList ++ mapped gs ms := by
  induction ms generalizing gs with
  | nil => rfl
  | cons m' ms ih => exact ih _

/-- The answers to some calls and one more. -/
lemma fresh_append {gs : List Region} {ms : List Mmap} {m : Mmap} :
    Fresh gs (ms ++ [m]) ↔ Fresh gs ms ∧ ∀ g, m.region = some g → Fits (mapped gs ms) g := by
  induction ms generalizing gs with
  | nil => exact ⟨fun hf => ⟨trivial, hf.1⟩, fun hf => ⟨hf.2, trivial⟩⟩
  | cons m' ms ih => rw [List.cons_append, Fresh, Fresh, ih, and_assoc, mapped]

/-- A fresh region does not start at `NULL`. -/
lemma Fits.ne_null {gs : List Region} {g : Region} (h : Fits gs g) : g.start ≠ null :=
  Nat.ne_of_gt h.pos

/-- The mapping of a class does not start at `MAP_FAILED`. -/
lemma Fits.ne_mapFailed {gs : List Region} {a : ℕ} (h : Fits gs ⟨a, pages (classSize i)⟩) :
    a ≠ mapFailed := by
  have hpage := le_pages i
  have hinside : a + pages (classSize i) ≤ 2 ^ 64 := h.inside
  rw [mapFailed]
  omega

/-! ### Everything a call does -/

/-- The first call of `mmap` is made before everything else. -/
lemma first_mem_mmaps (hs : h.Sized) (hc : classOf r.size = some i)
    (hp : (h.arrHeap i).p = null) :
    ∃ ms, (myMalloc r h).mmaps = ⟨null, classSize i, r.first⟩ :: ms := by
  by_cases hf : returned r.first = null
  · have hfound : findHeap r h.arrHeap =
        ((h.setP i (returned r.first)).arrHeap, [⟨null, classSize i, r.first⟩], none) := by
      unfold findHeap
      rw [hs.find, hc]
      simp only [if_pos hp, if_pos hf, hs i, Heap.setP]
    refine ⟨[], ?_⟩
    unfold myMalloc
    rw [hfound]
  · refine ⟨[⟨returned r.first, classSize i, r.second⟩], ?_⟩
    rw [myMalloc_of_unmapped hs hc hp hf, allocate_mmaps]
    simp [Heap.setP, hs i]

/-- The pointer that the first call of `mmap` returns is not `NULL`. -/
lemma first_ne_null (hs : h.Sized) (hc : classOf r.size = some i) (hp : (h.arrHeap i).p = null)
    {gs : List Region} (hf : Fresh gs (myMalloc r h).mmaps) : returned r.first ≠ null := by
  obtain ⟨ms, hms⟩ := first_mem_mmaps hs hc hp
  rw [hms] at hf
  cases hr : r.first with
  | none => decide
  | some a =>
    have hfits : Fits gs ⟨a, pages (classSize i)⟩ := hf.1 _ (by simp [Mmap.region, hr])
    exact hfits.ne_null

/-- `find_heap` returns the class of the request. -/
lemma findHeap_entry (hs : h.Sized) (hc : classOf r.size = some i) {gs : List Region}
    (hf : Fresh gs (myMalloc r h).mmaps) : (findHeap r h.arrHeap).2.2 = some i := by
  by_cases hp : (h.arrHeap i).p = null
  · rw [findHeap_of_unmapped hs hc hp (first_ne_null hs hc hp hf)]
  · rw [findHeap_of_mapped hs hc hp]

/-- **A request that has a class** is served with the entry that `find_heap` leaves. -/
theorem myMalloc_of_class (hs : h.Sized) {gs : List Region} (hf : Fresh gs (myMalloc r h).mmaps)
    (hc : classOf r.size = some i) :
    ∃ h' ms, Found h i h' ∧ myMalloc r h = allocate r i h' ms ∧
      (((h.arrHeap i).p ≠ null ∧ h' = h ∧ ms = []) ∨
        ((h.arrHeap i).p = null ∧ h' = h.setP i (returned r.first) ∧
          ms = [⟨null, classSize i, r.first⟩])) := by
  by_cases hp : (h.arrHeap i).p = null
  · have hne := first_ne_null hs hc hp hf
    exact ⟨_, _, .setP hs hne, myMalloc_of_unmapped hs hc hp hne, .inr ⟨hp, rfl, rfl⟩⟩
  · exact ⟨_, _, .refl hs hp, myMalloc_of_mapped hs hc hp, .inl ⟨hp, rfl, rfl⟩⟩

/-- **Everything a call does**, when the first call of `mmap` is answered as the system answers: it
has no class, or it is served with the entry that `find_heap` leaves. -/
theorem myMalloc_cases (hs : h.Sized) {gs : List Region} (hf : Fresh gs (myMalloc r h).mmaps) :
    (classOf r.size = none ∧ myMalloc r h = ⟨h, [], none, some null⟩) ∨
      ∃ i h' ms, classOf r.size = some i ∧ Found h i h' ∧ myMalloc r h = allocate r i h' ms ∧
        (((h.arrHeap i).p ≠ null ∧ h' = h ∧ ms = []) ∨
          ((h.arrHeap i).p = null ∧ h' = h.setP i (returned r.first) ∧
            ms = [⟨null, classSize i, r.first⟩])) := by
  cases hc : classOf r.size with
  | none => exact .inl ⟨rfl, myMalloc_of_none hs hc⟩
  | some i =>
    obtain ⟨h', ms, hcase⟩ := myMalloc_of_class hs hf hc
    exact .inr ⟨i, h', ms, rfl, hcase⟩

/-! ### Runs -/

/-- A table keeps its sizes when a request is counted. -/
lemma Heap.Sized.count (hs : h.Sized) (i j : Entry) : (h.count i j).maxSize = classSize j := by
  by_cases hji : j = i
  · subst hji
    simpa [Heap.count] using hs j
  · simpa [Heap.count, Function.update_of_ne hji] using hs j

/-- The heap that `find_heap` leaves has the same sizes. -/
lemma Found.sized {h' : Heap} (hf : Found h i h') (hs : h.Sized) : h'.Sized := by
  intro j
  by_cases hji : j = i
  · subst hji
    exact hf.maxSize
  · rw [hf.others j hji]
    exact hs j

/-- A request keeps the sizes. -/
lemma allocate_sized (hs : h.Sized) : (allocate r i h ms).heap.Sized := by
  simp only [allocate]
  split_ifs
  · exact hs
  · exact hs.count i
  · exact hs.count i

/-- What a call that returns makes of the process. -/
lemma call_eq_some {s s' : Process} (hstep : process.step s r = some s') :
    ∃ ptr, (myMalloc r s.heap).ret = some ptr ∧
      s' = ⟨(myMalloc r s.heap).heap, mapped s.regions (myMalloc r s.heap).mmaps⟩ := by
  obtain ⟨ptr, hret, rfl⟩ := Option.map_eq_some_iff.mp hstep
  exact ⟨ptr, hret, rfl⟩

/-- A call that returns is a step of the process. -/
lemma call_of_ret {s : Process} {ptr : ℕ} (h : (myMalloc r s.heap).ret = some ptr) :
    process.step s r =
      some ⟨(myMalloc r s.heap).heap, mapped s.regions (myMalloc r s.heap).mmaps⟩ :=
  Option.map_eq_some_iff.mpr ⟨ptr, h, rfl⟩

/-- **The sizes never change**, whatever the system answers. -/
theorem sized {ok : Process → Request → Prop} (hok : ∀ s r, ok s r → Answered s r) {s : Process}
    (h : process.ReachIf ok s) : s.heap.Sized := by
  refine h.invariant (I := fun s => s.heap.Sized) (fun _ => rfl) fun s r s' _ ih ha hstep => ?_
  obtain ⟨ptr, -, rfl⟩ := call_eq_some hstep
  rcases myMalloc_cases ih (hok s r ha) with ⟨-, heq⟩ | ⟨i, h', ms, -, hfound, heq, -⟩
  · rw [heq]
    exact ih
  · rw [heq]
    exact allocate_sized (hfound.sized ih)

/-- A request that is served, when all calls of `mmap` succeed. -/
structure Served (s : Process) (r : Request) (i : Entry) (a : ℕ) (h' : Heap) (ms : List Mmap) :
    Prop where
  found : Found s.heap i h'
  fresh : Fresh s.regions ms
  fits : Fits (mapped s.regions ms) ⟨a, pages (classSize i)⟩
  lengths : ∀ m ∈ ms, m.length = classSize i
  heap : (myMalloc r s.heap).heap = ⟨h'.count i, Function.update s.heap.word a (some i)⟩
  regions : mapped s.regions (myMalloc r s.heap).mmaps =
    ⟨a, pages (classSize i)⟩ :: mapped s.regions ms
  ret : (myMalloc r s.heap).ret = some (a + header)

/-- **A request whose calls of `mmap` all succeed** has no class or is served. -/
theorem Succeeds.cases {s : Process} (hs : s.heap.Sized) (h : Succeeds s r) :
    (classOf r.size = none ∧ myMalloc r s.heap = ⟨s.heap, [], none, some null⟩) ∨
      ∃ i a h' ms, classOf r.size = some i ∧ Served s r i a h' ms := by
  obtain ⟨hfresh, hsucc⟩ := h
  rcases myMalloc_cases hs hfresh with hnone | ⟨i, h', ms, hc, hfound, heq, hwhich⟩
  · exact .inl hnone
  have hsize : (h'.arrHeap i).maxSize = classSize i := hfound.maxSize
  rw [heq, allocate_mmaps, hsize] at hsucc
  rw [Answered, heq, allocate_mmaps, hsize, fresh_append] at hfresh
  have hsecond : r.second ≠ none := hsucc ⟨(h'.arrHeap i).p, classSize i, r.second⟩ (by simp)
  obtain ⟨a, ha⟩ := Option.ne_none_iff_exists'.mp hsecond
  have hfits := hfresh.2 ⟨a, pages (classSize i)⟩ (by simp [Mmap.region, ha])
  have hout : allocate r i h' ms = _ := allocate_of_mapped ha hfits.ne_null hfits.ne_mapFailed
  refine .inr ⟨i, a, h', ms, hc, hfound, hfresh.1, hfits, ?_, ?_, ?_, ?_⟩
  · rcases hwhich with ⟨-, -, rfl⟩ | ⟨-, -, rfl⟩
    · simp
    · simp
  · rw [heq, hout, hfound.word]
  · rw [heq, hout, hsize, mapped_append]
    simp [Mmap.region, ha]
  · rw [heq, hout]

/-- The first request of a class, answered by two fresh regions. -/
lemma succeeds_of_unmapped {s : Process} {size a b : ℕ} (hs : s.heap.Sized)
    (hc : classOf size = some i) (hp : (s.heap.arrHeap i).p = null)
    (ha : Fits s.regions ⟨a, pages (classSize i)⟩)
    (hb : Fits (⟨a, pages (classSize i)⟩ :: s.regions) ⟨b, pages (classSize i)⟩) :
    Succeeds s ⟨size, some a, some b⟩ := by
  have hmmaps : (myMalloc ⟨size, some a, some b⟩ s.heap).mmaps =
      [⟨null, classSize i, some a⟩, ⟨a, classSize i, some b⟩] := by
    rw [myMalloc_of_unmapped (r := ⟨size, some a, some b⟩) hs hc hp ha.ne_null,
      allocate_mmaps]
    simp [Heap.setP, returned, hs i]
  rw [Succeeds, Answered, hmmaps]
  refine ⟨⟨?_, ?_, trivial⟩, by simp⟩
  · rintro g hg
    obtain rfl := by simpa [Mmap.region] using hg
    exact ha
  · rintro g hg
    obtain rfl := by simpa [Mmap.region] using hg
    exact hb

end MyMalloc

end PosixIntro
