import Mathlib.Data.List.FinRange
import PosixIntro.MyMalloc.Books
import PosixIntro.MyMalloc.Enough

set_option relaxedAutoImplicit false
set_option autoImplicit false

/-!
# The blocks that `my_malloc` hands out

Nothing is ever unmapped, so the blocks of a whole history are there at once. As long as every call
of `mmap` succeeds, the mappings are the blocks that were handed out and one more for every class
that was used, which nobody ever gets.

## Main definitions

* `Grant`, `granted` — a pointer that was returned with the size asked for; those of a history.
* `Grant.block`, `Grant.head`, `Grant.area` — its mapping, its header and the bytes asked for.
* `Ledger` — the mappings after a history of calls.
* `Confined` — who uses no more than was asked for touches no other block and no header.

## Main results

* `ledger` — after every history the mappings are apart, they are those handed out and the unused
  ones, and all headers are intact.
* `confined_iff` — the sizes that keep their owner confined in every history are those that are not
  `Short`.
-/

namespace PosixIntro

namespace MyMalloc

/-! ### Grants -/

/-- A pointer that was returned, and the size that was asked for. -/
structure Grant where
  ptr : ℕ
  size : ℕ

/-- What a call hands out. -/
def grant (s : Process) (r : Request) : Option Grant :=
  ((myMalloc r s.heap).ret.filter (· ≠ null)).map fun ptr => ⟨ptr, r.size⟩

/-- Everything that was handed out in a history. -/
def granted (tr : List (Process × Request)) : List Grant := tr.filterMap fun x => grant x.1 x.2

/-- The mapping that `my_malloc` made. -/
def Grant.block (b : Grant) : Region :=
  ⟨b.ptr - header, pages ((classOf b.size).elim 0 classSize)⟩

/-- The word before the pointer. -/
def Grant.head (b : Grant) : Region := ⟨b.ptr - header, header⟩

/-- The bytes that were asked for. -/
def Grant.area (b : Grant) : Region := ⟨b.ptr, b.size⟩

/-- The mapping that `find_heap` made for an entry. -/
def Heap.hint (h : Heap) (i : Entry) : Region := ⟨(h.arrHeap i).p, pages (classSize i)⟩

/-- The entries that have been used. -/
def used (h : Heap) : List Entry :=
  (List.finRange heapLen).filter fun i => (h.arrHeap i).p ≠ null

variable {s s' : Process} {r : Request} {i : Entry} {a : ℕ}

/-- Two regions are apart in either order. -/
lemma Region.Apart.symm {g g' : Region} (h : g.Apart g') : g'.Apart g := Or.symm h

/-- What is inside one region is apart from everything that the region is apart from. -/
lemma Region.Apart.of_inside {g g' x : Region} (h : g.Apart g') (hlo : g.start ≤ x.start)
    (hhi : x.start + x.len ≤ g.start + g.len) : x.Apart g' := by
  rcases h with hbelow | habove
  · exact .inl (Nat.le_trans hhi hbelow)
  · exact .inr (Nat.le_trans habove hlo)

/-! ### One call -/

/-- What a request that is served does to the mappings and to the words before the blocks. -/
structure Hands (s : Process) (r : Request) (i : Entry) (a : ℕ) (h' : Heap) (gs : List Region) :
    Prop where
  ret : (myMalloc r s.heap).ret = some (a + header)
  word : h'.word = Function.update s.heap.word a (some i)
  others : ∀ j, j ≠ i → h'.arrHeap j = s.heap.arrHeap j
  p_ne : (h'.arrHeap i).p ≠ null
  fits : Fits gs ⟨a, pages (classSize i)⟩
  before : ((s.heap.arrHeap i).p ≠ null ∧ (h'.arrHeap i).p = (s.heap.arrHeap i).p ∧
      gs = s.regions) ∨
    ((s.heap.arrHeap i).p = null ∧ Fits s.regions (h'.hint i) ∧ gs = h'.hint i :: s.regions)

/-- A request that is served hands out a block. -/
lemma Succeeds.hands (hs : s.heap.Sized) (h : Succeeds s r) (hc : classOf r.size = some i) :
    ∃ a gs, Hands s r i a (myMalloc r s.heap).heap gs ∧
      mapped s.regions (myMalloc r s.heap).mmaps = ⟨a, pages (classSize i)⟩ :: gs := by
  obtain ⟨h', ms, hfound, heq, hwhich⟩ := myMalloc_of_class hs h.1 hc
  have hsize : (h'.arrHeap i).maxSize = classSize i := hfound.maxSize
  obtain ⟨hfresh, hsucc⟩ := h
  rw [heq, allocate_mmaps, hsize] at hsucc
  rw [Answered, heq, allocate_mmaps, hsize, fresh_append] at hfresh
  have hsecond : r.second ≠ none := hsucc ⟨(h'.arrHeap i).p, classSize i, r.second⟩ (by simp)
  obtain ⟨a, ha⟩ := Option.ne_none_iff_exists'.mp hsecond
  have hfits := hfresh.2 ⟨a, pages (classSize i)⟩ (by simp [Mmap.region, ha])
  have hout : allocate r i h' ms = _ := allocate_of_mapped ha hfits.ne_null hfits.ne_mapFailed
  have hp : ((myMalloc r s.heap).heap.arrHeap i).p = (h'.arrHeap i).p := by
    rw [heq, hout]
    simp [Heap.count]
  refine ⟨a, mapped s.regions ms, ⟨?_, ?_, fun j hj => ?_, ?_, hfits, ?_⟩, ?_⟩
  · rw [heq, hout]
  · rw [heq, hout, hfound.word]
  · rw [heq, hout]
    exact (Function.update_of_ne hj _ _).trans (hfound.others j hj)
  · rw [hp]
    exact hfound.p_ne
  · rcases hwhich with ⟨hne, rfl, rfl⟩ | ⟨hnull, rfl, rfl⟩
    · exact .inl ⟨hne, hp, rfl⟩
    · -- the first call of `mmap` has made the mapping that the pointer of the entry leads to
      have hfirst : r.first ≠ none := hsucc ⟨null, classSize i, r.first⟩ (by simp)
      obtain ⟨b, hb⟩ := Option.ne_none_iff_exists'.mp hfirst
      have hhint : (myMalloc r s.heap).heap.hint i = ⟨b, pages (classSize i)⟩ := by
        rw [Heap.hint, hp]
        simp [Heap.setP, returned, hb]
      have hregion : (Mmap.region ⟨null, classSize i, r.first⟩) =
          some ⟨b, pages (classSize i)⟩ := by simp [Mmap.region, hb]
      rw [hhint]
      refine .inr ⟨hnull, hfresh.1.1 _ hregion, ?_⟩
      rw [mapped, mapped, hregion]
      rfl
  · rw [heq, hout, hsize, mapped_append]
    simp [Mmap.region, ha]

/-- What is handed out by a call that returns. -/
lemma grant_of_ret (h : (myMalloc r s.heap).ret = some (a + header)) :
    grant s r = some ⟨a + header, r.size⟩ := by
  have hne : a + header ≠ null := Nat.succ_ne_zero _
  rw [grant, h, Option.filter_some, if_pos (decide_eq_true hne), Option.map_some]

/-- Nothing is handed out to a request that has no class. -/
lemma grant_of_none (hs : s.heap.Sized) (hc : classOf r.size = none) : grant s r = none := by
  rw [grant, myMalloc_of_none hs hc]
  rfl

/-! ### Histories -/

/-- The mappings after a history of calls: no two have a byte in common, they are the blocks that
were handed out and those of the entries that were used, and the word before every block holds the
address of its entry. -/
structure Ledger (tr : List (Process × Request)) (s : Process) : Prop where
  apart : s.regions.Pairwise Region.Apart
  mappings : s.regions.Perm ((granted tr).map Grant.block ++ (used s.heap).map s.heap.hint)
  heads : ∀ b ∈ granted tr, header ≤ b.ptr ∧ s.heap.word (b.ptr - header) = classOf b.size ∧
    classOf b.size ≠ none

/-- The blocks of a history and what the next call hands out. -/
lemma granted_append (tr : List (Process × Request)) (s : Process) (r : Request) :
    granted (tr ++ [(s, r)]) = granted tr ++ (grant s r).toList := by
  rw [granted, List.filterMap_append]
  cases h : grant s r <;> simp [granted, h]

/-- The entries that have been used when one more is. -/
lemma used_perm {h h' : Heap} (hold : (h.arrHeap i).p = null) (hnew : (h'.arrHeap i).p ≠ null)
    (hothers : ∀ j, j ≠ i → h'.arrHeap j = h.arrHeap j) : (used h').Perm (i :: used h) := by
  have hnot : i ∉ used h := by simp [used, hold]
  have hnodup : ∀ k : Heap, (used k).Nodup := fun k => (List.nodup_finRange _).filter _
  rw [List.perm_ext_iff_of_nodup (hnodup _) (List.nodup_cons.mpr ⟨hnot, hnodup _⟩)]
  intro j
  by_cases hji : j = i
  · subst hji
    simp [used, hnew]
  · simp [used, hji, hothers j hji]

/-- The entries that have been used when no other entry is. -/
lemma used_eq {h h' : Heap} (hp : ∀ j, (h'.arrHeap j).p = (h.arrHeap j).p) : used h' = used h := by
  simp only [used, hp]

/-- The mappings of the entries, before and after a request that is served. -/
lemma Hands.hints {h' : Heap} {gs : List Region} (h : Hands s r i a h' gs)
    {bs : List Region} (hperm : s.regions.Perm (bs ++ (used s.heap).map s.heap.hint)) :
    gs.Perm (bs ++ (used h').map h'.hint) := by
  have hsame : ∀ j, j ≠ i → h'.hint j = s.heap.hint j := fun j hj => by
    rw [Heap.hint, h.others j hj, Heap.hint]
  rcases h.before with ⟨-, hp, rfl⟩ | ⟨hnull, -, rfl⟩
  · have hall : ∀ j, (h'.arrHeap j).p = (s.heap.arrHeap j).p := fun j => by
      by_cases hji : j = i
      · rw [hji, hp]
      · rw [h.others j hji]
    have hhint : h'.hint = s.heap.hint := funext fun j => by rw [Heap.hint, hall, Heap.hint]
    rw [used_eq hall, hhint]
    exact hperm
  · have hmap : (used s.heap).map h'.hint = (used s.heap).map s.heap.hint := by
      refine List.map_congr_left fun j hj => hsame j ?_
      rintro rfl
      simp [used, hnull] at hj
    have hused : ((used h').map h'.hint).Perm
        (h'.hint i :: (used s.heap).map s.heap.hint) := by
      rw [← hmap]
      exact (used_perm hnull h.p_ne h.others).map _
    calc List.Perm (h'.hint i :: s.regions) (h'.hint i :: (bs ++ (used s.heap).map s.heap.hint)) :=
          hperm.cons _
      List.Perm _ (bs ++ h'.hint i :: (used s.heap).map s.heap.hint) := List.perm_middle.symm
      List.Perm _ (bs ++ (used h').map h'.hint) := hused.symm.append_left _

/-- The mappings that the second call of `mmap` finds are apart. -/
lemma Hands.apart {h' : Heap} {gs : List Region} (h : Hands s r i a h' gs)
    (hapart : s.regions.Pairwise Region.Apart) : gs.Pairwise Region.Apart := by
  rcases h.before with ⟨-, -, rfl⟩ | ⟨-, hfits, rfl⟩
  · exact hapart
  · exact List.pairwise_cons.mpr ⟨hfits.apart, hapart⟩

/-- Old mappings are among those that the second call of `mmap` finds. -/
lemma Hands.mem {h' : Heap} {gs : List Region} (h : Hands s r i a h' gs) {g : Region}
    (hg : g ∈ s.regions) : g ∈ gs := by
  rcases h.before with ⟨-, -, rfl⟩ | ⟨-, -, rfl⟩
  · exact hg
  · exact List.mem_cons_of_mem _ hg

/-- The blocks that were handed out are mapped. -/
lemma Ledger.block_mem {tr : List (Process × Request)} (h : Ledger tr s) {b : Grant}
    (hb : b ∈ granted tr) : b.block ∈ s.regions :=
  h.mappings.mem_iff.mpr (List.mem_append_left _ (List.mem_map_of_mem hb))

/-- A block is as long as its class says. -/
lemma Grant.block_eq {b : Grant} (h : classOf b.size = some i) :
    b.block = ⟨b.ptr - header, pages (classSize i)⟩ := by
  rw [Grant.block, h]
  rfl

/-- One call keeps the ledger. -/
lemma Ledger.step {tr : List (Process × Request)} (h : Ledger tr s) (hs : s.heap.Sized)
    (hr : Succeeds s r) (hstep : process.step s r = some s') : Ledger (tr ++ [(s, r)]) s' := by
  obtain ⟨ptr, -, rfl⟩ := call_eq_some hstep
  cases hc : classOf r.size with
  | none =>
    have hg : granted (tr ++ [(s, r)]) = granted tr := by
      rw [granted_append, grant_of_none hs hc]
      exact List.append_nil _
    rw [myMalloc_of_none hs hc]
    refine ⟨h.apart, ?_, ?_⟩
    · rw [hg]
      exact h.mappings
    · rw [hg]
      exact h.heads
  | some i =>
    obtain ⟨a, gs, hands, hregions⟩ := hr.hands hs hc
    have hg : granted (tr ++ [(s, r)]) = granted tr ++ [⟨a + header, r.size⟩] := by
      rw [granted_append, grant_of_ret hands.ret]
      rfl
    have hblock : Grant.block ⟨a + header, r.size⟩ = ⟨a, pages (classSize i)⟩ := by
      rw [Grant.block_eq (b := ⟨a + header, r.size⟩) hc]
      show (⟨a + header - header, _⟩ : Region) = _
      rw [Nat.add_sub_cancel]
    refine ⟨?_, ?_, fun b hb => ?_⟩
    · show (mapped s.regions (myMalloc r s.heap).mmaps).Pairwise Region.Apart
      rw [hregions]
      exact List.pairwise_cons.mpr ⟨hands.fits.apart, hands.apart h.apart⟩
    · show (mapped s.regions (myMalloc r s.heap).mmaps).Perm _
      rw [hregions, hg, List.map_append, List.map_singleton, hblock, List.append_assoc]
      exact ((hands.hints h.mappings).cons _).trans List.perm_middle.symm
    · rw [hg] at hb
      show header ≤ b.ptr ∧ (myMalloc r s.heap).heap.word _ = _ ∧ _
      rw [hands.word]
      rcases List.mem_append.mp hb with hold | hnew
      · -- the new block is apart from the old one, so they start at different addresses
        obtain ⟨hle, hword, hne⟩ := h.heads b hold
        obtain ⟨j, hj⟩ := Option.ne_none_iff_exists'.mp hne
        have hapart := hands.fits.apart _ (hands.mem (h.block_mem hold))
        rw [Grant.block_eq hj] at hapart
        have hstart : b.ptr - header ≠ a := by
          have hpage := le_pages i
          have hpage' := le_pages j
          rcases hapart with hbelow | habove
          · have hbelow' : a + pages (classSize i) ≤ b.ptr - header := hbelow
            omega
          · have habove' : b.ptr - header + pages (classSize j) ≤ a := habove
            omega
        exact ⟨hle, by rw [Function.update_of_ne hstart, hword], hne⟩
      · obtain rfl := List.mem_singleton.mp hnew
        refine ⟨Nat.le_add_left _ _, ?_, by rw [hc]; exact Option.some_ne_none i⟩
        show Function.update s.heap.word a (some i) (a + header - header) = classOf r.size
        rw [Nat.add_sub_cancel, Function.update_self, hc]

/-- The sizes after a run in which every call of `mmap` succeeds. -/
lemma sized_of_succeeds (h : process.ReachIf Succeeds s) : s.heap.Sized :=
  sized (fun _ _ hr => hr.1) h

/-- **The ledger after every history** in which every call of `mmap` succeeds: no two mappings have a
byte in common; they are the blocks that were handed out and one more for every entry that was used;
and the headers are all intact. -/
theorem ledger {tr : List (Process × Request)} {s : Process} (hp : process.Path tr s)
    (hok : ∀ x ∈ tr, Succeeds x.1 x.2) : Ledger tr s := by
  induction hp with
  | nil =>
    have hnone : used process.init.heap = [] :=
      List.filter_eq_nil_iff.mpr fun i _ => by simp [process, arrHeap]
    refine ⟨List.Pairwise.nil, ?_, fun b hb => absurd hb List.not_mem_nil⟩
    rw [hnone]
    exact List.Perm.nil
  | @snoc tr s s' r hp hstep ih =>
    have hsized : s.heap.Sized :=
      sized_of_succeeds (hp.reachIf fun x hx => hok x (by simp [hx]))
    exact (ih fun x hx => hok x (by simp [hx])).step hsized (hok (s, r) (by simp)) hstep

/-- The ledger after requests in two classes. -/
theorem ledger_two_classes :
    ∃ tr s, process.Path tr s ∧ tr.map Prod.snd = twoClasses ∧ Ledger tr s := by
  have hrun : ∃ s, process.execIf Succeeds process.init twoClasses = some s := ⟨_, rfl⟩
  obtain ⟨s, hexec⟩ := hrun
  obtain ⟨tr, hp, hmap, hok⟩ := Machine.exists_path_of_execIf hexec
  exact ⟨tr, s, hp, hmap, ledger hp hok⟩

/-! ### Who is confined -/

/-- In every history: who asked for `size` bytes, and reads and writes only those, touches neither a
header nor a byte of a block that was handed out to somebody else. -/
def Confined (size : ℕ) : Prop :=
  ∀ tr s, process.Path tr s → (∀ x ∈ tr, Succeeds x.1 x.2) →
    ∀ pre b post, granted tr = pre ++ b :: post → b.size = size →
      b.area.Apart b.head ∧ ∀ b' ∈ pre ++ post, b.area.Apart b'.head ∧ b.area.Apart b'.block

/-- The blocks of a history are apart. -/
lemma Ledger.blocks_apart {tr : List (Process × Request)} (h : Ledger tr s) :
    (granted tr).Pairwise fun b b' => b.block.Apart b'.block := by
  have hall := (h.mappings.pairwise_iff fun hapart => hapart.symm).mp h.apart
  exact List.pairwise_map.mp (List.pairwise_append.mp hall).1

/-- A header is inside its block. -/
lemma Grant.head_le_block {b : Grant} (h : classOf b.size = some i) :
    b.head.start + b.head.len ≤ b.block.start + b.block.len := by
  have hpage := le_pages i
  rw [Grant.block_eq h]
  show b.ptr - header + 8 ≤ b.ptr - header + pages (classSize i)
  omega

/-- The bytes of a request that is not short are inside its block, behind the header. -/
lemma Ledger.area_inside {tr : List (Process × Request)} (h : Ledger tr s) {b : Grant}
    (hb : b ∈ granted tr) (hshort : ¬ Short b.size) : b.head.start + b.head.len ≤ b.area.start ∧
      b.block.start ≤ b.area.start ∧ b.area.start + b.area.len ≤ b.block.start + b.block.len := by
  obtain ⟨hle, -, hne⟩ := h.heads b hb
  obtain ⟨i, hi⟩ := Option.ne_none_iff_exists'.mp hne
  have hfit := (header_add_le_pages_iff hi).mpr hshort
  rw [Grant.block_eq hi]
  show b.ptr - header + header ≤ b.ptr ∧ b.ptr - header ≤ b.ptr ∧
    b.ptr + b.size ≤ b.ptr - header + pages (classSize i)
  omega

/-- The header of a request is inside its block. -/
lemma Ledger.head_inside {tr : List (Process × Request)} (h : Ledger tr s) {b : Grant}
    (hb : b ∈ granted tr) : b.head.start + b.head.len ≤ b.block.start + b.block.len := by
  obtain ⟨i, hi⟩ := Option.ne_none_iff_exists'.mp (h.heads b hb).2.2
  exact Grant.head_le_block hi

/-- A size that is not short keeps its owner confined. -/
lemma confined_of_not_short {size : ℕ} (h : ¬ Short size) : Confined size := by
  rintro tr s hp hok pre b post heq rfl
  have hledger := ledger hp hok
  obtain ⟨hhead, hlo, hhi⟩ := hledger.area_inside (b := b) (heq ▸ by simp) h
  refine ⟨.inr hhead, fun b' hb' => ?_⟩
  have hmem : b' ∈ granted tr := by
    rw [heq]
    rcases List.mem_append.mp hb' with hpre | hpost
    · exact List.mem_append_left _ hpre
    · exact List.mem_append_right _ (List.mem_cons_of_mem _ hpost)
  have hblocks := hledger.blocks_apart
  rw [heq, List.pairwise_append, List.pairwise_cons] at hblocks
  have hb : b.block.Apart b'.block := by
    rcases List.mem_append.mp hb' with hpre | hpost
    · exact (hblocks.2.2 b' hpre b List.mem_cons_self).symm
    · exact hblocks.2.1.1 b' hpost
  have harea : b.area.Apart b'.block := hb.of_inside hlo hhi
  exact ⟨(harea.symm.of_inside (x := b'.head) (Nat.le_refl _) (hledger.head_inside hmem)).symm,
    harea⟩

/-! ### A history for the short sizes -/

/-- A later request of a class, answered by the fresh region at `b`. -/
lemma later_call {size b : ℕ} (hs : s.heap.Sized) (hc : classOf size = some i)
    (hp : (s.heap.arrHeap i).p ≠ null) (hfits : Fits s.regions ⟨b, pages (classSize i)⟩) :
    Succeeds s ⟨size, none, some b⟩ ∧
      (myMalloc ⟨size, none, some b⟩ s.heap).ret = some (b + header) := by
  have heq : myMalloc ⟨size, none, some b⟩ s.heap = allocate ⟨size, none, some b⟩ i s.heap [] :=
    myMalloc_of_mapped hs hc hp
  have hmmaps : (myMalloc ⟨size, none, some b⟩ s.heap).mmaps =
      [⟨(s.heap.arrHeap i).p, classSize i, some b⟩] := by
    rw [heq, allocate_mmaps]
    simp [hs i]
  refine ⟨?_, ?_⟩
  · rw [Succeeds, Answered, hmmaps]
    refine ⟨⟨?_, trivial⟩, by simp⟩
    rintro g hg
    obtain rfl := by simpa [Mmap.region] using hg
    exact hfits
  · rw [heq, allocate_of_mapped rfl hfits.ne_null hfits.ne_mapFailed]

/-- The process after a first request that is answered by the regions at `a` and `b`. -/
lemma first_call {size b : ℕ} (hc : classOf size = some i) (ha : a ≠ null) (hb : b ≠ null)
    (hfailed : b ≠ mapFailed) :
    (myMalloc ⟨size, some a, some b⟩ process.init.heap).ret = some (b + header) ∧
      ((myMalloc ⟨size, some a, some b⟩ process.init.heap).heap.arrHeap i).p = a ∧
      mapped [] (myMalloc ⟨size, some a, some b⟩ process.init.heap).mmaps =
        [⟨b, pages (classSize i)⟩, ⟨a, pages (classSize i)⟩] := by
  rw [myMalloc_of_unmapped (r := ⟨size, some a, some b⟩) (fun _ => rfl) hc rfl ha,
    allocate_of_mapped rfl hb hfailed]
  refine ⟨rfl, by simp [Heap.count, Heap.setP, returned], ?_⟩
  simp [mapped, Mmap.region, Heap.setP, process, arrHeap]

/-- **A history for every class**: two requests, the second answered by the region right behind the
first block. -/
lemma exists_adjacent {size : ℕ} (hc : classOf size = some i) :
    ∃ tr s, process.Path tr s ∧ (∀ x ∈ tr, Succeeds x.1 x.2) ∧
      granted tr = [⟨2 ^ 33 + header, size⟩, ⟨2 ^ 33 + pages (classSize i) + header, size⟩] := by
  have hmax : ∀ m ∈ maxSizes, pages m ≤ 2 ^ 31 := by decide
  have hle := hmax _ (classSize_mem i)
  have hpage := le_pages i
  have hsized : process.init.heap.Sized := fun _ => rfl
  have hfirst : Succeeds process.init ⟨size, some (2 ^ 32), some (2 ^ 33)⟩ := by
    refine succeeds_of_unmapped hsized hc rfl ⟨Nat.two_pow_pos _, ?_, List.forall_mem_nil _⟩
      ⟨Nat.two_pow_pos _, ?_, List.forall_mem_singleton.mpr (.inr ?_)⟩
    · show 2 ^ 32 + pages (classSize i) ≤ 2 ^ 64
      omega
    · show 2 ^ 33 + pages (classSize i) ≤ 2 ^ 64
      omega
    · show 2 ^ 32 + pages (classSize i) ≤ 2 ^ 33
      omega
  obtain ⟨hret, hp, hregions⟩ := first_call (a := 2 ^ 32) (b := 2 ^ 33) hc (by decide) (by decide)
    (by decide)
  have hstep := call_of_ret hret
  generalize hs₁ : (⟨(myMalloc ⟨size, some (2 ^ 32), some (2 ^ 33)⟩ process.init.heap).heap,
    mapped process.init.regions
      (myMalloc ⟨size, some (2 ^ 32), some (2 ^ 33)⟩ process.init.heap).mmaps⟩ : Process) = s₁
    at hstep
  have hpath : process.Path [(process.init, ⟨size, some (2 ^ 32), some (2 ^ 33)⟩)] s₁ :=
    .snoc .nil hstep
  have hsized₁ : s₁.heap.Sized :=
    sized_of_succeeds (.step .init hfirst hstep)
  have hp₁ : (s₁.heap.arrHeap i).p ≠ null := by
    rw [← hs₁]
    exact fun hnull => absurd (hp.symm.trans hnull) (by decide)
  have hregions₁ : s₁.regions =
      [⟨2 ^ 33, pages (classSize i)⟩, ⟨2 ^ 32, pages (classSize i)⟩] := by
    rw [← hs₁]
    exact hregions
  have hfits : Fits s₁.regions ⟨2 ^ 33 + pages (classSize i), pages (classSize i)⟩ := by
    rw [hregions₁]
    refine ⟨by show 0 < 2 ^ 33 + pages (classSize i); omega, ?_, ?_⟩
    · show 2 ^ 33 + pages (classSize i) + pages (classSize i) ≤ 2 ^ 64
      omega
    · refine List.forall_mem_cons.mpr ⟨.inr (Nat.le_refl _), List.forall_mem_singleton.mpr (.inr ?_)⟩
      show 2 ^ 32 + pages (classSize i) ≤ 2 ^ 33 + pages (classSize i)
      omega
  obtain ⟨hsecond, hret₁⟩ := later_call hsized₁ hc hp₁ hfits
  refine ⟨_, _, hpath.snoc (call_of_ret hret₁), ?_, ?_⟩
  · intro x hx
    rcases List.mem_append.mp hx with hx | hx
    · exact List.mem_singleton.mp hx ▸ hfirst
    · exact List.mem_singleton.mp hx ▸ hsecond
  · rw [granted_append, grant_of_ret hret₁, granted, List.filterMap_cons, grant_of_ret hret]
    rfl

/-- **The sizes that keep their owner confined**, whatever else was asked for before and after, are
those that are not `Short`.

**Proof sketch.** The bytes of a request that is not short are inside its block, and the blocks of a
history are apart. For a short size the system may answer a second request by the region right
behind the first block: the last bytes of the first are the header of the second. -/
theorem confined_iff (size : ℕ) : Confined size ↔ ¬ Short size := by
  refine ⟨fun hall hshort => ?_, confined_of_not_short⟩
  have hclass : classOf size ≠ none := by
    rw [Ne, classOf_eq_none_iff]
    obtain ⟨m, hm, -, hle, -⟩ := hshort
    have hmax : ∀ m ∈ maxSizes, m ≤ 0x7f000000 := by decide
    exact Nat.not_lt.mpr (Nat.le_trans hle (hmax m hm))
  obtain ⟨i, hc⟩ := Option.ne_none_iff_exists'.mp hclass
  have hover : pages (classSize i) < header + size :=
    Nat.lt_of_not_le fun hfit => (header_add_le_pages_iff hc).mp hfit hshort
  obtain ⟨tr, s, hp, hok, hgranted⟩ := exists_adjacent hc
  have hhead := ((hall tr s hp hok [] _ _ hgranted rfl).2 _ List.mem_cons_self).1
  have hpage := le_pages i
  have hheader : header = 8 := rfl
  rcases hhead with hbelow | habove
  · have hbelow' : 2 ^ 33 + header + size ≤ 2 ^ 33 + pages (classSize i) + header - header := hbelow
    omega
  · have habove' : 2 ^ 33 + pages (classSize i) + header - header + header ≤ 2 ^ 33 + header :=
      habove
    omega

end MyMalloc

end PosixIntro
