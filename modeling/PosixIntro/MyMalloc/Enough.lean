import PosixIntro.MyMalloc.Calls

set_option relaxedAutoImplicit false
set_option autoImplicit false

/-!
# When `my_malloc` gives at least what was asked for

The class is chosen for the requested size, and the header is taken from the block afterwards. Below
a page the rounding of the mapping makes up for it; from a page on, the last requests of every class
come out short.

## Main definitions

* `GivesEnough` — the bytes from the returned pointer to the end of its mapping are enough.
* `Short` — the sizes that are less than a header below the size of a class of a page or more.

## Main results

* `givesEnough_iff` — the requests that get enough are those that are not `Short`.
-/

namespace PosixIntro

namespace MyMalloc

/-- A pointer that is returned lies in a mapping, and from there to the end of the mapping there are
at least as many bytes as were asked for. -/
def GivesEnough (s : Process) (r : Request) : Prop :=
  ∀ ptr, (myMalloc r s.heap).ret = some ptr → ptr ≠ null →
    ∃ g ∈ mapped s.regions (myMalloc r s.heap).mmaps,
      g.start ≤ ptr ∧ ptr < g.start + g.len ∧ ptr + r.size ≤ g.start + g.len

/-- The header does not fit behind the request: the size is one of the last of a class whose blocks
are whole pages. -/
def Short (size : ℕ) : Prop := ∃ m ∈ maxSizes, 4096 ≤ m ∧ size ≤ m ∧ m < size + header

instance (size : ℕ) : Decidable (Short size) :=
  inferInstanceAs (Decidable (∃ m ∈ maxSizes, _))

/-- The mapping of a class above a page is as long as the class says. -/
lemma pages_of_le {i : Entry} (h : 4096 ≤ classSize i) : pages (classSize i) = classSize i := by
  have hall : ∀ m ∈ maxSizes, 4096 ≤ m → pages m = m := by decide
  exact hall _ (classSize_mem i) h

/-- The classes below a page leave room in it. -/
lemma classSize_le_half {i : Entry} (h : classSize i < 4096) : classSize i ≤ 2048 := by
  have hall : ∀ m ∈ maxSizes, m < 4096 → m ≤ 2048 := by decide
  exact hall _ (classSize_mem i) h

/-- A request and a header fit into the mapping of the class exactly when the size is not short. -/
lemma header_add_le_pages_iff {size : ℕ} {i : Entry} (h : classOf size = some i) :
    header + size ≤ pages (classSize i) ↔ ¬ Short size := by
  obtain ⟨hle, hmin⟩ := classOf_eq_some_iff.mp h
  have hpage := le_pages i
  have hheader : header = 8 := rfl
  constructor
  · rintro hfit ⟨m, hm, hm4096, hsize, hlt⟩
    obtain ⟨j, hj, rfl⟩ := List.getElem_of_mem hm
    have hij : classSize i ≤ classSize ⟨j, hj⟩ := hmin ⟨j, hj⟩ hsize
    have hj' : classSize ⟨j, hj⟩ = maxSizes[j] := rfl
    rcases Nat.lt_or_ge (classSize i) 4096 with hsmall | hbig
    · have hhalf := classSize_le_half hsmall
      omega
    · rw [pages_of_le hbig] at hfit
      omega
  · intro hshort
    rcases Nat.lt_or_ge (classSize i) 4096 with hsmall | hbig
    · have hhalf := classSize_le_half hsmall
      omega
    · rw [pages_of_le hbig]
      by_contra hfit
      exact hshort ⟨classSize i, classSize_mem i, hbig, hle, by omega⟩

/-- The pointer returned lies in the block of the request and in no other mapping. -/
lemma Served.eq_block {s : Process} {r : Request} {i : Entry} {a : ℕ} {h' : Heap} {ms : List Mmap}
    (h : Served s r i a h' ms) {g : Region}
    (hg : g ∈ mapped s.regions (myMalloc r s.heap).mmaps) (hlo : g.start ≤ a + header)
    (hhi : a + header < g.start + g.len) : g = ⟨a, pages (classSize i)⟩ := by
  rw [h.regions] at hg
  rcases List.mem_cons.mp hg with rfl | hold
  · rfl
  · have hpage := le_pages i
    have hheader : header = 8 := rfl
    rcases h.fits.apart g hold with hbelow | habove
    · have hbelow' : a + pages (classSize i) ≤ g.start := hbelow
      omega
    · have habove' : g.start + g.len ≤ a := habove
      omega

/-- **A request gets enough** exactly when its size is not one of the last of a class of a page or
more, in every state that a process can be in.

**Proof sketch.** The pointer lies in the mapping that `my_malloc` made for the class, `header`
bytes behind its start, and in no other, since the system gave out fresh regions. -/
theorem givesEnough_iff {s : Process} {r : Request} (hs : process.ReachIf Answered s)
    (hr : Succeeds s r) : GivesEnough s r ↔ ¬ Short r.size := by
  rcases hr.cases (sized (fun _ _ h => h) hs) with ⟨hc, heq⟩ | ⟨i, a, h', ms, hc, hserved⟩
  · have hlarge := classOf_eq_none_iff.mp hc
    refine iff_of_true (fun ptr hret hne => ?_) ?_
    · rw [heq] at hret
      exact absurd (Option.some.inj hret).symm hne
    · rintro ⟨m, hm, -, hsize, -⟩
      have hmax : ∀ m ∈ maxSizes, m ≤ 0x7f000000 := by decide
      exact absurd (hmax m hm) (by omega)
  · rw [← header_add_le_pages_iff hc]
    have hpage := le_pages i
    have hheader : header = 8 := rfl
    constructor
    · intro h
      obtain ⟨g, hg, hlo, hhi, hroom⟩ := h _ hserved.ret (by rw [null]; omega)
      obtain rfl := hserved.eq_block hg hlo hhi
      have hroom' : a + header + r.size ≤ a + pages (classSize i) := hroom
      omega
    · intro hfit ptr hret _
      rw [hserved.ret] at hret
      obtain rfl := Option.some.inj hret
      refine ⟨⟨a, pages (classSize i)⟩, by rw [hserved.regions]; exact List.mem_cons_self, ?_⟩
      show a ≤ a + header ∧ a + header < a + pages (classSize i) ∧
        a + header + r.size ≤ a + pages (classSize i)
      omega

/-- A first request of 16 bytes, with regions at `0x10000` and `0x20000`. -/
lemma succeeds_sixteen : Succeeds process.init ⟨16, some 0x10000, some 0x20000⟩ :=
  succeeds_of_unmapped (i := ⟨1, by decide⟩) (fun _ => rfl) rfl rfl
    ⟨by decide, by decide, List.forall_mem_nil _⟩
    ⟨by decide, by decide, List.forall_mem_singleton.mpr (.inr (by decide))⟩

/-- A first request of 4096 bytes with the same regions. -/
lemma succeeds_page : Succeeds process.init ⟨4096, some 0x10000, some 0x20000⟩ :=
  succeeds_of_unmapped (i := ⟨9, by decide⟩) (fun _ => rfl) rfl rfl
    ⟨by decide, by decide, List.forall_mem_nil _⟩
    ⟨by decide, by decide, List.forall_mem_singleton.mpr (.inr (by decide))⟩

/-- A first request of 16 bytes gets enough. -/
theorem givesEnough_sixteen : GivesEnough process.init ⟨16, some 0x10000, some 0x20000⟩ :=
  (givesEnough_iff .init succeeds_sixteen).mpr (by decide)

/-- A first request of a page comes out short by the header. -/
theorem not_givesEnough_page :
    ¬ ∀ s r, process.ReachIf Answered s → Succeeds s r → GivesEnough s r := by
  intro hall
  obtain ⟨g, hg, hlo, hhi, hroom⟩ := hall _ _ .init succeeds_page 0x20008 rfl (by decide)
  have hmapped : mapped [] (myMalloc ⟨4096, some 0x10000, some 0x20000⟩ process.init.heap).mmaps =
      [⟨0x20000, 4096⟩, ⟨0x10000, 4096⟩] := rfl
  rw [show process.init.regions = [] from rfl, hmapped] at hg
  rcases List.mem_cons.mp hg with rfl | hg
  · exact absurd hroom (by decide)
  · obtain rfl := List.mem_singleton.mp hg
    exact absurd hhi (by decide)

end MyMalloc

end PosixIntro
