import Mathlib.Algebra.GroupWithZero.Nat
import Mathlib.Data.Fin.Basic
import Mathlib.Data.List.Basic
import Mathlib.Tactic.Common

set_option relaxedAutoImplicit false
set_option autoImplicit false

/-!
# Circular windows

The index arithmetic of a ring buffer with `N` slots. A queue `q` stored from index `c` on
occupies the circular window of length `|q|` that starts at `c`; the abstraction function is
`slot q c i`, what the slot `i` holds.

## Main definitions

* `Ring.next`, `Ring.place` — the successor of an index, and the index `k` places further on.
* `Ring.offset` — how many places an index lies after another.
* `Ring.slot` — the element a queue stored from `c` on has at an index.

## Main results

* `Ring.place_offset`, `Ring.offset_place` — offsets and places are inverse to each other.
* `Ring.slot_append`, `Ring.slot_cons` — what adding at the end and removing at the start do.
-/

namespace PosixIntro

namespace Ring

variable {N : ℕ} {α : Type*}

section Index

variable [NeZero N]

/-- The next index, wrapping at the end. -/
def next (i : Fin N) : Fin N := ⟨(i + 1) % N, Nat.mod_lt _ (Nat.pos_of_neZero N)⟩

/-- The index `k` places after `c`. -/
def place (c : Fin N) (k : ℕ) : Fin N := ⟨(c + k) % N, Nat.mod_lt _ (Nat.pos_of_neZero N)⟩

end Index

/-- How many places `i` lies after `c`. -/
def offset (c i : Fin N) : ℕ := if c ≤ i then i - c else i + N - c

/-- What the slot `i` holds when the queue `q` is stored from `c` on. -/
def slot (q : List α) (c i : Fin N) : Option α := q[offset c i]?

@[simp] lemma offset_self (c : Fin N) : offset c c = 0 := by simp [offset]

variable [NeZero N]

@[simp] lemma place_zero (c : Fin N) : place c 0 = c :=
  Fin.ext (by simp [place, Nat.mod_eq_of_lt c.isLt])

/-- Advancing is one more place. -/
lemma next_place (c : Fin N) (k : ℕ) : next (place c k) = place c (k + 1) :=
  Fin.ext (by simp [next, place, Nat.mod_add_mod, Nat.add_assoc])

/-- Places counted from the next index. -/
lemma place_next (c : Fin N) (k : ℕ) : place (next c) k = place c (k + 1) :=
  Fin.ext (by simp [next, place, Nat.mod_add_mod, Nat.add_assoc, Nat.add_comm 1 k])

/-- The value of the next index. -/
lemma next_val (c : Fin N) : (next c : ℕ) = if (c : ℕ) + 1 = N then 0 else (c : ℕ) + 1 := by
  have := c.isLt
  simp only [next]
  split
  · rename_i h
    rw [h, Nat.mod_self]
  · exact Nat.mod_eq_of_lt (by omega)

/-- Every index is its offset's place. -/
@[simp] lemma place_offset (c i : Fin N) : place c (offset c i) = i := by
  apply Fin.ext
  simp only [place, offset]
  split
  · rename_i h
    have h : (c : ℕ) ≤ i := h
    rw [show (c : ℕ) + (i - c) = i by omega, Nat.mod_eq_of_lt i.isLt]
  · have := c.isLt
    rw [show (c : ℕ) + (i + N - c) = i + N by omega, Nat.add_mod_right, Nat.mod_eq_of_lt i.isLt]

/-- The offset of a place less than a full turn away. -/
lemma offset_place (c : Fin N) {k : ℕ} (hk : k < N) : offset c (place c k) = k := by
  have hc := c.isLt
  simp only [place, offset, Fin.le_def]
  rcases Nat.lt_or_ge (c + k) N with h | h
  · rw [Nat.mod_eq_of_lt h, if_pos (by omega)]
    omega
  · rw [Nat.mod_eq_sub_mod h, Nat.mod_eq_of_lt (by omega), if_neg (by omega)]
    omega

/-- An index is `k` places away exactly when its offset is `k`. -/
lemma eq_place_iff (c i : Fin N) {k : ℕ} (hk : k < N) : i = place c k ↔ offset c i = k := by
  constructor
  · rintro rfl
    exact offset_place c hk
  · rintro rfl
    exact (place_offset c i).symm

/-- Moving the start by one place shortens every other offset by one. -/
lemma offset_next {c i : Fin N} (h : i ≠ c) : offset (next c) i + 1 = offset c i := by
  have hc := c.isLt
  have hi := i.isLt
  have hne : (i : ℕ) ≠ c := fun he => h (Fin.ext he)
  simp only [offset, Fin.le_def, next_val]
  split_ifs <;> omega

/-- The old start is the last place from the next index. -/
lemma offset_next_self (c : Fin N) : offset (next c) c + 1 = N := by
  have hc := c.isLt
  simp only [offset, Fin.le_def, next_val]
  split_ifs <;> omega

/-- Only in a ring of one slot an index is its own successor. -/
lemma next_eq_self_iff (c : Fin N) : next c = c ↔ N = 1 := by
  have := c.isLt
  rw [Fin.ext_iff, next_val]
  split_ifs <;> omega

omit [NeZero N] in
/-- Every index is less than a full turn away. -/
lemma offset_lt (c i : Fin N) : offset c i < N := by
  have hc := c.isLt
  have hi := i.isLt
  simp only [offset, Fin.le_def]
  split_ifs <;> omega

/-- Counting places is additive. -/
lemma place_place (c : Fin N) (k n : ℕ) : place (place c k) n = place c (k + n) :=
  Fin.ext (by simp [place, Nat.add_assoc])

/-- A window that grows by one place. -/
lemma offset_lt_succ (c i : Fin N) (n : ℕ) :
    offset c i < n + 1 ↔ i = place c n ∨ offset c i < n := by
  rcases Nat.lt_or_ge n N with hn | hn
  · rw [eq_place_iff c i hn]
    omega
  · have := offset_lt c i
    omega

/-- A window that loses its first place. -/
lemma offset_next_lt (c i : Fin N) {n : ℕ} (hn : n < N) :
    offset (next c) i < n ↔ i ≠ c ∧ offset c i < n + 1 := by
  by_cases hi : i = c
  · have := offset_next_self c
    rw [hi]
    simp only [ne_eq, not_true_eq_false, false_and, iff_false]
    omega
  · have := offset_next hi
    simp only [ne_eq, hi, not_false_eq_true, true_and]
    omega

/-- The places of a window are the indices of small offset. -/
lemma offset_lt_iff (c i : Fin N) (n : ℕ) : offset c i < n ↔ ∃ k < n, i = place c k := by
  constructor
  · intro h
    exact ⟨offset c i, h, (place_offset c i).symm⟩
  · rintro ⟨k, hk, rfl⟩
    rcases Nat.lt_or_ge k N with hkN | hkN
    · rwa [offset_place c hkN]
    · have := offset_lt c (place c k)
      omega

/-! ### Queues in the ring -/

omit [NeZero N] in
/-- The slots in use are the ones of small offset. -/
lemma slot_isSome_iff (q : List α) (c i : Fin N) :
    (slot q c i).isSome ↔ offset c i < q.length := by
  simp [slot]

omit [NeZero N] in
/-- The start of the window holds the queue's first element. -/
lemma slot_self (q : List α) (c : Fin N) : slot q c c = q.head? := by
  simp [slot, List.head?_eq_getElem?]

/-- Each element of the queue is at its place. -/
lemma slot_place (q : List α) (c : Fin N) {k : ℕ} (hk : k < N) : slot q c (place c k) = q[k]? := by
  rw [slot, offset_place c hk]

/-- **Adding at the end** fills the place behind the window and changes no other slot. -/
theorem slot_append (q : List α) (x : α) (c i : Fin N) (h : q.length < N) :
    slot (q ++ [x]) c i = if i = place c q.length then some x else slot q c i := by
  simp only [slot, eq_place_iff c i h]
  split_ifs with he
  · simp [he]
  · rcases Nat.lt_or_gt_of_ne he with hlt | hgt
    · rw [List.getElem?_append_left hlt]
    · rw [List.getElem?_eq_none (by simp; omega), List.getElem?_eq_none (by omega)]

/-- **Removing at the start** empties the first slot and changes no other. -/
theorem slot_cons (x : α) (q : List α) {c i : Fin N} (h : i ≠ c) :
    slot q (next c) i = slot (x :: q) c i := by
  rw [slot, slot, ← offset_next h, List.getElem?_cons_succ]

/-- The slot just removed from is outside the new window. -/
lemma slot_next_self (q : List α) (c : Fin N) (h : q.length < N) : slot q (next c) c = none := by
  have := offset_next_self c
  rw [slot, List.getElem?_eq_none (by omega)]

end Ring

end PosixIntro
