import Mathlib.Data.List.Basic
import Mathlib.Tactic.Common

set_option relaxedAutoImplicit false
set_option autoImplicit false

/-!
# Strings that end with a zero

The memory from a pointer on, and the functions of C that find the end of a string there or append
to it. None of them knows how long the array is that the pointer points to.

## Main definitions

* `Memory`, `Memory.write` — the memory, and writing bytes into it.
* `IsString` — the memory holds a text that ends with a zero.
* `strlen`, `textAt`, `strncat` — the functions; `none` when a string has no end in the array in
  which it should be.

## Main results

* `isString_strncat` — the string after `strncat`, and the bytes that it leaves alone.
-/

namespace PosixIntro

/-- The memory, by the offset from a pointer. -/
abbrev Memory := ℕ → UInt8

/-- The memory after `bytes` have been written from offset `off` on. -/
def Memory.write (mem : Memory) (off : ℕ) (bytes : List UInt8) : Memory := fun i =>
  if h : off ≤ i ∧ i - off < bytes.length then bytes[i - off] else mem i

/-- The memory holds `text` and a zero behind it. -/
structure IsString (mem : Memory) (text : List UInt8) : Prop where
  notMem : (0 : UInt8) ∉ text
  char : ∀ i (h : i < text.length), mem i = text[i]
  zero : mem text.length = 0

/-- `strlen`, where the string should end in an array of `size` bytes. -/
def strlen (size : ℕ) (mem : Memory) : Option ℕ := (List.range size).find? fun i => mem i = 0

/-- The characters of the string. -/
def textAt (size : ℕ) (mem : Memory) : Option (List UInt8) :=
  (strlen size mem).map fun len => (List.range len).map mem

/-- `strncat(dest, src, n)`: at most `n` characters of `src` and a zero are written where `dest`
ends, which is looked for in an array of `size` bytes. -/
def strncat (size : ℕ) (mem : Memory) (src : List UInt8) (n : ℕ) : Option Memory :=
  (strlen size mem).map fun len => mem.write len (src.take n ++ [0])

namespace Memory

variable {mem : Memory} {off i : ℕ} {bytes : List UInt8}

lemma write_of_lt (h : i < off) : mem.write off bytes i = mem i :=
  dif_neg fun h' => Nat.not_le_of_lt h h'.1

lemma write_of_le (h : off + bytes.length ≤ i) : mem.write off bytes i = mem i := by
  refine dif_neg fun h' => ?_
  have := h'.2
  omega

lemma write_add (h : i < bytes.length) : mem.write off bytes (off + i) = bytes[i] := by
  have h' : off ≤ off + i ∧ off + i - off < bytes.length := by omega
  rw [write, dif_pos h']
  simp only [Nat.add_sub_cancel_left]

end Memory

variable {mem : Memory} {text text' src : List UInt8} {size n : ℕ}

lemma IsString.ne_zero (h : IsString mem text) {i : ℕ} (hi : i < text.length) : mem i ≠ 0 := by
  intro heq
  rw [h.char i hi] at heq
  exact h.notMem (heq ▸ List.getElem_mem hi)

/-- There is only one string at a pointer. -/
lemma IsString.unique (h : IsString mem text) (h' : IsString mem text') : text = text' := by
  have hlen : text.length = text'.length := by
    rcases Nat.lt_trichotomy text.length text'.length with hlt | heq | hlt
    · exact absurd h.zero (h'.ne_zero hlt)
    · exact heq
    · exact absurd h'.zero (h.ne_zero hlt)
  refine List.ext_getElem hlen fun i hi hi' => ?_
  rw [← h.char i hi, h'.char i hi']

lemma IsString.strlen_eq (h : IsString mem text) (hlt : text.length < size) :
    strlen size mem = some text.length := by
  rw [strlen, List.find?_range_eq_some]
  refine ⟨by simpa using h.zero, List.mem_range.mpr hlt, ?_⟩
  intro i hi
  simpa using h.ne_zero hi

lemma IsString.textAt_eq (h : IsString mem text) (hlt : text.length < size) :
    textAt size mem = some text := by
  rw [textAt, h.strlen_eq hlt, Option.map_some, Option.some.injEq]
  refine List.ext_getElem (by simp) fun i hi hi' => ?_
  rw [List.getElem_map, List.getElem_range, h.char i hi']

/-- Characters that are written, with a zero, where a text ends. -/
lemma isString_write (htext : (0 : UInt8) ∉ text) (hsrc : (0 : UInt8) ∉ src)
    (hchar : ∀ i (h : i < text.length), mem i = text[i]) :
    IsString (mem.write text.length (src ++ [0])) (text ++ src) where
  notMem hmem := by
    rcases List.mem_append.mp hmem with hmem | hmem
    · exact htext hmem
    · exact hsrc hmem
  char i hi := by
    rw [List.length_append] at hi
    by_cases hlt : i < text.length
    · rw [Memory.write_of_lt hlt, hchar i hlt, List.getElem_append_left hlt]
    · obtain ⟨k, rfl⟩ := Nat.exists_eq_add_of_le (Nat.not_lt.mp hlt)
      have hk : k < src.length := by omega
      rw [Memory.write_add (by simp; omega), List.getElem_append_left hk,
        List.getElem_append_right (by omega)]
      simp
  zero := by
    rw [List.length_append, Memory.write_add (by simp)]
    simp

/-- **What `strncat` does**: the string grows by the characters, and nothing changes behind it. -/
theorem isString_strncat (h : IsString mem text) (hlt : text.length < size)
    (hsrc : (0 : UInt8) ∉ src) :
    ∃ mem', strncat size mem src n = some mem' ∧ IsString mem' (text ++ src.take n) ∧
      ∀ i, (text ++ src.take n).length < i → mem' i = mem i := by
  have hnot : (0 : UInt8) ∉ src.take n := fun hmem => hsrc (List.mem_of_mem_take hmem)
  refine ⟨_, by rw [strncat, h.strlen_eq hlt, Option.map_some],
    isString_write h.notMem hnot h.char, ?_⟩
  intro i hi
  rw [List.length_append] at hi
  apply Memory.write_of_le
  rw [List.length_append, List.length_singleton]
  omega

end PosixIntro
