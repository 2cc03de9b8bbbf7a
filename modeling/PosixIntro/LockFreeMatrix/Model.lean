import Mathlib.Algebra.Group.Int.Defs
import Mathlib.Data.List.Basic
import PosixIntro.Concurrency.Crew

set_option relaxedAutoImplicit false
set_option autoImplicit false

/-!
# Matrix addition, by columns and by rows

`cc_lab02_b.cc` keeps a matrix in one `std::valarray` and adds two matrices with one task for each
column; `c_lab02_b.c` adds two arrays of arrays with one thread for each row.

## Main definitions

* `Slice`, `row`, `col`, `cell` — what `row(n)`, `col(n)` and `operator()(x, y)` refer to.
* `TaskLoc`, `fnTask`, `machine` — the column tasks, element by element, and their interleavings.
* `calculateRow`, `calculateRows` — the rows of the C program.

## Main results

* `Addressing` with `addressing` — all accesses stay inside the array, the three ways to name an
  element agree, and different elements are different cells.

## Design

The contents of an array are a function of all offsets, so an access beyond it is possible in the
model. The elements are exact integers. A task reads an element and writes it back in two steps.
-/

namespace PosixIntro

namespace LockFreeMatrix

/-- `std::slice`. -/
@[ext]
structure Slice where
  start : ℕ
  size : ℕ
  stride : ℕ

/-- The offset of the element number `i` of a slice. -/
def Slice.index (s : Slice) (i : ℕ) : ℕ := s.start + i * s.stride

variable (N M : ℕ)

/-- `operator()(x, y)`; `none` where it throws `out_of_range`. -/
def cell (x y : ℕ) : Option ℕ := if N ≤ x ∨ M ≤ y then none else some (x * M + y)

/-- `row(n)`; `none` where it throws `out_of_range`. -/
def row (n : ℕ) : Option Slice := if N ≤ n then none else some ⟨n * M, M, 1⟩

/-- `col(n)`; `none` where it throws `out_of_range`. -/
def col (n : ℕ) : Option Slice := if M ≤ n then none else some ⟨n, N, M⟩

/-! ### The column tasks -/

/-- Which statement of `fn_task`, named by its right operand. -/
inductive Operand where
  /-- `res.col(n) += a.col(n)`. -/
  | a
  /-- `res.col(n) += b.col(n)`. -/
  | b

/-- The program points of a task. -/
inductive TaskLoc where
  /-- The columns of a statement are formed. -/
  | col (p : Operand)
  /-- The element `i` of a column of `res` is read and the one of the operand added to it. -/
  | read (p : Operand) (s : Slice) (i : ℕ)
  /-- The sum is stored. -/
  | store (p : Operand) (s : Slice) (i : ℕ) (v : ℤ)
  /-- The task has returned. -/
  | done
  /-- `out_of_range` was thrown. -/
  | thrown

/-- The contents of the right operand of a statement. -/
def Operand.arr (a b : ℕ → ℤ) : Operand → ℕ → ℤ
  | .a => a
  | .b => b

/-- Where a task goes on after a statement. -/
def Operand.after : Operand → TaskLoc
  | .a => .col .b
  | .b => .done

variable (a b : ℕ → ℤ)

/-- The next step of `fn_task(res, a, b, n)`. -/
def fnTask (n : ℕ) (res : ℕ → ℤ) : TaskLoc → Option ((ℕ → ℤ) × TaskLoc)
  | .col p =>
    match col N M n with
    | some s => some (res, .read p s 0)
    | none => some (res, .thrown)
  | .read p s i =>
    if i < s.size then some (res, .store p s i (res (s.index i) + p.arr a b (s.index i)))
    else some (res, p.after)
  | .store p s i v => some (Function.update res (s.index i) v, .read p s (i + 1))
  | .done => none
  | .thrown => none

/-- The tasks for all columns. -/
def crew (res : ℕ → ℤ) : Crew (Fin M) (ℕ → ℤ) TaskLoc Unit where
  shared₀ := res
  loc₀ _ := .col .a
  next c _ res l := fnTask N M a b c res l

/-- A joint state of the tasks. -/
abbrev State (M : ℕ) := Crew.State (Fin M) (ℕ → ℤ) TaskLoc

/-- The interleavings of the tasks. -/
def machine (res : ℕ → ℤ) : Machine (State M) (Fin M × Unit) := (crew N M a b res).machine

/-- The offset in `res` that the next step of a task reads or writes. -/
def TaskLoc.touches : TaskLoc → Option ℕ
  | .read _ s i => if i < s.size then some (s.index i) else none
  | .store _ s i _ => some (s.index i)
  | _ => none

/-! ### The rows of the C program -/

variable (a b : ℕ → ℕ → ℤ)

/-- `calculate_row`. -/
def calculateRow (res : ℕ → ℕ → ℤ) (row : ℕ) : ℕ → ℕ → ℤ :=
  (List.range N).foldl
    (fun res j => Function.update res row (Function.update (res row) j (a row j + b row j))) res

/-- `calculate_row` for the rows of a list, one after another. -/
def calculateRows (res : ℕ → ℕ → ℤ) (order : List ℕ) : ℕ → ℕ → ℤ :=
  order.foldl (calculateRow N a b) res

/-! ### Offsets -/

/-- What holds of the offsets of an `N` by `M` matrix. -/
structure Addressing : Prop where
  /-- The elements of a row are inside the array. -/
  row_lt : ∀ n s i, row N M n = some s → i < s.size → s.index i < N * M
  /-- The elements of a column are inside the array. -/
  col_lt : ∀ n s i, col N M n = some s → i < s.size → s.index i < N * M
  /-- So are those that `operator()` names. -/
  cell_lt : ∀ x y k, cell N M x y = some k → k < N * M
  /-- `row(i)[j]`, `col(j)[i]` and `m(i, j)` are one cell. -/
  agree : ∀ i j, i < N → j < M → ∃ r c k, row N M i = some r ∧ col N M j = some c ∧
    cell N M i j = some k ∧ j < r.size ∧ i < c.size ∧ r.index j = k ∧ c.index i = k
  /-- Different elements are different cells. -/
  inj : ∀ x y x' y' k, cell N M x y = some k → cell N M x' y' = some k → x = x' ∧ y = y'

variable {N M : ℕ}

/-- A row that is inside the matrix. -/
lemma row_eq_some {n : ℕ} {s : Slice} : row N M n = some s ↔ n < N ∧ s = ⟨n * M, M, 1⟩ := by
  unfold row
  split_ifs with h
  · simp [Nat.not_lt.mpr h]
  · simp [Nat.not_le.mp h, eq_comm]

/-- A column that is. -/
lemma col_eq_some {n : ℕ} {s : Slice} : col N M n = some s ↔ n < M ∧ s = ⟨n, N, M⟩ := by
  unfold col
  split_ifs with h
  · simp [Nat.not_lt.mpr h]
  · simp [Nat.not_le.mp h, eq_comm]

/-- An element that is. -/
lemma cell_eq_some {x y k : ℕ} : cell N M x y = some k ↔ (x < N ∧ y < M) ∧ k = x * M + y := by
  unfold cell
  split_ifs with h <;> simp <;> omega

/-- An offset of a row below `N` and a column below `M` is inside the array. -/
lemma offset_lt {x y : ℕ} (hx : x < N) (hy : y < M) : x * M + y < N * M :=
  calc x * M + y < x * M + M := Nat.add_lt_add_left hy _
    _ = (x + 1) * M := (Nat.succ_mul x M).symm
    _ ≤ N * M := Nat.mul_le_mul_right M hx

/-- The row and the column can be read off an offset. -/
lemma offset_inj {x y x' y' : ℕ} (hy : y < M) (hy' : y' < M) (h : x * M + y = x' * M + y') :
    x = x' ∧ y = y' := by
  have hpos : 0 < M := Nat.zero_lt_of_lt hy
  have hdiv : ∀ x y, y < M → (x * M + y) / M = x := fun x y hlt => by
    rw [Nat.mul_comm, Nat.mul_add_div hpos, Nat.div_eq_of_lt hlt, Nat.add_zero]
  have hx : x = x' := by
    rw [← hdiv x y hy, h, hdiv x' y' hy']
  subst hx
  exact ⟨rfl, Nat.add_left_cancel h⟩

/-- **The offsets of a matrix.** -/
theorem addressing : Addressing N M where
  row_lt n s i hs hi := by
    obtain ⟨hn, rfl⟩ := row_eq_some.mp hs
    simpa [Slice.index] using offset_lt hn hi
  col_lt n s i hs hi := by
    obtain ⟨hn, rfl⟩ := col_eq_some.mp hs
    simpa [Slice.index, Nat.add_comm] using offset_lt hi hn
  cell_lt x y k hk := by
    obtain ⟨⟨hx, hy⟩, rfl⟩ := cell_eq_some.mp hk
    exact offset_lt hx hy
  agree i j hi hj := ⟨⟨i * M, M, 1⟩, ⟨j, N, M⟩, i * M + j, row_eq_some.mpr ⟨hi, rfl⟩,
    col_eq_some.mpr ⟨hj, rfl⟩, cell_eq_some.mpr ⟨⟨hi, hj⟩, rfl⟩, hj, hi, by simp [Slice.index],
    Nat.add_comm _ _⟩
  inj x y x' y' k hk hk' := by
    obtain ⟨⟨-, hy⟩, rfl⟩ := cell_eq_some.mp hk
    obtain ⟨⟨-, hy'⟩, heq⟩ := cell_eq_some.mp hk'
    exact offset_inj hy hy' heq

end LockFreeMatrix

end PosixIntro
