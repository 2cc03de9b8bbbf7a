import PosixIntro.LockFreeMatrix.Model

set_option relaxedAutoImplicit false
set_option autoImplicit false

/-!
# Adding by columns, whatever the schedule, and adding by rows

A task reads and writes only the cells of its own column, so the steps of the other tasks do not
disturb what holds of it: each element has grown by as much as the task has come to add.

## Main definitions

* `TaskLoc.added` — how much a task has added to an element so far.
* `TaskInv` — what holds of a task and of the cells of its column.
* `AddsByColumns` — what running the tasks comes to.

## Main results

* `taskInv` — the invariant, in every reachable state.
* `calculateRows_apply` — what running the rows comes to.
* `columns_eq_rows` — the tasks add the matrices in every schedule, and so do the rows.
-/

namespace PosixIntro

namespace LockFreeMatrix

variable {N M : ℕ} {a b res₀ : ℕ → ℤ}

/-! ### One task -/

/-- What the statements before the one named `p` have added to the cell `k`. -/
def Operand.before (a : ℕ → ℤ) (k : ℕ) : Operand → ℤ
  | .a => 0
  | .b => a k

/-- What a task has added to the element `i` of its column, the cell `k`. -/
def TaskLoc.added (a b : ℕ → ℤ) (i k : ℕ) : TaskLoc → ℤ
  | .col p => p.before a k
  | .read p _ j | .store p _ j _ => p.before a k + if i < j then p.arr a b k else 0
  | .done => a k + b k
  | .thrown => 0

/-- How far a task can have come: it is inside its column, and a sum that it is about to store is
the sum for the current contents of the cell. -/
def TaskLoc.Ok (N M : ℕ) (a b : ℕ → ℤ) (n : ℕ) (res : ℕ → ℤ) : TaskLoc → Prop
  | .read _ s i => s = ⟨n, N, M⟩ ∧ i ≤ N
  | .store p s i v => s = ⟨n, N, M⟩ ∧ i < N ∧ v = res (n + i * M) + p.arr a b (n + i * M)
  | .thrown => False
  | _ => True

/-- What holds of the task number `n` and of the cells of its column. -/
structure TaskInv (N M : ℕ) (a b res₀ : ℕ → ℤ) (n : ℕ) (res : ℕ → ℤ) (l : TaskLoc) : Prop where
  ok : l.Ok N M a b n res
  added : ∀ i < N, res (n + i * M) = res₀ (n + i * M) + l.added a b i (n + i * M)

/-- A statement that is over has added its operand. -/
lemma Operand.added_after (p : Operand) (i k : ℕ) :
    p.after.added a b i k = p.before a k + p.arr a b k := by
  cases p with
  | a => simp [after, TaskLoc.added, before, arr]
  | b => rfl

/-- A task that goes on after a statement is inside the program. -/
lemma Operand.ok_after (p : Operand) (n : ℕ) (res : ℕ → ℤ) : p.after.Ok N M a b n res := by
  cases p <;> trivial

/-- Offsets of different columns, or of different elements of one column, differ. -/
lemma offset_ne {n n' i i' : ℕ} (hn : n < M) (hn' : n' < M) (h : n ≠ n' ∨ i ≠ i') :
    n + i * M ≠ n' + i' * M := by
  intro heq
  obtain ⟨rfl, rfl⟩ := offset_inj hn hn' (by rw [Nat.add_comm, heq, Nat.add_comm])
  exact h.elim (fun hne => hne rfl) fun hne => hne rfl

/-- The invariant depends on the cells of the column only. -/
lemma TaskInv.congr {n : ℕ} {res res' : ℕ → ℤ} {l : TaskLoc} (h : TaskInv N M a b res₀ n res l)
    (heq : ∀ i < N, res' (n + i * M) = res (n + i * M)) : TaskInv N M a b res₀ n res' l := by
  refine ⟨?_, fun i hi => by rw [heq i hi, h.added i hi]⟩
  have hok := h.ok
  cases l with
  | store p s i v =>
    obtain ⟨hs, hi, hv⟩ := hok
    exact ⟨hs, hi, by rw [heq i hi, hv]⟩
  | _ => exact hok

/-- A task changes the cells of its own column only. -/
lemma fnTask_frame {n k : ℕ} {res res' : ℕ → ℤ} {l l' : TaskLoc} (hok : l.Ok N M a b n res)
    (h : fnTask N M a b n res l = some (res', l')) (hk : ∀ i < N, k ≠ n + i * M) :
    res' k = res k := by
  cases l with
  | col p =>
    rw [fnTask] at h
    split at h <;> obtain ⟨rfl, rfl⟩ := by simpa using h
    · rfl
    · rfl
  | read p s i =>
    rw [fnTask] at h
    split at h <;> obtain ⟨rfl, rfl⟩ := by simpa using h
    · rfl
    · rfl
  | store p s i v =>
    obtain ⟨rfl, hi, -⟩ := hok
    obtain ⟨rfl, rfl⟩ := by simpa [fnTask] using h
    exact Function.update_of_ne (hk i hi) _ _
  | done => simp [fnTask] at h
  | thrown => simp [fnTask] at h

/-- A step of a task keeps its own invariant. -/
lemma TaskInv.step {n : ℕ} (hn : n < M) {res res' : ℕ → ℤ} {l l' : TaskLoc}
    (h : TaskInv N M a b res₀ n res l) (hstep : fnTask N M a b n res l = some (res', l')) :
    TaskInv N M a b res₀ n res' l' := by
  obtain ⟨hok, hadded⟩ := h
  cases l with
  | col p =>
    have hcol : col N M n = some ⟨n, N, M⟩ := col_eq_some.mpr ⟨hn, rfl⟩
    obtain ⟨rfl, rfl⟩ := by simpa [fnTask, hcol] using hstep
    exact ⟨⟨rfl, Nat.zero_le N⟩, fun i hi => by simpa [TaskLoc.added] using hadded i hi⟩
  | read p s i =>
    obtain ⟨rfl, hi⟩ := hok
    by_cases hlt : i < N
    · obtain ⟨rfl, rfl⟩ := by simpa [fnTask, hlt] using hstep
      exact ⟨⟨rfl, hlt, rfl⟩, hadded⟩
    · obtain ⟨rfl, rfl⟩ := by simpa [fnTask, hlt] using hstep
      refine ⟨p.ok_after n res, fun j hj => ?_⟩
      have hji : j < i := by omega
      rw [hadded j hj, p.added_after, TaskLoc.added, if_pos hji]
  | store p s i v =>
    obtain ⟨rfl, hi, rfl⟩ := hok
    obtain ⟨rfl, rfl⟩ := by simpa [fnTask] using hstep
    refine ⟨⟨rfl, hi⟩, fun j hj => ?_⟩
    show Function.update res (n + i * M) _ (n + j * M) = _
    have hcell := hadded j hj
    simp only [TaskLoc.added] at hcell ⊢
    by_cases hji : j = i
    · subst hji
      rw [if_neg (Nat.lt_irrefl j), Int.add_zero] at hcell
      rw [Function.update_self, if_pos (Nat.lt_succ_self j), hcell, Int.add_assoc]
    · have hiff : j < i ↔ j < i + 1 := by omega
      rw [Function.update_of_ne (offset_ne hn hn (.inr hji)), hcell]
      simp only [hiff]
  | done => simp [fnTask] at hstep
  | thrown => exact hok.elim

/-- **What holds of every task.** -/
theorem taskInv {s : State M} (h : (machine N M a b res₀).Reach s) (c : Fin M) :
    TaskInv N M a b res₀ c s.shared (s.loc c) := by
  refine Crew.noninterference (P := crew N M a b res₀)
    (I := fun c res l => TaskInv N M a b res₀ c res l) (fun c => ?_) ?_ h c
  · exact ⟨trivial, fun i _ => (Int.add_zero _).symm⟩
  · intro c _ res loc res' l _ _ hall hstep
    refine ⟨(hall c).step c.isLt hstep, fun c' hne => (hall c').congr fun i hi => ?_⟩
    -- the cells of another column are not written
    refine fnTask_frame (hall c).ok hstep fun j _ => offset_ne c'.isLt c.isLt (.inl fun heq => ?_)
    exact hne (Fin.ext heq)

/-- The cell that a task is at belongs to its column. -/
lemma TaskLoc.Ok.touches {n k : ℕ} {res : ℕ → ℤ} {l : TaskLoc} (hok : l.Ok N M a b n res)
    (hk : l.touches = some k) : ∃ i < N, k = n + i * M := by
  cases l with
  | read p s i =>
    obtain ⟨rfl, -⟩ := hok
    obtain ⟨hlt, hk⟩ := Option.ite_none_right_eq_some.mp hk
    exact ⟨i, hlt, (Option.some.inj hk).symm⟩
  | store p s i v =>
    obtain ⟨rfl, hi, -⟩ := hok
    exact ⟨i, hi, (Option.some.inj hk).symm⟩
  | _ => cases hk

/-! ### The tasks return -/

/-- How many steps a statement and those after it take, when it is at its element `i`. -/
def Operand.rest (N : ℕ) : Operand → ℕ
  | .a => 2 * N + 2
  | .b => 0

/-- A rank that every step of a task lowers. -/
def TaskLoc.rank (N : ℕ) : TaskLoc → ℕ
  | .col p => p.rest N + 2 * N + 2
  | .read p _ i => p.rest N + 2 * (N - i) + 1
  | .store p _ i _ => p.rest N + 2 * (N - i)
  | .done | .thrown => 0

/-- Every step of a task lowers its rank. -/
lemma fnTask_rank {n : ℕ} {res res' : ℕ → ℤ} {l l' : TaskLoc} (hok : l.Ok N M a b n res)
    (h : fnTask N M a b n res l = some (res', l')) : l'.rank N < l.rank N := by
  cases l with
  | col p =>
    rw [fnTask] at h
    split at h <;> obtain ⟨rfl, rfl⟩ := by simpa using h
    · rw [TaskLoc.rank, TaskLoc.rank]
      omega
    · rw [TaskLoc.rank, TaskLoc.rank]
      omega
  | read p s i =>
    obtain ⟨rfl, hi⟩ := hok
    by_cases hlt : i < N
    · obtain ⟨rfl, rfl⟩ := by simpa [fnTask, hlt] using h
      exact Nat.lt_succ_self _
    · obtain ⟨rfl, rfl⟩ := by simpa [fnTask, hlt] using h
      cases p <;> simp only [Operand.after, TaskLoc.rank, Operand.rest] <;> omega
  | store p s i v =>
    obtain ⟨rfl, hi, -⟩ := hok
    obtain ⟨rfl, rfl⟩ := by simpa [fnTask] using h
    rw [TaskLoc.rank, TaskLoc.rank]
    omega
  | done => simp [fnTask] at h
  | thrown => exact hok.elim

/-- A task that cannot move has returned. -/
lemma eq_done_of_fnTask {n : ℕ} {res : ℕ → ℤ} {l : TaskLoc} (hok : l.Ok N M a b n res)
    (h : fnTask N M a b n res l = none) : l = .done := by
  cases l with
  | col p =>
    rw [fnTask] at h
    split at h <;> cases h
  | read p s i =>
    rw [fnTask] at h
    split at h <;> cases h
  | store p s i v => cases h
  | done => rfl
  | thrown => exact hok.elim

/-! ### The rows -/

/-- What `calculate_row` does. -/
lemma calculateRow_apply (a b res : ℕ → ℕ → ℤ) (row i j : ℕ) :
    calculateRow N a b res row i j = if i = row ∧ j < N then a i j + b i j else res i j := by
  rw [calculateRow]
  induction N with
  | zero => simp
  | succ N ih =>
    rw [List.range_succ, List.foldl_append, List.foldl_cons, List.foldl_nil]
    by_cases hi : i = row
    · subst hi
      by_cases hj : j = N
      · subst hj
        simp
      · have hiff : j < N + 1 ↔ j < N := by omega
        rw [Function.update_self, Function.update_of_ne hj, ih]
        simp only [hiff]
    · rw [Function.update_of_ne hi, ih]
      simp [hi]

/-- **What the rows do**, in whatever order and however often. -/
theorem calculateRows_apply (a b res : ℕ → ℕ → ℤ) (order : List ℕ) (i j : ℕ) :
    calculateRows N a b res order i j =
      if i ∈ order ∧ j < N then a i j + b i j else res i j := by
  rw [calculateRows]
  induction order generalizing res with
  | nil => simp
  | cons row order ih =>
    rw [List.foldl_cons, ih, calculateRow_apply]
    by_cases hj : j < N <;> by_cases hi : i = row <;> simp [hi, hj]

/-! ### The result -/

/-- What running the tasks of an `N` by `M` matrix comes to: they access only the array, each of
them its own cells, all of them return, and every element is then the sum. -/
structure AddsByColumns (N M : ℕ) (a b res₀ : ℕ → ℤ) : Prop where
  inside : ∀ s, (machine N M a b res₀).Reach s →
    ∀ c k, (s.loc c).touches = some k → k < N * M
  disjoint : ∀ s s', (machine N M a b res₀).Reach s → (machine N M a b res₀).Reach s' →
    ∀ c c', c ≠ c' → ∀ k, (s.loc c).touches = some k → (s'.loc c').touches ≠ some k
  bounded : ∃ B, ∀ tr s, (machine N M a b res₀).Path tr s → tr.length ≤ B
  returned : ∀ s, (machine N M a b res₀).Reach s →
    (∀ x, (machine N M a b res₀).step s x = none) → ∀ c, s.loc c = .done
  sum : ∀ s, (machine N M a b res₀).Reach s → (∀ c, s.loc c = .done) →
    ∀ i j k, cell N M i j = some k → s.shared k = res₀ k + a k + b k

/-- **The column tasks add the matrices in every schedule.** -/
theorem addsByColumns : AddsByColumns N M a b res₀ where
  inside s hs c k hk := by
    obtain ⟨i, hi, rfl⟩ := (taskInv hs c).ok.touches hk
    rw [Nat.add_comm]
    exact offset_lt hi c.isLt
  disjoint s s' hs hs' c c' hne k hk hk' := by
    obtain ⟨i, -, heq⟩ := (taskInv hs c).ok.touches hk
    obtain ⟨i', -, heq'⟩ := (taskInv hs' c').ok.touches hk'
    have hval : c.val ≠ c'.val := fun h => hne (Fin.ext h)
    exact offset_ne c.isLt c'.isLt (.inl hval) (heq.symm.trans heq')
  bounded := by
    refine ⟨_, fun tr s hp => Crew.length_le_tally (P := crew N M a b res₀)
      (fun _ l => l.rank N) ?_ hp⟩
    exact fun c _ s res' l hs hstep => fnTask_rank (taskInv hs c).ok hstep
  returned s hs hstuck c :=
    eq_done_of_fnTask (taskInv hs c).ok (Crew.next_eq_none (hstuck (c, ())))
  sum s hs hdone i j k hk := by
    obtain ⟨⟨hi, hj⟩, rfl⟩ := cell_eq_some.mp hk
    have hcell := (taskInv hs ⟨j, hj⟩).added i hi
    rw [hdone, TaskLoc.added, ← Int.add_assoc, Nat.add_comm] at hcell
    exact hcell

/-- **Addition by columns is independent of the schedule and equals addition by rows.** The offsets
of a matrix are those of `Addressing`; the tasks add in every schedule; and for a square matrix and
a result that starts with zeros, the rows of the C program, in any order, give the same.

**Proof sketch.** `taskInv` gives the sum of each column when its task has returned, and
`calculateRows_apply` the sum of each row that was run. -/
theorem columns_eq_rows (N M : ℕ) :
    Addressing N M ∧ (∀ a b res₀, AddsByColumns N M a b res₀) ∧
      ∀ a b s, (machine N N a b fun _ => 0).Reach s → (∀ c, s.loc c = .done) →
        ∀ order, order.Perm (List.range N) → ∀ i j k, cell N N i j = some k →
          s.shared k = calculateRows N (fun i j => a (i * N + j)) (fun i j => b (i * N + j))
            (fun _ _ => 0) order i j := by
  refine ⟨addressing, fun _ _ _ => addsByColumns, fun a b s hs hdone order hperm i j k hk => ?_⟩
  rw [addsByColumns.sum s hs hdone i j k hk, calculateRows_apply]
  obtain ⟨⟨hi, hj⟩, rfl⟩ := cell_eq_some.mp hk
  have hmem : i ∈ order := hperm.mem_iff.mpr (List.mem_range.mpr hi)
  rw [if_pos ⟨hmem, hj⟩, Int.zero_add]

end LockFreeMatrix

end PosixIntro
