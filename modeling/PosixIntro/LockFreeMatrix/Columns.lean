import PosixIntro.LockFreeMatrix.Rows

set_option relaxedAutoImplicit false
set_option autoImplicit false

/-!
# Adding by columns, from the start of the program to its output (`cc_lab02_b.cc`)

The main thread prints two matrices, starts a task for each column of their sum, waits for all of them
and prints the sum. A task adds the column of either matrix to that of the result, element by element.

## Main definitions

* `matrixA`, `matrixB` — the two constructors.
* `Act`, `Store` — the statements, and the variables with what has been written.
* `fnTask`, `insert`, `team` — the program.

## Main results

* `columns_output` — the output of every run whose main thread has returned.

## Design

An element of a column of the result is read and written in two statements. Every `<<` writes its
operand. Where a task runs is the choice of `std::async`; one that is run by `get` is a thread that the
others wait for.
-/

namespace PosixIntro

namespace LockFreeMatrix

namespace Columns

/-- `rows` and `cols`. -/
abbrev N : ℕ := Rows.N

/-- The tasks, by their columns; `none` is the main thread. -/
abbrev Thread := Option (Fin N)

/-- `m.row(i) = v`, for a row that is inside the matrix. -/
def assignRow (i : ℕ) (v : ℕ → ℤ) (arr : ℕ → ℤ) : ℕ → ℤ :=
  match row N N i with
  | some s => (List.range s.size).foldl (fun arr k => Function.update arr (s.index k) (v k)) arr
  | none => arr

/-- `Matrix()`: all rows count from 1. -/
def matrixA : ℕ → ℤ :=
  (List.range N).foldl (fun arr i => assignRow i (fun k => k + 1) arr) fun _ => 0

/-- `Matrix(2000)`. -/
def matrixB : ℕ → ℤ := fun _ => 2000

/-- The matrices. -/
inductive Mat where
  | a
  | b
  | res
  deriving DecidableEq

/-- The variables, the element that each task has read and added to, and what has been written. -/
structure Store where
  a : ℕ → ℤ
  b : ℕ → ℤ
  res : ℕ → ℤ
  read : ℕ → ℤ
  out : List Char

/-- The contents of a matrix. -/
def Store.get (st : Store) : Mat → ℕ → ℤ
  | .a => st.a
  | .b => st.b
  | .res => st.res

/-- The statements. -/
inductive Act where
  | write (text : String)
  /-- Task `n` reads the element `k` of the result and adds that of the operand. -/
  | read (n : ℕ) (p : Operand) (k : ℕ)
  /-- Task `n` stores the sum. -/
  | store (n k : ℕ)
  /-- `os << m(i, j) << " "`. -/
  | print (m : Mat) (i j : ℕ)

/-- What a statement writes. -/
def Act.text (st : Store) : Act → List Char
  | .write text => text.toList
  | .print m i j => Rows.element (st.get m (i * N + j))
  | _ => []

/-- What a statement does. -/
def Act.apply (x : Act) (st : Store) : Store :=
  { st with
    res := match x with
      | .store n k => Function.update st.res k (st.read n)
      | _ => st.res
    read := match x with
      | .read n p k => Function.update st.read n (st.res k + p.arr st.a st.b k)
      | _ => st.read
    out := st.out ++ x.text st }

/-- `res.col(n) += p.col(n)`. -/
def addColumn (n : ℕ) (s : Slice) (p : Operand) : List Act :=
  (List.range s.size).flatMap fun i => [.read n p (s.index i), .store n (s.index i)]

/-- `fn_task`. -/
def fnTask (n : Fin N) : List Act :=
  match col N N n with
  | some s => addColumn n s .a ++ addColumn n s .b
  | none => []

/-- `os << m`. -/
def insert (m : Mat) : List Act :=
  (List.range N).flatMap fun i => (List.range N).map (.print m i ·) ++ [.write "\n"]

/-- What the main thread does before it starts the tasks. -/
def first : List Act :=
  .write "A:\n" :: (insert .a ++ .write "B: \n" :: insert .b)

/-- What it does after it has waited for them. -/
def last : List Act := .write "result: \n" :: insert .res

/-- The tasks that the main thread starts and waits for. -/
def tasks : List Thread := (List.finRange N).map some

/-- What it does in between. -/
def create : List (Part Thread Act) := tasks.map .spawn ++ [.free (.write "wait for promises\n")]

/-- What the threads do. -/
def script : Thread → List (Part Thread Act)
  | none => first.map .free ++ (create ++ (tasks.map .join ++ last.map .free))
  | some n => (fnTask n).map .free

/-- The program. -/
def team : ForkJoin Thread Act Store where
  script := script
  root := none
  apply := Act.apply
  data₀ := ⟨matrixA, matrixB, fun _ => 0, fun _ => 0, []⟩

/-- The main thread starts all tasks and waits for them. -/
lemma scatterGather : team.ScatterGather first last create tasks where
  forked := by
    refine ForkJoin.Forked.of_script (first.map .free ++ create) tasks (last.map .free)
      (List.append_assoc ..).symm (fun j hj => ?_) (fun j => by simp [create]) (by simp)
      (by simp [team, tasks]) fun i hi p hp => ?_
    · obtain ⟨n, rfl⟩ := Option.ne_none_iff_exists'.mp hj
      simp [create, tasks]
    · obtain ⟨n, rfl⟩ := Option.ne_none_iff_exists'.mp hi
      obtain ⟨x, -, rfl⟩ := List.mem_map.mp hp
      exact .inl ⟨x, rfl⟩
  root := rfl
  joined j hj := by
    obtain ⟨n, rfl⟩ := Option.ne_none_iff_exists'.mp hj
    simp [tasks]
  sections := by
    rw [create, ForkJoin.blocks_append, ForkJoin.blocks_map_spawn]
    rfl

/-- The main thread's own actions while the tasks run. -/
lemma acts_create : acts create = [(false, .write "wait for promises\n")] := by
  rw [create, ForkJoin.acts_append, ForkJoin.acts_map_spawn]
  rfl

/-! ### The matrices -/

/-- Elements that are set one after another. -/
lemma foldl_update (f : ℕ → ℕ) (v : ℕ → ℤ) (hf : Function.Injective f) (arr : ℕ → ℤ) (n k : ℕ) :
    (List.range n).foldl (fun arr k => Function.update arr (f k) (v k)) arr (f k) =
      if k < n then v k else arr (f k) := by
  induction n with
  | zero => simp
  | succ n ih =>
    rw [List.range_succ, List.foldl_append, List.foldl_cons, List.foldl_nil]
    by_cases hk : k = n
    · subst hk
      simp
    · have hiff : k < n + 1 ↔ k < n := by omega
      rw [Function.update_of_ne (fun h => hk (hf h)), ih]
      simp only [hiff]

/-- Elements that are not set. -/
lemma foldl_update_of_ne (f : ℕ → ℕ) (v : ℕ → ℤ) (arr : ℕ → ℤ) (n k : ℕ) (hk : ∀ i < n, k ≠ f i) :
    (List.range n).foldl (fun arr k => Function.update arr (f k) (v k)) arr k = arr k := by
  induction n with
  | zero => rfl
  | succ n ih =>
    rw [List.range_succ, List.foldl_append, List.foldl_cons, List.foldl_nil,
      Function.update_of_ne (hk n (Nat.lt_succ_self n)), ih fun i hi => hk i (Nat.lt_succ_of_lt hi)]

/-- **What the constructor of `a` leaves**: all rows count from 1. -/
lemma matrixA_apply {i j : ℕ} (hi : i < N) (hj : j < N) : matrixA (i * N + j) = j + 1 := by
  have hrow : ∀ i < N, ∀ (v arr : ℕ → ℤ), assignRow i v arr =
      (List.range N).foldl (fun arr k => Function.update arr (i * N + k) (v k)) arr := by
    intro i hi v arr
    rw [assignRow, row_eq_some.mpr ⟨hi, rfl⟩]
    simp [Slice.index]
  have hall : ∀ n ≤ N, (List.range n).foldl (fun arr i => assignRow i (fun k => (k : ℤ) + 1) arr)
      (fun _ => 0) (i * N + j) = if i < n then (j : ℤ) + 1 else 0 := by
    intro n hn
    induction n with
    | zero => rfl
    | succ n ih =>
      rw [List.range_succ, List.foldl_append, List.foldl_cons, List.foldl_nil, hrow n hn]
      by_cases hin : i = n
      · subst hin
        rw [foldl_update (fun k => i * N + k) _ fun _ _ h => Nat.add_left_cancel h, if_pos hj,
          if_pos (Nat.lt_succ_self i)]
      · have hiff : i < n + 1 ↔ i < n := by omega
        rw [foldl_update_of_ne (fun k => n * N + k), ih (Nat.le_of_succ_le hn)]
        · simp only [hiff]
        · exact fun k hk heq => hin (offset_inj hj hk heq).1
  exact (hall N (Nat.le_refl N)).trans (if_pos hi)

/-! ### What the statements do -/

/-- A statement that stores an element. -/
def Act.isStore : Act → Bool
  | .store _ _ => true
  | _ => false

/-- A statement that prints an element. -/
def Act.isPrint : Act → Bool
  | .print _ _ _ => true
  | _ => false

/-- The state after some statements. -/
def run (xs : List Act) (st : Store) : Store := xs.foldl (fun st x => x.apply st) st

/-- Nobody changes the operands. -/
lemma run_operands (xs : List Act) (st : Store) :
    (run xs st).a = st.a ∧ (run xs st).b = st.b := by
  induction xs generalizing st with
  | nil => exact ⟨rfl, rfl⟩
  | cons x xs ih => exact ih (x.apply st)

/-- Without a store the result stays what it is. -/
lemma run_res {xs : List Act} (h : ∀ x ∈ xs, x.isStore = false) (st : Store) :
    (run xs st).res = st.res := by
  induction xs generalizing st with
  | nil => rfl
  | cons x xs ih =>
    rw [show run (x :: xs) st = run xs (x.apply st) from rfl,
      ih fun y hy => h y (List.mem_cons_of_mem _ hy)]
    have hx := h x List.mem_cons_self
    cases x with
    | store n k => cases hx
    | _ => rfl

/-- Only a store changes what is printed. -/
lemma text_apply {x y : Act} (h : x.isStore = false ∨ y.isPrint = false) (st : Store) :
    y.text (x.apply st) = y.text st := by
  cases y with
  | print m i j =>
    cases x with
    | store n k => simp [Act.isStore, Act.isPrint] at h
    | _ => cases m <;> rfl
  | _ => rfl

/-- What statements write among which no store comes before a print. -/
lemma run_out {xs : List Act}
    (h : (∀ x ∈ xs, x.isStore = false) ∨ ∀ x ∈ xs, x.isPrint = false) (st : Store) :
    (run xs st).out = st.out ++ xs.flatMap (Act.text st) := by
  apply foldl_written (fun _ _ => rfl)
  intro x hx y hy st
  exact text_apply (h.imp (fun hall => hall x hx) fun hall => hall y hy) st

/-- What `os << m` writes. -/
lemma text_insert (m : Mat) (st : Store) : (insert m).flatMap (Act.text st) =
    Rows.printed fun i j => st.get m (i * N + j) := by
  simp [insert, Rows.printed, List.flatMap_assoc, List.flatMap_append, List.flatMap_map, Act.text]

/-- It stores nothing. -/
lemma not_store_insert (m : Mat) : ∀ x ∈ insert m, x.isStore = false := by
  simp only [insert, List.mem_flatMap, List.mem_append, List.mem_map]
  rintro x ⟨i, -, ⟨j, -, rfl⟩ | hx⟩
  · rfl
  · obtain rfl := List.mem_singleton.mp hx
    rfl

/-! ### The tasks -/

/-- What a task sees: the element it has read, and its own column of the matrices. -/
structure View where
  acc : ℤ
  a : ℕ → ℤ
  b : ℕ → ℤ
  res : ℕ → ℤ

/-- The elements of the operand of a statement. -/
def View.get (g : View) : Operand → ℕ → ℤ
  | .a => g.a
  | .b => g.b

/-- What the task of a column sees. -/
def view (n : ℕ) (st : Store) : View :=
  ⟨st.read n, fun i => st.a (n + i * N), fun i => st.b (n + i * N), fun i => st.res (n + i * N)⟩

/-- What a statement of a task does to what the task sees. -/
def stepView (x : Act) (g : View) : View :=
  match x with
  | .read _ p k => { g with acc := g.res (k / N) + g.get p (k / N) }
  | .store _ k => { g with res := Function.update g.res (k / N) g.acc }
  | _ => g

/-- The row of an element of a column. -/
lemma offset_div {n : ℕ} (hn : n < N) (i : ℕ) : (n + i * N) / N = i := by
  rw [Nat.add_mul_div_right _ _ (Nat.zero_lt_of_lt hn), Nat.div_eq_of_lt hn, Nat.zero_add]

/-- What a task does. -/
lemma fnTask_eq (n : Fin N) :
    fnTask n = addColumn n ⟨n, N, N⟩ .a ++ addColumn n ⟨n, N, N⟩ .b := by
  rw [fnTask, col_eq_some.mpr ⟨n.isLt, rfl⟩]

/-- The statements of a task read and store elements of its own column. -/
lemma mem_fnTask {n : Fin N} {x : Act} (h : x ∈ fnTask n) :
    ∃ i, (∃ p, x = .read n p (n + i * N)) ∨ x = .store n (n + i * N) := by
  have hadd : ∀ p, x ∈ addColumn n ⟨n, N, N⟩ p →
      ∃ i, (∃ p, x = .read n p (n + i * N)) ∨ x = .store n (n + i * N) := by
    intro p hx
    obtain ⟨i, -, hx⟩ := List.mem_flatMap.mp hx
    rcases List.mem_cons.mp hx with rfl | hx
    · exact ⟨i, .inl ⟨p, rfl⟩⟩
    · exact ⟨i, .inr (List.mem_singleton.mp hx)⟩
  rw [fnTask_eq] at h
  exact (List.mem_append.mp h).elim (hadd .a) (hadd .b)

/-- **One statement of a task** adds a column. -/
lemma foldl_addColumn (n : Fin N) (p : Operand) (g : View) :
    ∃ acc, (addColumn n ⟨n, N, N⟩ p).foldl (fun g x => stepView x g) g =
      { g with acc := acc, res := fun i => if i < N then g.res i + g.get p i else g.res i } := by
  have hrows : ∀ m : ℕ, ∃ acc, ((List.range m).flatMap fun i =>
      [Act.read n p (n + i * N), .store n (n + i * N)]).foldl (fun g x => stepView x g) g =
        { g with acc := acc, res := fun i => if i < m then g.res i + g.get p i else g.res i } := by
    intro m
    induction m with
    | zero => exact ⟨g.acc, rfl⟩
    | succ m ih =>
      obtain ⟨acc, ih⟩ := ih
      refine ⟨g.res m + g.get p m, ?_⟩
      rw [List.range_succ, List.flatMap_append, List.foldl_append, ih, List.flatMap_singleton]
      have hget : ∀ (acc : ℤ) (res : ℕ → ℤ), ({ g with acc := acc, res := res } : View).get p =
          g.get p := fun _ _ => by cases p <;> rfl
      simp only [List.foldl_cons, List.foldl_nil, stepView, offset_div n.isLt, hget,
        Nat.lt_irrefl, if_false, View.mk.injEq, true_and]
      funext i
      by_cases him : i = m
      · subst him
        simp
      · have hiff : i < m + 1 ↔ i < m := by omega
        simp [Function.update_of_ne him, hiff]
  exact hrows N

/-- The statements of a task, one after another. -/
lemma foldl_fnTask (n : Fin N) (g : View) {i : ℕ} (hi : i < N) :
    ((fnTask n).foldl (fun g x => stepView x g) g).res i = g.res i + g.a i + g.b i := by
  obtain ⟨acc, ha⟩ := foldl_addColumn n .a g
  rw [fnTask_eq, List.foldl_append, ha]
  generalize hg : ({ g with acc := acc, res := _ } : View) = g'
  obtain ⟨acc', hb⟩ := foldl_addColumn n .b g'
  rw [hb, ← hg]
  simp [View.get, hi]

/-! ### The phase of the tasks -/

variable {h₀ h₁ h₂ hist : List (Event Thread Act)}

/-- In the middle phase the main thread writes its line, and the tasks execute their statements. -/
lemma mem_middle (hp : Phases team hist (first.map (false, ·)) (acts create)
    (last.map (false, ·)) h₀ h₁ h₂) {e : Event Thread Act} (he : e ∈ h₁) :
    (e.thread = none ∧ e.act = .write "wait for promises\n") ∨
      ∃ n, e.thread = some n ∧ e.act ∈ fnTask n := by
  rcases hp.mem_acts he with ⟨hroot, hmem⟩ | ⟨hne, -⟩
  · rw [acts_create] at hmem
    exact .inl ⟨hroot, (Prod.mk.inj (List.mem_singleton.mp hmem)).2⟩
  · obtain ⟨n, hn⟩ := Option.ne_none_iff_exists'.mp hne
    exact .inr ⟨n, hn, hp.mem_of_free he hne (by rw [hn]; rfl)⟩

/-- A column is changed by its own task alone. -/
lemma sees_column (hp : Phases team hist (first.map (false, ·)) (acts create)
    (last.map (false, ·)) h₀ h₁ h₂) (n : Fin N) :
    Sees team (view n) stepView (some n) h₁ := by
  refine ⟨fun e he hown d => ?_, fun e he hne d => ?_⟩
  · rcases mem_middle hp he with ⟨hnone, -⟩ | ⟨n', hn', hact⟩
    · rw [hown] at hnone
      cases hnone
    · obtain rfl := Option.some.inj (hown.symm.trans hn')
      obtain ⟨i, ⟨p, hk⟩ | hk⟩ := mem_fnTask hact
      · rw [hk]
        cases p <;> simp [team, Act.apply, view, stepView, View.get, Operand.arr, offset_div n.isLt]
      · rw [hk]
        simp only [team, Act.apply, view, stepView, offset_div n.isLt, View.mk.injEq, true_and]
        funext j
        by_cases hji : j = i
        · subst hji
          simp
        · rw [Function.update_of_ne hji, Function.update_of_ne (offset_ne n.isLt n.isLt (.inr hji))]
  · rcases mem_middle hp he with ⟨-, hk⟩ | ⟨n', hn', hact⟩
    · simp [team, hk, Act.apply, view]
    · have hother : n.val ≠ n'.val := fun heq => hne (by
        rw [hn']
        exact congrArg some (Fin.ext heq.symm))
      obtain ⟨i, ⟨p, hk⟩ | hk⟩ := mem_fnTask hact
      · simp [team, hk, Act.apply, view, Function.update_of_ne hother]
      · simp only [team, hk, Act.apply, view, View.mk.injEq, true_and]
        funext j
        exact Function.update_of_ne (offset_ne n.isLt n'.isLt (.inl hother)) _ _

/-- The result after the middle phase. -/
lemma columns_middle (hp : Phases team hist (first.map (false, ·)) (acts create)
    (last.map (false, ·)) h₀ h₁ h₂) (st : Store) {i j : ℕ} (hi : i < N) (hj : j < N) :
    (h₁.foldl (fun st e => e.act.apply st) st).res (i * N + j) =
      st.res (i * N + j) + st.a (i * N + j) + st.b (i * N + j) := by
  have hview := foldl_view (sees_column hp ⟨j, hj⟩) st
  have hacts : (acts (team.script (some ⟨j, hj⟩))).map Prod.snd = fnTask ⟨j, hj⟩ := by
    change (acts ((fnTask ⟨j, hj⟩).map .free)).map Prod.snd = _
    rw [ForkJoin.acts_map_free, ForkJoin.map_snd_free]
  rw [hp.others (some ⟨j, hj⟩) (Option.some_ne_none _), hacts] at hview
  have hres := (congrArg (fun g => g.res i) hview).trans (foldl_fnTask ⟨j, hj⟩ _ hi)
  rw [Nat.add_comm (i * N) j]
  exact hres

/-- What is written in the middle phase. -/
lemma text_middle (hp : Phases team hist (first.map (false, ·)) (acts create)
    (last.map (false, ·)) h₀ h₁ h₂) (st : Store) :
    (h₁.map Event.act).flatMap (Act.text st) = "wait for promises\n".toList := by
  have hroot : trace none h₁ = acts create := hp.middle
  rw [flatMap_trace (i := none) fun e he hne => ?_, hroot, acts_create]
  · rfl
  · rcases mem_middle hp he with ⟨hroot, -⟩ | ⟨n, -, hact⟩
    · exact absurd hroot hne
    · obtain ⟨i, ⟨p, hk⟩ | hk⟩ := mem_fnTask hact <;> rw [hk] <;> rfl

/-! ### The output -/

/-- The main thread stores nothing before it starts the tasks. -/
lemma not_store_first : ∀ x ∈ first, x.isStore = false := by
  intro x hx
  rcases List.mem_cons.mp hx with rfl | hx
  · rfl
  · rcases List.mem_append.mp hx with hx | hx
    · exact not_store_insert .a x hx
    · rcases List.mem_cons.mp hx with rfl | hx
      · rfl
      · exact not_store_insert .b x hx

/-- Nor after it has waited for them. -/
lemma not_store_last : ∀ x ∈ last, x.isStore = false := by
  intro x hx
  rcases List.mem_cons.mp hx with rfl | hx
  · rfl
  · exact not_store_insert .res x hx

/-- What is written before the tasks are started. -/
lemma text_first : first.flatMap (Act.text team.data₀) =
    "A:\n".toList ++ Rows.printed (fun _ j => j + 1) ++
      ("B: \n".toList ++ Rows.printed fun _ _ => 2000) := by
  have ha : (Rows.printed fun i j => team.data₀.get .a (i * N + j)) =
      Rows.printed fun _ j => j + 1 := by
    apply Rows.printed_congr
    intro i j hi hj
    exact matrixA_apply hi hj
  rw [first, List.flatMap_cons, List.flatMap_append, List.flatMap_cons, text_insert, text_insert,
    ha, List.append_assoc]
  rfl

/-- What is written at the end. -/
lemma text_last (st : Store) : last.flatMap (Act.text st) =
    "result: \n".toList ++ Rows.printed fun i j => st.res (i * N + j) := by
  rw [last, List.flatMap_cons, text_insert]
  rfl

/-- **The sum is printed.** When the main thread has returned, whatever the schedule was, every
element of the result is the sum of the two, and the output is what one would see if the columns had
been added one after another.

**Proof sketch.** The history of the run is in three phases. In the middle one each column is seen by
its own task alone, and in the last one nobody stores. -/
theorem columns_output {s : Config Thread Unit (Shared Thread Act Store) (Spot Thread Act)}
    (h : team.machine.Reach s) (hgone : s.loc none = .gone) :
    (∀ i j, i < N → j < N → s.data.data.res (i * N + j) = Rows.sum i j) ∧
      s.data.data.out = "A:\n".toList ++ Rows.printed (fun _ j => j + 1) ++
        ("B: \n".toList ++ Rows.printed fun _ _ => 2000) ++
          ("wait for promises\n".toList ++ ("result: \n".toList ++ Rows.printed Rows.sum)) := by
  obtain ⟨h₀, h₁, h₂, hp⟩ := scatterGather.phases h hgone
  have hdata : s.data.data = run (h₂.map Event.act)
      (run (h₁.map Event.act) (run (h₀.map Event.act) team.data₀)) := by
    rw [ForkJoin.replay h, hp.eq, List.foldl_append, List.foldl_append, run, run, run,
      List.foldl_map, List.foldl_map, List.foldl_map]
    rfl
  rw [map_act_of_trace hp.before, map_act_of_trace hp.behind, hp.first, hp.last,
    ForkJoin.map_snd_free, ForkJoin.map_snd_free] at hdata
  have hmiddle : ∀ x ∈ h₁.map Event.act, x.isPrint = false := by
    intro x hx
    obtain ⟨e, he, rfl⟩ := List.mem_map.mp hx
    rcases mem_middle hp he with ⟨-, hk⟩ | ⟨n, -, hact⟩
    · rw [hk]
      rfl
    · obtain ⟨i, ⟨p, hk⟩ | hk⟩ := mem_fnTask hact <;> rw [hk] <;> rfl
  generalize hst₁ : run first team.data₀ = st₁ at hdata
  generalize hst₂ : run (h₁.map Event.act) st₁ = st₂ at hdata
  have hstart := run_operands first team.data₀
  have hres₁ := run_res not_store_first team.data₀
  have hout₁ := run_out (.inl not_store_first) team.data₀
  rw [hst₁] at hstart hres₁ hout₁
  have hres : ∀ i j, i < N → j < N → st₂.res (i * N + j) = Rows.sum i j := by
    intro i j hi hj
    have hcol := columns_middle hp st₁ hi hj
    rw [← List.foldl_map (f := Event.act) (g := fun st x => Act.apply x st)] at hcol
    rw [← hst₂, run, hcol, hres₁, hstart.1, hstart.2]
    change (0 : ℤ) + matrixA (i * N + j) + 2000 = _
    rw [matrixA_apply hi hj, Rows.sum]
    omega
  refine ⟨fun i j hi hj => ?_, ?_⟩
  · rw [hdata, run_res not_store_last]
    exact hres i j hi hj
  · have hprinted := text_last st₂
    rw [Rows.printed_congr hres] at hprinted
    rw [hdata, run_out (.inl not_store_last), hprinted, ← hst₂, run_out (.inr hmiddle),
      text_middle hp, hout₁, text_first, show team.data₀.out = [] from rfl, List.nil_append]
    simp only [List.append_assoc]

/-- The program can run to its end. -/
theorem columns_output_returned : ∃ s, team.machine.Reach s ∧
    (∀ i j, i < N → j < N → s.data.data.res (i * N + j) = Rows.sum i j) ∧
      s.data.data.out = "A:\n".toList ++ Rows.printed (fun _ j => j + 1) ++
        ("B: \n".toList ++ Rows.printed fun _ _ => 2000) ++
          ("wait for promises\n".toList ++ ("result: \n".toList ++ Rows.printed Rows.sum)) := by
  obtain ⟨s, -, hs, hgone⟩ := ForkJoin.exists_end scatterGather.forked .init
  exact ⟨s, hs, columns_output hs (hgone none)⟩

end Columns

end LockFreeMatrix

end PosixIntro
