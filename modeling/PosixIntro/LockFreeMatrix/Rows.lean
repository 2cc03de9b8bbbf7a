import PosixIntro.Concurrency.Gather
import PosixIntro.LockFreeMatrix.Addition

set_option relaxedAutoImplicit false
set_option autoImplicit false

/-!
# Adding by rows, from the start of the program to its output (`c_lab02_b.c`, `r_lab02_b.rs`)

The main thread fills two matrices, creates a thread for each row of their sum, joins all of them and
prints the sum. The threads print a line when they begin and another when they have done.

## Main definitions

* `Act`, `Store` — the statements, and the variables with what has been written.
* `calculateRow`, `printMatrix`, `first`, `last`, `team` — the programs.
* `printed` — the text of a matrix.

## Main results

* `rows_output` — the output of every run whose main thread has returned.

## Design

One call of `printf`, `println!` or `print!` is a statement, and so is the addition of two elements,
since nobody writes to the operands. The output is a list of characters. Threads can always be
created and joined.
-/

namespace PosixIntro

namespace LockFreeMatrix

namespace Rows

/-- `N`. -/
abbrev N : ℕ := 15

/-- The two programs. -/
inductive Version where
  | c
  | rust
  deriving DecidableEq

/-- The threads, by the rows that they calculate; `none` is the main thread. -/
abbrev Thread := Option (Fin N)

/-- The matrices. -/
inductive Mat where
  | a
  | b
  | res
  deriving DecidableEq

/-- The variables, and what has been written. -/
structure Store where
  a : ℕ → ℕ → ℤ
  b : ℕ → ℕ → ℤ
  res : ℕ → ℕ → ℤ
  out : List Char

/-- The value of a variable. -/
def Store.get (st : Store) : Mat → ℕ → ℕ → ℤ
  | .a => st.a
  | .b => st.b
  | .res => st.res

/-- The statements. -/
inductive Act where
  | write (text : String)
  /-- The line that a thread prints before it calculates its row, and the one after that. -/
  | announce (row : Fin N) (done : Bool)
  /-- `res[row][j] = a[row][j] + b[row][j]`. -/
  | add (row j : ℕ)
  /-- `printf("%d ", mat[i][j])`. -/
  | print (m : Mat) (i j : ℕ)

/-- The lines of `calculate_row`. -/
def announcement (x : Fin N × Bool) : List Char :=
  if x.2 then ("Calculated in " ++ toString (x.1 + 1 : ℕ) ++ ". thread! DONE!\n").toList
  else ("Calculating in " ++ toString (x.1 + 1 : ℕ) ++ ". thread!\n").toList

/-- An element of a matrix as it is printed. -/
def element (x : ℤ) : List Char := (toString x ++ " ").toList

/-- What a statement writes. -/
def Act.text (st : Store) : Act → List Char
  | .write text => text.toList
  | .announce row done => announcement (row, done)
  | .add _ _ => []
  | .print m i j => element (st.get m i j)

/-- An element of a matrix is set. -/
def set (g : ℕ → ℕ → ℤ) (i j : ℕ) (x : ℤ) : ℕ → ℕ → ℤ :=
  Function.update g i (Function.update (g i) j x)

/-- What a statement does. -/
def Act.apply (x : Act) (st : Store) : Store :=
  { st with
    res := match x with
      | .add row j => set st.res row j (st.a row j + st.b row j)
      | _ => st.res
    out := st.out ++ x.text st }

/-! ### The programs -/

/-- The elements in the order in which `init` visits them. -/
def cells : List (ℕ × ℕ) := (List.range N).flatMap fun i => (List.range N).map (i, ·)

/-- `init`. In Rust `a` is filled by its initializer. -/
def init : Version → Store
  | .c => cells.foldl (fun st x =>
      { st with a := set st.a x.1 x.2 2000, b := set st.b x.1 x.2 (x.2 + 1) })
      ⟨fun _ _ => 0, fun _ _ => 0, fun _ _ => 0, []⟩
  | .rust => cells.foldl (fun st x => { st with b := set st.b x.1 x.2 (x.2 + 1) })
      ⟨fun _ _ => 2000, fun _ _ => 0, fun _ _ => 0, []⟩

/-- `calculate_row`, and the closure of the Rust program. -/
def calculateRow (row : Fin N) : List Act :=
  .announce row false :: ((List.range N).map (.add row ·) ++ [.announce row true])

/-- `print_matrix`. -/
def printMatrix (m : Mat) : List Act :=
  (List.range N).flatMap fun i => (List.range N).map (.print m i ·) ++ [.write "\n"]

/-- What the main thread does before it creates the threads. -/
def first : Version → List Act
  | .c => []
  | .rust => .write "Matrix A:\n" :: (printMatrix .a ++ .write "Matrix B:\n" :: printMatrix .b)

/-- What the main thread does after it has joined them. -/
def last : Version → List Act
  | .c => printMatrix .res
  | .rust => .write "Matrix A + B:\n" :: printMatrix .res

/-- The threads that the main thread creates, and that `wait_threads` joins. -/
def threads : List Thread := (List.finRange N).map some

/-- The creation of the threads. -/
def create : List (Part Thread Act) := threads.map .spawn

/-- What the threads do. -/
def script (v : Version) : Thread → List (Part Thread Act)
  | none => (first v).map .free ++ (create ++ (threads.map .join ++ (last v).map .free))
  | some row => (calculateRow row).map .free

/-- The program. -/
def team (v : Version) : ForkJoin Thread Act Store where
  script := script v
  root := none
  apply := Act.apply
  data₀ := init v

/-- The main thread creates all threads and joins them. -/
lemma scatterGather (v : Version) : (team v).ScatterGather (first v) (last v) create threads where
  forked := by
    refine ForkJoin.Forked.of_script ((first v).map .free ++ create) threads ((last v).map .free)
      (List.append_assoc ..).symm (fun j hj => ?_) (fun j => by simp [create]) (by simp)
      (by simp [team, threads]) fun i hi p hp => ?_
    · obtain ⟨n, rfl⟩ := Option.ne_none_iff_exists'.mp hj
      simp [create, threads]
    · obtain ⟨n, rfl⟩ := Option.ne_none_iff_exists'.mp hi
      obtain ⟨x, -, rfl⟩ := List.mem_map.mp hp
      exact .inl ⟨x, rfl⟩
  root := rfl
  joined j hj := by
    obtain ⟨n, rfl⟩ := Option.ne_none_iff_exists'.mp hj
    simp [threads]
  sections := ForkJoin.blocks_map_spawn threads

/-! ### What the statements do -/

/-- The state after some statements. -/
def run (xs : List Act) (st : Store) : Store := xs.foldl (fun st x => x.apply st) st

@[simp] lemma run_cons (x : Act) (xs : List Act) (st : Store) :
    run (x :: xs) st = run xs (x.apply st) := rfl

/-- A statement that adds two elements. -/
def Act.isAdd : Act → Bool
  | .add _ _ => true
  | _ => false

/-- A statement that prints an element. -/
def Act.isPrint : Act → Bool
  | .print _ _ _ => true
  | _ => false

/-- Nobody changes the operands. -/
lemma run_operands (xs : List Act) (st : Store) :
    (run xs st).a = st.a ∧ (run xs st).b = st.b := by
  induction xs generalizing st with
  | nil => exact ⟨rfl, rfl⟩
  | cons x xs ih => exact ih (x.apply st)

/-- Only an addition changes what is printed. -/
lemma text_apply {x y : Act} (h : x.isAdd = false ∨ y.isPrint = false) (st : Store) :
    y.text (x.apply st) = y.text st := by
  cases y with
  | print m i j =>
    cases x with
    | add row j => simp [Act.isAdd, Act.isPrint] at h
    | _ => cases m <;> rfl
  | _ => rfl

/-- What statements write among which no addition comes before a print. -/
lemma run_out {xs : List Act}
    (h : (∀ x ∈ xs, x.isAdd = false) ∨ ∀ x ∈ xs, x.isPrint = false) (st : Store) :
    (run xs st).out = st.out ++ xs.flatMap (Act.text st) :=
  foldl_written (fun _ _ => rfl) (fun x hx y hy st => text_apply
    (h.imp (fun hall => hall x hx) fun hall => hall y hy) st) st

/-- Without additions the result stays what it is. -/
lemma run_res {xs : List Act} (h : ∀ x ∈ xs, x.isAdd = false) (st : Store) :
    (run xs st).res = st.res := by
  induction xs generalizing st with
  | nil => rfl
  | cons x xs ih =>
    rw [run_cons, ih fun y hy => h y (List.mem_cons_of_mem _ hy)]
    have hx := h x List.mem_cons_self
    cases x with
    | add row j => cases hx
    | _ => rfl

/-! ### Texts -/

/-- The text of a matrix. -/
def printed (f : ℕ → ℕ → ℤ) : List Char :=
  (List.range N).flatMap fun i => ((List.range N).flatMap fun j => element (f i j)) ++ ['\n']

/-- What `print_matrix` writes. -/
lemma text_printMatrix (m : Mat) (st : Store) :
    (printMatrix m).flatMap (Act.text st) = printed (st.get m) := by
  simp [printMatrix, printed, List.flatMap_assoc, List.flatMap_append, List.flatMap_map, Act.text]

/-- The text of a matrix depends on its elements. -/
lemma printed_congr {f g : ℕ → ℕ → ℤ} (h : ∀ i j, i < N → j < N → f i j = g i j) :
    printed f = printed g := by
  refine List.flatMap_congr fun i hi => congrArg (· ++ ['\n']) (List.flatMap_congr fun j hj => ?_)
  rw [h i j (List.mem_range.mp hi) (List.mem_range.mp hj)]

/-! ### The matrices -/

/-- Elements that are set one after another, each to its own value. -/
lemma foldl_set (f : ℕ → ℕ → ℤ) (xs : List (ℕ × ℕ)) (g : ℕ → ℕ → ℤ) (i j : ℕ) :
    xs.foldl (fun g x => set g x.1 x.2 (f x.1 x.2)) g i j =
      if (i, j) ∈ xs then f i j else g i j := by
  induction xs generalizing g with
  | nil => simp
  | cons x xs ih =>
    rw [List.foldl_cons, ih]
    by_cases hmem : (i, j) ∈ xs
    · simp [hmem]
    · by_cases hx : (i, j) = x
      · subst hx
        simp [set, hmem]
      · have hset : set g x.1 x.2 (f x.1 x.2) i j = g i j := by
          by_cases hi : i = x.1
          · have hj : j ≠ x.2 := fun hj => hx (Prod.ext hi hj)
            simp [set, hi, Function.update_of_ne hj]
          · simp [set, Function.update_of_ne hi]
        simp [hmem, hx, hset]

lemma mem_cells {i j : ℕ} : (i, j) ∈ cells ↔ i < N ∧ j < N := by
  simp [cells]

/-- The loops of `init` set the elements of the operands one after another. -/
lemma init_eq (v : Version) : ∃ a b : ℕ → ℕ → ℤ, init v = ⟨a, b, fun _ _ => 0, []⟩ ∧
    ∀ i j, (i, j) ∈ cells → a i j = 2000 ∧ b i j = j + 1 := by
  have hc : ∀ (xs : List (ℕ × ℕ)) (st : Store), xs.foldl (fun st x =>
      { st with a := set st.a x.1 x.2 2000, b := set st.b x.1 x.2 (x.2 + 1) }) st =
        { st with
          a := xs.foldl (fun g x => set g x.1 x.2 2000) st.a
          b := xs.foldl (fun g x => set g x.1 x.2 (x.2 + 1)) st.b } := by
    intro xs
    induction xs with
    | nil => exact fun _ => rfl
    | cons x xs ih => exact fun st => ih _
  have hrust : ∀ (xs : List (ℕ × ℕ)) (st : Store), xs.foldl (fun st x =>
      { st with b := set st.b x.1 x.2 (x.2 + 1) }) st =
        { st with b := xs.foldl (fun g x => set g x.1 x.2 (x.2 + 1)) st.b } := by
    intro xs
    induction xs with
    | nil => exact fun _ => rfl
    | cons x xs ih => exact fun st => ih _
  cases v with
  | c =>
    refine ⟨_, _, hc _ _, fun i j hmem => ?_⟩
    generalize cells = cells at hmem
    exact ⟨(foldl_set (fun _ _ => 2000) cells _ i j).trans (if_pos hmem),
      (foldl_set (fun _ j => j + 1) cells _ i j).trans (if_pos hmem)⟩
  | rust =>
    refine ⟨_, _, hrust _ _, fun i j hmem => ?_⟩
    generalize cells = cells at hmem
    exact ⟨rfl, (foldl_set (fun _ j => j + 1) cells _ i j).trans (if_pos hmem)⟩

/-- **What `init` leaves.** -/
lemma init_apply (v : Version) {i j : ℕ} (hi : i < N) (hj : j < N) :
    (init v).a i j = 2000 ∧ (init v).b i j = j + 1 := by
  obtain ⟨a, b, heq, hab⟩ := init_eq v
  rw [heq]
  exact hab i j (mem_cells.mpr ⟨hi, hj⟩)

/-- Nothing has been written then. -/
lemma init_out (v : Version) : (init v).out = [] := by
  obtain ⟨a, b, heq, -⟩ := init_eq v
  rw [heq]

/-! ### The threads -/

/-- What a thread sees of the matrices: its own rows. -/
def rowsAt (row : ℕ) (st : Store) : (ℕ → ℤ) × (ℕ → ℤ) × (ℕ → ℤ) :=
  (st.a row, st.b row, st.res row)

/-- What a statement of the thread of a row does to them. -/
def stepRow (x : Act) (g : (ℕ → ℤ) × (ℕ → ℤ) × (ℕ → ℤ)) : (ℕ → ℤ) × (ℕ → ℤ) × (ℕ → ℤ) :=
  match x with
  | .add _ j => (g.1, g.2.1, Function.update g.2.2 j (g.1 j + g.2.1 j))
  | _ => g

/-- The statements of a thread, one after another. -/
lemma foldl_stepRow (row : Fin N) (g : (ℕ → ℤ) × (ℕ → ℤ) × (ℕ → ℤ)) {j : ℕ} (hj : j < N) :
    ((calculateRow row).foldl (fun g x => stepRow x g) g).2.2 j = g.1 j + g.2.1 j := by
  have hadds : ∀ n : ℕ, ((List.range n).map (Act.add row ·)).foldl (fun g x => stepRow x g) g =
      (g.1, g.2.1, fun j => if j < n then g.1 j + g.2.1 j else g.2.2 j) := by
    intro n
    induction n with
    | zero => simp
    | succ n ih =>
      rw [List.range_succ, List.map_append, List.foldl_append, ih]
      simp only [List.map_singleton, List.foldl_cons, List.foldl_nil, stepRow, Prod.mk.injEq,
        true_and]
      funext j
      by_cases hjn : j = n
      · subst hjn
        simp
      · have hiff : j < n + 1 ↔ j < n := by omega
        simp [Function.update_of_ne hjn, hiff]
  rw [calculateRow, List.foldl_cons, List.foldl_append, show stepRow (.announce row false) g = g
    from rfl, hadds]
  simp [stepRow, hj]

/-- What the announcement of a statement is. -/
def Act.announced : Act → Option (Fin N × Bool)
  | .announce row done => some (row, done)
  | _ => none

/-- The announcements of a thread. -/
lemma announced_calculateRow (row : Fin N) :
    (calculateRow row).filterMap Act.announced = [(row, false), (row, true)] := by
  have hnone : ((List.range N).map (Act.add row ·)).filterMap Act.announced = [] := by
    rw [List.filterMap_map]
    exact List.filterMap_eq_nil_iff.mpr fun _ _ => rfl
  rw [calculateRow, List.filterMap_cons, List.filterMap_append, hnone]
  rfl

/-- The statements of a thread add elements of its row, or announce it. -/
lemma mem_calculateRow {row : Fin N} {x : Act} (h : x ∈ calculateRow row) :
    (∃ j, x = .add row j) ∨ ∃ done, x = .announce row done := by
  simp only [calculateRow, List.mem_cons, List.mem_append, List.mem_map, List.not_mem_nil,
    or_false] at h
  rcases h with rfl | ⟨j, -, rfl⟩ | rfl
  · exact .inr ⟨false, rfl⟩
  · exact .inl ⟨j, rfl⟩
  · exact .inr ⟨true, rfl⟩

/-- The texts of the threads are their announcements. -/
lemma text_of_threads {xs : List Act} (h : ∀ x ∈ xs, ∃ row, x ∈ calculateRow row) (st : Store) :
    xs.flatMap (Act.text st) = (xs.filterMap Act.announced).flatMap announcement := by
  induction xs with
  | nil => rfl
  | cons x xs ih =>
    obtain ⟨row, hx⟩ := h x List.mem_cons_self
    rw [List.flatMap_cons, ih fun y hy => h y (List.mem_cons_of_mem _ hy)]
    rcases mem_calculateRow hx with ⟨j, rfl⟩ | ⟨done, rfl⟩
    · rfl
    · rfl

/-! ### The phase of the threads -/

variable {v : Version} {h₀ h₁ h₂ hist : List (Event Thread Act)}

/-- In the middle phase only the threads of the rows act, each executes its own statements. -/
lemma mem_middle (hp : Phases (team v) hist ((first v).map (false, ·)) (acts create)
    ((last v).map (false, ·)) h₀ h₁ h₂) {e : Event Thread Act} (he : e ∈ h₁) :
    ∃ row, e.thread = some row ∧ e.act ∈ calculateRow row := by
  rcases hp.mem_acts he with ⟨-, hmem⟩ | ⟨hne, -⟩
  · rw [create, ForkJoin.acts_map_spawn] at hmem
    cases hmem
  · obtain ⟨row, hrow⟩ := Option.ne_none_iff_exists'.mp hne
    exact ⟨row, hrow, hp.mem_of_free he hne (by rw [hrow]; rfl)⟩

/-- The matrices after the middle phase. -/
lemma rows_middle (hp : Phases (team v) hist ((first v).map (false, ·)) (acts create)
    ((last v).map (false, ·)) h₀ h₁ h₂) (st : Store) {i j : ℕ} (hi : i < N) (hj : j < N) :
    (h₁.foldl (fun st e => e.act.apply st) st).res i j = st.a i j + st.b i j := by
  have hsees : Sees (team v) (rowsAt i) stepRow (some ⟨i, hi⟩) h₁ := by
    refine ⟨fun e he hown d => ?_, fun e he hne d => ?_⟩
    · obtain ⟨row, hrow, hact⟩ := mem_middle hp he
      obtain rfl := Option.some.inj (hown.symm.trans hrow)
      rcases mem_calculateRow hact with ⟨k, hk⟩ | ⟨done, hk⟩
      · simp [team, hk, Act.apply, rowsAt, stepRow, set]
      · simp [team, hk, Act.apply, rowsAt, stepRow]
    · obtain ⟨row, hrow, hact⟩ := mem_middle hp he
      have hother : i ≠ row.val := fun heq => hne (by rw [hrow]; exact congrArg some (Fin.ext heq.symm))
      rcases mem_calculateRow hact with ⟨k, hk⟩ | ⟨done, hk⟩
      · simp [team, hk, Act.apply, rowsAt, set, Function.update_of_ne hother]
      · simp [team, hk, Act.apply, rowsAt]
  have hview := foldl_view hsees st
  rw [hp.others (some ⟨i, hi⟩) (Option.some_ne_none _)] at hview
  have hacts : (acts ((team v).script (some ⟨i, hi⟩))).map Prod.snd = calculateRow ⟨i, hi⟩ := by
    change (acts ((calculateRow ⟨i, hi⟩).map .free)).map Prod.snd = _
    rw [ForkJoin.acts_map_free, ForkJoin.map_snd_free]
  rw [hacts] at hview
  have hres := congrArg (fun g => g.2.2 j) hview
  exact hres.trans (foldl_stepRow ⟨i, hi⟩ _ hj)

/-- The announcements in the middle phase. -/
lemma announced_middle (hp : Phases (team v) hist ((first v).map (false, ·)) (acts create)
    ((last v).map (false, ·)) h₀ h₁ h₂) (row : Fin N) :
    ((h₁.map Event.act).filterMap Act.announced).filter (fun x => x.1 = row) =
      [(row, false), (row, true)] := by
  have hother : ∀ hs : List (Event Thread Act), (∀ e ∈ hs, e ∈ h₁) →
      ((hs.map Event.act).filterMap Act.announced).filter (fun x => x.1 = row) =
        ((trace (some row) hs).map Prod.snd).filterMap Act.announced := by
    intro hs
    induction hs with
    | nil => exact fun _ => rfl
    | cons e hs ih =>
      intro hall
      have hrest := ih fun e' he' => hall e' (List.mem_cons_of_mem _ he')
      obtain ⟨row', hrow', hact⟩ := mem_middle hp (hall e List.mem_cons_self)
      have htr : trace (some row) (e :: hs) =
          trace (some row) [e] ++ trace (some row) hs := trace_append _ [e] hs
      rw [htr, List.map_append, List.filterMap_append, ← hrest, List.map_cons]
      by_cases heq : row' = row
      · subst heq
        rw [← hrow', trace_self]
        rcases mem_calculateRow hact with ⟨k, hk⟩ | ⟨done, hk⟩
        · simp [hk, Act.announced, List.filterMap_cons]
        · simp [hk, Act.announced]
      · have hne : e.thread ≠ some row := fun h => heq (Option.some.inj (hrow'.symm.trans h))
        rw [trace_of_ne hne]
        rcases mem_calculateRow hact with ⟨k, hk⟩ | ⟨done, hk⟩
        · simp [hk, Act.announced, List.filterMap_cons]
        · simp [hk, Act.announced, heq]
  rw [hother h₁ fun _ he => he, hp.others (some row) (Option.some_ne_none _)]
  change ((acts ((calculateRow row).map .free)).map Prod.snd).filterMap _ = _
  rw [ForkJoin.acts_map_free, ForkJoin.map_snd_free]
  exact announced_calculateRow row

/-! ### The output -/

/-- What is written before the threads are created. -/
def header : Version → List Char
  | .c => []
  | .rust => "Matrix A:\n".toList ++ printed (fun _ _ => 2000) ++
      ("Matrix B:\n".toList ++ printed fun _ j => j + 1)

/-- What is written before the sum. -/
def title : Version → List Char
  | .c => []
  | .rust => "Matrix A + B:\n".toList

/-- The sum of the matrices. -/
def sum (_ j : ℕ) : ℤ := 2000 + (j + 1)

/-- The main thread adds nothing before it creates the threads. -/
lemma not_add_first (v : Version) : ∀ x ∈ first v, x.isAdd = false := by
  cases v with
  | c => simp [first]
  | rust =>
    simp only [first, printMatrix, List.mem_cons, List.mem_append, List.mem_flatMap, List.mem_map]
    rintro x (rfl | ⟨i, -, ⟨j, -, rfl⟩ | rfl | h⟩ | rfl | ⟨i, -, ⟨j, -, rfl⟩ | rfl | h⟩)
    all_goals first | rfl | cases h

/-- Nor after it has joined them. -/
lemma not_add_last (v : Version) : ∀ x ∈ last v, x.isAdd = false := by
  have hprint : ∀ x ∈ printMatrix .res, x.isAdd = false := by
    simp only [printMatrix, List.mem_flatMap, List.mem_append, List.mem_map]
    rintro x ⟨i, -, ⟨j, -, rfl⟩ | h⟩
    · rfl
    · obtain rfl := List.mem_singleton.mp h
      rfl
  cases v with
  | c => exact hprint
  | rust =>
    intro x hx
    rcases List.mem_cons.mp hx with rfl | hx
    · rfl
    · exact hprint x hx

/-- What is written before the threads are created. -/
lemma text_first (v : Version) : (first v).flatMap (Act.text (init v)) = header v := by
  cases v with
  | c =>
    generalize init .c = st
    exact List.flatMap_nil
  | rust =>
    have ha : printed ((init .rust).get .a) = printed fun _ _ => 2000 :=
      printed_congr fun i j hi hj => (init_apply .rust hi hj).1
    have hb : printed ((init .rust).get .b) = printed fun _ j => j + 1 :=
      printed_congr fun i j hi hj => (init_apply .rust hi hj).2
    generalize init .rust = st at ha hb ⊢
    rw [first, List.flatMap_cons, List.flatMap_append, List.flatMap_cons, text_printMatrix,
      text_printMatrix, ha, hb]
    exact (List.append_assoc ..).symm

/-- What is written at the end. -/
lemma text_last (v : Version) (st : Store) :
    (last v).flatMap (Act.text st) = title v ++ printed st.res := by
  cases v with
  | c => exact text_printMatrix .res st
  | rust =>
    rw [last, List.flatMap_cons, text_printMatrix]
    rfl

/-- Actions in the order of a history. -/
lemma foldl_history (hs : List (Event Thread Act)) (st : Store) :
    hs.foldl (fun st e => e.act.apply st) st = run (hs.map Event.act) st := by
  rw [run, List.foldl_map]

/-- **The sum is printed.** When the main thread has returned, whatever the schedule was, every
element of the result is the sum of the two, and the output is the lines of the threads, each once and
the one before the calculation first, and then the matrix of the sums.

**Proof sketch.** The history of the run is in three phases. In the middle one each row is seen by its
own thread alone, and in the last one nobody adds. -/
theorem rows_output {s : Config Thread Unit (Shared Thread Act Store) (Spot Thread Act)}
    (h : (team v).machine.Reach s) (hgone : s.loc none = .gone) :
    (∀ i j, i < N → j < N → s.data.data.res i j = sum i j) ∧
      ∃ order : List (Fin N × Bool),
        (∀ row, (order.filter fun x => x.1 = row) = [(row, false), (row, true)]) ∧
        s.data.data.out = header v ++ (order.flatMap announcement ++ (title v ++ printed sum)) := by
  obtain ⟨h₀, h₁, h₂, hp⟩ := (scatterGather v).phases h hgone
  have hdata : s.data.data = run (h₂.map Event.act)
      (run (h₁.map Event.act) (run (h₀.map Event.act) (init v))) := by
    rw [ForkJoin.replay h, hp.eq, List.foldl_append, List.foldl_append, ← foldl_history,
      ← foldl_history, ← foldl_history]
    rfl
  rw [map_act_of_trace hp.before, map_act_of_trace hp.behind, hp.first, hp.last,
    ForkJoin.map_snd_free, ForkJoin.map_snd_free] at hdata
  generalize hst₁ : run (first v) (init v) = st₁ at hdata
  generalize hst₂ : run (h₁.map Event.act) st₁ = st₂ at hdata
  have hinit := run_operands (first v) (init v)
  have hres : ∀ i j, i < N → j < N → st₂.res i j = sum i j := by
    intro i j hi hj
    have hrow := rows_middle hp st₁ hi hj
    rw [foldl_history, hst₂] at hrow
    rw [hrow, ← hst₁, hinit.1, hinit.2, (init_apply v hi hj).1, (init_apply v hi hj).2, sum]
  have hmiddle : ∀ x ∈ h₁.map Event.act, ∃ row, x ∈ calculateRow row := by
    intro x hx
    obtain ⟨e, he, rfl⟩ := List.mem_map.mp hx
    obtain ⟨row, -, hact⟩ := mem_middle hp he
    exact ⟨row, hact⟩
  have hnot : ∀ x ∈ h₁.map Event.act, x.isPrint = false := by
    intro x hx
    obtain ⟨row, hact⟩ := hmiddle x hx
    rcases mem_calculateRow hact with ⟨j, rfl⟩ | ⟨done, rfl⟩
    · rfl
    · rfl
  have hout₁ : st₁.out = header v := by
    rw [← hst₁, run_out (.inl (not_add_first v)), text_first, init_out, List.nil_append]
  refine ⟨fun i j hi hj => ?_, (h₁.map Event.act).filterMap Act.announced, announced_middle hp, ?_⟩
  · rw [hdata, run_res (not_add_last v)]
    exact hres i j hi hj
  · rw [hdata, run_out (.inl (not_add_last v)), text_last, printed_congr hres, ← hst₂,
      run_out (.inr hnot), text_of_threads hmiddle, hout₁, List.append_assoc]

/-- The C program can run to its end. -/
theorem rows_output_returned : ∃ s, (team .c).machine.Reach s ∧
    (∀ i j, i < N → j < N → s.data.data.res i j = sum i j) ∧
      ∃ order : List (Fin N × Bool),
        (∀ row, (order.filter fun x => x.1 = row) = [(row, false), (row, true)]) ∧
        s.data.data.out =
          header .c ++ (order.flatMap announcement ++ (title .c ++ printed sum)) := by
  obtain ⟨s, -, hs, hgone⟩ := ForkJoin.exists_end (scatterGather .c).forked .init
  exact ⟨s, hs, rows_output hs (hgone none)⟩

end Rows

end LockFreeMatrix

end PosixIntro
