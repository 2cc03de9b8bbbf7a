import PosixIntro.TwoPrinters.Model

set_option relaxedAutoImplicit false
set_option autoImplicit false

/-!
# What the two printing threads write

The blocks that `c_lab03_b.c`, `cc_lab03_b.cc` and `r_lab03_b.rs` print are never mixed. In C and
Rust the threads can take turns in any way, ten blocks each. In C++ there are two possible outputs
only, since each thread prints the first block before the second.

## Main definitions

* `shuffles` — the interleavings of two lists.

## Main results

* `own_blocks` — the outputs of the C and the Rust program.
* `both_blocks` — the outputs of the C++ program.
* `run_ends` — every run ends with all threads returned.
-/

namespace PosixIntro

namespace TwoPrinters

variable {v : Version} {s : Config Thread Unit (Shared Thread Put (List Put)) (Spot Thread Put)}

/-- Every text that is written goes to the standard output stream. -/
theorem stdout_only (h : (team v).machine.Reach s) : ∀ p ∈ s.data.data, p.stream = .stdout := by
  intro p hp
  obtain ⟨order, hle, -, hsec⟩ := writers_serial (acts_guarded v) h
  obtain ⟨x, hx, hpx⟩ := List.mem_flatMap.mp (hle.subset hp)
  exact stdout_of_mem (mem_of_sectionsOf (fun i => ⟨_, hsec i⟩) hx) hpx

/-! ### C and Rust -/

/-- The sections of a C or Rust thread. -/
lemma blocks_own (hv : v ≠ .cpp) (n : Fin NO_TH) :
    blocks (script v (some n)) = List.replicate 10 (printThread v n) := by
  cases v with
  | cpp => exact absurd rfl hv
  | c => exact blocks_replicate 10 _
  | rust => exact blocks_replicate 10 _

/-- A sequence of sections of the C or Rust threads is a sequence of threads. -/
lemma exists_threads (hv : v ≠ .cpp) {order : List (Thread × List Put)}
    (h : ∀ i, sectionsOf i order <+: blocks (script v i)) :
    ∃ ns : List (Fin NO_TH), order = ns.map (fun n : Fin NO_TH => (some n, printThread v n)) ∧
      ∀ n, ns.count n = (sectionsOf (some n) order).length := by
  have hmem : ∀ x ∈ order, ∃ n : Fin NO_TH, (some n, printThread v n) = x := by
    rintro ⟨i, body⟩ hx
    have hb := mem_of_sectionsOf h hx
    cases i with
    | none => simp [blocks_main] at hb
    | some n =>
      rw [blocks_own hv] at hb
      have hbody : body = printThread v n := List.eq_of_mem_replicate hb
      exact ⟨n, by rw [hbody]⟩
  obtain ⟨ns, hns⟩ := exists_indices hmem
  refine ⟨ns, hns, fun n => ?_⟩
  rw [sectionsOf, List.length_map, hns, ← List.countP_eq_length_filter, List.countP_map,
    List.count_eq_countP]
  congr 1
  funext m
  simp only [Function.comp_apply, Option.some.injEq]
  rfl

/-- **The output of the C and the Rust program** consists of the blocks of the threads, one after
the other, at most ten of each, where only the last one can be incomplete. When all threads have
returned, each has printed its block ten times. -/
theorem own_blocks (hv : v ≠ .cpp) (h : (team v).machine.Reach s) :
    (∃ order : List (Fin NO_TH), (∀ n, order.count n ≤ 10) ∧
      s.data.data <+: order.flatMap (fun n : Fin NO_TH => printThread v n) ∧
      order.dropLast.flatMap (fun n : Fin NO_TH => printThread v n) <+: s.data.data) ∧
    ((∀ i, s.loc i = .gone) → ∃ order : List (Fin NO_TH), (∀ n, order.count n = 10) ∧
      s.data.data = order.flatMap fun n : Fin NO_TH => printThread v n) := by
  refine ⟨?_, fun hgone => ?_⟩
  · obtain ⟨order, hle, hge, hsec⟩ := writers_serial (acts_guarded v) h
    obtain ⟨ns, rfl, hcount⟩ := exists_threads hv fun i => ⟨_, hsec i⟩
    refine ⟨ns, fun n => ?_, ?_, ?_⟩
    · have hlen := congrArg List.length (hsec (some n))
      rw [blocks_own hv, List.length_append, List.length_replicate] at hlen
      rw [hcount]
      omega
    · rwa [List.flatMap_map] at hle
    · rwa [← List.map_dropLast, List.flatMap_map] at hge
  · obtain ⟨order, hout, hsec⟩ := writers_serial_of_gone (acts_guarded v) h hgone
    obtain ⟨ns, rfl, hcount⟩ := exists_threads hv fun i => ⟨[], by rw [hsec i, List.append_nil]⟩
    refine ⟨ns, fun n => ?_, ?_⟩
    · rw [hcount, hsec, blocks_own hv, List.length_replicate]
    · rw [hout, List.flatMap_map]

/-- The two threads of the C program can return, and have then printed ten blocks each. -/
theorem own_blocks_returned : ∃ s, (team .c).machine.Reach s ∧
    ∃ order : List (Fin NO_TH), (∀ n, order.count n = 10) ∧
      s.data.data = order.flatMap fun n : Fin NO_TH => printThread .c n := by
  obtain ⟨s, -, hs, hgone⟩ := ForkJoin.exists_end (forked .c) .init
  exact ⟨s, hs, (own_blocks (v := .c) (by decide) hs).2 hgone⟩

/-! ### C++ -/

/-- The interleavings of two lists. -/
def shuffles {X : Type*} : List X → List X → List (List X)
  | [], ys => [ys]
  | x :: xs, [] => [x :: xs]
  | x :: xs, y :: ys =>
    (shuffles xs (y :: ys)).map (x :: ·) ++ (shuffles (x :: xs) ys).map (y :: ·)

lemma cons_mem_shuffles {X : Type*} {x : X} {xs ys l : List X} (h : l ∈ shuffles xs ys) :
    x :: l ∈ shuffles (x :: xs) ys := by
  cases ys with
  | nil => cases xs <;> simpa [shuffles] using h
  | cons y ys =>
    rw [shuffles]
    exact List.mem_append_left _ (List.mem_map.mpr ⟨l, h, rfl⟩)

lemma cons_mem_shuffles' {X : Type*} {y : X} {xs ys l : List X} (h : l ∈ shuffles xs ys) :
    y :: l ∈ shuffles xs (y :: ys) := by
  cases xs with
  | nil => simpa [shuffles] using h
  | cons x xs =>
    rw [shuffles]
    exact List.mem_append_right _ (List.mem_map.mpr ⟨l, h, rfl⟩)

/-- A sequence of sections of two threads is an interleaving. -/
lemma mem_shuffles {order : List (Thread × List Put)}
    (hmem : ∀ x ∈ order, x.1 = some 0 ∨ x.1 = some 1) :
    order.map Prod.snd ∈ shuffles (sectionsOf (some 0) order) (sectionsOf (some 1) order) := by
  induction order with
  | nil => simp [shuffles]
  | cons x order ih =>
    obtain ⟨i, body⟩ := x
    have ih := ih fun y hy => hmem y (by simp [hy])
    have hsplit : ∀ j, sectionsOf j ((i, body) :: order) =
        sectionsOf j [(i, body)] ++ sectionsOf j order := fun j => sectionsOf_append j [_] _
    rw [hsplit, hsplit, List.map_cons]
    rcases hmem (i, body) (by simp) with h | h
    · obtain rfl : i = some 0 := h
      rw [sectionsOf_self, sectionsOf_of_ne (by decide)]
      exact cons_mem_shuffles ih
    · obtain rfl : i = some 1 := h
      rw [sectionsOf_self, sectionsOf_of_ne (by decide)]
      exact cons_mem_shuffles' ih

/-- The sections of a C++ thread. -/
lemma blocks_both (n : Fin NO_TH) :
    blocks (script .cpp (some n)) = [printThread .cpp 0, printThread .cpp 1] := by
  simp [script, func, blocks, List.range, List.range.loop]

/-- Two threads that each print the first and then the second block have two ways to do it. -/
lemma shuffles_both {X : Type*} {a b : X} {l : List X} (h : l ∈ shuffles [a, b] [a, b]) :
    l = [a, a, b, b] ∨ l = [a, b, a, b] := by
  simp only [shuffles, List.map_cons, List.map_nil, List.cons_append, List.nil_append,
    List.mem_cons, List.not_mem_nil, or_false] at h
  tauto

lemma thread_cases (n : Fin NO_TH) : n = 0 ∨ n = 1 := by
  revert n
  decide

/-- Only the two threads that `main` creates have sections. -/
lemma thread_of_mem {order : List (Thread × List Put)}
    (h : ∀ i, sectionsOf i order <+: blocks (script v i)) :
    ∀ x ∈ order, x.1 = some 0 ∨ x.1 = some 1 := by
  rintro ⟨i, body⟩ hx
  have hb := mem_of_sectionsOf h hx
  cases i with
  | none => simp [blocks_main] at hb
  | some n =>
    rcases thread_cases n with rfl | rfl
    · exact .inl rfl
    · exact .inr rfl

/-- The sections of the C++ program, when both threads have returned. -/
lemma order_both_end {order : List (Thread × List Put)}
    (h : ∀ i, sectionsOf i order = blocks (script .cpp i)) :
    order.map Prod.snd = [0, 0, 1, 1].map (printThread .cpp) ∨
      order.map Prod.snd = [0, 1, 0, 1].map (printThread .cpp) := by
  have hmem := mem_shuffles (thread_of_mem fun i => ⟨[], by rw [List.append_nil, h i]⟩)
  rw [h, h, blocks_both, blocks_both] at hmem
  exact shuffles_both hmem

/-- The sections of the C++ program are the beginning of one of two sequences.

**Proof sketch.** Let the threads enter the sections that they have not entered, one thread after
the other. Then they have entered all of them. -/
lemma order_both {order : List (Thread × List Put)}
    (h : ∀ i, sectionsOf i order <+: blocks (script .cpp i)) :
    order.map Prod.snd <+: [0, 0, 1, 1].map (printThread .cpp) ∨
      order.map Prod.snd <+: [0, 1, 0, 1].map (printThread .cpp) := by
  obtain ⟨t₀, h₀⟩ := h (some 0)
  obtain ⟨t₁, h₁⟩ := h (some 1)
  have hnone : sectionsOf none order = [] := by
    have hn := h none
    rwa [blocks_main, List.prefix_nil] at hn
  have hall : ∀ i, sectionsOf i (order ++ (t₀.map (some 0, ·) ++ t₁.map (some 1, ·))) =
      blocks (script .cpp i) := by
    intro i
    rw [sectionsOf_append, sectionsOf_append]
    rcases i with _ | n
    · rw [hnone, sectionsOf_map_of_ne (by simp), sectionsOf_map_of_ne (by simp), blocks_main]
      rfl
    · rcases thread_cases n with rfl | rfl
      · rw [← h₀, sectionsOf_map_self, sectionsOf_map_of_ne (by decide), List.append_nil]
      · rw [← h₁, sectionsOf_map_self, sectionsOf_map_of_ne (by decide), List.nil_append]
  have hpre : order.map Prod.snd <+:
      (order ++ (t₀.map (some 0, ·) ++ t₁.map (some 1, ·))).map Prod.snd :=
    (List.prefix_append _ _).map _
  rcases order_both_end hall with he | he
  · exact .inl (he ▸ hpre)
  · exact .inr (he ▸ hpre)

lemma flatMap_snd {order : List (Thread × List Put)} :
    order.flatMap Prod.snd = (order.map Prod.snd).flatten := List.flatMap_def ..

lemma flatten_mono {X : Type*} {l l' : List (List X)} (h : l <+: l') :
    l.flatten <+: l'.flatten := by
  obtain ⟨t, rfl⟩ := h
  exact ⟨t.flatten, List.flatten_append.symm⟩

/-- **The output of the C++ program** is the beginning of one of two texts, whatever the schedule:
the block of the first thread twice and then the block of the second thread twice, or the two in
turns. It always begins with the former and ends with the latter. When all threads have returned the
text is complete. -/
theorem both_blocks (h : (team .cpp).machine.Reach s) :
    (s.data.data <+: [0, 0, 1, 1].flatMap (printThread .cpp) ∨
      s.data.data <+: [0, 1, 0, 1].flatMap (printThread .cpp)) ∧
    ((∀ i, s.loc i = .gone) → s.data.data = [0, 0, 1, 1].flatMap (printThread .cpp) ∨
      s.data.data = [0, 1, 0, 1].flatMap (printThread .cpp)) := by
  refine ⟨?_, fun hgone => ?_⟩
  · obtain ⟨order, hle, -, hsec⟩ := writers_serial (acts_guarded .cpp) h
    rw [flatMap_snd] at hle
    rcases order_both fun i => ⟨_, hsec i⟩ with ho | ho
    · exact .inl (hle.trans (flatten_mono ho))
    · exact .inr (hle.trans (flatten_mono ho))
  · obtain ⟨order, hout, hsec⟩ := writers_serial_of_gone (acts_guarded .cpp) h hgone
    rw [hout, flatMap_snd]
    rcases order_both_end hsec with ho | ho
    · exact .inl (congrArg List.flatten ho)
    · exact .inr (congrArg List.flatten ho)

/-- The second thread of the C++ program has written the first text of its first line. -/
theorem both_blocks_first_text : ∃ s : Config Thread Unit (Shared Thread Put (List Put))
      (Spot Thread Put), s.data.data = [out "Thread I : i = "] ∧
      (s.data.data <+: [0, 0, 1, 1].flatMap (printThread .cpp) ∨
        s.data.data <+: [0, 1, 0, 1].flatMap (printThread .cpp)) := by
  obtain ⟨s, hs, hout⟩ : ∃ s, (team .cpp).machine.exec (team .cpp).machine.init
      [.run none (), .run none (), .run none (), .run (some 1) (), .run (some 1) (),
        .run (some 1) ()] = some s ∧ s.data.data = [out "Thread I : i = "] :=
    ⟨_, rfl, rfl⟩
  exact ⟨s, hout, (both_blocks (Machine.reach_of_exec hs)).1⟩

/-- **Every run ends with all threads returned.** -/
theorem run_ends {tr : List (Config Thread Unit (Shared Thread Put (List Put)) (Spot Thread Put) ×
      Label Thread Unit)} (h : (team v).machine.Path tr s) :
    tr.countP ForkJoin.isRun ≤ ForkJoin.left (team v).machine.init ∧
      (tr.countP ForkJoin.isRun = ForkJoin.left (team v).machine.init ↔ ∀ i, s.loc i = .gone) ∧
      ((∃ i, s.loc i ≠ .gone) → ∃ i s', (team v).machine.step s (.run i ()) = some s') :=
  ForkJoin.run_ends (forked v) h

end TwoPrinters

end PosixIntro
