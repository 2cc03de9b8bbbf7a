import PosixIntro.SharedCounter.Model

set_option relaxedAutoImplicit false
set_option autoImplicit false

/-!
# What the ten counting threads write

The output of `c_lab03_a.c`, `cc_lab03_a.cc` and `r_lab03_a.rs` under every schedule: the blocks of
the threads, in the order in which they take the mutex, with the numbers from `1` on.

## Main results

* `output_serial` — the output of every reachable state, and the range of the counter.
* `output_complete` — the output when all threads have returned.
* `run_output` — how a run ends.
-/

namespace PosixIntro

namespace SharedCounter

variable {v : Version} {s : Config Thread Unit (Shared Thread Act Store) (Spot Thread Act)}

/-- The main thread has no section. -/
lemma blocks_none : blocks ((team v).script none) = [] := by
  simp [team, main, blocks, NO_TH, List.finRange]

/-- The section of every other thread. -/
lemma blocks_some (n : Fin NO_TH) :
    blocks ((team v).script (some n)) = [rounds v (functionOf n) n] := rfl

/-- The threads act in sections only. -/
lemma acts_guarded (i : Thread) : ∀ x ∈ acts ((team v).script i), x.1 = true := by
  cases i with
  | none => simp [team, main, acts, NO_TH, List.finRange]
  | some n => simp [team, func, acts]

/-- Only the threads that `main` creates have a section. -/
lemma exists_some {i : Thread} (h : blocks ((team v).script i) ≠ []) : ∃ n, some n = i := by
  cases i with
  | none => exact absurd blocks_none h
  | some n => exact ⟨n, rfl⟩

/-- The guarded actions, without their threads. -/
lemma data_eq (h : (team v).machine.Reach s) :
    s.data.data = after ((critical s.data.history).map Prod.snd) (team v).data₀ := by
  rw [ForkJoin.replay_critical acts_guarded h, after, List.foldl_map]
  rfl

lemma map_snd_flat (ns : List (Fin NO_TH)) :
    (flat (ns.map fun n => (some n, rounds v (functionOf n) n))).map Prod.snd =
      ns.flatMap fun n => rounds v (functionOf n) n := by
  simp [flat, List.map_flatMap, List.flatMap_map, Function.comp_def]

/-- The statement only appends to the output and never decrements the counter. -/
def Grows (f : Act) : Prop := ∀ st, st.stdout <+: (f st).stdout ∧ st.counter ≤ (f st).counter

/-- Every statement of the threads grows. -/
lemma grows_of_mem {n : Fin NO_TH} {f : Act} (h : f ∈ rounds v (functionOf n) n) : Grows f := by
  intro st
  obtain ⟨g, hg, hf⟩ := List.mem_flatten.mp h
  rw [List.eq_of_mem_replicate hg] at hf
  cases v with
  | c =>
    simp only [round, List.mem_cons, List.not_mem_nil, or_false] at hf
    rcases hf with rfl | rfl <;> simp [fetch, printf, write]
  | cpp =>
    simp only [round, List.mem_cons, List.not_mem_nil, or_false] at hf
    rcases hf with rfl | rfl | rfl | rfl | rfl | rfl | rfl | rfl <;>
      simp [fetch, insertCount, write]
  | rust =>
    simp only [round, List.mem_cons, List.not_mem_nil, or_false] at hf
    rcases hf with rfl | rfl <;> simp [println, increment, write]

/-- More statements write more. -/
lemma after_mono {fs gs : List Act} (h : fs <+: gs) (hg : ∀ f ∈ gs, Grows f) (st : Store) :
    (after fs st).stdout <+: (after gs st).stdout ∧
      (after fs st).counter ≤ (after gs st).counter := by
  obtain ⟨hs, rfl⟩ := h
  rw [after_append]
  have hall : ∀ f ∈ hs, Grows f := fun f hf => hg f (List.mem_append_right _ hf)
  generalize after fs st = t
  clear hg
  induction hs generalizing t with
  | nil => exact ⟨List.prefix_refl _, le_refl _⟩
  | cons f hs ih =>
    obtain ⟨ho, hc⟩ := hall f (by simp) t
    obtain ⟨ho', hc'⟩ := ih (fun g hg => hall g (by simp [hg])) (f t)
    exact ⟨ho.trans ho', hc.trans hc'⟩

/-- The statements of some threads, one after the other. -/
lemma grows_of_mem_flatMap {ns : List (Fin NO_TH)} {f : Act}
    (h : f ∈ ns.flatMap fun n => rounds v (functionOf n) n) : Grows f := by
  obtain ⟨n, -, hf⟩ := List.mem_flatMap.mp h
  exact grows_of_mem hf

/-- **The output is serial.** In every reachable state, whatever the schedule, what has been written
is the beginning of the blocks of different threads, one block after the other, where only the last
block can be incomplete. The numbers in the blocks go on from `1` without gap or repetition, and the
counter stays within its type. -/
theorem output_serial (h : (team v).machine.Reach s) :
    ∃ order : List (Fin NO_TH), order.Nodup ∧ s.data.data.stdout <+: printed v 1 order ∧
      printed v 1 order.dropLast <+: s.data.data.stdout ∧
      1 ≤ s.data.data.counter ∧ s.data.data.counter ≤ 501 := by
  obtain ⟨order, hle, hge, hsec⟩ := ForkJoin.exists_order h
  have hpre : ∀ i, sectionsOf i order <+: blocks ((team v).script i) := fun i => ⟨_, hsec i⟩
  obtain ⟨ns, hnodup, rfl⟩ := exists_nodup hpre blocks_some fun _ => exists_some
  have hle' := hle.map Prod.snd
  have hge' := hge.map Prod.snd
  rw [← List.map_dropLast] at hge'
  rw [map_snd_flat] at hle' hge'
  have hend := after_blocks v ns (team v).data₀
  have hbegin := after_blocks v ns.dropLast (team v).data₀
  obtain ⟨hout, hcount⟩ := after_mono hle' (fun f => grows_of_mem_flatMap) (team v).data₀
  have hgrows : ∀ f ∈ (critical s.data.history).map Prod.snd, Grows f := fun f hf =>
    grows_of_mem_flatMap (hle'.subset hf)
  obtain ⟨hout', hcount'⟩ := after_mono hge' hgrows (team v).data₀
  rw [← data_eq h] at hout hcount hout' hcount'
  rw [hend.2] at hout
  rw [hbegin.2] at hout'
  rw [hend.1] at hcount
  rw [hbegin.1] at hcount'
  have hlen : ns.length ≤ 10 := by simpa using hnodup.length_le_card
  refine ⟨ns, hnodup, hout, hout', ?_, ?_⟩
  · exact (Nat.le_add_right _ _).trans hcount'
  · simp only [team, N_MAX] at hcount
    omega

/-- The main thread creates the first thread, which writes its first line. -/
theorem output_serial_first_line : ∃ s : Config Thread Unit (Shared Thread Act Store)
      (Spot Thread Act), (team .c).machine.Reach s ∧
      s.data.data.stdout = ["Function 1 = 1; Thread 1\n"] ∧
      ∃ order : List (Fin NO_TH), order.Nodup ∧ s.data.data.stdout <+: printed .c 1 order ∧
        printed .c 1 order.dropLast <+: s.data.data.stdout ∧
        1 ≤ s.data.data.counter ∧ s.data.data.counter ≤ 501 := by
  obtain ⟨s, hs, hout⟩ : ∃ s, (team .c).machine.exec (team .c).machine.init
      [.run none (), .run none (), .run (some 0) (), .run (some 0) (), .run (some 0) (),
        .run (some 0) ()] = some s ∧ s.data.data.stdout = ["Function 1 = 1; Thread 1\n"] :=
    ⟨_, rfl, rfl⟩
  have hr := Machine.reach_of_exec hs
  exact ⟨s, hr, hout, output_serial hr⟩

/-- **The whole output.** When all threads have returned, every thread has written its block once,
and the counter is `501`. -/
theorem output_complete (h : (team v).machine.Reach s) (hgone : ∀ i, s.loc i = .gone) :
    ∃ order : List (Fin NO_TH), order.Nodup ∧ (∀ n, n ∈ order) ∧
      s.data.data.stdout = printed v 1 order ∧ s.data.data.counter = 501 := by
  obtain ⟨-, order, hcrit, hsec⟩ := ForkJoin.exists_order_of_gone h hgone
  have hpre : ∀ i, sectionsOf i order <+: blocks ((team v).script i) := fun i =>
    ⟨[], by rw [hsec i, List.append_nil]⟩
  obtain ⟨ns, hnodup, rfl⟩ := exists_nodup hpre blocks_some fun _ => exists_some
  have hmem : ∀ n, n ∈ ns := mem_of_sectionsOf_eq hsec blocks_some (Option.some_injective _)
  have hlen : ns.length = NO_TH := by
    have hcard := List.toFinset_card_of_nodup hnodup
    rw [Finset.eq_univ_of_forall fun n => List.mem_toFinset.mpr (hmem n), Finset.card_univ,
      Fintype.card_fin] at hcard
    exact hcard.symm
  have hend := after_blocks v ns (team v).data₀
  rw [← map_snd_flat, ← hcrit, ← data_eq h, hlen] at hend
  exact ⟨ns, hnodup, hmem, hend.2, hend.1⟩

/-- `main` creates every thread before it joins it. -/
lemma forked : (team v).Forked := by
  refine ForkJoin.Forked.of_script ((List.finRange NO_TH).map fun n => .spawn (some n))
    ((List.finRange NO_TH).map some) [] (by simp [team, main])
    (fun j hj => ?_) (by simp) (by simp) (by simp [team]) fun i hi p hp => ?_
  · obtain ⟨n, rfl⟩ := Option.ne_none_iff_exists'.mp hj
    simp
  · obtain ⟨n, rfl⟩ := Option.ne_none_iff_exists'.mp hi
    exact .inr ⟨_, List.mem_singleton.mp hp⟩

/-- **How a run ends.** A run executes at most the statements there are. Before it has executed all
of them some thread can go on, so no schedule blocks the program. When it has, every thread has
written its block once, one block after the other, and the counter is `501`. -/
theorem run_output {tr : List (Config Thread Unit (Shared Thread Act Store) (Spot Thread Act) ×
      Label Thread Unit)} (h : (team v).machine.Path tr s) :
    tr.countP ForkJoin.isRun ≤ ForkJoin.left (team v).machine.init ∧
      (tr.countP ForkJoin.isRun < ForkJoin.left (team v).machine.init →
        ∃ i s', (team v).machine.step s (.run i ()) = some s') ∧
      (tr.countP ForkJoin.isRun = ForkJoin.left (team v).machine.init →
        ∃ order : List (Fin NO_TH), order.Nodup ∧ (∀ n, n ∈ order) ∧
          s.data.data.stdout = printed v 1 order ∧ s.data.data.counter = 501) := by
  obtain ⟨hle, hall, hstep⟩ := ForkJoin.run_ends forked h
  refine ⟨hle, fun hlt => hstep ?_, fun heq => output_complete h.reach (hall.mp heq)⟩
  by_contra hne
  have hgone : ∀ i, s.loc i = .gone := fun i => by_contra fun hi => hne ⟨i, hi⟩
  have := hall.mpr hgone
  omega

/-- A run of `r_lab03_a.rs` in which all statements have been executed. -/
theorem run_output_complete : ∃ (tr : List (Config Thread Unit (Shared Thread Act Store)
      (Spot Thread Act) × Label Thread Unit)) (s : _), (team .rust).machine.Path tr s ∧
    tr.countP ForkJoin.isRun = ForkJoin.left (team .rust).machine.init ∧
      ∃ order : List (Fin NO_TH), order.Nodup ∧ (∀ n, n ∈ order) ∧
        s.data.data.stdout = printed .rust 1 order ∧ s.data.data.counter = 501 := by
  obtain ⟨s, -, hr, hgone⟩ := ForkJoin.exists_end (forked (v := .rust)) .init
  obtain ⟨tr, hp, -⟩ := hr.exists_path
  have hcount := (ForkJoin.run_ends forked hp).2.1.mpr hgone
  exact ⟨tr, s, hp, hcount, (run_output hp).2.2 hcount⟩

end SharedCounter

end PosixIntro
