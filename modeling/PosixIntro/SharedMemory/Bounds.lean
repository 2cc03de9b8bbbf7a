import Mathlib.Data.Nat.Find
import PosixIntro.SharedMemory.Transfer

set_option relaxedAutoImplicit false
set_option autoImplicit false

/-!
# When the shared-memory programs stay inside their mappings

The only way out of the loops is a `'0'` in the data. At end of file `fgetc` returns `EOF`, which is
stored as a character like any other, so that a writer whose input has no `'0'` never stops.

## Main definitions

* `StaysAndStops` — no access beyond a mapping in any run, and the writer's loop ends in every run.

## Main results

* `staysAndStops_iff` — exactly the inputs whose first `'0'` is below both mapping sizes.
-/

namespace PosixIntro

namespace SharedMemory

variable {W R : Lang} {stdin : List UInt8} {mem : ℕ → UInt8}

/-- In every run both processes stay inside what they have mapped and the writer's loop ends: runs
are bounded, and one that cannot be continued has left the loop. -/
structure StaysAndStops (W R : Lang) (stdin : List UInt8) (mem : ℕ → UInt8) : Prop where
  writer : ∀ s, (machine W R stdin mem).Reach s → ∀ k, s.left.loc.cell = some k → k < mapped W
  reader : ∀ s, (machine W R stdin mem).Reach s → ∀ k, s.right.loc.cell = some k → k < mapped R
  bounded : ∃ B, ∀ tr s, (machine W R stdin mem).Path tr s → tr.length ≤ B
  ends : ∀ s, (machine W R stdin mem).Reach s →
    (∀ x, Label.Ordinary x → (machine W R stdin mem).step s x = none) → s.left.loc.rounds ≠ none

/-! ### Rounds in lock step -/

/-- The state at the beginning of round `c`, when writer and reader have gone through all rounds
before it together. -/
def AtRound (W R : Lang) (stdin : List UInt8) (mem : ℕ → UInt8) (c : ℕ) : Prop :=
  ∃ m out, (machine W R stdin mem).Reach
    ⟨⟨1, 0, m⟩, ⟨.waitOne c, true, stdin.drop c⟩, ⟨.waitTwo c, out⟩⟩

/-- The state in round `c` in which the cell has been handed over. -/
def AtHandOver (W R : Lang) (stdin : List UInt8) (mem : ℕ → UInt8) (c : ℕ) : Prop :=
  ∃ m out, m c = charAt stdin c ∧ (machine W R stdin mem).Reach
    ⟨⟨0, 1, m⟩, ⟨.test c, true, stdin.drop (c + 1)⟩, ⟨.waitTwo c, out⟩⟩

/-- One more statement of the writer. -/
lemma reach_writer {m m' : Shared} {w w' : Writer} {r : Reader}
    (h : (machine W R stdin mem).Reach ⟨m, w, r⟩) (hs : w.run W m = some (m', w')) :
    (machine W R stdin mem).Reach ⟨m', w', r⟩ :=
  h.next (Duo.step_left (P := duo W R stdin mem) (s := ⟨m, w, r⟩) (a := .run) hs)

/-- One more statement of the reader. -/
lemma reach_reader {m m' : Shared} {w : Writer} {r r' : Reader}
    (h : (machine W R stdin mem).Reach ⟨m, w, r⟩) (hs : r.printShared m = some (m', r')) :
    (machine W R stdin mem).Reach ⟨m', w, r'⟩ :=
  h.next (Duo.step_right (P := duo W R stdin mem) (s := ⟨m, w, r⟩) (b := ())
    ((Reader.step_eq R () m r).trans hs))

/-- The first round begins. -/
lemma atRound_zero : AtRound W R stdin mem 0 := by
  refine ⟨mem, [], ?_⟩
  have hgreet : (machine W R stdin mem).Reach
      ⟨⟨1, 0, mem⟩, ⟨writerStart W, true, stdin⟩, ⟨.waitTwo 0, []⟩⟩ :=
    reach_reader (m := ⟨0, 0, mem⟩) (r := ⟨.greet, []⟩) .init rfl
  cases W with
  | c => exact reach_writer (reach_writer hgreet rfl) rfl
  | cpp => exact hgreet

/-- The writer stores the character of its round. -/
lemma AtRound.store {c : ℕ} (h : AtRound W R stdin mem c) :
    ∃ m out, (machine W R stdin mem).Reach
      ⟨⟨0, 0, m⟩, ⟨.store c (charAt stdin c), true, stdin.drop (c + 1)⟩, ⟨.waitTwo c, out⟩⟩ := by
  obtain ⟨m, out, h⟩ := h
  refine ⟨m, out, reach_writer (reach_writer h rfl) ?_⟩
  simp only [Writer.run, fgetc_drop]

/-- The writer hands over the cell of its round. -/
lemma AtRound.handOver {c : ℕ} (h : AtRound W R stdin mem c) : AtHandOver W R stdin mem c := by
  obtain ⟨m, out, h⟩ := h.store
  refine ⟨Function.update m c (charAt stdin c), out, Function.update_self .., ?_⟩
  cases W with
  | c => exact reach_writer (reach_writer (reach_writer h rfl) rfl) rfl
  | cpp => exact reach_writer (reach_writer h rfl) rfl

/-- The reader comes to the cell of its round. -/
lemma AtHandOver.putchar {c : ℕ} (h : AtHandOver W R stdin mem c) :
    ∃ m out, m c = charAt stdin c ∧ (machine W R stdin mem).Reach
      ⟨⟨0, 0, m⟩, ⟨.test c, true, stdin.drop (c + 1)⟩, ⟨.putchar c, out⟩⟩ := by
  obtain ⟨m, out, hc, h⟩ := h
  exact ⟨m, out, hc, reach_reader h rfl⟩

/-- The next round begins when the character was not `'0'`. -/
lemma AtRound.succ {c : ℕ} (h : AtRound W R stdin mem c) (hne : charAt stdin c ≠ charZero) :
    AtRound W R stdin mem (c + 1) := by
  obtain ⟨m, out, hc, h⟩ := h.handOver.putchar
  rw [← hc] at hne
  refine ⟨m, out ++ [m c], ?_⟩
  have htest := reach_reader (reach_reader h rfl) rfl
  have hread : (machine W R stdin mem).Reach
      ⟨⟨1, 0, m⟩, ⟨.test c, true, stdin.drop (c + 1)⟩, ⟨.waitTwo (c + 1), out ++ [m c]⟩⟩ :=
    reach_reader htest (by simp [Reader.printShared, hne])
  exact reach_writer hread (by simp [Writer.run, hne])

/-- As long as no `'0'` comes, the rounds go on. -/
lemma atRound_of_noZero {c : ℕ} (h : ∀ i < c, charAt stdin i ≠ charZero) :
    AtRound W R stdin mem c := by
  induction c with
  | zero => exact atRound_zero
  | succ c ih =>
    exact (ih fun i hi => h i (Nat.lt_succ_of_lt hi)).succ (h c (Nat.lt_succ_self c))

/-! ### The condition -/

/-- A writer that stays inside its mapping reads a `'0'` there. -/
lemma StaysAndStops.exists_zero (h : StaysAndStops W R stdin mem) :
    ∃ i < mapped W, charAt stdin i = charZero := by
  by_contra hno
  simp only [not_exists, not_and] at hno
  obtain ⟨m, out, hr⟩ := AtRound.store (W := W) (R := R) (atRound_of_noZero hno)
  exact Nat.lt_irrefl _ (h.writer _ hr (mapped W) rfl)

/-- A reader that stays inside its mapping comes to no cell beyond it. -/
lemma StaysAndStops.lt_mapped {p : ℕ} (h : StaysAndStops W R stdin mem)
    (hp : ∀ i < p, charAt stdin i ≠ charZero) : p < mapped R := by
  by_contra hle
  have hround : AtRound W R stdin mem (mapped R) :=
    atRound_of_noZero fun i hi => hp i (by omega)
  obtain ⟨m, out, -, hr⟩ := hround.handOver.putchar
  exact Nat.lt_irrefl _ (h.reader _ hr (mapped R) rfl)

/-- An input with a `'0'` has a first one. -/
lemma exists_firstZero {n : ℕ} (h : ∃ i < n, charAt stdin i = charZero) :
    ∃ p < n, FirstZero stdin p := by
  have hex : ∃ i, charAt stdin i = charZero := h.imp fun _ hi => hi.2
  obtain ⟨i, hi, hz⟩ := h
  refine ⟨Nat.find hex, ?_, Nat.find_spec hex, fun j hj => Nat.find_min hex hj⟩
  exact Nat.lt_of_le_of_lt (Nat.find_min' hex hz) hi

/-- **Writers and readers stay inside their mappings and stop** for exactly those inputs whose
first `'0'` is at an offset below the sizes that the writer and the reader map.

**Proof sketch.** With such a `'0'`, the offsets are at most its position and every step lowers the
rank. Without it, writer and reader go on in lock step until one of them comes to the end of its
mapping. -/
theorem staysAndStops_iff : StaysAndStops W R stdin mem ↔
    ∃ p, FirstZero stdin p ∧ p < mapped W ∧ p < mapped R := by
  constructor
  · intro h
    obtain ⟨p, hlt, hp⟩ := exists_firstZero h.exists_zero
    exact ⟨p, hp, hlt, h.lt_mapped hp.before⟩
  · rintro ⟨p, hp, hW, hR⟩
    refine ⟨fun s hs k hk => ?_, fun s hs k hk => ?_, ⟨_, fun tr s => length_le_rank hp⟩,
      fun s hs hstuck hrun => ?_⟩
    · exact Nat.lt_of_le_of_lt (cell_le hp hs (.inl hk)) hW
    · exact Nat.lt_of_le_of_lt (cell_le hp hs (.inr hk)) hR
    · obtain ⟨x, s', hx, hstep⟩ := exists_ordinary_step hp hs fun hend => hend.1 hrun
      rw [hstuck x hx] at hstep
      cases hstep

/-- At end of file nothing stops the C programs: on an empty standard input they leave their
mapping. -/
theorem not_staysAndStops_nil : ¬ StaysAndStops .c .c [] fun _ => 0 := by
  intro h
  obtain ⟨i, -, hz⟩ := h.exists_zero
  rw [charAt_eq_eof (Nat.zero_le i)] at hz
  exact charEof_ne_charZero hz

end SharedMemory

end PosixIntro
