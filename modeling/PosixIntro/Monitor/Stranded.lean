import PosixIntro.Monitor.Knocks

set_option relaxedAutoImplicit false
set_option autoImplicit false

/-!
# When the monitor strands a waiter

`somebody_waits` is one flag for all waiters, and every waiter clears it when it wakes up. A thread
that is still blocked then waits for knocks that are no longer counted.

## Main definitions

* `Blocked` — a thread is in `monitor_wait` and no signal has selected it.
* `Wakes` — `MAX_NUM` calls of `monitor_knock` select a blocked thread.
* `ClearsAlone` — a waiter clears the flag only when nobody is blocked.

## Main results

* `strands_no_waiter` — no waiter is stranded in the runs with `ClearsAlone`; in every state in
  which knocks are possible at all, they wake a blocked thread exactly when the flag is set.
* `waiter_stranded` — with two waiters one can be stranded.
-/

namespace PosixIntro

namespace Monitor

variable {ι : Type*} [DecidableEq ι]

/-- The thread `w` is blocked in `monitor_wait` and not yet selected. -/
def Blocked (s : State ι) (w : ι) : Prop := (∃ k, s.loc w = .waiting k) ∧ w ∈ s.shared.cond

/-- `MAX_NUM` complete calls of `monitor_knock`, with no other step in between, select a thread that
was blocked. -/
def Wakes (s : State ι) : Prop :=
  ∀ s', Knocks maxNum s s' → ∃ w, Blocked s w ∧ w ∉ s'.shared.cond

/-- A waiter that wakes up clears `somebody_waits` only when no thread is blocked. -/
def ClearsAlone (s : State ι) (x : ι × Choice ι) : Prop :=
  ∀ k, s.loc x.1 = .clearWaits k → s.shared.cond = ∅

/-- The thread is about to clear `somebody_waits`. -/
def Loc.clears : Loc → Bool
  | .clearWaits _ => true
  | _ => false

instance (s : State ι) (x : ι × Choice ι) : Decidable (ClearsAlone s x) :=
  decidable_of_iff ((s.loc x.1).clears = true → s.shared.cond = ∅) <| by
    unfold ClearsAlone
    cases s.loc x.1 <;> simp [Loc.clears]

variable {ok : State ι → ι × Choice ι → Prop} {s : State ι}

/-- A thread that no signal has selected is blocked. -/
lemma blocked_of_mem (h : (machine ι).ReachIf ok s) {w : ι} (hw : w ∈ s.shared.cond) :
    Blocked s w := by
  have hinv := Crew.noninterference (P := crew ι)
    (I := fun j (m : MonitorTag ι) l => j ∈ m.cond → ∃ k, l = .waiting k) ?start ?step h w
  · exact ⟨hinv hw, hw⟩
  case start => exact fun i hi => absurd hi (Finset.notMem_empty i)
  case step =>
    intro i c m loc m' l' _ _ hall hn
    have hmove := move_of_next hn
    have hi := hall i
    revert hi
    generalize loc i = l at hmove
    intro hi
    refine ⟨fun hmem => ?_, fun j hji hmem => hall j ?_⟩
    · cases hmove with
      | condWait k => exact ⟨k, rfl⟩
      | wake k hsel => exact absurd hmem hsel
      | signal w hc hw => exact absurd (hi (Finset.mem_of_mem_erase hmem)) nofun
      | _ => exact absurd (hi hmem) nofun
    · cases hmove with
      | condWait k => exact (Finset.mem_insert.mp hmem).resolve_left hji
      | signal w hc hw => exact Finset.mem_of_mem_erase hmem
      | _ => exact hmem

/-- Under `ClearsAlone` the flag is set while a thread is blocked or about to block. -/
lemma somebodyWaits_of_blocked (h : (machine ι).ReachIf ClearsAlone s) (i : ι) :
    (s.shared.cond ≠ ∅ → s.shared.somebodyWaits = 1) ∧
      ∀ k, s.loc i = .condWait k → s.shared.somebodyWaits = 1 := by
  refine Crew.noninterference (P := crew ι) (I := fun _ (m : MonitorTag ι) l =>
    (m.cond ≠ ∅ → m.somebodyWaits = 1) ∧ ∀ k, l = .condWait k → m.somebodyWaits = 1) ?_ ?_ h i
  · exact fun i => ⟨fun hcond => absurd rfl hcond, nofun⟩
  · intro i c m loc m' l' hr hok hall hn
    have hmove := move_of_next hn
    have hclear : ∀ k, loc i = .clearWaits k → m.cond = ∅ := hok
    have hguard := guarded hr
    -- a thread that clears the flag is alone inside the mutex
    have halone : ∀ j k k', loc i = .clearWaits k → loc j = .condWait k' → j = i := by
      intro j k k' hi hj
      have hin : (loc i).Inside := by rw [hi]; trivial
      have hjn : (loc j).Inside := by rw [hj]; trivial
      exact Option.some.inj (((hguard j).inside.mp hjn).symm.trans ((hguard i).inside.mp hin))
    have hi := hall i
    revert hi hclear halone
    generalize loc i = l at hmove
    intro hclear halone hi
    cases hmove with
    | setWaits => exact ⟨⟨fun _ => rfl, fun _ _ => rfl⟩, fun j _ => ⟨fun _ => rfl, fun _ _ => rfl⟩⟩
    | condWait k =>
      have hset := hi.2 k rfl
      exact ⟨⟨fun _ => hset, nofun⟩, fun j _ => ⟨fun _ => hset, (hall j).2⟩⟩
    | clearWaits k =>
      have hempty := hclear k rfl
      exact ⟨⟨fun hcond => absurd hempty hcond, nofun⟩, fun j hji =>
        ⟨fun hcond => absurd hempty hcond, fun k' hj => absurd (halone j k k' rfl hj) hji⟩⟩
    | signal w hc hw =>
      have hset := hi.1 (Finset.ne_empty_of_mem hw)
      exact ⟨⟨fun _ => hset, nofun⟩, fun j _ => ⟨fun _ => hset, (hall j).2⟩⟩
    | _ => exact ⟨⟨hi.1, nofun⟩, fun j _ => hall j⟩

/-- With the flag set, knocks wake a blocked thread. -/
lemma wakes_of_somebodyWaits (h : (machine ι).ReachIf ok s) (hcond : s.shared.cond ≠ ∅)
    (hsw : s.shared.somebodyWaits = 1) : Wakes s := by
  intro s' hknocks
  have hfree : s.shared.owner = none := by
    cases hknocks with
    | succ hknock _ => exact hknock.effect.1
  obtain ⟨w, -⟩ := Finset.nonempty_iff_ne_empty.mpr hcond
  have hcnt := (guarded h w).free hfree
  obtain ⟨w, hw, hnot⟩ := hknocks.select hsw hcond hcnt (Nat.le_add_left _ _)
  exact ⟨w, blocked_of_mem h hw, hnot⟩

/-- **Which waiters are stranded.** In the runs in which waiters clear the flag only when nobody is
blocked, `MAX_NUM` knocks select a blocked thread in every state with one; and in any reachable
state in which knocks are possible, they do so exactly when the flag is set. -/
theorem strands_no_waiter :
    (∀ s : State ι, (machine ι).ReachIf ClearsAlone s → (∃ w, Blocked s w) → Wakes s) ∧
      ∀ s : State ι, (machine ι).Reach s → s.shared.owner = none → (∃ i, s.loc i = .idle) →
        (∃ w, Blocked s w) → (Wakes s ↔ s.shared.somebodyWaits = 1) := by
  refine ⟨fun s h hblocked => ?_, fun s h hfree hidle hblocked => ⟨fun hwakes => ?_, ?_⟩⟩
  · obtain ⟨w, -, hw⟩ := hblocked
    have hcond := Finset.ne_empty_of_mem hw
    exact wakes_of_somebodyWaits h hcond ((somebodyWaits_of_blocked h w).1 hcond)
  · by_contra hsw
    obtain ⟨i, hi⟩ := hidle
    obtain ⟨s', hknocks⟩ := exists_knocks maxNum hfree hi
    obtain ⟨w, hw, hnot⟩ := hwakes s' hknocks
    rw [hknocks.cond_eq hsw] at hnot
    exact hnot hw.2
  · obtain ⟨w, -, hw⟩ := hblocked
    exact wakes_of_somebodyWaits h (Finset.ne_empty_of_mem hw)

/-- Threads 0 and 1 wait, thread 2 knocks `MAX_NUM` times and selects thread 0, which wakes up and
clears the flag. -/
def firstWakes : List (Fin 3 × Choice (Fin 3)) :=
  List.replicate 4 (0, .wait) ++ List.replicate 4 (1, .wait) ++ List.replicate 59 (2, .knock) ++
    List.replicate 3 (2, .select 0) ++ List.replicate 3 (0, .wait)

/-- While threads 0 and 1 both wait and two knocks have been counted, the next `MAX_NUM` knocks wake
one of them. After `firstWakes` they do not. -/
theorem strands_no_waiter_three :
    (∃ s : State (Fin 3), (machine (Fin 3)).ReachIf ClearsAlone s ∧ Blocked s 0 ∧ Blocked s 1 ∧
      s.shared.cnt = 2 ∧ Wakes s) ∧
    ∃ s : State (Fin 3), (machine (Fin 3)).Reach s ∧ Blocked s 1 ∧ ¬ Wakes s := by
  constructor
  · have hrun : ∃ s, (machine (Fin 3)).execIf ClearsAlone (machine (Fin 3)).init
        (List.replicate 4 (0, .wait) ++ List.replicate 4 (1, .wait) ++
          List.replicate 12 (2, .knock)) = some s ∧
        s.loc 0 = .waiting 0 ∧ s.loc 1 = .waiting 0 ∧ s.shared.cond = {1, 0} ∧
        s.shared.cnt = 2 := ⟨_, rfl, rfl, rfl, rfl, rfl⟩
    obtain ⟨s, hexec, h0, h1, hcond, hcnt⟩ := hrun
    have hs := Machine.ReachIf.of_execIf .init hexec
    have hb0 : Blocked s 0 := ⟨⟨0, h0⟩, by simp [hcond]⟩
    have hb1 : Blocked s 1 := ⟨⟨0, h1⟩, by simp [hcond]⟩
    exact ⟨s, hs, hb0, hb1, hcnt, strands_no_waiter.1 s hs ⟨0, hb0⟩⟩
  · have hrun : ∃ s, (machine (Fin 3)).exec (machine (Fin 3)).init firstWakes = some s ∧
        s.shared.owner = none ∧ s.shared.somebodyWaits = 0 ∧ s.loc 2 = .idle ∧
        s.loc 1 = .waiting 0 ∧ s.shared.cond = {1} := ⟨_, rfl, rfl, rfl, rfl, rfl, rfl⟩
    obtain ⟨s, hexec, hfree, hsw, hidle, hwait, hcond⟩ := hrun
    have hs := Machine.reach_of_exec hexec
    have hblocked : Blocked s 1 := ⟨⟨0, hwait⟩, by simp [hcond]⟩
    refine ⟨s, hs, hblocked, fun hwakes => ?_⟩
    have hset := (strands_no_waiter.2 s hs hfree ⟨2, hidle⟩ ⟨1, hblocked⟩).mp hwakes
    rw [hsw] at hset
    exact Nat.zero_ne_one hset

/-- Thread 1 is then stranded. -/
theorem waiter_stranded :
    ¬ ∀ s : State (Fin 3), (machine (Fin 3)).Reach s → (∃ w, Blocked s w) → Wakes s := by
  intro hall
  have hrun : ∃ s, (machine (Fin 3)).exec (machine (Fin 3)).init firstWakes = some s ∧
      s.shared.owner = none ∧ s.shared.somebodyWaits = 0 ∧ s.loc 2 = .idle ∧
      s.loc 1 = .waiting 0 ∧ s.shared.cond = {1} := ⟨_, rfl, rfl, rfl, rfl, rfl, rfl⟩
  obtain ⟨s, hexec, hfree, hsw, hidle, hwait, hcond⟩ := hrun
  have hblocked : Blocked s 1 := ⟨⟨0, hwait⟩, by rw [hcond]; exact Finset.mem_singleton_self 1⟩
  have hclear : s.shared.somebodyWaits ≠ 1 := by
    rw [hsw]
    exact Nat.zero_ne_one
  obtain ⟨s', hknocks⟩ := exists_knocks maxNum hfree hidle
  obtain ⟨w, hw, hnot⟩ := hall s (Machine.reach_of_exec hexec) ⟨1, hblocked⟩ s' hknocks
  rw [hknocks.cond_eq hclear] at hnot
  exact hnot hw.2

end Monitor

end PosixIntro
