import PosixIntro.Monitor.Model

set_option relaxedAutoImplicit false
set_option autoImplicit false

/-!
# Complete calls of `monitor_knock`

## Main definitions

* `Knock`, `Knocks` — one call, or several, with no other step in between.
* `Knocked` — what a call does to the monitor.

## Main results

* `Knock.effect`, `knock_of_knocked` — a call can be made when the mutex is free and a thread is
  between two calls, and it does what `Knocked` says.
* `exists_knocks` — any number of calls can be made then.
* `Knocks.select` — enough of them select a blocked thread, if `somebody_waits` is set.
-/

namespace PosixIntro

namespace Monitor

variable {ι : Type*} [DecidableEq ι]

/-- The thread `i` goes on alone until it is between two calls. -/
inductive Alone (i : ι) : State ι → State ι → Prop
  | returned {s : State ι} (h : s.loc i = .idle) : Alone i s s
  | step {s t s' : State ι} {c : Choice ι} (h : s.loc i ≠ .idle)
      (hs : (machine ι).step s (i, c) = some t) (ht : Alone i t s') : Alone i s s'

/-- A complete call of `monitor_knock` with no other step in between. -/
def Knock (s s' : State ι) : Prop :=
  ∃ i t, s.loc i = .idle ∧ (machine ι).step s (i, .knock) = some t ∧ Alone i t s'

/-- Several of them. -/
inductive Knocks : ℕ → State ι → State ι → Prop
  | zero (s : State ι) : Knocks 0 s s
  | succ {n : ℕ} {s t s' : State ι} (h : Knock s t) (ht : Knocks n t s') : Knocks (n + 1) s s'

/-- What `monitor_knock` does to the monitor. -/
inductive Knocked (m : MonitorTag ι) : MonitorTag ι → Prop
  | unwaited (h : m.somebodyWaits ≠ 1) : Knocked m { m with knocks := m.knocks + 1 }
  | counted (h : m.somebodyWaits = 1) (hc : m.cnt + 1 ≠ maxNum) :
      Knocked m { m with cnt := m.cnt + 1, knocks := m.knocks + 1 }
  | nobody (h : m.somebodyWaits = 1) (hc : m.cnt + 1 = maxNum) (hcond : m.cond = ∅) :
      Knocked m { m with cnt := 0, knocks := m.knocks + 1 }
  | selected (w : ι) (h : m.somebodyWaits = 1) (hc : m.cnt + 1 = maxNum) (hw : w ∈ m.cond) :
      Knocked m { m with cnt := 0, cond := m.cond.erase w, knocks := m.knocks + 1 }

/-! ### One call -/

variable {i : ι} {m m' : MonitorTag ι} {loc : ι → Loc} {l l' : Loc} {s s' : State ι}

/-- One step of a thread that goes on alone. -/
lemma Alone.move (h : Alone i ⟨m, Function.update loc i l⟩ s') (hl : l ≠ .idle) :
    ∃ c m' l', Move i c m l m' l' ∧ Alone i ⟨m', Function.update loc i l'⟩ s' := by
  cases h with
  | returned h => exact absurd (by simpa using h) hl
  | @step _ t _ c h hs ht =>
    obtain ⟨m', l', hmove, rfl⟩ := move_of_step hs
    simp only [Function.update_self, Function.update_idem] at hmove ht
    exact ⟨c, m', l', hmove, ht⟩

/-- A thread that is between two calls has returned. -/
lemma Alone.eq_of_idle (h : Alone i ⟨m, Function.update loc i .idle⟩ s') :
    s' = ⟨m, Function.update loc i .idle⟩ := by
  cases h with
  | returned h => rfl
  | step h hs ht => exact absurd (by simp) h

/-- A step, and on alone. -/
lemma alone_of_next {c : Choice ι} (h : next i c m l = some (m', l')) (hl : l ≠ .idle)
    (ht : Alone i ⟨m', Function.update loc i l'⟩ s') :
    Alone i ⟨m, Function.update loc i l⟩ s' := by
  refine .step (c := c) (by simpa using hl) (Crew.step_iff.mpr ⟨m', l', ?_, rfl⟩)
    (by simpa using ht)
  simpa [crew] using h

/-- What the call does from the unlocking of the mutex on. -/
lemma alone_unlock (h : Alone i ⟨m, Function.update loc i .unlockKnock⟩ s') :
    s' = ⟨{ m with owner := none, knocks := m.knocks + 1 }, Function.update loc i .idle⟩ := by
  obtain ⟨c, m', l', hmove, h⟩ := h.move nofun
  cases hmove
  exact h.eq_of_idle

/-- What the call does from its comparison of the counter on. -/
lemma alone_testCnt (h : Alone i ⟨m, Function.update loc i .testCnt⟩ s') :
    ∃ cnt cond, s' = ⟨⟨cnt, m.somebodyWaits, none, cond, m.knocks + 1⟩,
        Function.update loc i .idle⟩ ∧
      ((m.cnt ≠ maxNum ∧ cnt = m.cnt ∧ cond = m.cond) ∨
        (m.cnt = maxNum ∧ cnt = 0 ∧ ((m.cond = ∅ ∧ cond = m.cond) ∨
          ∃ w ∈ m.cond, cond = m.cond.erase w))) := by
  obtain ⟨c, m', l', hmove, h⟩ := h.move nofun
  cases hmove with
  | more hc => exact ⟨_, _, alone_unlock h, .inl ⟨hc, rfl, rfl⟩⟩
  | full hc =>
    obtain ⟨c, m', l', hmove, h⟩ := h.move nofun
    cases hmove with
    | signalNobody hcond =>
      obtain ⟨c, m', l', hmove, h⟩ := h.move nofun
      cases hmove
      have hend := alone_unlock h
      exact ⟨_, _, hend, .inr ⟨hc, rfl, .inl ⟨hcond, rfl⟩⟩⟩
    | signal w _ hw =>
      obtain ⟨c, m', l', hmove, h⟩ := h.move nofun
      cases hmove
      have hend := alone_unlock h
      exact ⟨_, _, hend, .inr ⟨hc, rfl, .inr ⟨w, hw, rfl⟩⟩⟩

/-- **What a complete call of `monitor_knock` does**: it needs a free mutex, and the thread that
has made it is where it was. -/
theorem Knock.effect (h : Knock s s') :
    s.shared.owner = none ∧ ∃ m', Knocked s.shared m' ∧ s' = ⟨m', s.loc⟩ := by
  obtain ⟨i, t, hidle, hs, h⟩ := h
  obtain ⟨⟨cnt, sw, owner, cond, knocks⟩, loc⟩ := s
  obtain ⟨m, l, hmove, rfl⟩ := move_of_step hs
  have hidle' : loc i = .idle := hidle
  simp only [hidle'] at hmove
  cases hmove with
  | callWait hc => cases hc
  | callKnock =>
    obtain ⟨c, m', l', hmove, h⟩ := h.move nofun
    cases hmove with
    | lockKnock hfree =>
      obtain rfl : owner = none := hfree
      have hloc : Function.update loc i .idle = loc := by rw [← hidle', Function.update_eq_self]
      refine ⟨rfl, ?_⟩
      obtain ⟨c, m', l', hmove, h⟩ := h.move nofun
      cases hmove with
      | unwaited hsw =>
        obtain rfl := alone_unlock h
        exact ⟨_, .unwaited hsw, by rw [hloc]⟩
      | waited hsw =>
        obtain ⟨c, m', l', hmove, h⟩ := h.move nofun
        cases hmove
        obtain ⟨cnt', cond', rfl, hcases⟩ := alone_testCnt h
        rw [hloc]
        rcases hcases with ⟨hc, rfl, rfl⟩ | ⟨hc, rfl, ⟨hcond, rfl⟩ | ⟨w, hw, rfl⟩⟩
        · exact ⟨_, .counted hsw hc, rfl⟩
        · exact ⟨_, .nobody hsw hc hcond, rfl⟩
        · exact ⟨_, .selected w hsw hc hw, rfl⟩

/-- From the unlocking of the mutex on. -/
lemma alone_from_unlock (i : ι) (m : MonitorTag ι) (loc : ι → Loc) :
    Alone i ⟨m, Function.update loc i .unlockKnock⟩
      ⟨{ m with owner := none, knocks := m.knocks + 1 }, Function.update loc i .idle⟩ :=
  alone_of_next (c := .knock) rfl nofun (.returned (by simp))

/-- From the reset of the counter on. -/
lemma alone_from_reset (i : ι) (m : MonitorTag ι) (loc : ι → Loc) :
    Alone i ⟨m, Function.update loc i .reset⟩
      ⟨{ m with cnt := 0, owner := none, knocks := m.knocks + 1 }, Function.update loc i .idle⟩ :=
  alone_of_next (c := .knock) rfl nofun (alone_from_unlock i _ loc)

lemma next_testWaits (hsw : m.somebodyWaits = 1) :
    next i .knock m .testWaits = some (m, .increment) := by simp [next, hsw]

lemma next_testWaits_of_ne (hsw : m.somebodyWaits ≠ 1) :
    next i .knock m .testWaits = some (m, .unlockKnock) := by simp [next, hsw]

lemma next_testCnt (hc : m.cnt = maxNum) : next i .knock m .testCnt = some (m, .signal) := by
  simp [next, hc]

lemma next_testCnt_of_ne (hc : m.cnt ≠ maxNum) :
    next i .knock m .testCnt = some (m, .unlockKnock) := by simp [next, hc]

lemma next_signal_of_empty (hcond : m.cond = ∅) :
    next i .knock m .signal = some (m, .reset) := by simp [next, hcond]

lemma next_signal {w : ι} (hw : w ∈ m.cond) :
    next i (.select w) m .signal = some ({ m with cond := m.cond.erase w }, .reset) := by
  simp [next, Finset.ne_empty_of_mem hw, hw]

/-- From the test of the flag on, if it is set. -/
lemma alone_from_testWaits (hsw : m.somebodyWaits = 1)
    (h : Alone i ⟨{ m with cnt := m.cnt + 1 }, Function.update loc i .testCnt⟩ s') :
    Alone i ⟨m, Function.update loc i .testWaits⟩ s' :=
  alone_of_next (next_testWaits hsw) nofun (alone_of_next (c := .knock) rfl nofun h)

/-- A thread begins a call. -/
lemma step_callKnock (hidle : loc i = .idle) : (machine ι).step ⟨m, loc⟩ (i, .knock) =
    some ⟨m, Function.update loc i .lockKnock⟩ :=
  Crew.step_iff.mpr ⟨_, _, by simp [crew, hidle, next], rfl⟩

/-- **A call can be made** by a thread that is between two calls when the mutex is free, and the
system can choose the thread that it selects. -/
theorem knock_of_knocked (hfree : s.shared.owner = none) (hidle : s.loc i = .idle)
    (h : Knocked s.shared m') : Knock s ⟨m', s.loc⟩ := by
  obtain ⟨⟨cnt, sw, owner, cond, knocks⟩, loc⟩ := s
  obtain rfl : owner = none := hfree
  have hidle' : loc i = .idle := hidle
  have hloc : Function.update loc i .idle = loc := by rw [← hidle', Function.update_eq_self]
  have hcall : (machine ι).step ⟨⟨cnt, sw, none, cond, knocks⟩, loc⟩ (i, .knock) =
      some ⟨⟨cnt, sw, none, cond, knocks⟩, Function.update loc i .lockKnock⟩ :=
    step_callKnock hidle'
  refine ⟨i, _, hidle, hcall, ?_⟩
  have hlock : next i .knock ⟨cnt, sw, none, cond, knocks⟩ .lockKnock =
      some (⟨cnt, sw, some i, cond, knocks⟩, .testWaits) := rfl
  refine alone_of_next hlock nofun ?_
  show Alone i _ ⟨m', loc⟩
  cases h with
  | unwaited hsw =>
    have hend := alone_from_unlock i ⟨cnt, sw, some i, cond, knocks⟩ loc
    rw [hloc] at hend
    exact alone_of_next (next_testWaits_of_ne hsw) nofun hend
  | counted hsw hc =>
    have hend := alone_from_unlock i ⟨cnt + 1, sw, some i, cond, knocks⟩ loc
    rw [hloc] at hend
    exact alone_from_testWaits hsw (alone_of_next (next_testCnt_of_ne hc) nofun hend)
  | nobody hsw hc hcond =>
    have hend := alone_from_reset i ⟨cnt + 1, sw, some i, cond, knocks⟩ loc
    rw [hloc] at hend
    exact alone_from_testWaits hsw (alone_of_next (next_testCnt hc) nofun
      (alone_of_next (next_signal_of_empty hcond) nofun hend))
  | selected w hsw hc hw =>
    have hend := alone_from_reset i ⟨cnt + 1, sw, some i, cond.erase w, knocks⟩ loc
    rw [hloc] at hend
    exact alone_from_testWaits hsw (alone_of_next (next_testCnt hc) nofun
      (alone_of_next (next_signal hw) nofun hend))

/-- Every monitor can be knocked at. -/
lemma exists_knocked (m : MonitorTag ι) : ∃ m', Knocked m m' := by
  by_cases hsw : m.somebodyWaits = 1
  · by_cases hc : m.cnt + 1 = maxNum
    · rcases m.cond.eq_empty_or_nonempty with hcond | ⟨w, hw⟩
      · exact ⟨_, .nobody hsw hc hcond⟩
      · exact ⟨_, .selected w hsw hc hw⟩
    · exact ⟨_, .counted hsw hc⟩
  · exact ⟨_, .unwaited hsw⟩

/-- A call is a run whose first step begins it. -/
theorem Knock.reachIf {ok : State ι → ι × Choice ι → Prop} {s₀ : State ι}
    (hok : ∀ s x, (s.loc x.1 = .idle → x.2 = .knock) → ok s x)
    (hs : ((machine ι).startAt s₀).ReachIf ok s) (h : Knock s s') :
    ((machine ι).startAt s₀).ReachIf ok s' := by
  obtain ⟨i, t, -, hcall, halone⟩ := h
  have ht := hs.step (hok s (i, .knock) fun _ => rfl) hcall
  clear hs hcall
  induction halone with
  | returned => exact ht
  | @step s t s' c hne hstep _ ih =>
    exact ih (ht.step (hok s (i, c) fun hidle => absurd hidle hne) hstep)

/-! ### Several calls -/

/-- **Any number of calls can be made** when the mutex is free and a thread is between two calls. -/
theorem exists_knocks (n : ℕ) (hfree : s.shared.owner = none) (hidle : s.loc i = .idle) :
    ∃ s', Knocks n s s' := by
  induction n generalizing s with
  | zero => exact ⟨s, .zero s⟩
  | succ n ih =>
    obtain ⟨m', hm'⟩ := exists_knocked s.shared
    have hknock := knock_of_knocked hfree hidle hm'
    have hfree' : m'.owner = none := by cases hm' <;> exact hfree
    obtain ⟨s', h⟩ := ih (s := ⟨m', s.loc⟩) hfree' hidle
    exact ⟨s', .succ hknock h⟩

/-- Calls put nobody to sleep. -/
lemma Knocks.subset {n : ℕ} (h : Knocks n s s') : s'.shared.cond ⊆ s.shared.cond := by
  induction h with
  | zero s => exact Finset.Subset.refl _
  | succ hknock _ ih =>
    obtain ⟨-, m', hm', rfl⟩ := hknock.effect
    refine ih.trans ?_
    cases hm' with
    | selected w => exact Finset.erase_subset _ _
    | _ => exact Finset.Subset.refl _

/-- **Calls are lost when `somebody_waits` is not set**: they select nobody. -/
theorem Knocks.cond_eq {n : ℕ} (h : Knocks n s s') (hsw : s.shared.somebodyWaits ≠ 1) :
    s'.shared.cond = s.shared.cond := by
  induction h with
  | zero s => rfl
  | succ hknock _ ih =>
    obtain ⟨-, m', hm', rfl⟩ := hknock.effect
    cases hm' with
    | unwaited => exact ih hsw
    | counted h | nobody h | selected w h => exact absurd h hsw

/-- **Enough calls select a blocked thread**, if `somebody_waits` is set. -/
theorem Knocks.select {n : ℕ} (h : Knocks n s s') (hsw : s.shared.somebodyWaits = 1)
    (hcond : s.shared.cond ≠ ∅) (hcnt : s.shared.cnt < maxNum)
    (hn : maxNum ≤ s.shared.cnt + n) : ∃ w ∈ s.shared.cond, w ∉ s'.shared.cond := by
  induction h with
  | zero s => omega
  | @succ n s t s' hknock ht ih =>
    obtain ⟨-, m', hm', rfl⟩ := hknock.effect
    cases hm' with
    | unwaited h => exact absurd hsw h
    | counted h hc =>
      exact ih hsw hcond (show s.shared.cnt + 1 < maxNum by omega)
        (show maxNum ≤ s.shared.cnt + 1 + n by omega)
    | nobody h hc hempty => exact absurd hempty hcond
    | selected w h hc hw =>
      exact ⟨w, hw, fun hmem => Finset.notMem_erase w _ (ht.subset hmem)⟩

end Monitor

end PosixIntro
