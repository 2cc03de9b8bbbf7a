import PosixIntro.Monitor.Knocks

set_option relaxedAutoImplicit false
set_option autoImplicit false

/-!
# When the monitor opens only after a full round of knocks

The flag stays set from the signal until the waiter has woken up, so knocks that arrive in between
are counted for the next call of `monitor_wait`.

## Main definitions

* `FullRound` — a call of `monitor_wait` that returns has been knocked for `MAX_NUM` times.
* `OneWaiter`, `StartsFresh` — only one thread waits, and it begins to wait when `cnt` is zero.

## Main results

* `opens_after_full_round` — `FullRound` holds in the runs in which waits start fresh, and a wait
  that does not start fresh can return early.
* `opens_early` — a run in which it does.
-/

namespace PosixIntro

namespace Monitor

variable {ι : Type*} [DecidableEq ι]

/-- When `monitor_wait` is about to return, at least `MAX_NUM` calls of `monitor_knock` have been
executed since it began to wait. -/
def FullRound (s : State ι) : Prop :=
  ∀ i k, s.loc i = .unlockWait k → k + maxNum ≤ s.shared.knocks

/-- Only the thread `w` calls `monitor_wait`. -/
def OneWaiter (w : ι) (s : State ι) (x : ι × Choice ι) : Prop :=
  s.loc x.1 = .idle → x.2 = .wait → x.1 = w

/-- `monitor_wait` sets the flag when no knock is left in `cnt`. -/
def StartsFresh (s : State ι) (x : ι × Choice ι) : Prop :=
  s.loc x.1 = .setWaits → s.shared.cnt = 0

/-- The runs of one waiter whose waits start fresh. -/
def Fresh (w : ι) (s : State ι) (x : ι × Choice ι) : Prop := OneWaiter w s x ∧ StartsFresh s x

instance (w : ι) (s : State ι) (x : ι × Choice ι) : Decidable (OneWaiter w s x) :=
  inferInstanceAs (Decidable (_ → _ → _))

instance (w : ι) (s : State ι) (x : ι × Choice ι) : Decidable (Fresh w s x) :=
  inferInstanceAs (Decidable (OneWaiter w s x ∧ (_ → _)))

/-! ### The account of the knocks -/

/-- The thread is in a call of `monitor_knock` that has been counted. -/
def Loc.pending : Loc → ℕ
  | .testCnt | .signal | .reset | .unlockKnock => 1
  | _ => 0

/-- The program points of `monitor_wait`. -/
def Loc.InWait : Loc → Prop
  | .lockWait | .setWaits | .condWait _ | .waiting _ | .clearWaits _ | .unlockWait _ => True
  | _ => False

/-- The call that is executed inside the mutex, if it has been counted. -/
def pending (s : State ι) : ℕ :=
  match s.shared.owner with
  | some j => (s.loc j).pending
  | none => 0

/-- What holds for the waiter `w` at its program points, when `p` calls are pending. While it is
blocked the knocks since it began are those in `cnt`; once it is selected there were enough. -/
def WaiterOk (w : ι) (m : MonitorTag ι) (p : ℕ) : Loc → Prop
  | .condWait k => m.somebodyWaits = 1 ∧ m.cnt = 0 ∧ k = m.knocks
  | .waiting k => m.somebodyWaits = 1 ∧ (w ∈ m.cond → m.knocks + p = k + m.cnt) ∧
      (w ∉ m.cond → k + maxNum ≤ m.knocks + p)
  | .clearWaits k | .unlockWait k => k + maxNum ≤ m.knocks
  | _ => True

/-- The invariant of the runs of one waiter. -/
structure Account (w : ι) (s : State ι) : Prop where
  inWait : ∀ j, (s.loc j).InWait → j = w
  cond : ∀ j ∈ s.shared.cond, j = w
  reset : ∀ j, s.loc j = .reset → s.shared.cond = ∅
  waiter : WaiterOk w s.shared (pending s) (s.loc w)

variable {w i : ι} {c : Choice ι} {m m' : MonitorTag ι} {l l' lw : Loc} {p p' : ℕ}

/-- The pending calls before and after a step: a thread that begins a call changes nothing, all
other steps are steps of the thread that is inside the mutex before or after them. -/
lemma pending_move {loc : ι → Loc} (hi : Guarded i m (loc i))
    (hmove : Move i c m (loc i) m' l') :
    (loc i = .idle ∧ m' = m ∧ pending ⟨m', Function.update loc i l'⟩ = pending ⟨m, loc⟩) ∨
      (loc i ≠ .idle ∧ pending ⟨m, loc⟩ = (loc i).pending ∧
        pending ⟨m', Function.update loc i l'⟩ = l'.pending) := by
  have hin := hi.inside
  generalize hl : loc i = l at hmove hin
  have hself : ∀ m : MonitorTag ι, m.owner = some i → pending ⟨m, loc⟩ = l.pending := by
    intro m hm
    simp only [pending, hm, hl]
  have hself' : ∀ m : MonitorTag ι, m.owner = some i →
      pending ⟨m, Function.update loc i l'⟩ = l'.pending := by
    intro m hm
    simp only [pending, hm, Function.update_self]
  have hnone : ∀ (m : MonitorTag ι) loc, m.owner = none → pending ⟨m, loc⟩ = 0 := by
    intro m loc hm
    simp only [pending, hm]
  cases hmove with
  | callWait | callKnock =>
    refine .inl ⟨rfl, rfl, ?_⟩
    rcases howner : m.owner with _ | j
    · rw [hnone m _ howner, hnone m _ howner]
    · have hji : j ≠ i := fun h => (hin.mpr (h ▸ howner)).elim
      simp only [pending, howner, Function.update_of_ne hji]
  | lockWait hm | lockKnock hm | wake k hsel hm => exact .inr ⟨nofun, hnone m _ hm, hself' _ rfl⟩
  | condWait | unlockWait | unlockKnock =>
    exact .inr ⟨nofun, hself m (hin.mp trivial), hnone _ _ rfl⟩
  | _ => exact .inr ⟨nofun, hself m (hin.mp trivial), hself' _ (hin.mp trivial)⟩

/-- A step of another thread keeps what holds for the waiter. -/
lemma WaiterOk.other (h : WaiterOk w m l.pending lw) (hiw : i ≠ w) (hi : Guarded i m l)
    (hw : Guarded w m lw) (hcond : ∀ j ∈ m.cond, j = w) (hreset : l = .reset → m.cond = ∅)
    (hwait : ¬ l.InWait) (hidle : l ≠ .idle) (hmove : Move i c m l m' l') :
    WaiterOk w m' l'.pending lw := by
  -- a waiter inside the mutex keeps the other threads from moving
  have hout : ¬ lw.Inside := by
    intro hin
    have howner := hw.inside.mp hin
    by_cases hl : l.Inside
    · exact hiw (Option.some.inj ((hi.inside.mp hl).symm.trans howner))
    · cases hmove with
      | callWait | callKnock => exact hidle rfl
      | lockWait | wake => exact hwait trivial
      | lockKnock hm => exact absurd (hm.symm.trans howner) nofun
      | _ => exact hl trivial
  cases lw with
  | condWait | clearWaits | unlockWait => exact (hout trivial).elim
  | waiting k =>
    obtain ⟨hsw, hblocked, hselected⟩ := h
    cases hmove with
    | callWait | callKnock => exact absurd rfl hidle
    | lockWait | setWaits | condWait | wake | clearWaits | unlockWait => exact (hwait trivial).elim
    | lockKnock | waited | full | more | signalNobody => exact ⟨hsw, hblocked, hselected⟩
    | unwaited hne => exact absurd hsw hne
    | increment =>
      refine ⟨hsw, fun hmem => ?_, fun hnot => ?_⟩
      · have hsum : m.knocks = k + m.cnt := hblocked hmem
        show m.knocks + 1 = k + (m.cnt + 1)
        omega
      · exact Nat.le_succ_of_le (hselected hnot)
    | signal w' _ hw' =>
      obtain rfl := hcond w' hw'
      refine ⟨hsw, fun hmem => absurd hmem (Finset.notMem_erase _ _), fun _ => ?_⟩
      have hfull : m.cnt = maxNum := hi.cnt trivial
      rw [← hfull]
      exact (hblocked hw').ge
    | reset =>
      refine ⟨hsw, fun hmem => ?_, hselected⟩
      have hempty := hreset rfl
      exact absurd (hempty ▸ hmem) (Finset.notMem_empty _)
    | unlockKnock => exact ⟨hsw, hblocked, hselected⟩
  | _ => trivial

/-- So does a step of the waiter. -/
lemma WaiterOk.own (h : WaiterOk w m l.pending l) (hfresh : l = .setWaits → m.cnt = 0)
    (hmove : Move w c m l m' l') : WaiterOk w m' l'.pending l' := by
  cases hmove with
  | setWaits => exact ⟨rfl, hfresh rfl, rfl⟩
  | condWait k =>
    obtain ⟨hsw, hcnt, rfl⟩ := h
    exact ⟨hsw, fun _ => congrArg (m.knocks + ·) hcnt.symm,
      fun hnot => absurd (Finset.mem_insert_self w m.cond) hnot⟩
  | wake k hsel => exact h.2.2 hsel
  | clearWaits k => exact h
  | _ => trivial

/-- A thread comes into `monitor_wait` by calling it. -/
lemma Move.inWait (h : Move i c m l m' l') (hl' : l'.InWait) :
    l.InWait ∨ (l = .idle ∧ c = .wait) := by
  cases h with
  | callWait hc => exact .inr ⟨rfl, hc⟩
  | lockWait | setWaits | condWait | wake | clearWaits => exact .inl trivial
  | _ => exact hl'.elim

/-- Only a thread in `monitor_wait` blocks. -/
lemma Move.mem_cond (h : Move i c m l m' l') {j : ι} (hj : j ∈ m'.cond) :
    j ∈ m.cond ∨ (j = i ∧ l.InWait) := by
  cases h with
  | condWait k => exact (Finset.mem_insert.mp hj).symm.imp_right fun hji => ⟨hji, trivial⟩
  | signal w' => exact .inl (Finset.mem_of_mem_erase hj)
  | _ => exact .inl hj

/-- Outside the mutex nobody blocks and nobody is selected. -/
lemma Move.cond_eq (h : Move i c m l m' l') (hl : ¬ l.Inside) : m'.cond = m.cond := by
  cases h with
  | condWait | signal => exact (hl trivial).elim
  | _ => rfl

/-- The only waiter is not blocked after a signal. -/
lemma Move.cond_of_reset (h : Move i c m l m' .reset) (hcond : ∀ j ∈ m.cond, j = w) :
    m'.cond = ∅ := by
  cases h with
  | signalNobody hempty => exact hempty
  | signal w' _ hw' =>
    obtain rfl := hcond w' hw'
    refine Finset.eq_empty_of_forall_notMem fun j hj => ?_
    exact Finset.ne_of_mem_erase hj (hcond j (Finset.mem_of_mem_erase hj))

/-- One step keeps the invariant. -/
lemma Account.step {loc : ι → Loc} (h : Account w ⟨m, loc⟩) (hg : ∀ j, Guarded j m (loc j))
    (hone : loc i = .idle → c = .wait → i = w) (hfresh : loc i = .setWaits → m.cnt = 0)
    (hmove : Move i c m (loc i) m' l') : Account w ⟨m', Function.update loc i l'⟩ := by
  have hinWait : ∀ j, (loc j).InWait → j = w := h.inWait
  have hcond : ∀ j ∈ m.cond, j = w := h.cond
  have hreset : ∀ j, loc j = .reset → m.cond = ∅ := h.reset
  have hwaiter : WaiterOk w m (pending ⟨m, loc⟩) (loc w) := h.waiter
  refine ⟨fun j hj => ?_, fun j hj => ?_, fun j hj => ?_, ?_⟩
  · by_cases hji : j = i
    · subst hji
      have hl' : l'.InWait := by simpa using hj
      exact (hmove.inWait hl').elim (hinWait j) fun hcall => hone hcall.1 hcall.2
    · exact hinWait j (by simpa [Function.update_of_ne hji] using hj)
  · rcases hmove.mem_cond hj with hmem | ⟨rfl, hwait⟩
    · exact hcond j hmem
    · exact hinWait j hwait
  · by_cases hji : j = i
    · subst hji
      obtain rfl : l' = .reset := by simpa using hj
      exact hmove.cond_of_reset hcond
    · have hj' : loc j = .reset := by simpa [Function.update_of_ne hji] using hj
      -- the thread at its reset is inside, so the one that moves is not
      have hout : ¬ (loc i).Inside := fun hin => by
        have hjn : (loc j).Inside := by rw [hj']; trivial
        exact hji (Option.some.inj (((hg j).inside.mp hjn).symm.trans ((hg i).inside.mp hin)))
      exact (hmove.cond_eq hout).trans (hreset j hj')
  · show WaiterOk w m' (pending ⟨m', Function.update loc i l'⟩) (Function.update loc i l' w)
    by_cases hiw : w = i
    · subst hiw
      rw [Function.update_self]
      rcases pending_move (hg w) hmove with ⟨hidle, rfl, -⟩ | ⟨-, hp, hp'⟩
      · rw [hidle] at hmove
        cases hmove <;> trivial
      · rw [hp] at hwaiter
        rw [hp']
        exact hwaiter.own hfresh hmove
    · rw [Function.update_of_ne hiw]
      rcases pending_move (hg i) hmove with ⟨-, rfl, hp⟩ | ⟨hidle, hp, hp'⟩
      · rw [hp]
        exact hwaiter
      · rw [hp] at hwaiter
        rw [hp']
        exact hwaiter.other (Ne.symm hiw) (hg i) (hg w) hcond (hreset i)
          (fun hwait => hiw (hinWait i hwait).symm) hidle hmove

/-- **The account of the knocks** holds in the runs of one waiter whose waits start fresh. -/
theorem account {s : State ι} (h : (machine ι).ReachIf (Fresh w) s) : Account w s := by
  refine h.invariant ⟨nofun, fun j hj => absurd hj (Finset.notMem_empty j), nofun, trivial⟩ ?_
  rintro s ⟨i, c⟩ s' hr hacc ⟨hone, hfresh⟩ hs
  obtain ⟨m', l', hmove, rfl⟩ := move_of_step hs
  exact hacc.step (guarded hr) hone hfresh hmove

/-! ### A wait that does not start fresh -/

omit [DecidableEq ι] in
/-- Calls of `monitor_knock` are runs of one waiter. -/
lemma oneWaiter_of_knock (s : State ι) (x : ι × Choice ι)
    (h : s.loc x.1 = .idle → x.2 = .knock) : OneWaiter w s x :=
  fun hidle hwait => absurd ((h hidle).symm.trans hwait) nofun

/-- A step of the waiter in the middle of its call. -/
lemma reachIf_own {s₀ : State ι} {loc : ι → Loc}
    (h : ((machine ι).startAt s₀).ReachIf (OneWaiter w) ⟨m, Function.update loc w l⟩)
    (hn : next w .wait m l = some (m', l')) :
    ((machine ι).startAt s₀).ReachIf (OneWaiter w) ⟨m', Function.update loc w l'⟩ := by
  refine h.step (a := (w, .wait)) (fun _ _ => rfl) (Crew.step_iff.mpr ⟨m', l', ?_, ?_⟩)
  · simpa [crew] using hn
  · simp

/-- As many knocks as `cnt` lacks select the blocked thread `w`. -/
lemma exists_select {s₀ s : State ι} {d : ℕ} (hfree : s.shared.owner = none)
    (hidle : s.loc i = .idle) (hsw : s.shared.somebodyWaits = 1) (hmem : w ∈ s.shared.cond)
    (hd : s.shared.cnt + d + 1 = maxNum)
    (hs : ((machine ι).startAt s₀).ReachIf (OneWaiter w) s) :
    ∃ m', ((machine ι).startAt s₀).ReachIf (OneWaiter w) ⟨m', s.loc⟩ ∧ m'.owner = none ∧
      w ∉ m'.cond ∧ m'.knocks = s.shared.knocks + d + 1 := by
  -- the induction is on the knocks that only count
  induction d generalizing s with
  | zero =>
    have hknock := knock_of_knocked hfree hidle (.selected w hsw hd hmem)
    exact ⟨_, hknock.reachIf oneWaiter_of_knock hs, hfree, Finset.notMem_erase _ _, rfl⟩
  | succ d ih =>
    have hknock := knock_of_knocked hfree hidle (.counted hsw (by omega))
    have hd' : s.shared.cnt + 1 + d + 1 = maxNum := by omega
    obtain ⟨m', hm', hfree', hnot, hknocks⟩ := ih (s := ⟨⟨s.shared.cnt + 1, s.shared.somebodyWaits,
      s.shared.owner, s.shared.cond, s.shared.knocks + 1⟩, s.loc⟩) hfree hidle hsw hmem hd'
      (hknock.reachIf oneWaiter_of_knock hs)
    refine ⟨m', hm', hfree', hnot, hknocks.trans ?_⟩
    show s.shared.knocks + 1 + d + 1 = s.shared.knocks + (d + 1) + 1
    omega

/-- **A wait that does not start fresh can return early**, if there is a thread that can knock. -/
theorem exists_early {s : State ι} (h : (machine ι).ReachIf (OneWaiter w) s)
    (hset : s.loc w = .setWaits) (hcnt : 0 < s.shared.cnt) (hidle : s.loc i = .idle) :
    ∃ s', ((machine ι).startAt s).ReachIf (OneWaiter w) s' ∧
      s'.loc w = .unlockWait s.shared.knocks ∧ s'.shared.knocks < s.shared.knocks + maxNum := by
  obtain ⟨m, loc⟩ := s
  have hset' : loc w = .setWaits := hset
  have hlt : m.cnt < maxNum := by
    have hg : Guarded w m (loc w) := guarded h w
    rw [hset'] at hg
    exact hg.cnt trivial
  have hiw : i ≠ w := by
    rintro rfl
    exact absurd (hset.symm.trans hidle) nofun
  have hstart : ((machine ι).startAt ⟨m, loc⟩).ReachIf (OneWaiter w)
      ⟨m, Function.update loc w .setWaits⟩ := by
    rw [← hset', Function.update_eq_self]
    exact .init
  have hwaiting := reachIf_own (reachIf_own hstart rfl)
    (rfl : next w .wait _ (.condWait m.knocks) = some _)
  have hi : Function.update loc w (.waiting m.knocks) i = .idle :=
    (Function.update_of_ne hiw _ _).trans hidle
  obtain ⟨m', hm', hfree, hnot, hknocks⟩ := exists_select (d := maxNum - m.cnt - 1) rfl
    hi rfl (Finset.mem_insert_self w m.cond)
    (show m.cnt + (maxNum - m.cnt - 1) + 1 = maxNum by omega) hwaiting
  have hwake : next w .wait m' (.waiting m.knocks) =
      some ({ m' with owner := some w }, .clearWaits m.knocks) := if_pos ⟨hnot, hfree⟩
  have hend := reachIf_own (reachIf_own hm' hwake)
    (rfl : next w .wait _ (.clearWaits m.knocks) = some _)
  refine ⟨_, hend, Function.update_self _ _ _, ?_⟩
  show m'.knocks < m.knocks + maxNum
  have hknocks' : m'.knocks = m.knocks + (maxNum - m.cnt - 1) + 1 := hknocks
  have hcnt' : 0 < m.cnt := hcnt
  omega

/-- **When the monitor opens only after a full round.** In the runs of one waiter in which every
wait starts with no knock left in `cnt`, `monitor_wait` returns only after `MAX_NUM` calls of
`monitor_knock`; and a wait that finds a knock left in `cnt` can return earlier, as soon as some
thread can knock. -/
theorem opens_after_full_round :
    (∀ (w : ι) (s : State ι), (machine ι).ReachIf (Fresh w) s → FullRound s) ∧
      ∀ (w : ι) (s : State ι), (machine ι).ReachIf (OneWaiter w) s → s.loc w = .setWaits →
        0 < s.shared.cnt → (∃ i, s.loc i = .idle) →
        ∃ s', ((machine ι).startAt s).ReachIf (OneWaiter w) s' ∧ ¬ FullRound s' := by
  refine ⟨fun w s h i k hi => ?_, fun w s h hset hcnt hidle => ?_⟩
  · have hacc := account h
    obtain rfl : i = w := hacc.inWait i (by rw [hi]; trivial)
    have hwaiter := hacc.waiter
    rw [hi] at hwaiter
    exact hwaiter
  · obtain ⟨i, hi⟩ := hidle
    obtain ⟨s', hs', hloc, hknocks⟩ := exists_early h hset hcnt hi
    exact ⟨s', hs', fun hall => (hall w _ hloc).not_gt hknocks⟩

/-- The thread `false` waits, and `true` knocks `MAX_NUM` times and once more before `false` wakes
up. Then `false` waits again, and 9 more knocks wake it. -/
def extraKnock : List (Bool × Choice Bool) :=
  List.replicate 4 (false, .wait) ++ List.replicate 59 (true, .knock) ++
    List.replicate 3 (true, .select false) ++ List.replicate 6 (true, .knock) ++
    List.replicate 7 (false, .wait) ++ List.replicate 53 (true, .knock) ++
    List.replicate 3 (true, .select false) ++ List.replicate 2 (false, .wait)

/-- The first wait returns after a full round, and the second one, which finds a knock in `cnt`, can
return earlier. -/
theorem opens_after_full_round_bool :
    (∃ s : State Bool, (machine Bool).ReachIf (Fresh false) s ∧ s.loc false = .unlockWait 0 ∧
      FullRound s) ∧
    ∃ s : State Bool, (machine Bool).ReachIf (OneWaiter false) s ∧ ¬ FullRound s := by
  constructor
  · have hrun : ((machine Bool).execIf (Fresh false) (machine Bool).init
        (List.replicate 4 (false, .wait) ++ List.replicate 59 (true, .knock) ++
          List.replicate 3 (true, .select false) ++ List.replicate 2 (false, .wait))).any
        (fun s => s.loc false = .unlockWait 0) := by decide +kernel
    obtain ⟨s, hexec, hloc⟩ := (Option.any_eq_true _ _).mp hrun
    have hs := Machine.ReachIf.of_execIf .init hexec
    exact ⟨s, hs, of_decide_eq_true hloc, opens_after_full_round.1 false s hs⟩
  · have hrun : ((machine Bool).execIf (OneWaiter false) (machine Bool).init
        (List.replicate 4 (false, .wait) ++ List.replicate 59 (true, .knock) ++
          List.replicate 3 (true, .select false) ++ List.replicate 6 (true, .knock) ++
          List.replicate 5 (false, .wait))).any
        (fun s => s.loc false = .setWaits ∧ 0 < s.shared.cnt ∧ s.loc true = .idle) := by
      decide +kernel
    obtain ⟨s, hexec, hp⟩ := (Option.any_eq_true _ _).mp hrun
    obtain ⟨hset, hcnt, hidle⟩ := of_decide_eq_true hp
    have hs := Machine.ReachIf.of_execIf .init hexec
    obtain ⟨s', hs', hnot⟩ := opens_after_full_round.2 false s hs hset hcnt ⟨true, hidle⟩
    exact ⟨s', hs.trans hs', hnot⟩

/-- The second wait then returns after 9 knocks. -/
theorem opens_early :
    ¬ ∀ s : State Bool, (machine Bool).ReachIf (OneWaiter false) s → FullRound s := by
  intro hall
  have hrun : ∃ s, (machine Bool).exec (machine Bool).init extraKnock = some s ∧
      s.loc false = .unlockWait 11 ∧ s.shared.knocks = 20 := by
    -- the schedule has 197 steps
    set_option maxRecDepth 4000 in exact ⟨_, rfl, rfl, rfl⟩
  obtain ⟨s, hexec, hloc, hknocks⟩ := hrun
  have hreach : (machine Bool).ReachIf (OneWaiter false) s := by
    refine Machine.ReachIf.exec .init extraKnock (fun x hx s _ hwait => ?_) hexec
    simp only [extraKnock, List.mem_append, List.mem_replicate] at hx
    rcases hx with ((((((⟨_, rfl⟩ | ⟨_, rfl⟩) | ⟨_, rfl⟩) | ⟨_, rfl⟩) | ⟨_, rfl⟩) | ⟨_, rfl⟩) |
      ⟨_, rfl⟩) | ⟨_, rfl⟩ <;> first | rfl | cases hwait
  have hfull := hall s hreach false 11 hloc
  rw [hknocks] at hfull
  exact absurd hfull (by decide)

end Monitor

end PosixIntro
