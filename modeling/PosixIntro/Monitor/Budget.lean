import Mathlib.Data.List.Perm.Subperm
import PosixIntro.Monitor.FullRound
import PosixIntro.Monitor.Stranded

set_option relaxedAutoImplicit false
set_option autoImplicit false

/-!
# What the returns of `monitor_wait` cost

A single call of `monitor_wait` can return after fewer than `MAX_NUM` knocks. But all calls together
cannot, whatever the threads do: a knock pays for one return only.

## Main definitions

* `selections`, `returns` — the threads that have been selected, and those that have returned from
  `monitor_wait`, in a history.
* `Paid`, `unused` — the account of the knocks, and that of a thread.

## Main results

* `returns_paid` — a thread returns once for each time it has been selected at most, and `MAX_NUM`
  knocks have been executed for each return.

## Design

The number of threads is arbitrary, and each may call both functions.
-/

namespace PosixIntro

namespace Monitor

variable {ι : Type*} [DecidableEq ι]

/-- The thread that a step at `l` selects. -/
def selected (m : MonitorTag ι) (c : Choice ι) (l : Loc) : Option ι :=
  match l, c with
  | .signal, .select w => if w ∈ m.cond then some w else none
  | _, _ => none

/-- The thread `i`, if its step at `l` returns from `monitor_wait`. -/
def returned (i : ι) : Loc → Option ι
  | .unlockWait _ => some i
  | _ => none

/-- The threads that have been selected, in order. -/
def selections (tr : List (State ι × (ι × Choice ι))) : List ι :=
  tr.filterMap fun x => selected x.1.shared x.2.2 (x.1.loc x.2.1)

/-- The threads that have returned from `monitor_wait`, in order. -/
def returns (tr : List (State ι × (ι × Choice ι))) : List ι :=
  tr.filterMap fun x => returned x.2.1 (x.1.loc x.2.1)

/-- The account of the knocks after `n` selections. Those in `cnt` have not been used yet, except
between a signal and the reset. -/
structure Paid (n : ℕ) (s : State ι) : Prop where
  reset : ∀ j, s.loc j = .reset → maxNum * n ≤ s.shared.knocks + pending s
  other : (∀ j, s.loc j ≠ .reset) → maxNum * n + s.shared.cnt ≤ s.shared.knocks + pending s

/-- How many selections a thread has not used by returning. -/
def unused (j : ι) (m : MonitorTag ι) : Loc → ℕ
  | .waiting _ => if j ∈ m.cond then 0 else 1
  | .clearWaits _ | .unlockWait _ => 1
  | _ => 0

variable {i j w : ι} {c : Choice ι} {m m' : MonitorTag ι} {l l' : Loc} {n k : ℕ}
  {loc : ι → Loc} {tr : List (State ι × (ι × Choice ι))} {s : State ι}

/-! ### The account of the knocks -/

/-- A signal that nobody waits for selects nobody. -/
lemma selected_of_empty (h : m.cond = ∅) : selected m c l = none := by
  unfold selected
  split
  · rw [if_neg (by simp [h])]
  · rfl

/-- A signal that selects `w`. -/
lemma selected_of_mem (h : w ∈ m.cond) : selected m (.select w) .signal = some w := if_pos h

omit [DecidableEq ι] in
/-- A thread at its reset keeps the others out. -/
lemma not_inside_of_reset (hg : ∀ j, Guarded j m (loc j)) (hj : loc j = .reset) (hji : j ≠ i) :
    ¬ (loc i).Inside := by
  intro hin
  have hown : m.owner = some j := (hg j).inside.mp (by rw [hj]; trivial)
  exact hji (Option.some.inj (hown.symm.trans ((hg i).inside.mp hin)))

/-- A step that is no call is taken when no other thread is at its reset. -/
lemma Move.no_reset (h : Move i c m (loc i) m' l') (hg : ∀ j, Guarded j m (loc j))
    (hidle : loc i ≠ .idle) (hji : j ≠ i) : loc j ≠ .reset := by
  intro hj
  have hout := not_inside_of_reset hg hj hji
  have hown : m.owner = some j := (hg j).inside.mp (by rw [hj]; trivial)
  generalize loc i = l at h hout hidle
  cases h with
  | callWait | callKnock => exact hidle rfl
  | lockWait hm | lockKnock hm | wake k hsel hm => exact absurd (hm.symm.trans hown) nofun
  | _ => exact hout trivial

/-- What a step that is no call does to the account. -/
lemma Move.pays (h : Move i c m l m' l') (hi : Guarded i m l) (hidle : l ≠ .idle)
    (hreset : l = .reset → maxNum * n ≤ m.knocks + l.pending)
    (hother : l ≠ .reset → maxNum * n + m.cnt ≤ m.knocks + l.pending) :
    (l' = .reset → maxNum * (n + (selected m c l).toList.length) ≤ m'.knocks + l'.pending) ∧
      (l' ≠ .reset →
        maxNum * (n + (selected m c l).toList.length) + m'.cnt ≤ m'.knocks + l'.pending) := by
  cases h with
  | callWait | callKnock => exact absurd rfl hidle
  | reset =>
    have hpaid := hreset rfl
    exact ⟨nofun, fun _ => hpaid⟩
  | signalNobody hempty =>
    have hpaid := hother nofun
    rw [selected_of_empty hempty]
    exact ⟨fun _ => Nat.le_of_add_right_le hpaid, fun hne => absurd rfl hne⟩
  | signal w hc hw =>
    subst hc
    have hpaid := hother nofun
    have hcnt : m.cnt = maxNum := hi.cnt trivial
    rw [selected_of_mem hw]
    refine ⟨fun _ => ?_, fun hne => absurd rfl hne⟩
    rw [hcnt] at hpaid
    exact hpaid
  | increment =>
    have hpaid := hother nofun
    exact ⟨nofun, fun _ => Nat.succ_le_succ hpaid⟩
  | unwaited =>
    have hpaid := hother nofun
    exact ⟨nofun, fun _ => Nat.le_succ_of_le hpaid⟩
  | _ =>
    have hpaid := hother nofun
    exact ⟨nofun, fun _ => hpaid⟩

/-- One step keeps the account of the knocks. -/
lemma Paid.step (h : Paid n ⟨m, loc⟩) (hg : ∀ j, Guarded j m (loc j))
    (hmove : Move i c m (loc i) m' l') :
    Paid (n + (selected m c (loc i)).toList.length) ⟨m', Function.update loc i l'⟩ := by
  rcases pending_move (hg i) hmove with ⟨hidle, rfl, hp⟩ | ⟨hidle, hp, hp'⟩
  · have hne : l' ≠ .reset := by
      rw [hidle] at hmove
      cases hmove <;> exact nofun
    have hiff : ∀ j, Function.update loc i l' j = .reset ↔ loc j = .reset := by
      intro j
      by_cases hji : j = i
      · subst hji
        simp [hne, hidle]
      · rw [Function.update_of_ne hji]
    have hsel : selected m' c (loc i) = none := by
      rw [hidle]
      rfl
    rw [hsel]
    refine ⟨fun j hj => ?_, fun hall => ?_⟩
    · rw [hp]
      exact h.reset j ((hiff j).mp hj)
    · rw [hp]
      exact h.other fun j hj => hall j ((hiff j).mpr hj)
  · have hnone : ∀ j, j ≠ i → loc j ≠ .reset := fun j hji => hmove.no_reset hg hidle hji
    obtain ⟨hreset, hother⟩ := hmove.pays (n := n) (hg i) hidle
      (fun hr => hp ▸ h.reset i hr)
      (fun hr => hp ▸ h.other fun j hj => by
        by_cases hji : j = i
        · exact hr (hji ▸ hj)
        · exact hnone j hji hj)
    have hself : Function.update loc i l' i = l' := Function.update_self ..
    refine ⟨fun j hj => ?_, fun hall => ?_⟩
    · rw [hp']
      by_cases hji : j = i
      · subst hji
        exact hreset (hself.symm.trans hj)
      · exact absurd ((Function.update_of_ne hji ..).symm.trans hj) (hnone j hji)
    · rw [hp']
      exact hother fun hl' => hall i (hself.trans hl')

/-! ### The account of a thread -/

/-- A step of the thread itself. -/
lemma Move.account (h : Move i c m l m' l') (hblocked : i ∈ m.cond → ∃ k, l = .waiting k)
    (haccount : n = k + unused i m l) :
    n + (selected m c l).toList.count i =
      k + (returned i l).toList.count i + unused i m' l' := by
  cases h with
  | condWait k' => simpa [selected, returned, unused] using haccount
  | wake k' hsel hm => simpa [selected, returned, unused, hsel] using haccount
  | unlockWait k' => simpa [selected, returned, unused] using haccount
  | signalNobody hempty =>
    rw [selected_of_empty hempty]
    exact haccount
  | signal w hc hw =>
    subst hc
    have hne : w ≠ i := by
      rintro rfl
      obtain ⟨_, hl⟩ := hblocked hw
      cases hl
    rw [selected_of_mem hw]
    simpa [hne, returned, unused] using haccount
  | _ => exact haccount

/-- A step of another thread. -/
lemma Move.account_other {lj : Loc} (h : Move i c m l m' l') (hji : j ≠ i)
    (hblocked : j ∈ m.cond → ∃ k, lj = .waiting k) (haccount : n = k + unused j m lj) :
    n + (selected m c l).toList.count j =
      k + (returned i l).toList.count j + unused j m' lj := by
  have hret : (returned i l).toList.count j = 0 := by
    cases l <;> simp [returned, hji.symm]
  rw [hret]
  cases h with
  | condWait k' =>
    refine haccount.trans ?_
    cases lj <;> simp [unused, hji]
  | signalNobody hempty =>
    rw [selected_of_empty hempty]
    exact haccount
  | signal w hc hw =>
    subst hc
    rw [selected_of_mem hw]
    by_cases hjw : w = j
    · subst hjw
      obtain ⟨k', rfl⟩ := hblocked hw
      simpa [unused, hw] using haccount
    · have hsame : unused j { m with cond := m.cond.erase w } lj = unused j m lj := by
        cases lj <;> simp [unused, Ne.symm hjw]
      rw [hsame]
      simpa [hjw] using haccount
  | _ => exact haccount

/-! ### All accounts together -/

/-- The accounts after a history. -/
structure Accounts (tr : List (State ι × (ι × Choice ι))) (s : State ι) : Prop where
  paid : Paid (selections tr).length s
  served : ∀ j, (selections tr).count j = (returns tr).count j + unused j s.shared (s.loc j)
  enough : maxNum * (returns tr).length ≤ s.shared.knocks

lemma selections_snoc (x : State ι × (ι × Choice ι)) : selections (tr ++ [x]) =
    selections tr ++ (selected x.1.shared x.2.2 (x.1.loc x.2.1)).toList := by
  rw [selections, List.filterMap_append]
  cases h : selected x.1.shared x.2.2 (x.1.loc x.2.1) <;> simp [selections, h]

omit [DecidableEq ι] in
lemma returns_snoc (x : State ι × (ι × Choice ι)) : returns (tr ++ [x]) =
    returns tr ++ (returned x.2.1 (x.1.loc x.2.1)).toList := by
  rw [returns, List.filterMap_append]
  cases h : returned x.2.1 (x.1.loc x.2.1) <;> simp [returns, h]

/-- A step never takes a knock back. -/
lemma Move.knocks_le (h : Move i c m l m' l') : m.knocks ≤ m'.knocks := by
  cases h with
  | unlockKnock => exact Nat.le_succ _
  | _ => exact Nat.le_refl _

/-- **A thread that is about to return** has been selected for it, and its selection is paid. -/
lemma Accounts.about_to_return (h : Accounts tr ⟨m, loc⟩) (hg : ∀ j, Guarded j m (loc j))
    (hi : loc i = .unlockWait k) : maxNum * ((returns tr).length + 1) ≤ m.knocks := by
  have hown : m.owner = some i := (hg i).inside.mp (by rw [hi]; trivial)
  have hpend : pending (⟨m, loc⟩ : State ι) = 0 := by
    simp only [pending, hown, hi, Loc.pending]
  have hnone : ∀ j, loc j ≠ .reset := by
    intro j hj
    have hji : j ≠ i := by
      rintro rfl
      have heq := hi.symm.trans hj
      cases heq
    exact not_inside_of_reset hg hj hji (by rw [hi]; trivial)
  have hpaid := h.paid.other hnone
  rw [hpend] at hpaid
  -- one more return of `i` is still within the selections
  have hsub : (i :: returns tr).Subperm (selections tr) := by
    refine List.subperm_ext_iff.mpr fun j _ => ?_
    have hserved := h.served j
    by_cases hji : j = i
    · subst hji
      rw [show (⟨m, loc⟩ : State ι).loc j = .unlockWait k from hi] at hserved
      simpa [unused] using hserved.ge
    · rw [List.count_cons_of_ne (Ne.symm hji)]
      omega
  have hlen : (returns tr).length + 1 ≤ (selections tr).length := hsub.length_le
  calc maxNum * ((returns tr).length + 1) ≤ maxNum * (selections tr).length :=
        Nat.mul_le_mul_left _ hlen
    _ ≤ m.knocks := Nat.le_of_add_right_le hpaid

/-- One step keeps the accounts. -/
lemma Accounts.step (h : Accounts tr ⟨m, loc⟩) (hg : ∀ j, Guarded j m (loc j))
    (hblocked : ∀ j, j ∈ m.cond → ∃ k, loc j = .waiting k)
    (hmove : Move i c m (loc i) m' l') :
    Accounts (tr ++ [(⟨m, loc⟩, (i, c))]) ⟨m', Function.update loc i l'⟩ := by
  refine ⟨?_, fun j => ?_, ?_⟩
  · rw [selections_snoc, List.length_append]
    exact h.paid.step hg hmove
  · rw [selections_snoc, returns_snoc, List.count_append, List.count_append]
    by_cases hji : j = i
    · subst hji
      have hserved := hmove.account (hblocked j) (h.served j)
      simpa using hserved
    · have hserved := hmove.account_other hji (hblocked j) (h.served j)
      simpa [Function.update_of_ne hji] using hserved
  · rw [returns_snoc, List.length_append]
    refine le_trans ?_ hmove.knocks_le
    by_cases hret : ∃ k, loc i = .unlockWait k
    · obtain ⟨k, hk⟩ := hret
      rw [show returned i (loc i) = some i by rw [hk]; rfl]
      exact h.about_to_return hg hk
    · have hnone : returned i (loc i) = none := by
        cases hl : loc i with
        | unlockWait k => exact absurd ⟨k, hl⟩ hret
        | _ => rfl
      rw [hnone]
      exact h.enough

/-- **Every return is paid.** In every history of any number of threads, each of which calls both
functions as often as it likes, a thread has returned from `monitor_wait` at most as often as it has
been selected, and there were `MAX_NUM` calls of `monitor_knock` for each return.

**Proof sketch.** The knocks are counted twice: those that selections have used and those left in
`cnt`, and for each thread the selections that it has not used yet. -/
theorem returns_paid (h : (machine ι).Path tr s) :
    (∀ i, (returns tr).count i ≤ (selections tr).count i) ∧
      maxNum * (returns tr).length ≤ s.shared.knocks := by
  have hacc : Accounts tr s := by
    refine h.invariant (I := Accounts) ?_ ?_
    · exact ⟨⟨nofun, fun _ => Nat.le_refl _⟩, fun j => rfl, Nat.le_refl _⟩
    · rintro tr s ⟨i, c⟩ s' hp ih hs
      obtain ⟨m', l', hmove, rfl⟩ := move_of_step hs
      exact ih.step (guarded hp.reach) (fun j hj => (blocked_of_mem hp.reach hj).1) hmove
  exact ⟨fun i => hacc.served i ▸ Nat.le_add_right _ _, hacc.enough⟩

/-- The thread `false` waits, `true` knocks ten times, and `false` returns. -/
def oneReturn : List (Bool × Choice Bool) :=
  List.replicate 4 (false, .wait) ++ List.replicate 59 (true, .knock) ++
    List.replicate 3 (true, .select false) ++ List.replicate 3 (false, .wait)

/-- A history in which a wait has begun and returned. -/
theorem returns_paid_one : ∃ (tr : List (State Bool × (Bool × Choice Bool))) (s : State Bool),
    (s.loc false = .idle ∧ s.shared.knocks = maxNum ∧ s.shared.cond = ∅) ∧
      (∀ i, (returns tr).count i ≤ (selections tr).count i) ∧
        maxNum * (returns tr).length ≤ s.shared.knocks := by
  have hrun : ∃ s, (machine Bool).exec (machine Bool).init oneReturn = some s ∧
      s.loc false = .idle ∧ s.shared.knocks = maxNum ∧ s.shared.cond = ∅ := ⟨_, rfl, rfl, rfl, rfl⟩
  obtain ⟨s, hexec, hs⟩ := hrun
  obtain ⟨tr, hp, -⟩ := (Machine.reach_of_exec hexec).exists_path
  exact ⟨tr, s, hs, returns_paid hp⟩

end Monitor

end PosixIntro
