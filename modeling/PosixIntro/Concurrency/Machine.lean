import Mathlib.Data.List.Basic
import Mathlib.Tactic.Common

set_option relaxedAutoImplicit false
set_option autoImplicit false

/-!
# Labelled machines, their runs and their invariants

A concurrent program is read as a machine: one initial state and a partial step function whose
label resolves every choice that is not the program's own (which thread moves, what a system
call returns, when a signal arrives). A schedule is a list of labels, so `exec` replays it.

## Main definitions

* `Machine`, `Machine.exec`, `Machine.execIf` — a machine and the replay of a schedule, without
  and with a condition on its steps.
* `Machine.ReachIf ok`, `Machine.Reach` — the states reached by runs all of whose steps satisfy
  `ok`, and by all runs.
* `Machine.Path` — a run together with its history of states and labels.

## Main results

* `Machine.ReachIf.invariant` — the invariant rule: a property that holds initially and is kept
  by every admitted step holds in every state reached.
* `Machine.Path.invariant`, `Machine.Path.reachIf` — the same over histories: a history all of
  whose steps satisfy `ok` is an admitted run.
* `Machine.exists_reach_of_measure` — a run can be continued into a goal when every other state
  has a step that decreases a measure.
* `Machine.Path.length_add_le`, `Machine.Path.countP_add_le` — a measure that every step, or every
  counted step, decreases bounds the length of runs, or the number of counted steps;
  `Machine.ReachIf.length_le`, `Machine.ReachIf.countP_le` start from a reached state.
-/

namespace PosixIntro

/-- A labelled machine: an initial state and a partial step function. `none` means that the
label is not possible in the state (a blocked thread, a call that cannot return). -/
structure Machine (σ α : Type*) where
  /-- The initial state. -/
  init : σ
  /-- The step that a label resolves, if there is one. -/
  step : σ → α → Option σ

namespace Machine

variable {σ α : Type*} (M : Machine σ α)

/-- The replay of a schedule from a state; `none` when some label is not possible. -/
def exec : σ → List α → Option σ
  | s, [] => some s
  | s, a :: as => (M.step s a).bind fun s' => exec s' as

/-- The replay of a schedule all of whose steps must satisfy `ok`. -/
def execIf (ok : σ → α → Prop) [∀ s a, Decidable (ok s a)] : σ → List α → Option σ
  | s, [] => some s
  | s, a :: as => if ok s a then (M.step s a).bind fun s' => execIf ok s' as else none

/-- The same machine, started in `s`. -/
def startAt (s : σ) : Machine σ α := { M with init := s }

/-- The states reached by runs all of whose steps satisfy `ok`, a condition on the state before
the step and on the label. -/
inductive ReachIf (ok : σ → α → Prop) : σ → Prop
  | init : ReachIf ok M.init
  | step {s s' : σ} {a : α} : ReachIf ok s → ok s a → M.step s a = some s' → ReachIf ok s'

/-- The reachable states. -/
abbrev Reach : σ → Prop := M.ReachIf fun _ _ => True

/-- A run with its history: the state before each step and the step's label, in order. -/
inductive Path : List (σ × α) → σ → Prop
  | nil : Path [] M.init
  | snoc {tr : List (σ × α)} {s s' : σ} {a : α} :
      Path tr s → M.step s a = some s' → Path (tr ++ [(s, a)]) s'

variable {M}

/-! ### Reachability -/

/-- One more step of a reachable state. -/
lemma Reach.next {s s' : σ} {a : α} (h : M.Reach s) (hs : M.step s a = some s') : M.Reach s' :=
  ReachIf.step h trivial hs

/-- **The invariant rule.** A property that holds initially and that every admitted step from a
reached state keeps holds in every state reached. -/
theorem ReachIf.invariant {ok : σ → α → Prop} {I : σ → Prop} (h₀ : I M.init)
    (hstep : ∀ s a s', M.ReachIf ok s → I s → ok s a → M.step s a = some s' → I s')
    {s : σ} (h : M.ReachIf ok s) : I s := by
  induction h with
  | init => exact h₀
  | step hr hok hs ih => exact hstep _ _ _ hr ih hok hs

/-- A weaker condition on the steps admits more runs. -/
lemma ReachIf.mono {ok ok' : σ → α → Prop} (h : ∀ s a, ok s a → ok' s a) {s : σ}
    (hr : M.ReachIf ok s) : M.ReachIf ok' s := by
  induction hr with
  | init => exact .init
  | step _ hok hs ih => exact .step ih (h _ _ hok) hs

/-- Every admitted run is a run. -/
lemma ReachIf.reach {ok : σ → α → Prop} {s : σ} (hr : M.ReachIf ok s) : M.Reach s :=
  hr.mono fun _ _ _ => trivial

/-- Admitted runs compose. -/
lemma ReachIf.trans {ok : σ → α → Prop} {s s' : σ} (h : M.ReachIf ok s)
    (h' : (M.startAt s).ReachIf ok s') : M.ReachIf ok s' := by
  induction h' with
  | init => exact h
  | step _ hok hs ih => exact .step ih hok hs

/-- Runs compose. -/
lemma Reach.trans {s s' : σ} (h : M.Reach s) (h' : (M.startAt s).Reach s') : M.Reach s' :=
  ReachIf.trans h h'

/-- A schedule whose labels are all admitted is replayed into states that are reached by
admitted runs. -/
lemma ReachIf.exec {ok : σ → α → Prop} {s s' : σ} (hr : M.ReachIf ok s) :
    ∀ as : List α, (∀ a ∈ as, ∀ s, ok s a) → M.exec s as = some s' → M.ReachIf ok s' := by
  intro as
  induction as generalizing s with
  | nil =>
    intro _ h
    obtain rfl : s = s' := by simpa [Machine.exec] using h
    exact hr
  | cons a as ih =>
    intro hok h
    obtain ⟨t, hst, hts⟩ := Option.bind_eq_some_iff.mp h
    exact ih (hr.step (hok a (by simp) s) hst) (fun b hb => hok b (by simp [hb])) hts

/-- A replay that checks `ok` at every step is an admitted run. -/
lemma ReachIf.of_execIf {ok : σ → α → Prop} [∀ s a, Decidable (ok s a)] {s s' : σ} {as : List α}
    (hr : M.ReachIf ok s) (h : M.execIf ok s as = some s') : M.ReachIf ok s' := by
  induction as generalizing s with
  | nil =>
    obtain rfl : s = s' := by simpa [Machine.execIf] using h
    exact hr
  | cons a as ih =>
    obtain ⟨hok, h⟩ := Option.ite_none_right_eq_some.mp h
    obtain ⟨t, hst, hts⟩ := Option.bind_eq_some_iff.mp h
    exact ih (hr.step hok hst) hts

/-- A replayed schedule reaches its final state. -/
lemma reach_of_exec {as : List α} {s : σ} (h : M.exec M.init as = some s) : M.Reach s :=
  ReachIf.exec .init as (fun _ _ _ => trivial) h

/-! ### Histories -/

/-- The last state of a history is reachable. -/
lemma Path.reach {tr : List (σ × α)} {s : σ} (h : M.Path tr s) : M.Reach s := by
  induction h with
  | nil => exact .init
  | snoc _ hs ih => exact ih.next hs

/-- A history all of whose steps satisfy `ok` is an admitted run. -/
lemma Path.reachIf {ok : σ → α → Prop} {tr : List (σ × α)} {s : σ} (h : M.Path tr s)
    (hok : ∀ x ∈ tr, ok x.1 x.2) : M.ReachIf ok s := by
  induction h with
  | nil => exact .init
  | @snoc tr s s' a _ hs ih =>
    exact .step (ih fun x hx => hok x (by simp [hx])) (hok (s, a) (by simp)) hs

/-- Every step of a history is a step of the machine, taken from a state that is reached by the
history before it. -/
lemma Path.mem_step {ok : σ → α → Prop} {tr : List (σ × α)} {s : σ} (h : M.Path tr s)
    (hok : ∀ x ∈ tr, ok x.1 x.2) :
    ∀ x ∈ tr, M.ReachIf ok x.1 ∧ ∃ s', M.step x.1 x.2 = some s' := by
  induction h with
  | nil => simp
  | @snoc tr s s' a hp hs ih =>
    have hok' : ∀ x ∈ tr, ok x.1 x.2 := fun x hx => hok x (by simp [hx])
    intro x hx
    rcases List.mem_append.mp hx with hx | hx
    · exact ih hok' x hx
    · obtain rfl : x = (s, a) := by simpa using hx
      exact ⟨hp.reachIf hok', s', hs⟩

/-- Every step of a history is a step from a reachable state. -/
lemma Path.mem_reach {tr : List (σ × α)} {s : σ} (h : M.Path tr s) :
    ∀ x ∈ tr, M.Reach x.1 ∧ ∃ s', M.step x.1 x.2 = some s' :=
  h.mem_step fun _ _ => trivial

/-- A replayed schedule continues a history by the steps that it names. -/
lemma Path.exec {tr : List (σ × α)} {s s' : σ} (h : M.Path tr s) {as : List α}
    (hexec : M.exec s as = some s') : ∃ tr', M.Path (tr ++ tr') s' ∧ tr'.map Prod.snd = as := by
  induction as generalizing tr s with
  | nil =>
    obtain rfl : s = s' := by simpa [Machine.exec] using hexec
    exact ⟨[], by rwa [List.append_nil], rfl⟩
  | cons a as ih =>
    obtain ⟨t, hst, hts⟩ := Option.bind_eq_some_iff.mp hexec
    obtain ⟨tr', hp, has⟩ := ih (h.snoc hst) hts
    exact ⟨(s, a) :: tr', by simpa using hp, by rw [List.map_cons, has]⟩

/-- A replayed schedule is a run. -/
lemma exists_path_of_exec {as : List α} {s : σ} (h : M.exec M.init as = some s) :
    ∃ tr, M.Path tr s ∧ tr.map Prod.snd = as :=
  Path.nil.exec h

/-- So is a replay that checks `ok` at every step, and all its steps satisfy `ok`. -/
lemma exists_path_of_execIf {ok : σ → α → Prop} [∀ s a, Decidable (ok s a)] {as : List α} {s : σ}
    (h : M.execIf ok M.init as = some s) :
    ∃ tr, M.Path tr s ∧ tr.map Prod.snd = as ∧ ∀ x ∈ tr, ok x.1 x.2 := by
  suffices hgoal : ∀ tr t, M.Path tr t → (∀ x ∈ tr, ok x.1 x.2) → M.execIf ok t as = some s →
      ∃ tr', M.Path tr' s ∧ tr'.map Prod.snd = tr.map Prod.snd ++ as ∧ ∀ x ∈ tr', ok x.1 x.2 from
    hgoal [] M.init .nil (by simp) h
  clear h
  induction as with
  | nil =>
    intro tr t hp hok hexec
    obtain rfl : t = s := by simpa [Machine.execIf] using hexec
    exact ⟨tr, hp, by simp, hok⟩
  | cons a as ih =>
    intro tr t hp hok hexec
    obtain ⟨ha, hexec⟩ := Option.ite_none_right_eq_some.mp hexec
    obtain ⟨t', hst, hts⟩ := Option.bind_eq_some_iff.mp hexec
    have hok' : ∀ x ∈ tr ++ [(t, a)], ok x.1 x.2 :=
      List.forall_mem_append.mpr ⟨hok, List.forall_mem_singleton.mpr ha⟩
    obtain ⟨tr', hp', has, hall⟩ := ih _ t' (hp.snoc hst) hok' hts
    exact ⟨tr', hp', by simpa using has, hall⟩

/-- Every admitted run has a history all of whose steps satisfy `ok`. -/
lemma ReachIf.exists_path {ok : σ → α → Prop} {s : σ} (h : M.ReachIf ok s) :
    ∃ tr, M.Path tr s ∧ ∀ x ∈ tr, ok x.1 x.2 := by
  induction h with
  | init => exact ⟨[], .nil, by simp⟩
  | @step s s' a _ hok hs ih =>
    obtain ⟨tr, hp, htr⟩ := ih
    refine ⟨tr ++ [(s, a)], hp.snoc hs, fun x hx => ?_⟩
    rcases List.mem_append.mp hx with hx | hx
    · exact htr x hx
    · obtain rfl : x = (s, a) := by simpa using hx
      exact hok

/-- The invariant rule over histories. -/
theorem Path.invariant {I : List (σ × α) → σ → Prop} (h₀ : I [] M.init)
    (hstep : ∀ tr s a s', M.Path tr s → I tr s → M.step s a = some s' → I (tr ++ [(s, a)]) s')
    {tr : List (σ × α)} {s : σ} (h : M.Path tr s) : I tr s := by
  induction h with
  | nil => exact h₀
  | snoc hp hs ih => exact hstep _ _ _ _ hp ih hs

/-- **The counting rule.** A measure that no admitted step of a reached state raises and that every
counted one decreases bounds the number of counted steps of every admitted run. -/
theorem Path.countP_add_le {ok : σ → α → Prop} (p : σ × α → Bool) (μ : σ → ℕ)
    (h : ∀ s a s', M.ReachIf ok s → ok s a → M.step s a = some s' →
      μ s' + (if p (s, a) then 1 else 0) ≤ μ s)
    {tr : List (σ × α)} {s : σ} (hp : M.Path tr s) (hok : ∀ x ∈ tr, ok x.1 x.2) :
    tr.countP p + μ s ≤ μ M.init := by
  induction hp with
  | nil => simp
  | @snoc tr s s' a hp hs ih =>
    have hok' : ∀ x ∈ tr, ok x.1 x.2 := fun x hx => hok x (by simp [hx])
    have hlt := h s a s' (hp.reachIf hok') (hok (s, a) (by simp)) hs
    have hle := ih hok'
    rw [List.countP_append, List.countP_singleton]
    omega

/-- **The termination rule.** A measure that every admitted step of a reached state decreases
bounds the length of every admitted run. -/
theorem Path.length_add_le {ok : σ → α → Prop} (μ : σ → ℕ)
    (h : ∀ s a s', M.ReachIf ok s → ok s a → M.step s a = some s' → μ s' < μ s)
    {tr : List (σ × α)} {s : σ} (hp : M.Path tr s) (hok : ∀ x ∈ tr, ok x.1 x.2) :
    tr.length + μ s ≤ μ M.init := by
  have hle := hp.countP_add_le (fun _ => true) μ h hok
  rwa [List.countP_true] at hle

/-- The counting rule from a reached state, with a property that the steps keep. -/
theorem ReachIf.countP_le {ok : σ → α → Prop} {s : σ} (hr : M.ReachIf ok s) {I : σ → Prop}
    (hI : I s) (p : σ × α → Bool) (μ : σ → ℕ)
    (h : ∀ t a t', M.ReachIf ok t → I t → ok t a → M.step t a = some t' →
      I t' ∧ μ t' + (if p (t, a) then 1 else 0) ≤ μ t)
    {tr : List (σ × α)} {t : σ} (hp : (M.startAt s).Path tr t) (hok : ∀ x ∈ tr, ok x.1 x.2) :
    tr.countP p ≤ μ s := by
  have hinv : ∀ t, (M.startAt s).ReachIf ok t → I t := by
    intro t ht
    exact ht.invariant (I := I) hI fun t a t' ht ih hok hs => (h t a t' (hr.trans ht) ih hok hs).1
  have hle := hp.countP_add_le p μ
    (fun t a t' ht hok hs => (h t a t' (hr.trans ht) (hinv t ht) hok hs).2) hok
  exact Nat.le_of_add_right_le hle

/-- The termination rule from a reached state, with a property that the steps keep. -/
theorem ReachIf.length_le {ok : σ → α → Prop} {s : σ} (hr : M.ReachIf ok s) {I : σ → Prop}
    (hI : I s) (μ : σ → ℕ)
    (h : ∀ t a t', M.ReachIf ok t → I t → ok t a → M.step t a = some t' → I t' ∧ μ t' < μ t)
    {tr : List (σ × α)} {t : σ} (hp : (M.startAt s).Path tr t) (hok : ∀ x ∈ tr, ok x.1 x.2) :
    tr.length ≤ μ s := by
  have hle := hr.countP_le hI (fun _ => true) μ h hp hok
  rwa [List.countP_true] at hle

/-! ### Reaching a goal -/

/-- If every state with `I` that misses the goal has a step that keeps `I` and decreases `μ`,
then a run leads from every state with `I` into the goal. -/
theorem exists_reach_of_measure {I goal : σ → Prop} (μ : σ → ℕ)
    (h : ∀ s, I s → ¬ goal s → ∃ a s', M.step s a = some s' ∧ I s' ∧ μ s' < μ s) {s : σ}
    (hs : I s) : ∃ s', (M.startAt s).Reach s' ∧ I s' ∧ goal s' := by
  induction hm : μ s using Nat.strongRecOn generalizing s with
  | ind m ih =>
    by_cases hg : goal s
    · exact ⟨s, .init, hs, hg⟩
    · obtain ⟨a, t, hst, ht, hlt⟩ := h s hs hg
      obtain ⟨s', hr, hI, hgoal⟩ := ih (μ t) (hm ▸ hlt) ht rfl
      exact ⟨s', Reach.trans (M := M.startAt s) (Reach.next .init hst) hr, hI, hgoal⟩

end Machine

end PosixIntro
