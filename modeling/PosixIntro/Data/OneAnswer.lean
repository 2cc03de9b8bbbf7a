import PosixIntro.Data.Model

set_option relaxedAutoImplicit false
set_option autoImplicit false

/-!
# When `get_total` gives one answer

The test of `is_cached` and its setting are two steps with the calculation in between, and
`calculate` adds to `total`. So two calls that both find the flag cleared add the sum twice.

## Main definitions

* `OneAnswer` — all values returned are the sum, and no call is blocked.
* `FirstAlone` — no call finds the flag cleared while another one is on the way to set it.
* `Phase`, `InPhase` — how far the object is on the way to its cached total.

## Main results

* `one_answer` — the runs with `FirstAlone` have one answer if the loops end, and the first step
  against `FirstAlone` leads to another one unless the sum is zero.
* `two_answers` — two overlapping calls on the object that the program makes.
-/

namespace PosixIntro

namespace Data

variable {ι : Type*} [DecidableEq ι] {a b c : UInt64}

/-- Every value that has been returned is the sum, and every thread can go on. -/
def OneAnswer (a b c : UInt64) (s : State ι) : Prop :=
  (∀ v ∈ s.shared.returned, v = sum a b c) ∧ ∀ i, (s.shared.next (s.loc i)).isSome

/-- When a call finds `is_cached` cleared, no other call is between its test and its setting. -/
def FirstAlone (s : State ι) (x : ι × Unit) : Prop :=
  s.loc x.1 = .test → s.shared.isCached = false → ∀ j, s.loc j ≠ .calculate ∧ s.loc j ≠ .set

/-! ### The phases of the object -/

/-- How far the object is: new, in the calculation of the thread `i`, calculated by it, cached. -/
inductive Phase (ι : Type*) where
  | fresh
  | calculating (i : ι)
  | setting (i : ι)
  | cached

/-- The thread has not found out whether there is a total. -/
def Loc.Outside (l : Loc) : Prop := l = .idle ∨ l = .test

/-- What a phase says of the object and the threads, when `t` is the sum. -/
def InPhase (t : UInt64) (d : Data) (loc : ι → Loc) : Phase ι → Prop
  | .fresh => d.isCached = false ∧ d.total = 0 ∧ ∀ j, (loc j).Outside
  | .calculating i =>
    d.isCached = false ∧ d.total = 0 ∧ loc i = .calculate ∧ ∀ j, j ≠ i → (loc j).Outside
  | .setting i => d.isCached = false ∧ d.total = t ∧ loc i = .set ∧ ∀ j, j ≠ i → (loc j).Outside
  | .cached => d.isCached = true ∧ d.total = t ∧ ∀ j, loc j ≠ .calculate ∧ loc j ≠ .set

/-- The invariant of the runs with `FirstAlone`. -/
structure Caching (a b c : UInt64) (s : State ι) : Prop where
  fields : s.shared.a = a ∧ s.shared.b = b ∧ s.shared.c = c
  phase : ∃ p, InPhase (sum a b c) s.shared s.loc p
  returned : ∀ v ∈ s.shared.returned, v = sum a b c

variable {t : UInt64} {d : Data} {loc : ι → Loc} {i j : ι} {s : State ι}

omit [DecidableEq ι] in
/-- A thread that has made its test is in the middle of the calculation, or there is a total. -/
lemma InPhase.of_not_outside {p : Phase ι} (h : InPhase t d loc p) (hi : ¬ (loc i).Outside) :
    p = .calculating i ∨ p = .setting i ∨ p = .cached := by
  cases p with
  | fresh => exact absurd (h.2.2 i) hi
  | calculating k =>
    obtain rfl : i = k := not_not.mp fun hne => hi (h.2.2.2 i hne)
    exact .inl rfl
  | setting k =>
    obtain rfl : i = k := not_not.mp fun hne => hi (h.2.2.2 i hne)
    exact .inr (.inl rfl)
  | cached => exact .inr (.inr rfl)

/-- A step of a thread that has not made its test yet. -/
lemma InPhase.outside {p : Phase ι} {l' : Loc} (h : InPhase t d loc p) (hi : (loc i).Outside)
    (hl' : l'.Outside) : InPhase t d (Function.update loc i l') p := by
  have hout : ∀ {j}, (loc j).Outside → (Function.update loc i l' j).Outside := by
    intro j hj
    by_cases hji : j = i
    · rw [hji, Function.update_self]
      exact hl'
    · rw [Function.update_of_ne hji]
      exact hj
  have hne : ∀ {k l}, ¬ l.Outside → loc k = l → Function.update loc i l' k = l := by
    intro k l hl hk
    have hki : k ≠ i := by
      rintro rfl
      exact hl (hk ▸ hi)
    rw [Function.update_of_ne hki, hk]
  cases p with
  | fresh => exact ⟨h.1, h.2.1, fun j => hout (h.2.2 j)⟩
  | calculating k =>
    exact ⟨h.1, h.2.1, hne (by simp [Loc.Outside]) h.2.2.1, fun j hj => hout (h.2.2.2 j hj)⟩
  | setting k =>
    exact ⟨h.1, h.2.1, hne (by simp [Loc.Outside]) h.2.2.1, fun j hj => hout (h.2.2.2 j hj)⟩
  | cached =>
    refine ⟨h.1, h.2.1, fun j => ?_⟩
    by_cases hji : j = i
    · rw [hji, Function.update_self]
      rcases hl' with rfl | rfl <;> exact ⟨nofun, nofun⟩
    · rw [Function.update_of_ne hji]
      exact h.2.2 j

/-- A step to the next program point of the thread that calculates. -/
lemma outside_update {l' : Loc} (h : ∀ j, j ≠ i → (loc j).Outside) :
    ∀ j, j ≠ i → (Function.update loc i l' j).Outside := by
  intro j hj
  rw [Function.update_of_ne hj]
  exact h j hj

/-- A step once there is a total. -/
lemma cached_update {l' : Loc} (h : ∀ j, loc j ≠ .calculate ∧ loc j ≠ .set)
    (hl' : l' ≠ .calculate ∧ l' ≠ .set) :
    ∀ j, Function.update loc i l' j ≠ .calculate ∧ Function.update loc i l' j ≠ .set := by
  intro j
  by_cases hji : j = i
  · rw [hji, Function.update_self]
    exact hl'
  · rw [Function.update_of_ne hji]
    exact h j

/-- Outside the calculation no thread is between its test and its setting. -/
lemma ne_of_outside {l : Loc} (h : l.Outside) : l ≠ .calculate ∧ l ≠ .set := by
  rcases h with rfl | rfl <;> exact ⟨nofun, nofun⟩

/-- The calculation. -/
lemma InPhase.calculate {p : Phase ι} {total : UInt64} (h : InPhase (sum d.a d.b d.c) d loc p)
    (hi : loc i = .calculate) (htotal : d.calculate = some total) :
    InPhase (sum d.a d.b d.c) { d with total := total } (Function.update loc i .set)
      (.setting i) := by
  rcases h.of_not_outside (i := i) (by simp [hi, Loc.Outside]) with rfl | rfl | rfl
  · have hend : LoopsEnd d.a d.b d.c := by
      by_contra hnot
      exact absurd ((calculate_eq_none hnot).symm.trans htotal) nofun
    rw [calculate_eq hend, h.2.1, UInt64.zero_add] at htotal
    obtain rfl := Option.some.inj htotal
    exact ⟨h.1, rfl, Function.update_self .., outside_update h.2.2.2⟩
  · exact absurd (hi.symm.trans h.2.2.1) nofun
  · exact absurd hi (h.2.2 i).1

/-- The setting of the flag. -/
lemma InPhase.set {p : Phase ι} (h : InPhase t d loc p) (hi : loc i = .set) :
    InPhase t { d with isCached := true } (Function.update loc i .read) .cached := by
  rcases h.of_not_outside (i := i) (by simp [hi, Loc.Outside]) with rfl | rfl | rfl
  · exact absurd (hi.symm.trans h.2.2.1) nofun
  · refine ⟨rfl, h.2.1, fun j => ?_⟩
    by_cases hji : j = i
    · rw [hji, Function.update_self]
      exact ⟨nofun, nofun⟩
    · exact ne_of_outside (outside_update h.2.2.2 j hji)
  · exact absurd hi (h.2.2 i).2

omit [DecidableEq ι] in
/-- A thread that is about to return the total finds it cached. -/
lemma InPhase.of_read {p : Phase ι} (h : InPhase t d loc p) (hi : loc i = .read) :
    p = .cached := by
  rcases h.of_not_outside (i := i) (by simp [hi, Loc.Outside]) with rfl | rfl | rfl
  · exact absurd (hi.symm.trans h.2.2.1) nofun
  · exact absurd (hi.symm.trans h.2.2.1) nofun
  · rfl

/-- One step keeps the invariant. -/
lemma Caching.step {d' : Data} {l' : Loc} (h : Caching a b c ⟨d, loc⟩)
    (hfirst : FirstAlone ⟨d, loc⟩ (i, ())) (hm : Move d (loc i) d' l') :
    Caching a b c ⟨d', Function.update loc i l'⟩ := by
  obtain ⟨⟨rfl, rfl, rfl⟩, ⟨p, hp⟩, hreturned⟩ := h
  have hp : InPhase (sum d.a d.b d.c) d loc p := hp
  generalize hl : loc i = l at hm
  cases hm with
  | call => exact ⟨⟨rfl, rfl, rfl⟩, ⟨p, hp.outside (.inl hl) (.inr rfl)⟩, hreturned⟩
  | hit hd =>
    cases p with
    | cached =>
      have hphase : InPhase (sum d.a d.b d.c) d (Function.update loc i .read) .cached :=
        ⟨hd, hp.2.1, cached_update hp.2.2 ⟨nofun, nofun⟩⟩
      exact ⟨⟨rfl, rfl, rfl⟩, ⟨_, hphase⟩, hreturned⟩
    | fresh | calculating k | setting k => exact absurd (hd.symm.trans hp.1) nofun
  | miss hd =>
    have halone := hfirst hl hd
    cases p with
    | fresh =>
      have hphase : InPhase (sum d.a d.b d.c) d (Function.update loc i .calculate)
          (.calculating i) :=
        ⟨hd, hp.2.1, Function.update_self .., outside_update fun j _ => hp.2.2 j⟩
      exact ⟨⟨rfl, rfl, rfl⟩, ⟨_, hphase⟩, hreturned⟩
    | calculating k => exact absurd hp.2.2.1 (halone k).1
    | setting k => exact absurd hp.2.2.1 (halone k).2
    | cached => exact absurd (hd.symm.trans hp.1) nofun
  | calculate total htotal => exact ⟨⟨rfl, rfl, rfl⟩, ⟨_, hp.calculate hl htotal⟩, hreturned⟩
  | set => exact ⟨⟨rfl, rfl, rfl⟩, ⟨_, hp.set hl⟩, hreturned⟩
  | read =>
    obtain rfl := hp.of_read hl
    have hphase : InPhase (sum d.a d.b d.c) { d with returned := d.returned ++ [d.total] }
        (Function.update loc i .idle) .cached :=
      ⟨hp.1, hp.2.1, cached_update hp.2.2 ⟨nofun, nofun⟩⟩
    refine ⟨⟨rfl, rfl, rfl⟩, ⟨_, hphase⟩, fun v hv => ?_⟩
    rcases List.mem_append.mp hv with hv | hv
    · exact hreturned v hv
    · exact (List.mem_singleton.mp hv).trans hp.2.1

/-- **The total is cached once** in the runs with `FirstAlone`. -/
theorem caching (h : (machine ι a b c).ReachIf FirstAlone s) : Caching a b c s := by
  refine h.invariant ?_ ?_
  · exact ⟨⟨rfl, rfl, rfl⟩, ⟨.fresh, rfl, rfl, fun _ => .inl rfl⟩, nofun⟩
  · rintro ⟨d, loc⟩ ⟨i, ⟨⟩⟩ s' _ hs hfirst hstep
    obtain ⟨d', l', hn, rfl⟩ := Crew.step_iff.mp hstep
    exact hs.step hfirst (next_eq_some.mp hn)

/-! ### Calls that do not end, and calls that overlap -/

/-- A thread is blocked only in a calculation that does not end. -/
lemma isSome_next {l : Loc} (h : LoopsEnd d.a d.b d.c) : (d.next l).isSome := by
  cases l with
  | calculate => simp [next, calculate_eq h]
  | _ => rfl

/-- A step of the thread `i`. -/
lemma reach_next {s₀ : State ι} {d' : Data} {l l' : Loc}
    (h : ((machine ι a b c).startAt s₀).Reach ⟨d, Function.update loc i l⟩) (hm : Move d l d' l') :
    ((machine ι a b c).startAt s₀).Reach ⟨d', Function.update loc i l'⟩ := by
  refine h.next (a := (i, ())) (Crew.step_iff.mpr ⟨d', l', ?_, by rw [Function.update_idem]⟩)
  show d.next (Function.update loc i l i) = some (d', l')
  rw [Function.update_self]
  exact next_eq_some.mpr hm

/-- A call that adds the sum once more returns something else. -/
lemma exists_wrong {s₀ : State ι} (hend : LoopsEnd d.a d.b d.c) (htotal : d.total = sum d.a d.b d.c)
    (hne : sum d.a d.b d.c ≠ 0) (hd : d.isCached = false) (hi : loc i = .test)
    (h : ((machine ι a b c).startAt s₀).Reach ⟨d, loc⟩) :
    ∃ s', ((machine ι a b c).startAt s₀).Reach s' ∧
      ∃ v ∈ s'.shared.returned, v ≠ sum d.a d.b d.c := by
  rw [← Function.update_eq_self i loc, hi] at h
  have hcalculate := calculate_eq hend
  have hset := reach_next (reach_next h (.miss hd)) (.calculate _ hcalculate)
  have hidle := reach_next (reach_next hset .set) .read
  refine ⟨_, hidle, d.total + sum d.a d.b d.c, List.mem_append_right _ List.mem_cons_self, ?_⟩
  rw [htotal]
  exact fun heq => hne (by grind)

/-- **The first overlap leads to a second answer**, if the sum is not zero. -/
theorem exists_not_oneAnswer {x : ι × Unit} (hend : LoopsEnd a b c) (hne : sum a b c ≠ 0)
    (h : (machine ι a b c).ReachIf FirstAlone s) (hfirst : ¬ FirstAlone s x) :
    ∃ s', ((machine ι a b c).startAt s).Reach s' ∧ ¬ OneAnswer a b c s' := by
  obtain ⟨⟨rfl, rfl, rfl⟩, ⟨p, hp⟩, -⟩ := caching h
  obtain ⟨d, loc⟩ := s
  obtain ⟨i, ⟨⟩⟩ := x
  simp only [FirstAlone, not_forall, not_and_or, not_not] at hfirst
  obtain ⟨hi, hd, j, hj⟩ := hfirst
  have hwrong : ∃ s', ((machine ι d.a d.b d.c).startAt ⟨d, loc⟩).Reach s' ∧
      ∃ v ∈ s'.shared.returned, v ≠ sum d.a d.b d.c := by
    have hp : InPhase (sum d.a d.b d.c) d loc p := hp
    rcases hp.of_not_outside (i := j) (by rcases hj with hj | hj <;> simp [hj, Loc.Outside]) with
      rfl | rfl | rfl
    · -- the other call adds the sum first
      have hij : i ≠ j := by
        rintro rfl
        exact absurd (hi.symm.trans hp.2.2.1) nofun
      have hstart : ((machine ι d.a d.b d.c).startAt ⟨d, loc⟩).Reach
          ⟨d, Function.update loc j .calculate⟩ := by
        rw [← hp.2.2.1, Function.update_eq_self]
        exact .init
      have hset := reach_next hstart (.calculate _ (calculate_eq hend))
      refine exists_wrong (d := { d with total := d.total + sum d.a d.b d.c }) (i := i) hend ?_ hne
        hd ?_ hset
      · show d.total + sum d.a d.b d.c = sum d.a d.b d.c
        rw [hp.2.1, UInt64.zero_add]
      · rw [Function.update_of_ne hij]
        exact hi
    · exact exists_wrong hend hp.2.1 hne hd hi .init
    · exact absurd (hd.symm.trans hp.1) nofun
  obtain ⟨s', hs', v, hv, hvne⟩ := hwrong
  exact ⟨s', hs', fun hone => hvne (hone.1 v hv)⟩

/-- A calculation that does not end blocks the first call. -/
lemma exists_blocked (hend : ¬ LoopsEnd a b c) (i : ι) :
    ∃ s : State ι, (machine ι a b c).ReachIf FirstAlone s ∧ ¬ OneAnswer a b c s := by
  have hcall : (machine ι a b c).ReachIf FirstAlone
      ⟨init a b c, Function.update (fun _ => .idle) i .test⟩ :=
    Machine.ReachIf.init.step (a := (i, ())) (fun hidle => absurd hidle nofun) rfl
  have halone : ∀ j, (Function.update (fun _ => Loc.idle) i .test j).Outside := by
    intro j
    by_cases hji : j = i
    · rw [hji, Function.update_self]
      exact .inr rfl
    · exact .inl (Function.update_of_ne hji _ _)
  have hstep : (machine ι a b c).step ⟨init a b c, Function.update (fun _ => .idle) i .test⟩
      (i, ()) = some ⟨init a b c, Function.update (fun _ => .idle) i .calculate⟩ := by
    refine Crew.step_iff.mpr ⟨init a b c, .calculate, ?_, by rw [Function.update_idem]⟩
    show (init a b c).next (Function.update (fun _ => Loc.idle) i .test i) = _
    rw [Function.update_self]
    rfl
  refine ⟨_, hcall.step (fun _ _ j => ne_of_outside (halone j)) hstep, fun hone => ?_⟩
  have hnext : ((init a b c).next (Function.update (fun _ => Loc.idle) i .calculate i)).isSome :=
    hone.2 i
  have hnone : (init a b c).calculate = none := calculate_eq_none hend
  rw [Function.update_self, next, hnone] at hnext
  cases hnext

/-- A sum that is zero can be added as often as one likes. -/
lemma oneAnswer_of_sum_eq_zero (hend : LoopsEnd a b c) (hzero : sum a b c = 0)
    (h : (machine ι a b c).Reach s) : OneAnswer a b c s := by
  have hinv : (s.shared.a = a ∧ s.shared.b = b ∧ s.shared.c = c) ∧ s.shared.total = 0 ∧
      ∀ v ∈ s.shared.returned, v = 0 := by
    refine h.invariant (I := fun s => (s.shared.a = a ∧ s.shared.b = b ∧ s.shared.c = c) ∧
      s.shared.total = 0 ∧ ∀ v ∈ s.shared.returned, v = 0) ⟨⟨rfl, rfl, rfl⟩, rfl, nofun⟩ ?_
    rintro ⟨d, loc⟩ ⟨i, ⟨⟩⟩ s' _ ⟨⟨rfl, rfl, rfl⟩, htotal, hreturned⟩ - hstep
    obtain ⟨d', l', hn, rfl⟩ := Crew.step_iff.mp hstep
    have hm : Move d (loc i) d' l' := next_eq_some.mp hn
    generalize loc i = l at hm
    have htotal : d.total = 0 := htotal
    cases hm with
    | calculate total hcalc =>
      rw [calculate_eq hend, htotal, hzero] at hcalc
      exact ⟨⟨rfl, rfl, rfl⟩, (Option.some.inj hcalc).symm, hreturned⟩
    | read =>
      refine ⟨⟨rfl, rfl, rfl⟩, htotal, fun v hv => ?_⟩
      rcases List.mem_append.mp hv with hv | hv
      · exact hreturned v hv
      · exact (List.mem_singleton.mp hv).trans htotal
    | call | hit | miss | set => exact ⟨⟨rfl, rfl, rfl⟩, htotal, hreturned⟩
  obtain ⟨⟨rfl, rfl, rfl⟩, -, hreturned⟩ := hinv
  exact ⟨fun v hv => (hreturned v hv).trans hzero.symm, fun i => isSome_next hend⟩

/-- **When `get_total` gives one answer.** If the loops of `calculate` end, it does in every state
reached by a run in which no call finds `is_cached` cleared while another one is on the way to set
it, and in every state at all if the sum is zero. If the sum is not zero, the first step of a run
against this leads to another answer. If a loop does not end, the first call never returns. -/
theorem one_answer (a b c : UInt64) :
    (LoopsEnd a b c → ∀ s : State ι, (machine ι a b c).ReachIf FirstAlone s → OneAnswer a b c s) ∧
      (LoopsEnd a b c → sum a b c = 0 → ∀ s : State ι, (machine ι a b c).Reach s →
        OneAnswer a b c s) ∧
      (LoopsEnd a b c → sum a b c ≠ 0 → ∀ (s : State ι) (x : ι × Unit),
        (machine ι a b c).ReachIf FirstAlone s → ¬ FirstAlone s x →
        ∃ s', ((machine ι a b c).startAt s).Reach s' ∧ ¬ OneAnswer a b c s') ∧
      (¬ LoopsEnd a b c → ι → ∃ s : State ι, (machine ι a b c).ReachIf FirstAlone s ∧
        ¬ OneAnswer a b c s) := by
  refine ⟨fun hend s h => ?_, fun hend hzero s h => oneAnswer_of_sum_eq_zero hend hzero h,
    fun hend hne s x h => exists_not_oneAnswer hend hne h, fun hend i => exists_blocked hend i⟩
  have hs := caching h
  refine ⟨hs.returned, fun i => isSome_next ?_⟩
  obtain ⟨rfl, rfl, rfl⟩ := hs.fields
  exact hend

instance [Fintype ι] (s : State ι) (x : ι × Unit) : Decidable (FirstAlone s x) :=
  inferInstanceAs (Decidable (_ → _ → ∀ _, _))

/-- Thread 0 has found `is_cached` cleared when thread 1 is about to test it. -/
def bothTest : List (Fin 2 × Unit) := [(0, ()), (0, ()), (1, ())]

/-- Two calls one after the other on a small object, two overlapping ones on the same object and on
one whose sum is zero, and a loop that does not end. -/
theorem one_answer_small :
    (∃ s, (machine (Fin 2) 2 2 2).ReachIf FirstAlone s ∧ s.shared.returned.length = 2 ∧
      OneAnswer 2 2 2 s) ∧
    (∃ s, (machine (Fin 2) 0 2 2).Reach s ∧ s.shared.returned.length = 2 ∧ OneAnswer 0 2 2 s) ∧
    (∃ s, (machine (Fin 2) 2 2 2).Reach s ∧ ¬ OneAnswer 2 2 2 s) ∧
    ∃ s, (machine (Fin 2) 1 1 sizeMax).ReachIf FirstAlone s ∧ ¬ OneAnswer 1 1 sizeMax s := by
  have hcalls : ∃ s, (machine (Fin 2) 2 2 2).execIf FirstAlone (machine (Fin 2) 2 2 2).init
      (List.replicate 5 (0, ()) ++ List.replicate 3 (1, ())) = some s ∧
      s.shared.returned.length = 2 := ⟨_, rfl, rfl⟩
  have hoverlap : ∃ s, (machine (Fin 2) 0 2 2).exec (machine (Fin 2) 0 2 2).init
      (bothTest ++ List.replicate 4 (1, ()) ++ List.replicate 3 (0, ())) = some s ∧
      s.shared.returned.length = 2 := ⟨_, rfl, rfl⟩
  have hboth : ∃ s, (machine (Fin 2) 2 2 2).execIf FirstAlone (machine (Fin 2) 2 2 2).init
      bothTest = some s ∧ ¬ FirstAlone s (1, ()) := ⟨_, rfl, by decide⟩
  obtain ⟨s, hexec, hlen⟩ := hcalls
  obtain ⟨t, hexec', hlen'⟩ := hoverlap
  obtain ⟨u, hexec'', hfirst⟩ := hboth
  have hs := Machine.ReachIf.of_execIf .init hexec
  have hu := Machine.ReachIf.of_execIf .init hexec''
  have ht := Machine.reach_of_exec hexec'
  obtain ⟨halone, -, hagainst, -⟩ := one_answer (ι := Fin 2) 2 2 2
  obtain ⟨-, hzero, -, -⟩ := one_answer (ι := Fin 2) 0 2 2
  obtain ⟨-, -, -, hblocked⟩ := one_answer (ι := Fin 2) 1 1 sizeMax
  obtain ⟨u', hu', hnot⟩ :=
    hagainst (by decide) (by decide +kernel) u (1, ()) hu hfirst
  exact ⟨⟨s, hs, hlen, halone (by decide) s hs⟩,
    ⟨t, ht, hlen', hzero (by decide) (by decide +kernel) t ht⟩,
    ⟨u', hu.reach.trans hu', hnot⟩, hblocked (by decide) 0⟩

/-- The object that the program makes then has two answers. -/
theorem two_answers : ¬ ∀ s : State (Fin 2), (machine (Fin 2) 10 10 10).Reach s →
    OneAnswer 10 10 10 s := by
  intro hall
  have hrun : ∃ s, (machine (Fin 2) 10 10 10).execIf FirstAlone (machine (Fin 2) 10 10 10).init
      bothTest = some s ∧ ¬ FirstAlone s (1, ()) := ⟨_, rfl, by decide⟩
  obtain ⟨s, hexec, hfirst⟩ := hrun
  have hs := Machine.ReachIf.of_execIf .init hexec
  have hsum : sum 10 10 10 = 166375 := by decide +kernel
  obtain ⟨s', hs', hnot⟩ := exists_not_oneAnswer (by decide) (by rw [hsum]; decide) hs hfirst
  exact hnot (hall s' (hs.reach.trans hs'))

end Data

end PosixIntro
