import PosixIntro.Concurrency.ForkJoin

set_option relaxedAutoImplicit false
set_option autoImplicit false

/-!
# Fork and join: the end of a run

The threads of `Concurrency.ForkJoin` cannot block each other for ever: a section has no wait in
it, and the root thread joins only threads that it has created. Nor can they go on for ever, since
every statement that is executed is gone.

## Main definitions

* `ForkJoin.Forked` — the root thread creates every other thread, and only it creates and joins,
  every thread after its creation.
* `ForkJoin.size` — the statements that a thread has still to execute.

## Main results

* `ForkJoin.spawned_first`, `ForkJoin.joined_before` — what the creation and the join of a thread say
  about the order of the actions.
* `ForkJoin.count_statements` — the statements executed and those to be executed are the same
  number in every state of a run.
* `ForkJoin.no_deadlock` — while some thread has not returned, some thread can go on.
* `ForkJoin.run_ends` — every run ends, and only with the return of all threads.
* `ForkJoin.exists_end` — every run can be continued to the return of all threads.
-/

namespace PosixIntro

namespace ForkJoin

variable {ι A D : Type*} [DecidableEq ι] {F : ForkJoin ι A D}

/-- The parts that a thread has not begun. -/
def rest : Spot ι A → List (Part ι A)
  | .fresh rest => rest
  | .out rest => rest
  | .inside _ rest => rest
  | .gone => []

/-- The root thread creates every other thread, and only the root thread creates and joins, every
thread after its creation. -/
structure Forked (F : ForkJoin ι A D) : Prop where
  leaf : ∀ i, i ≠ F.root → ∀ p ∈ F.script i, (∃ a, p = .free a) ∨ ∃ body, p = .guarded body
  spawns : ∀ j, j ≠ F.root → .spawn j ∈ F.script F.root
  joins : ∀ pre j post, F.script F.root = pre ++ .join j :: post → j ≠ F.root ∧ .spawn j ∈ pre

omit [DecidableEq ι] in
/-- A root thread that first creates all threads and then joins some of them. -/
lemma Forked.of_script (pre : List (Part ι A)) (js : List ι) (post : List (Part ι A))
    (hroot : F.script F.root = pre ++ (js.map .join ++ post))
    (hspawn : ∀ j, j ≠ F.root → .spawn j ∈ pre) (hpre : ∀ j, .join j ∉ pre)
    (hpost : ∀ j, .join j ∉ post) (hjs : F.root ∉ js)
    (hleaf : ∀ i, i ≠ F.root → ∀ p ∈ F.script i, (∃ a, p = .free a) ∨ ∃ body, p = .guarded body) :
    F.Forked := by
  refine ⟨hleaf, fun j hj => ?_, fun pre' j post' h => ?_⟩
  · rw [hroot]
    exact List.mem_append_left _ (hspawn j hj)
  · have hmem : .join j ∈ pre ++ (js.map .join ++ post) := by
      rw [← hroot, h]
      simp
    have hj : j ∈ js := by simpa [hpre, hpost] using hmem
    have hne : j ≠ F.root := fun hr => hjs (hr ▸ hj)
    refine ⟨hne, ?_⟩
    rw [hroot] at h
    rcases List.append_eq_append_iff.mp h with ⟨c, hc, -⟩ | ⟨c, hc, hc'⟩
    · rw [hc]
      exact List.mem_append_left _ (hspawn j hne)
    · -- a join that comes before the end of `pre` would be one of its parts
      rcases c with _ | ⟨p, c⟩
      · rw [List.append_nil] at hc
        rw [← hc]
        exact hspawn j hne
      · obtain ⟨rfl, -⟩ := List.cons.inj hc'
        exact absurd (by rw [hc]; simp) (hpre j)

/-- What a part that has been executed leaves behind. -/
def Held (d : Shared ι A D) : Part ι A → Prop
  | .spawn j => d.started j = true
  | .join j => d.ended j = true
  | _ => True

/-- What is known about the creation and the return of the threads. -/
structure Booked (F : ForkJoin ι A D) (s : Config ι Unit (Shared ι A D) (Spot ι A)) : Prop where
  root : s.data.started F.root = true
  /-- The parts that a thread has begun. -/
  begun : ∀ i, ∃ pre, F.script i = pre ++ rest (s.loc i) ∧ ∀ p ∈ pre, Held s.data p
  /-- A thread that exists was created by another thread. -/
  origin : ∀ j, s.data.started j = true → j ≠ F.root →
    ∃ i pre, F.script i = pre ++ rest (s.loc i) ∧ .spawn j ∈ pre
  /-- A thread that has run exists. -/
  awake : ∀ i, (∀ r, s.loc i ≠ .fresh r) → s.data.started i = true
  ended : ∀ i, s.data.ended i = true ↔ s.loc i = .gone

/-- What a move does to the books. -/
structure Books (i : ι) (d : Shared ι A D) (l : Spot ι A) (d' : Shared ι A D) (l' : Spot ι A) :
    Prop where
  keep : ∀ p, Held d p → Held d' p
  next : rest l = rest l' ∨ ∃ p, rest l = p :: rest l' ∧ Held d' p
  origin : ∀ j, d'.started j = true → d.started j = true ∨ rest l = .spawn j :: rest l'
  awake : (∀ r, l ≠ .fresh r) ∨ d'.started i = true
  ended : ∀ j, j ≠ i → d'.ended j = d.ended j
  gone : l ≠ .gone ∧ (d'.ended i = d.ended i ∧ l' ≠ .gone ∨ d'.ended i = true ∧ l' = .gone)

lemma update_true_of {f : ι → Bool} {i j : ι} (h : f j = true) :
    Function.update f i true j = true := by
  by_cases hj : j = i
  · rw [hj, Function.update_self]
  · rwa [Function.update_of_ne hj]

/-- What a move does to the books. -/
lemma Move.books {i : ι} {n n' : ℕ} {d d' : Shared ι A D} {l l' : Spot ι A}
    (h : F.Move i n d l n' d' l') : Books i d l d' l' := by
  cases h with
  | start hs =>
    exact ⟨fun _ hp => hp, .inl rfl, fun _ hj => .inl hj, .inr hs, fun _ _ => rfl, by simp⟩
  | @spawn _ _ j _ =>
    refine ⟨fun p hp => ?_, .inr ⟨_, rfl, by simp [Held]⟩, fun k hk => ?_, by simp,
      fun _ _ => rfl, by simp⟩
    · cases p with
      | spawn k => exact update_true_of hp
      | _ => exact hp
    · by_cases hkj : k = j
      · exact .inr (by rw [hkj]; rfl)
      · exact .inl (by simpa [Function.update_of_ne hkj] using hk)
  | gone =>
    refine ⟨fun p hp => ?_, .inl rfl, fun _ hj => .inl hj, by simp,
      fun j hj => Function.update_of_ne hj _ _, by simp⟩
    cases p with
    | join k => exact update_true_of hp
    | _ => exact hp
  | join hj =>
    exact ⟨fun _ hp => hp, .inr ⟨_, rfl, hj⟩, fun _ hj => .inl hj, by simp, fun _ _ => rfl,
      by simp⟩
  | free | lock =>
    exact ⟨fun _ hp => hp, .inr ⟨_, rfl, trivial⟩, fun _ hj => .inl hj, by simp, fun _ _ => rfl,
      by simp [doAct]⟩
  | act | unlock =>
    exact ⟨fun _ hp => hp, .inl rfl, fun _ hj => .inl hj, by simp, fun _ _ => rfl,
      by simp [doAct]⟩

/-- A move keeps the books. -/
lemma Booked.move {s s' : Config ι Unit (Shared ι A D) (Spot ι A)} {i : ι} (h : F.Booked s)
    (hb : Books i s.data (s.loc i) s'.data (s'.loc i))
    (hloc : ∀ j, j ≠ i → s'.loc j = s.loc j) : F.Booked s' := by
  -- what a thread has begun in the old state it has begun in the new one
  have hpre : ∀ j pre, F.script j = pre ++ rest (s.loc j) →
      ∃ c, F.script j = (pre ++ c) ++ rest (s'.loc j) ∧ ∀ p ∈ c, Held s'.data p := by
    intro j pre hj
    by_cases hji : j = i
    · subst hji
      rcases hb.next with he | ⟨p, he, hp⟩
      · exact ⟨[], by rw [List.append_nil, ← he, hj], by simp⟩
      · exact ⟨[p], by rw [hj, he]; simp, by simpa using hp⟩
    · exact ⟨[], by rw [List.append_nil, hloc j hji, hj], by simp⟩
  refine ⟨hb.keep (.spawn _) h.root, fun j => ?_, fun j hj hne => ?_, fun j hj => ?_, fun j => ?_⟩
  · obtain ⟨pre, hj, hheld⟩ := h.begun j
    obtain ⟨c, hc, hheldc⟩ := hpre j pre hj
    refine ⟨pre ++ c, hc, fun p hp => ?_⟩
    rcases List.mem_append.mp hp with hp | hp
    · exact hb.keep p (hheld p hp)
    · exact hheldc p hp
  · rcases hb.origin j hj with hold | hnew
    · obtain ⟨k, pre, hk, hmem⟩ := h.origin j hold hne
      obtain ⟨c, hc, -⟩ := hpre k pre hk
      exact ⟨k, pre ++ c, hc, List.mem_append_left _ hmem⟩
    · obtain ⟨pre, hi, -⟩ := h.begun i
      rw [hnew] at hi
      exact ⟨i, pre ++ [.spawn j], by rw [hi]; simp, by simp⟩
  · by_cases hji : j = i
    · rw [hji]
      rcases hb.awake with ha | ha
      · exact hb.keep (.spawn i) (h.awake i ha)
      · exact ha
    · exact hb.keep (.spawn j) (h.awake j (by rwa [← hloc j hji]))
  · by_cases hji : j = i
    · rw [hji]
      obtain ⟨hne, ⟨he, hl⟩ | ⟨he, hl⟩⟩ := hb.gone
      · rw [he, h.ended]
        exact iff_of_false hne hl
      · exact iff_of_true he hl
    · rw [hb.ended j hji, hloc j hji, h.ended]

/-- The books are kept in every reachable state. -/
lemma booked {s : Config ι Unit (Shared ι A D) (Spot ι A)} (h : F.machine.Reach s) :
    F.Booked s := by
  refine h.invariant (I := F.Booked) ⟨?_, fun i => ⟨[], rfl, by simp⟩, fun j hj hne => ?_,
    fun i hi => absurd rfl (hi _), fun i => ?_⟩ fun s a s' _ ih _ hs => ?_
  · simp [machine, program, Program.machine]
  · simp [machine, program, Program.machine, hne] at hj
  · simp [machine, program, Program.machine]
  · rcases step_cases hs with ⟨i, -, hm, hloc⟩ | ⟨i, -, rfl⟩
    · exact ih.move hm.books hloc
    · exact ih

/-! ### No deadlock -/

/-- A thread that has not returned can go on, unless it has not been created, or waits for the
lock, or waits for the end of a thread. -/
lemma enabled_or_waiting {s : Config ι Unit (Shared ι A D) (Spot ι A)} {i : ι}
    (hne : s.loc i ≠ .gone) (h : ¬ F.program.Enabled i s) :
    (s.data.started i = false ∧ ∃ rest, s.loc i = .fresh rest) ∨
      (s.sem () = 0 ∧ ∃ body rest, s.loc i = .out (.guarded body :: rest)) ∨
      ∃ j rest, s.loc i = .out (.join j :: rest) ∧ s.data.ended j = false := by
  match hl : s.loc i with
  | .fresh rest =>
    refine .inl ⟨?_, rest, rfl⟩
    by_contra hstarted
    refine h (Program.enabled_of_act (c := ()) (r := (s.data, .out rest)) (by rw [hl]; rfl) ?_)
    exact if_pos (by simpa using hstarted)
  | .out [] => exact absurd (Program.enabled_of_act (c := ()) (by rw [hl]; rfl) rfl) h
  | .out (.free a :: rest) =>
    exact absurd (Program.enabled_of_act (c := ()) (by rw [hl]; rfl) rfl) h
  | .out (.spawn j :: rest) =>
    exact absurd (Program.enabled_of_act (c := ()) (by rw [hl]; rfl) rfl) h
  | .out (.guarded body :: rest) =>
    refine .inr (.inl ⟨Nat.eq_zero_of_not_pos fun hpos => ?_, body, rest, rfl⟩)
    exact h (Program.enabled_of_wait (by rw [hl]; rfl) hpos)
  | .out (.join j :: rest) =>
    refine .inr (.inr ⟨j, rest, rfl, ?_⟩)
    by_contra hended
    refine h (Program.enabled_of_act (c := ()) (r := (s.data, .out rest)) (by rw [hl]; rfl) ?_)
    exact if_pos (by simpa using hended)
  | .inside [] rest => exact absurd (Program.enabled_of_post (by rw [hl]; rfl)) h
  | .inside (a :: body) rest =>
    exact absurd (Program.enabled_of_act (c := ()) (by rw [hl]; rfl) rfl) h
  | .gone => exact absurd hl hne

/-- **No deadlock.** While some thread has not returned, some thread can go on.

**Proof sketch.** If a thread is inside a section, it can go on. Otherwise the lock is free, so a
thread that cannot go on has not been created, or is the root thread and joins a thread that has
not returned. That thread has been created, so it can go on. -/
theorem no_deadlock (hF : F.Forked) {s : Config ι Unit (Shared ι A D) (Spot ι A)}
    (h : F.machine.Reach s) (hne : ∃ i, s.loc i ≠ .gone) : ∃ i, F.program.Enabled i s := by
  by_contra hstuck
  have hbooked := booked h
  obtain ⟨done, cur, hser⟩ := serializable h
  have hstuck' : ∀ i, ¬ F.program.Enabled i s := fun i hi => hstuck ⟨i, hi⟩
  have hfree : s.sem () ≠ 0 := by
    rcases cur with _ | ⟨i, ran⟩
    · rw [hser.lock]
      simp
    · exfalso
      have hin := (hser.inside i).mpr ⟨ran, rfl⟩
      have hcan := enabled_or_waiting (s := s) (i := i) (by rintro hl; simp [hl, Spot.body?] at hin)
        (hstuck' i)
      rcases hcan with ⟨-, _, hl⟩ | ⟨-, _, _, hl⟩ | ⟨_, _, hl, -⟩ <;> simp [hl, Spot.body?] at hin
  -- where the threads are that have not returned
  have hwhere : ∀ i, s.loc i ≠ .gone → (s.data.started i = false ∧ i ≠ F.root) ∨
      i = F.root ∧ ∃ j rest, s.loc i = .out (.join j :: rest) ∧ s.data.ended j = false := by
    intro i hi
    rcases enabled_or_waiting hi (hstuck' i) with ⟨hs, -⟩ | ⟨h0, -⟩ | ⟨j, r, hl, he⟩
    · refine .inl ⟨hs, ?_⟩
      rintro rfl
      rw [hbooked.root] at hs
      cases hs
    · exact absurd h0 hfree
    · refine .inr ⟨?_, j, r, hl, he⟩
      by_contra hir
      obtain ⟨pre, hpre, -⟩ := hbooked.begun i
      rcases hF.leaf i hir (.join j) (by rw [hpre, hl]; simp [rest]) with ⟨_, h⟩ | ⟨_, h⟩ <;> cases h
  obtain ⟨pre, hpre, hheld⟩ := hbooked.begun F.root
  have hstarted : ∀ j, .spawn j ∈ pre → s.data.started j = true := fun j hj => hheld _ hj
  by_cases hroot : s.loc F.root = .gone
  · obtain ⟨i, hi⟩ := hne
    rcases hwhere i hi with ⟨hs, hir⟩ | ⟨rfl, -⟩
    · have hspawn := hF.spawns i hir
      rw [hpre, hroot] at hspawn
      rw [hstarted i (by simpa [rest] using hspawn)] at hs
      cases hs
    · exact hi hroot
  · rcases hwhere _ hroot with ⟨-, h⟩ | ⟨-, j, r, hl, he⟩
    · exact h rfl
    · rw [hl] at hpre
      obtain ⟨hjr, hj⟩ := hF.joins pre j r hpre
      have hjne : s.loc j ≠ .gone := by
        rw [Ne, ← hbooked.ended, he]
        simp
      rcases hwhere j hjne with ⟨hs, -⟩ | ⟨h, -⟩
      · rw [hstarted j hj] at hs
        cases hs
      · exact hjr h

/-! ### What comes before what -/

/-- Thread `i` is about to execute the action `a`, inside a section when `g` is `true`. -/
def About (l : Spot ι A) (g : Bool) (a : A) : Prop :=
  (g = false ∧ ∃ rest, l = .out (.free a :: rest)) ∨
    (g = true ∧ ∃ body rest, l = .inside (a :: body) rest)

/-- **The rule for histories.** A relation between an action and the actions before it, which holds
whenever an action is executed, holds for every action of the history. -/
theorem history_rule {K : List (Event ι A) → Event ι A → Prop}
    (hK : ∀ t i g a, F.machine.Reach t → About (t.loc i) g a → K t.data.history ⟨i, g, a⟩)
    {s : Config ι Unit (Shared ι A D) (Spot ι A)} (h : F.machine.Reach s) :
    ∀ pre e post, s.data.history = pre ++ e :: post → K pre e := by
  refine h.invariant (I := fun s => ∀ pre e post, s.data.history = pre ++ e :: post → K pre e)
    (by simp [machine, program, Program.machine]) fun s a s' hr ih _ hs => ?_
  rcases step_cases hs with ⟨i, -, hm, -⟩ | ⟨i, -, rfl⟩
  · -- one more action at the end
    have hsnoc : ∀ g a, About (s.loc i) g a → ∀ pre e post,
        s.data.history ++ [⟨i, g, a⟩] = pre ++ e :: post → K pre e := by
      intro g a habout pre e post he
      rcases List.eq_nil_or_concat post with rfl | ⟨post, e', rfl⟩
      · obtain ⟨rfl, hlast⟩ := List.append_inj' he rfl
        obtain rfl := List.singleton_inj.mp hlast
        exact hK s i g a hr habout
      · rw [List.concat_eq_append, ← List.cons_append, ← List.append_assoc] at he
        exact ih pre e post (List.append_inj' he rfl).1
    generalize hl : s.loc i = l, s'.loc i = l', s.sem () = n, s'.sem () = n',
      hd' : s'.data = d' at hm hsnoc
    cases hm with
    | free => exact hsnoc false _ (.inl ⟨rfl, _, rfl⟩)
    | act => exact hsnoc true _ (.inr ⟨rfl, _, _, rfl⟩)
    | _ => exact ih
  · exact ih

/-- A thread without sections is never inside one. -/
lemma not_inside {s : Config ι Unit (Shared ι A D) (Spot ι A)} (h : F.machine.Reach s) {i : ι}
    (hi : blocks (F.script i) = []) : (s.loc i).body? = none := by
  obtain ⟨done, cur, hser⟩ := serializable h
  have hsec := hser.sections i
  rw [hi] at hsec
  cases hb : (s.loc i).body? with
  | none => rfl
  | some body => simp [unfinished, hb] at hsec

omit [DecidableEq ι] in
/-- The actions of two lists of parts. -/
lemma acts_append (ps qs : List (Part ι A)) : acts (ps ++ qs) = acts ps ++ acts qs := by
  induction ps with
  | nil => rfl
  | cons p ps ih => cases p <;> simp [acts, ih]

omit [DecidableEq ι] in
/-- The actions of parts without sections. -/
lemma acts_map_free (as : List A) : acts (as.map .free : List (Part ι A)) = as.map (false, ·) := by
  induction as with
  | nil => rfl
  | cons a as ih => simp [acts, ih]

omit [DecidableEq ι] in
/-- Joins are no actions. -/
lemma acts_map_join (js : List ι) : acts (js.map .join : List (Part ι A)) = [] := by
  induction js with
  | nil => rfl
  | cons j js ih => simpa [acts] using ih

/-- What is executed outside the sections. -/
lemma map_snd_free (as : List A) : (as.map ((false, ·) : A → Bool × A)).map Prod.snd = as := by
  rw [List.map_map]
  exact List.map_id as

/-- Outside the sections a thread has executed the actions of the parts that it has begun. -/
lemma trace_of_begun {s : Config ι Unit (Shared ι A D) (Spot ι A)} (h : F.machine.Reach s) {i : ι}
    {pre : List (Part ι A)} (hpre : F.script i = pre ++ rest (s.loc i))
    (hout : (s.loc i).body? = none) : trace i s.data.history = acts pre := by
  have htodo : (s.loc i).todo = acts (rest (s.loc i)) := by
    cases hl : s.loc i with
    | inside body r => simp [hl, Spot.body?] at hout
    | _ => rfl
  have horder := program_order h i
  rw [htodo, hpre, acts_append] at horder
  exact List.append_cancel_right horder

/-- **Creation comes first.** When a thread executes an action, the root thread has executed all
actions that it has before the creation of that thread. -/
theorem spawned_first (hF : F.Forked) (hroot : blocks (F.script F.root) = [])
    {s : Config ι Unit (Shared ι A D) (Spot ι A)} (h : F.machine.Reach s)
    {pre post : List (Event ι A)} {e : Event ι A} (he : s.data.history = pre ++ e :: post)
    (hne : e.thread ≠ F.root) : ∃ p₁ p₂, F.script F.root = p₁ ++ .spawn e.thread :: p₂ ∧
      acts p₁ <+: trace F.root pre := by
  refine history_rule (K := fun pre e => e.thread ≠ F.root → ∃ p₁ p₂,
    F.script F.root = p₁ ++ .spawn e.thread :: p₂ ∧ acts p₁ <+: trace F.root pre)
    (fun t i g a ht habout hne => ?_) h pre e post he hne
  have hbooked := booked ht
  have hawake : ∀ r, t.loc i ≠ .fresh r := by
    intro r hl
    rcases habout with ⟨-, _, hl'⟩ | ⟨-, _, _, hl'⟩ <;> rw [hl] at hl' <;> cases hl'
  obtain ⟨k, p, hk, hmem⟩ := hbooked.origin i (hbooked.awake i hawake) hne
  obtain rfl : k = F.root := by
    by_contra hkr
    rcases hF.leaf k hkr (.spawn i) (by rw [hk]; simp [hmem]) with ⟨_, hp⟩ | ⟨_, hp⟩ <;> cases hp
  obtain ⟨p₁, p₂, rfl⟩ := List.append_of_mem hmem
  refine ⟨p₁, p₂ ++ rest (t.loc F.root), by rw [hk]; simp, ?_⟩
  rw [trace_of_begun ht hk (not_inside ht hroot), acts_append]
  exact List.prefix_append _ _

/-- **Joining comes last.** When the root thread executes an action that it has after the join of a
thread, that thread has executed all its actions. -/
theorem joined_before (hroot : blocks (F.script F.root) = [])
    {s : Config ι Unit (Shared ι A D) (Spot ι A)} (h : F.machine.Reach s)
    {pre post : List (Event ι A)} {e : Event ι A} (he : s.data.history = pre ++ e :: post)
    (hr : e.thread = F.root) {p₁ p₂ : List (Part ι A)} {j : ι}
    (hj : F.script F.root = p₁ ++ .join j :: p₂)
    (hlen : (acts p₁).length ≤ (trace F.root pre).length) : trace j pre = acts (F.script j) := by
  refine history_rule (K := fun pre e => e.thread = F.root →
    (acts p₁).length ≤ (trace F.root pre).length → trace j pre = acts (F.script j))
    (fun t i g a ht habout hi hlen => ?_) h pre e post he hr hlen
  obtain rfl : i = F.root := hi
  have hout := not_inside ht hroot
  obtain ⟨q, hq, hheld⟩ := (booked ht).begun F.root
  obtain ⟨r, hl⟩ : ∃ r, t.loc F.root = .out (.free a :: r) := by
    rcases habout with ⟨-, r, hl⟩ | ⟨-, body, r, hl⟩
    · exact ⟨r, hl⟩
    · simp [hl, Spot.body?] at hout
  rw [trace_of_begun ht hq hout] at hlen
  -- the join is one of the parts that the root thread has executed
  have hmem : .join j ∈ q := by
    rw [hl, rest, hj] at hq
    rcases List.append_eq_append_iff.mp hq with ⟨c, rfl, hc⟩ | ⟨c, rfl, hc⟩
    · rcases c with _ | ⟨p, c⟩
      · cases hc
      · obtain ⟨rfl, -⟩ := List.cons.inj hc
        simp
    · exfalso
      rcases c with _ | ⟨p, c⟩
      · cases hc
      · obtain ⟨rfl, -⟩ := List.cons.inj hc
        simp [acts_append, acts] at hlen
  have hgone : t.loc j = .gone := ((booked ht).ended j).mp (hheld _ hmem)
  have horder := program_order ht j
  rwa [hgone, Spot.todo, List.append_nil] at horder

/-! ### The number of statements -/

/-- The statements of a part. -/
def cost : Part ι A → ℕ
  | .guarded body => body.length + 2
  | _ => 1

/-- The statements of a thread's parts. -/
def statements (ps : List (Part ι A)) : ℕ := (ps.map cost).sum

/-- The statements that a thread has still to execute; its start and its end count as one each. -/
def size : Spot ι A → ℕ
  | .fresh rest => statements rest + 2
  | .out rest => statements rest + 1
  | .inside body rest => body.length + 1 + (statements rest + 1)
  | .gone => 0

/-- A move executes one statement. -/
lemma Move.size {i : ι} {n n' : ℕ} {d d' : Shared ι A D} {l l' : Spot ι A}
    (h : F.Move i n d l n' d' l') : ForkJoin.size l' + 1 = ForkJoin.size l := by
  cases h <;> simp [ForkJoin.size, statements, cost] <;> omega

/-- A label that runs a thread. -/
def isRun {σ : Type*} : σ × Label ι Unit → Bool
  | (_, .run _ _) => true
  | _ => false

variable [Fintype ι]

/-- The statements that all threads have still to execute. -/
def left (s : Config ι Unit (Shared ι A D) (Spot ι A)) : ℕ := tally (fun _ => size) s.loc

/-- What one step does to the number of statements left. -/
lemma left_step {s s' : Config ι Unit (Shared ι A D) (Spot ι A)} {a : Label ι Unit}
    (h : F.machine.step s a = some s') :
    left s' + (if isRun (s, a) then 1 else 0) = left s := by
  rcases step_cases h with ⟨i, rfl, hm, hloc⟩ | ⟨i, rfl, rfl⟩
  · have hup := tally_update (fun _ => size) s.loc i (s'.loc i)
    have hs' : Function.update s.loc i (s'.loc i) = s'.loc := by
      funext j
      by_cases hj : j = i
      · simp [hj]
      · rw [Function.update_of_ne hj, hloc j hj]
    rw [hs'] at hup
    have := hm.size
    simp only [left, isRun, if_true]
    omega
  · simp [isRun]

/-- **Every statement is executed once.** In every state of a run the statements executed and
those left are together all there are. -/
theorem count_statements {tr : List (Config ι Unit (Shared ι A D) (Spot ι A) × Label ι Unit)}
    {s : Config ι Unit (Shared ι A D) (Spot ι A)} (h : F.machine.Path tr s) :
    tr.countP isRun + left s = left F.machine.init := by
  induction h with
  | nil => simp
  | @snoc tr s s' a _ hs ih =>
    rw [List.countP_append, List.countP_singleton, ← ih, ← left_step hs]
    omega

omit [DecidableEq ι] in
/-- No statement is left exactly when all threads have returned. -/
lemma left_eq_zero {s : Config ι Unit (Shared ι A D) (Spot ι A)} :
    left s = 0 ↔ ∀ i, s.loc i = .gone := by
  constructor
  · intro h i
    have hle : size (s.loc i) ≤ left s := le_tally (fun _ => size) s.loc i
    cases hl : s.loc i with
    | gone => rfl
    | _ =>
      rw [hl] at hle
      simp only [size] at hle
      omega
  · intro h
    exact tally_eq_zero fun i => by rw [h i]; rfl

/-- **Every run ends, and only with the return of all threads.** A run executes at most the
statements there are, it has executed all of them exactly when all threads have returned, and until
then it can be continued. -/
theorem run_ends (hF : F.Forked)
    {tr : List (Config ι Unit (Shared ι A D) (Spot ι A) × Label ι Unit)}
    {s : Config ι Unit (Shared ι A D) (Spot ι A)} (h : F.machine.Path tr s) :
    tr.countP isRun ≤ left F.machine.init ∧
      (tr.countP isRun = left F.machine.init ↔ ∀ i, s.loc i = .gone) ∧
      ((∃ i, s.loc i ≠ .gone) → ∃ i s', F.machine.step s (.run i ()) = some s') := by
  have hcount := count_statements h
  refine ⟨by omega, ?_, fun hne => ?_⟩
  · rw [← left_eq_zero]
    omega
  · obtain ⟨i, hi⟩ := no_deadlock hF h.reach hne
    obtain ⟨c, s', hs⟩ := hi.exists_step (v := fun _ => (rkSemaInit 0 1).2)
    exact ⟨i, s', hs⟩

/-- **Every run can be continued to the return of all threads.** -/
theorem exists_end (hF : F.Forked) {s : Config ι Unit (Shared ι A D) (Spot ι A)}
    (h : F.machine.Reach s) :
    ∃ s', (F.machine.startAt s).Reach s' ∧ F.machine.Reach s' ∧ ∀ i, s'.loc i = .gone := by
  refine Machine.exists_reach_of_measure (I := F.machine.Reach) left (fun t ht hgoal => ?_) h
  obtain ⟨i, hi⟩ := no_deadlock hF ht (by simpa using hgoal)
  obtain ⟨c, t', hstep⟩ := hi.exists_step (v := fun _ => (rkSemaInit 0 1).2)
  refine ⟨.run i c, t', hstep, ht.next hstep, ?_⟩
  have := left_step (F := F) hstep
  simp only [isRun, if_true] at this
  omega

end ForkJoin

end PosixIntro
