import PosixIntro.Concurrency.Joining

set_option relaxedAutoImplicit false
set_option autoImplicit false

/-!
# Fork, work on parts that nobody shares, join

A root thread does something, creates the other threads, waits for all of them and does something
with what they have left. When the threads work on parts of the data that the others leave alone, the
result does not depend on the order of their steps.

## Main definitions

* `ForkJoin.ScatterGather` — such a root thread.
* `Phases` — a history in three phases: the root thread alone, all threads, the root thread alone.
* `Sees` — a view of the data that the actions of one thread alone change.

## Main results

* `ForkJoin.ScatterGather.phases` — the history of a run whose root thread has returned.
* `foldl_view` — what a view shows after a history is what its thread has made of it.
* `foldl_written` — what is written while nobody changes what is written.
-/

namespace PosixIntro

variable {ι A D : Type*} [DecidableEq ι]

/-! ### Histories -/

/-- A history can be split where a thread has executed some of its actions; what follows begins with
an action of the thread. -/
lemma exists_split_after {i : ι} {h : List (Event ι A)} {xs ys : List (Bool × A)}
    (htr : trace i h = xs ++ ys) : ∃ h₀ h₁, h = h₀ ++ h₁ ∧ trace i h₀ = xs ∧ trace i h₁ = ys ∧
      (h₁ = [] ∨ ∃ e t, h₁ = e :: t ∧ e.thread = i) := by
  obtain ⟨f₀, f₁, hf, rfl, rfl⟩ := List.map_eq_append_iff.mp htr
  obtain ⟨h₀, h₁, rfl, hh₀, hh₁⟩ := List.filter_eq_append_iff.mp hf
  rcases f₁ with _ | ⟨e, f₁⟩
  · refine ⟨h₀ ++ h₁, [], by simp, ?_, rfl, .inl rfl⟩
    rw [trace, List.filter_append, hh₀, hh₁, List.append_nil]
  · obtain ⟨u, v, rfl, hu, he, hv⟩ := List.filter_eq_cons_iff.mp hh₁
    refine ⟨h₀ ++ u, e :: v, by simp, ?_, ?_, .inr ⟨e, v, rfl, of_decide_eq_true he⟩⟩
    · rw [trace, List.filter_append, hh₀, List.filter_eq_nil_iff.mpr fun x hx => hu x hx,
        List.append_nil]
    · rw [trace, List.filter_cons, if_pos he, hv]

/-- A history can be split where a thread has executed some of its actions; what precedes ends with
an action of the thread. -/
lemma exists_split_before {i : ι} {h : List (Event ι A)} {xs ys : List (Bool × A)}
    (htr : trace i h = xs ++ ys) : ∃ h₀ h₁, h = h₀ ++ h₁ ∧ trace i h₀ = xs ∧ trace i h₁ = ys ∧
      (h₀ = [] ∨ ∃ e t, h₀ = t ++ [e] ∧ e.thread = i) := by
  rcases List.eq_nil_or_concat' xs with rfl | ⟨xs, x, rfl⟩
  · exact ⟨[], h, rfl, rfl, htr, .inl rfl⟩
  · rw [List.append_assoc] at htr
    obtain ⟨h₀, h₁, rfl, htr₀, htr₁, rfl | ⟨e, t, rfl, he⟩⟩ := exists_split_after htr
    · simp [trace] at htr₁
    · have hcons : trace i (e :: t) = (e.guarded, e.act) :: trace i t := by
        simp [trace, he]
      obtain ⟨hx, ht⟩ := List.cons.inj (hcons.symm.trans htr₁)
      refine ⟨h₀ ++ [e], t, by simp, ?_, ht, .inr ⟨e, h₀, rfl, he⟩⟩
      subst he
      rw [trace_append, htr₀, trace_self, hx]

/-- A history in three phases: first the root thread has executed `first` and nobody else anything;
then all others have executed all they have to do, and the root thread `middle`; and then the root
thread has executed `last`. -/
structure Phases (F : ForkJoin ι A D) (h : List (Event ι A)) (first middle last : List (Bool × A))
    (h₀ h₁ h₂ : List (Event ι A)) : Prop where
  eq : h = h₀ ++ (h₁ ++ h₂)
  before : ∀ e ∈ h₀, e.thread = F.root
  behind : ∀ e ∈ h₂, e.thread = F.root
  first : trace F.root h₀ = first
  middle : trace F.root h₁ = middle
  last : trace F.root h₂ = last
  others : ∀ i, i ≠ F.root → trace i h₁ = acts (F.script i)

/-- An event is in the trace of its thread. -/
lemma mem_trace {h : List (Event ι A)} {e : Event ι A} (he : e ∈ h) :
    (e.guarded, e.act) ∈ trace e.thread h :=
  List.mem_map.mpr ⟨e, List.mem_filter.mpr ⟨he, decide_eq_true rfl⟩, rfl⟩

/-- Nothing in the trace of a thread that has done nothing. -/
lemma thread_ne_of_trace {i : ι} {h : List (Event ι A)} (htr : trace i h = []) {e : Event ι A}
    (he : e ∈ h) : e.thread ≠ i := by
  rintro rfl
  have hmem := mem_trace he
  rw [htr] at hmem
  cases hmem

/-- A thread that only another one acts in. -/
lemma trace_eq_nil {i j : ι} {h : List (Event ι A)} (hall : ∀ e ∈ h, e.thread = j) (hij : i ≠ j) :
    trace i h = [] := by
  rw [trace, List.filter_eq_nil_iff.mpr, List.map_nil]
  intro e he heq
  exact hij ((of_decide_eq_true heq).symm.trans (hall e he))

/-- The events of a thread that acts alone. -/
lemma map_act_of_trace {j : ι} {h : List (Event ι A)} (hall : ∀ e ∈ h, e.thread = j) :
    h.map Event.act = (trace j h).map Prod.snd := by
  rw [trace, List.filter_eq_self.mpr fun e he => decide_eq_true (hall e he), List.map_map]
  rfl

/-- When the others' actions give nothing, what the actions give is what those of one thread do. -/
lemma flatMap_trace {C : Type*} {f : A → List C} {i : ι} {h : List (Event ι A)}
    (hnil : ∀ e ∈ h, e.thread ≠ i → f e.act = []) :
    (h.map Event.act).flatMap f = ((trace i h).map Prod.snd).flatMap f := by
  induction h with
  | nil => rfl
  | cons e h ih =>
    have hrest := ih fun e' he' => hnil e' (List.mem_cons_of_mem _ he')
    rw [List.map_cons, List.flatMap_cons, hrest]
    by_cases he : e.thread = i
    · simp [trace, he]
    · simp [trace, he, hnil e List.mem_cons_self he]

/-- What is executed in the middle phase is what the threads have to do. -/
lemma Phases.mem_acts {F : ForkJoin ι A D} {h : List (Event ι A)}
    {first middle last : List (Bool × A)} {h₀ h₁ h₂ : List (Event ι A)}
    (hp : Phases F h first middle last h₀ h₁ h₂) {e : Event ι A} (he : e ∈ h₁) :
    (e.thread = F.root ∧ (e.guarded, e.act) ∈ middle) ∨
      (e.thread ≠ F.root ∧ (e.guarded, e.act) ∈ acts (F.script e.thread)) := by
  have hmem := mem_trace he
  by_cases hroot : e.thread = F.root
  · rw [hroot, hp.middle] at hmem
    exact .inl ⟨hroot, hmem⟩
  · rw [hp.others _ hroot] at hmem
    exact .inr ⟨hroot, hmem⟩

/-- A thread without sections executes what it has to do. -/
lemma Phases.mem_of_free {F : ForkJoin ι A D} {h : List (Event ι A)}
    {first middle last : List (Bool × A)} {h₀ h₁ h₂ : List (Event ι A)}
    (hp : Phases F h first middle last h₀ h₁ h₂) {e : Event ι A} (he : e ∈ h₁)
    (hne : e.thread ≠ F.root) {as : List A} (has : F.script e.thread = as.map .free) :
    e.act ∈ as := by
  have hmem := mem_trace he
  rw [hp.others _ hne, has, ForkJoin.acts_map_free] at hmem
  obtain ⟨a, ha, heq⟩ := List.mem_map.mp hmem
  exact (Prod.mk.inj heq).2 ▸ ha

namespace ForkJoin

variable {F : ForkJoin ι A D}

/-- A root thread that executes `first`, creates all other threads, executes actions in between,
joins all of them and executes `last`; it has no sections. -/
structure ScatterGather (F : ForkJoin ι A D) (first last : List A) (parts : List (Part ι A))
    (js : List ι) : Prop where
  forked : F.Forked
  root : F.script F.root = first.map .free ++ (parts ++ (js.map .join ++ last.map .free))
  joined : ∀ j, j ≠ F.root → j ∈ js
  sections : blocks parts = []

omit [DecidableEq ι] in
/-- Creations are no actions. -/
lemma acts_map_spawn (js : List ι) : acts (js.map .spawn : List (Part ι A)) = [] := by
  induction js with
  | nil => rfl
  | cons j js ih => simpa [acts] using ih

omit [DecidableEq ι] in
/-- Creations have no sections. -/
lemma blocks_map_spawn (js : List ι) : blocks (js.map .spawn : List (Part ι A)) = [] := by
  induction js with
  | nil => rfl
  | cons j js ih => simpa [blocks] using ih

omit [DecidableEq ι] in
/-- The sections of two lists of parts. -/
lemma blocks_append (ps qs : List (Part ι A)) : blocks (ps ++ qs) = blocks ps ++ blocks qs := by
  induction ps with
  | nil => rfl
  | cons p ps ih => cases p <;> simp [blocks, ih]

omit [DecidableEq ι] in
/-- A root thread of this kind has no sections. -/
lemma ScatterGather.blocks_root {first last : List A} {parts : List (Part ι A)} {js : List ι}
    (hF : F.ScatterGather first last parts js) : blocks (F.script F.root) = [] := by
  have hfree : ∀ as : List A, blocks (as.map .free : List (Part ι A)) = [] := by
    intro as
    induction as with
    | nil => rfl
    | cons a as ih => simpa [blocks] using ih
  have hjoin : ∀ js : List ι, blocks (js.map .join : List (Part ι A)) = [] := by
    intro js
    induction js with
    | nil => rfl
    | cons j js ih => simpa [blocks] using ih
  rw [hF.root]
  simp only [blocks_append, hfree, hjoin, hF.sections, List.append_nil]

omit [DecidableEq ι] in
/-- What a root thread of this kind does. -/
lemma ScatterGather.acts_root {first last : List A} {parts : List (Part ι A)} {js : List ι}
    (hF : F.ScatterGather first last parts js) : acts (F.script F.root) =
      first.map (false, ·) ++ (acts parts ++ last.map (false, ·)) := by
  rw [hF.root, acts_append, acts_append, acts_append, acts_map_free, acts_map_free, acts_map_join,
    List.nil_append]

omit [DecidableEq ι] in
/-- Actions at the beginning come before every creation. -/
lemma first_isPrefix {first : List A} {ps p₁ p₂ : List (Part ι A)} {j : ι}
    (h : first.map .free ++ ps = p₁ ++ .spawn j :: p₂) : first.map (false, ·) <+: acts p₁ := by
  rcases List.append_eq_append_iff.mp h with ⟨c, rfl, -⟩ | ⟨c, hfirst, hc⟩
  · rw [acts_append, acts_map_free]
    exact List.prefix_append _ _
  · rcases c with _ | ⟨p, c⟩
    · rw [List.append_nil] at hfirst
      rw [← hfirst, acts_map_free]
    · obtain ⟨rfl, -⟩ := List.cons.inj hc
      have hmem : (.spawn j : Part ι A) ∈ first.map Part.free := by
        rw [hfirst]
        simp
      obtain ⟨a, -, ha⟩ := List.mem_map.mp hmem
      cases ha

/-- When the root thread has returned, so have all threads that it joins. -/
lemma gone_of_root {s : Config ι Unit (Shared ι A D) (Spot ι A)} (h : F.machine.Reach s)
    (hgone : s.loc F.root = .gone) {j : ι} (hj : .join j ∈ F.script F.root) : s.loc j = .gone := by
  obtain ⟨pre, hpre, hheld⟩ := (booked h).begun F.root
  rw [hgone, rest, List.append_nil] at hpre
  exact ((booked h).ended j).mp (hheld (.join j) (hpre ▸ hj))

/-- A thread that has returned has executed all it has to do. -/
lemma trace_of_gone {s : Config ι Unit (Shared ι A D) (Spot ι A)} (h : F.machine.Reach s) {j : ι}
    (hgone : s.loc j = .gone) : trace j s.data.history = acts (F.script j) := by
  have horder := program_order h j
  rwa [hgone, Spot.todo, List.append_nil] at horder

/-- **The phases of a run.** When the root thread has returned, the history is in three phases.

**Proof sketch.** The actions `first` come before every creation, so nobody else acts before the last
of them. The actions `last` come after every join, so from the first of them on nobody else acts. -/
theorem ScatterGather.phases {first last : List A} {parts : List (Part ι A)} {js : List ι}
    (hF : F.ScatterGather first last parts js)
    {s : Config ι Unit (Shared ι A D) (Spot ι A)} (h : F.machine.Reach s)
    (hgone : s.loc F.root = .gone) : ∃ h₀ h₁ h₂,
      Phases F s.data.history (first.map (false, ·)) (acts parts) (last.map (false, ·)) h₀ h₁ h₂ := by
  have hblocks := hF.blocks_root
  have hroot := trace_of_gone h hgone
  rw [hF.acts_root, ← List.append_assoc] at hroot
  obtain ⟨g, h₂, hg, htr, htr₂, hcut⟩ := exists_split_after hroot
  have hdone : ∀ j, j ≠ F.root → trace j g = acts (F.script j) := by
    intro j hj
    obtain ⟨js₁, js₂, rfl⟩ := List.append_of_mem (hF.joined j hj)
    rcases hcut with rfl | ⟨e, t, rfl, he⟩
    · rw [List.append_nil] at hg
      rw [← hg]
      exact trace_of_gone h (gone_of_root h hgone (by rw [hF.root]; simp))
    · have hsplit : F.script F.root = (first.map .free ++ (parts ++ js₁.map .join)) ++
          .join j :: (js₂.map .join ++ last.map .free) := by
        rw [hF.root]
        simp
      refine joined_before hblocks h hg he hsplit (Nat.le_of_eq ?_)
      rw [acts_append, acts_append, acts_map_free, acts_map_join, List.append_nil, htr]
  have hnone : ∀ j, j ≠ F.root → trace j h₂ = [] := by
    intro j hj
    have horder := program_order h j
    rw [hg, trace_append, hdone j hj, List.append_assoc] at horder
    exact (List.append_eq_nil_iff.mp (List.append_cancel_left_eq .. ▸ horder.trans
      (List.append_nil _).symm)).1
  obtain ⟨h₀, h₁, rfl, htr₀, htr₁, hcut₀⟩ := exists_split_before htr
  have hbefore : ∀ e ∈ h₀, e.thread = F.root := by
    intro e he
    by_contra hne
    obtain ⟨p, q, rfl⟩ := List.append_of_mem he
    obtain ⟨p₁, p₂, hscript, hpre⟩ := spawned_first hF.forked hblocks h
      (show s.data.history = p ++ e :: (q ++ (h₁ ++ h₂)) by rw [hg]; simp) hne
    have hfirst := (first_isPrefix (hF.root ▸ hscript)).trans hpre
    rw [trace_append] at htr₀
    -- the root thread has nothing to do any more, but the last event is its own
    have hrest : trace F.root (e :: q) = [] := by
      have hlen := congrArg List.length htr₀
      have hle := hfirst.length_le
      rw [List.length_append] at hlen
      exact List.eq_nil_of_length_eq_zero (by omega)
    rcases hcut₀ with hnil | ⟨e', u, heq, he'⟩
    · simp at hnil
    · have hmem : e' ∈ e :: q := by
        have hlast := congrArg List.getLast? heq
        rw [List.getLast?_append_of_ne_nil _ (by simp), List.getLast?_concat] at hlast
        exact List.mem_of_getLast? hlast
      exact thread_ne_of_trace hrest hmem he'
  refine ⟨h₀, h₁, h₂, by rw [hg, List.append_assoc], hbefore, fun e he => ?_, htr₀, htr₁, htr₂,
    fun i hi => ?_⟩
  · by_contra hne
    exact thread_ne_of_trace (hnone _ hne) he rfl
  · have hall := hdone i hi
    rwa [trace_append, trace_eq_nil hbefore hi, List.nil_append] at hall

end ForkJoin

/-! ### Views -/

/-- A view of the data that the actions of thread `i` alone change; `step` says how. -/
structure Sees {V : Type*} (F : ForkJoin ι A D) (v : D → V) (step : A → V → V) (i : ι)
    (h : List (Event ι A)) : Prop where
  own : ∀ e ∈ h, e.thread = i → ∀ d, v (F.apply e.act d) = step e.act (v d)
  others : ∀ e ∈ h, e.thread ≠ i → ∀ d, v (F.apply e.act d) = v d

/-- **What a view shows** after a history is what its thread has made of it. -/
theorem foldl_view {V : Type*} {F : ForkJoin ι A D} {v : D → V} {step : A → V → V} {i : ι}
    {h : List (Event ι A)} (hv : Sees F v step i h) (d : D) :
    v (h.foldl (fun d e => F.apply e.act d) d) =
      ((trace i h).map Prod.snd).foldl (fun x a => step a x) (v d) := by
  induction h generalizing d with
  | nil => rfl
  | cons e h ih =>
    have hrest : Sees F v step i h :=
      ⟨fun e' he' => hv.own e' (List.mem_cons_of_mem _ he'),
        fun e' he' => hv.others e' (List.mem_cons_of_mem _ he')⟩
    rw [List.foldl_cons, ih hrest]
    by_cases he : e.thread = i
    · rw [hv.own e List.mem_cons_self he]
      simp [trace, he]
    · rw [hv.others e List.mem_cons_self he]
      simp [trace, he]

omit [DecidableEq ι] in
/-- **What is written**, when no action changes what another one writes. -/
theorem foldl_written {C : Type*} {apply : A → D → D} {out : D → List C} {text : D → A → List C}
    (hout : ∀ a d, out (apply a d) = out d ++ text d a) {as : List A}
    (hsame : ∀ a ∈ as, ∀ b ∈ as, ∀ d, text (apply a d) b = text d b) (d : D) :
    out (as.foldl (fun d a => apply a d) d) = out d ++ as.flatMap (text d) := by
  induction as generalizing d with
  | nil => simp
  | cons a as ih =>
    have htext : as.flatMap (text (apply a d)) = as.flatMap (text d) :=
      List.flatMap_congr fun b hb => hsame a List.mem_cons_self b (List.mem_cons_of_mem _ hb) d
    rw [List.foldl_cons, ih (fun b hb c hc => hsame b (List.mem_cons_of_mem _ hb) c
      (List.mem_cons_of_mem _ hc)), htext, hout, List.flatMap_cons, List.append_assoc]

end PosixIntro
