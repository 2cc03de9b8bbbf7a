import PosixIntro.OddEven.CppModel

set_option relaxedAutoImplicit false
set_option autoImplicit false

/-!
# How the C++ odd/even counter ends

The loop test of `print_number` reads `counter` when the semaphore has been posted, so the other
thread may have taken its next number by then. That leaves no thread behind, unless `LEN` is so
large that `counter` wraps; but the thread that is to print `LEN` can leave too early.

## Main definitions

* `Kept` — the invariant: what each thread knows about `counter`, from its last number.
* `Overtaken` — the thread that is to print `LEN` tests when the other has already taken
  `LEN - 1`.

## Main results

* `strands_nobody` — no thread is left behind, for every `LEN` but the greatest.
* `stranded` — with the greatest `LEN` the odd thread can wait for ever.
* `misses_last` — with `LEN = 4` a run ends when `1, 2, 3` has been printed.
* `prints_all_iff` — a completed run has printed `1, …, LEN` exactly if no test was overtaken.
-/

namespace PosixIntro

namespace CppOddEven

variable {LEN : ℕ}

/-! ### The lines -/

/-- Wrapping does not change whose turn it is. -/
lemma side_mod_sizeT (n : ℕ) : side (n % sizeT) = side n := by
  have hdvd : 2 ∣ sizeT := by decide
  unfold side
  rw [Nat.mod_mod_of_dvd n hdvd]

lemma line_thread (t : Side) (n : ℕ) : (line t n).thread = t := by cases t <;> rfl

lemma line_number (t : Side) (n : ℕ) : (line t n).number = n := by cases t <;> rfl

/-- Below its size the counter does not wrap. -/
lemma countUp_wrappedLine {n : ℕ} (h : n < sizeT) : countUp wrappedLine n = countUp line n := by
  refine List.map_congr_left fun k hk => ?_
  have hk : k < n := List.mem_range.mp hk
  rw [wrappedLine, Nat.mod_eq_of_lt (by omega)]

/-- **The odd thread prints odd numbers only, the even thread even numbers only.** -/
lemma in_turn {s : Config Side Side Store Loc} (h : ((program LEN).machine oddFirst).Reach s) :
    ∀ e ∈ s.data.stdout, e.thread = side e.number := by
  intro e he
  obtain ⟨k, -, rfl⟩ := mem_countUp (((handover LEN).out_countUp h).subset he)
  rw [wrappedLine, line_thread, line_number, side_mod_sizeT]

/-- The counter is in step with the number of numbers taken. -/
lemma counts {s : Config Side Side Store Loc} (h : ((program LEN).machine oddFirst).Reach s) :
    s.data.counter = (s.data.fetched + 1) % sizeT :=
  ((handover LEN).aligned h).fits

/-- The thread that is about to take a number is the one that is next. -/
lemma next_of_fetch {s : Config Side Side Store Loc}
    (h : ((program LEN).machine oddFirst).Reach s) {t : Side} (hl : s.loc t = .fetch) :
    t = side (s.data.fetched + 1) := by
  have hview := ((handover LEN).aligned h).holder t
  have hturn : (handover LEN).turn t (s.loc t) = .before := by
    rw [hl]
    rfl
  rw [hturn] at hview
  exact hview.1

/-! ### Nobody is left behind -/

/-- What a thread at a location knows, when `n` numbers have been taken. -/
def Sound (LEN : ℕ) (t : Side) (n : ℕ) : Loc → Prop
  | .wait | .fetch => last t n = 0 ∨ last t n + 1 < LEN
  | .print _ | .post | .test => 1 ≤ last t n
  | .returned => LEN ≤ n + 1 ∧ 1 ≤ last t n

/-- What a thread knows stays true when the other takes a number. -/
lemma Sound.succ {t : Side} {n : ℕ} {l : Loc} (h : Sound LEN t n l) (ht : t ≠ side (n + 1)) :
    Sound LEN t (n + 1) l := by
  cases l <;> simp only [Sound, last_succ_of_ne ht] at h ⊢ <;> omega

/-- **The invariant.** -/
structure Kept (LEN : ℕ) (s : Config Side Side Store Loc) : Prop where
  bound : s.data.fetched ≤ max 2 LEN
  sound : ∀ t, Sound LEN t s.data.fetched (s.loc t)

/-- Every thread knows what is true after one of them has moved. -/
lemma sound_update {loc : Side → Loc} {t : Side} {n : ℕ} {l : Loc} (ht : Sound LEN t n l)
    (hother : ∀ u, u ≠ t → Sound LEN u n (loc u)) :
    ∀ u, Sound LEN u n (Function.update loc t l u) :=
  (Function.forall_update_iff loc fun u => Sound LEN u n).mpr ⟨ht, hother⟩

/-- If the counter cannot wrap, it does not. -/
lemma kept (hLEN : LEN + 1 < sizeT) {s : Config Side Side Store Loc}
    (h : ((program LEN).machine oddFirst).Reach s) : Kept LEN s := by
  refine h.invariant (I := Kept LEN) ⟨Nat.zero_le _, fun t => ?_⟩ fun s a s' hr ih _ hs => ?_
  · show last t 0 = 0 ∨ last t 0 + 1 < LEN
    exact .inl (Nat.le_zero.mp (last_le t 0))
  cases (handover LEN).step hs with
  | @wait t next intr c hst hpos =>
    obtain ⟨-, -, hl, rfl⟩ := code_wait hst
    have hview := ih.sound t
    rw [hl] at hview
    exact ⟨ih.bound, sound_update hview fun u _ => ih.sound u⟩
  | @post t next c hst =>
    obtain ⟨-, hl, rfl⟩ := code_post hst
    have hview := ih.sound t
    rw [hl] at hview
    exact ⟨ih.bound, sound_update hview fun u _ => ih.sound u⟩
  | @act t f c d next hst hf =>
    have hview := ih.sound t
    rcases code_act hst hf with ⟨hl, rfl, rfl⟩ | ⟨n, hl, rfl, rfl⟩ | ⟨hl, rfl, rfl⟩
    · have ht := next_of_fetch hr hl
      rw [hl] at hview
      have hlast : last t s.data.fetched = 0 ∨ last t s.data.fetched + 1 < LEN := hview
      rw [ht, last_next] at hlast
      refine ⟨?_, sound_update ?_ fun u hu => (ih.sound u).succ (ht ▸ hu)⟩
      · show s.data.fetched + 1 ≤ max 2 LEN
        omega
      · show 1 ≤ last t (s.data.fetched + 1)
        rw [ht, last_side]
        omega
    · rw [hl] at hview
      exact ⟨ih.bound, sound_update hview fun u _ => ih.sound u⟩
    · rw [hl] at hview
      have hlast : 1 ≤ last t s.data.fetched := hview
      have hle := last_le t s.data.fetched
      have hbound := ih.bound
      have hsize : 3 < sizeT := by decide
      have hcounter : s.data.counter = s.data.fetched + 1 := by
        rw [counts hr, Nat.mod_eq_of_lt (by omega)]
      refine ⟨hbound, sound_update ?_ fun u _ => ih.sound u⟩
      split_ifs with htest
      · show last t s.data.fetched = 0 ∨ last t s.data.fetched + 1 < LEN
        omega
      · show LEN ≤ s.data.fetched + 1 ∧ 1 ≤ last t s.data.fetched
        omega
  | retry t => exact ih

/-- Until both threads have returned one of them can move. -/
lemma exists_enabled (hLEN : LEN + 1 < sizeT) {s : Config Side Side Store Loc}
    (h : ((program LEN).machine oddFirst).Reach s)
    (hrun : ∃ t, (program LEN).code t (s.loc t) ≠ none) :
    ∃ t, (program LEN).Enabled t s := by
  by_contra hno
  have hstuck : (program LEN).Stuck s := fun t ht => hno ⟨t, ht⟩
  have hkept := kept hLEN h
  -- the thread that is next has returned, so the counter has reached `LEN`
  have hnext := (rounds LEN).returned_of_stuck h hstuck fun t ht => by
    rw [code_eq_none.mp ht]
    rfl
  have hsound := hkept.sound (side (s.data.fetched + 1))
  rw [show s.loc (side (s.data.fetched + 1)) = .returned from code_eq_none.mp hnext] at hsound
  obtain ⟨hfar, hlast⟩ : LEN ≤ s.data.fetched + 1 ∧ 1 ≤ last _ s.data.fetched := hsound
  rw [last_next] at hlast
  -- the other one is waiting, but its last number was the last one taken
  obtain ⟨t, ht⟩ := hrun
  have hne : t ≠ side (s.data.fetched + 1) := fun he => ht (he ▸ hnext)
  rcases (rounds LEN).returned_or_waiting hstuck t with hc | ⟨⟨next, intr, hc⟩, -⟩
  · exact ht hc
  · have hother := hkept.sound t
    rw [(code_wait hc).2.2.1] at hother
    have hother : last t s.data.fetched = 0 ∨ last t s.data.fetched + 1 < LEN := hother
    rw [eq_side_of_ne hne, last_side] at hother
    omega

/-- **The counter strands no thread.** The odd thread prints odd numbers only and the even thread
even numbers only; and unless `LEN` is the greatest `std::size_t`, some thread can move in every
state in which not both have returned, and both can return from every state. -/
theorem strands_nobody {s : Config Side Side Store Loc} (h : (machine LEN).Reach s) :
    (∀ e ∈ s.data.stdout, e.thread = side e.number) ∧
      (LEN + 1 < sizeT →
        ((∃ t, s.loc t ≠ .returned) → ∃ t, (program LEN).Enabled t s) ∧
        ∃ s', ((machine LEN).startAt s).Reach s' ∧ ∀ t, s'.loc t = .returned) := by
  rw [machine, initSemaphores_eq] at h ⊢
  refine ⟨in_turn h, fun hLEN => ⟨fun ⟨t, ht⟩ => ?_, ?_⟩⟩
  · exact exists_enabled hLEN h ⟨t, fun hc => ht (code_eq_none.mp hc)⟩
  · obtain ⟨s', hs', -, hret⟩ := (rounds LEN).exists_finished
      (fun u hu => (kept hLEN hu).bound) (fun u hu => exists_enabled hLEN hu) h
    exact ⟨s', hs', fun t => code_eq_none.mp (hret t)⟩

/-- With `LEN = 3` the even thread has printed `2` and left, and the odd thread waits. -/
theorem strands_nobody_one_left : ∃ s : Config Side Side Store Loc, (machine 3).Reach s ∧
    s.loc .even = .returned ∧ s.loc .odd = .wait ∧ s.data.stdout = [line .odd 1, line .even 2] ∧
      (∀ e ∈ s.data.stdout, e.thread = side e.number) ∧ (∃ t, (program 3).Enabled t s) ∧
      ∃ s', ((machine 3).startAt s).Reach s' ∧ ∀ t, s'.loc t = .returned := by
  have hrun : ∃ s : Config Side Side Store Loc, (machine 3).exec (machine 3).init
      (List.replicate 5 (.run .odd ()) ++ List.replicate 5 (.run .even ())) = some s ∧
      s.loc .even = .returned ∧ s.loc .odd = .wait ∧
      s.data.stdout = [line .odd 1, line .even 2] := ⟨_, rfl, rfl, rfl, rfl⟩
  obtain ⟨s, hexec, heven, hodd, hout⟩ := hrun
  have hr := Machine.reach_of_exec hexec
  obtain ⟨hturn, hends⟩ := strands_nobody hr
  obtain ⟨hcan, hret⟩ := hends (by decide)
  exact ⟨s, hr, heven, hodd, hout, hturn, hcan ⟨.odd, by rw [hodd]; decide⟩, hret⟩

/-! ### The greatest `LEN` -/

/-- **One round** of a thread that waits while its semaphore is positive. -/
lemma round {s : Config Side Side Store Loc} (h : ((program LEN).machine oddFirst).Reach s)
    {t : Side} (hl : s.loc t = .wait) (hsem : 0 < s.sem t) :
    ∃ s', ((program LEN).machine oddFirst).Reach s' ∧ 0 < s'.sem t.other ∧
      s'.data.counter = (s.data.counter + 1) % sizeT ∧
      s'.loc = Function.update s.loc t
        (if (s.data.counter + 1) % sizeT < LEN then .wait else .returned) := by
  have h₁ := Program.reach_run (c := ()) h hl rfl (if_pos hsem)
  have h₂ := Program.reach_run (c := ()) h₁ (Function.update_self ..) rfl rfl
  have h₃ := Program.reach_run (c := ()) h₂ (Function.update_self ..) rfl rfl
  have h₄ := Program.reach_run (c := ()) h₃ (Function.update_self ..) rfl rfl
  have h₅ := Program.reach_run (c := ()) h₄ (Function.update_self ..) rfl rfl
  simp only [Function.update_idem] at h₅
  refine ⟨_, h₅, ?_, rfl, rfl⟩
  simp only [Function.update_self]
  exact Nat.succ_pos _

/-- The threads go round until the counter comes near `LEN`. -/
lemma laps (hsize : LEN < sizeT) (k : ℕ) (hk : 2 * k + 1 < LEN) :
    ∃ s, ((program LEN).machine oddFirst).Reach s ∧ 0 < s.sem .odd ∧
      s.data.counter = 2 * k + 1 ∧ ∀ t, s.loc t = .wait := by
  induction k with
  | zero => exact ⟨_, .init, Nat.one_pos, rfl, fun _ => rfl⟩
  | succ k ih =>
    obtain ⟨s, hs, hsem, hcounter, hloc⟩ := ih (by omega)
    obtain ⟨u, hu, husem, hucounter, huloc⟩ := round hs (hloc .odd) hsem
    rw [hcounter, Nat.mod_eq_of_lt (by omega)] at hucounter huloc
    rw [if_pos (by omega)] at huloc
    have huall : ∀ t, u.loc t = .wait := by
      rw [huloc]
      exact (Function.forall_update_iff s.loc fun _ l => l = .wait).mpr ⟨rfl, fun t _ => hloc t⟩
    obtain ⟨w, hw, hwsem, hwcounter, hwloc⟩ := round hu (huall .even) husem
    rw [hucounter, Nat.mod_eq_of_lt (by omega)] at hwcounter hwloc
    rw [if_pos (by omega)] at hwloc
    refine ⟨w, hw, hwsem, hwcounter, ?_⟩
    rw [hwloc]
    exact (Function.forall_update_iff u.loc fun _ l => l = .wait).mpr ⟨rfl, fun t _ => huall t⟩

/-- **The greatest `LEN` strands a thread.** The even thread takes `LEN - 1`, sees that the counter
has reached `LEN` and returns; the odd thread takes `LEN`, the counter wraps to `0`, and the odd
thread waits for a post that nobody will make. -/
theorem stranded : ¬ ∀ LEN, LEN < sizeT → ∀ s, (machine LEN).Reach s →
    (∃ t, s.loc t ≠ .returned) → ∃ t, (program LEN).Enabled t s := by
  intro hall
  have hsize : sizeT - 1 < sizeT := Nat.sub_lt sizeT_pos Nat.one_pos
  have hvalue : sizeT = 2 ^ 64 := rfl
  obtain ⟨s, hs, hsem, hcounter, hloc⟩ := laps hsize (2 ^ 63 - 2) (by omega)
  obtain ⟨u, hu, husem, hucounter, huloc⟩ := round hs (hloc .odd) hsem
  rw [hcounter, Nat.mod_eq_of_lt (by omega)] at hucounter huloc
  rw [if_pos (by omega)] at huloc
  have hueven : u.loc .even = .wait := by
    rw [huloc]
    exact hloc .even
  have huodd : u.loc .odd = .wait := by
    rw [huloc]
    rfl
  obtain ⟨w, hw, hwsem, hwcounter, hwloc⟩ := round hu hueven husem
  rw [hucounter, Nat.mod_eq_of_lt (by omega)] at hwcounter hwloc
  rw [if_neg (by omega)] at hwloc
  have hwodd : w.loc .odd = .wait := by
    rw [hwloc]
    exact huodd
  obtain ⟨z, hz, hzsem, -, hzloc⟩ := round hw hwodd hwsem
  have hwrap : (w.data.counter + 1) % sizeT = 0 := by
    have : w.data.counter + 1 = sizeT := by omega
    rw [this, Nat.mod_self]
  rw [hwrap, if_pos (by omega)] at hzloc
  have hzodd : z.loc .odd = .wait := by
    rw [hzloc]
    rfl
  have hzeven : z.loc .even = .returned := by
    rw [hzloc, hwloc]
    rfl
  have htoken := (handover (sizeT - 1)).token hz
  have hzsem : 0 < z.sem .even := hzsem
  rw [← initSemaphores_eq] at hz
  obtain ⟨t, st, c, r, hst, hx⟩ := hall _ hsize z hz ⟨.odd, by rw [hzodd]; decide⟩
  cases t with
  | odd =>
    rw [hzodd] at hst
    obtain rfl := Option.some.inj hst
    obtain ⟨hpos, -⟩ := Option.ite_none_right_eq_some.mp hx
    omega
  | even =>
    rw [hzeven] at hst
    cases hst

/-! ### The last number -/

/-- The thread that is to print `LEN` reads `LEN` in its loop test: the other thread has already
taken `LEN - 1`, and this one leaves instead of printing `LEN`. -/
def Overtaken (LEN : ℕ) (s : Config Side Side Store Loc) (a : Label Side Unit) : Prop :=
  (∃ c, a = .run (side LEN) c) ∧ s.loc (side LEN) = .test ∧ s.data.counter = LEN

/-- A run of `LEN = 4`: the even thread prints `2` and posts, the odd thread takes `3`, and only
then the even thread tests. -/
lemma early_run : ∃ s, (machine 4).Reach s ∧ (∀ t, s.loc t = .returned) ∧
    s.data.stdout = [line .odd 1, line .even 2, line .odd 3] := by
  obtain ⟨s, hs, hret, hout⟩ : ∃ s, (machine 4).exec (machine 4).init
      (List.replicate 5 (.run .odd ()) ++ List.replicate 4 (.run .even ()) ++
        List.replicate 4 (.run .odd ()) ++ [.run .even (), .run .odd ()]) = some s ∧
      (∀ t, s.loc t = .returned) ∧
      s.data.stdout = [line .odd 1, line .even 2, line .odd 3] :=
    ⟨_, rfl, by decide, rfl⟩
  exact ⟨s, Machine.reach_of_exec hs, hret, hout⟩

/-- **The last number can be missed.** -/
theorem misses_last : ¬ ∀ LEN, 2 ≤ LEN → LEN < sizeT → ∀ s, (machine LEN).Reach s →
    (∀ t, s.loc t = .returned) → s.data.stdout = countUp line LEN := by
  intro hall
  obtain ⟨s, hs, hret, hout⟩ := early_run
  have hfour := hall 4 (by decide) (by decide) s hs hret
  have hlength := congrArg List.length (hout.symm.trans hfour)
  rw [length_countUp] at hlength
  cases hlength

/-- After an overtaken test the thread that is next has returned, and no number is taken any
more. -/
lemma overtaken_path {tr : List (Config Side Side Store Loc × Label Side Unit)}
    {s : Config Side Side Store Loc} (hp : ((program LEN).machine oddFirst).Path tr s)
    (hover : ∃ x ∈ tr, Overtaken LEN x.1 x.2) :
    s.loc (side LEN) = .returned ∧ (s.data.fetched + 1) % sizeT = LEN := by
  refine hp.invariant (I := fun tr s => (∃ x ∈ tr, Overtaken LEN x.1 x.2) →
    s.loc (side LEN) = .returned ∧ (s.data.fetched + 1) % sizeT = LEN) (by simp) ?_ hover
  intro tr s a s' hp ih hs hover
  have hnow : Overtaken LEN s a ∨
      (s.loc (side LEN) = .returned ∧ (s.data.fetched + 1) % sizeT = LEN) := by
    obtain ⟨x, hx, hov⟩ := hover
    rcases List.mem_append.mp hx with hx | hx
    · exact .inr (ih ⟨x, hx, hov⟩)
    · obtain rfl : x = (s, a) := by simpa using hx
      exact .inl hov
  rcases hnow with ⟨⟨c, rfl⟩, htest, hcounter⟩ | ⟨hret, hcount⟩
  · -- the overtaken test itself
    cases (handover LEN).step hs with
    | wait _ hst => exact absurd ((code_wait hst).2.2.1.symm.trans htest) (by simp)
    | post _ hst => exact absurd ((code_post hst).2.1.symm.trans htest) (by simp)
    | @act _ f _ d next hst hf =>
      rcases code_act hst hf with ⟨hl, -⟩ | ⟨n, hl, -⟩ | ⟨-, rfl, rfl⟩
      · exact absurd (hl.symm.trans htest) (by simp)
      · exact absurd (hl.symm.trans htest) (by simp)
      · rw [if_neg (by omega)]
        exact ⟨Function.update_self .., counts hp.reach ▸ hcounter⟩
  · -- a later step: only the other thread moves, and it is not next
    have hne : ∀ t st, (program LEN).code t (s.loc t) = some st → side LEN ≠ t := by
      rintro t st hst rfl
      rw [hret] at hst
      cases hst
    cases (handover LEN).step hs with
    | @wait t next intr c hst hpos =>
      exact ⟨(Function.update_of_ne (hne t _ hst) ..).trans hret, hcount⟩
    | @post t next c hst =>
      exact ⟨(Function.update_of_ne (hne t _ hst) ..).trans hret, hcount⟩
    | @act t f c d next hst hf =>
      refine ⟨(Function.update_of_ne (hne t _ hst) ..).trans hret, ?_⟩
      rcases code_act hst hf with ⟨hl, -, -⟩ | ⟨n, -, -, rfl⟩ | ⟨-, -, rfl⟩
      · refine absurd ?_ (hne t _ hst)
        rw [next_of_fetch hp.reach hl, ← side_mod_sizeT (_ + 1), hcount]
      · exact hcount
      · exact hcount
    | retry t => exact ⟨hret, hcount⟩

/-- If no test is overtaken, the thread that is to print `LEN` has done so when it returns. -/
lemma counted_of_returned {s : Config Side Side Store Loc}
    (h : ((program LEN).machine oddFirst).ReachIf (fun s a => ¬ Overtaken LEN s a) s)
    (hret : s.loc (side LEN) = .returned) : LEN + 1 < sizeT ∧ LEN ≤ s.data.fetched := by
  refine h.invariant (I := fun s => s.loc (side LEN) = .returned →
    LEN + 1 < sizeT ∧ LEN ≤ s.data.fetched) (fun h₀ => by cases h₀) ?_ hret
  intro s a s' hr ih hok hs hret
  have hlt : s.data.counter < sizeT := counts hr.reach ▸ Nat.mod_lt _ sizeT_pos
  have hle : s.data.counter ≤ s.data.fetched + 1 := counts hr.reach ▸ Nat.mod_le _ _
  -- a thread that has not just returned had returned before
  have hbefore : ∀ t l, l ≠ .returned → Function.update s.loc t l (side LEN) = .returned →
      s.loc (side LEN) = .returned := by
    intro t l hl hupd
    by_cases ht : side LEN = t
    · rw [ht, Function.update_self] at hupd
      exact absurd hupd hl
    · rwa [Function.update_of_ne ht] at hupd
  cases (handover LEN).step hs with
  | @wait t next intr c hst hpos =>
    obtain ⟨-, -, -, rfl⟩ := code_wait hst
    exact ih (hbefore t _ (by simp) hret)
  | @post t next c hst =>
    obtain ⟨-, -, rfl⟩ := code_post hst
    exact ih (hbefore t _ (by simp) hret)
  | @act t f c d next hst hf =>
    rcases code_act hst hf with ⟨-, rfl, rfl⟩ | ⟨n, -, rfl, rfl⟩ | ⟨hl, rfl, rfl⟩
    · obtain ⟨hsize, hcount⟩ := ih (hbefore t _ (by simp) hret)
      exact ⟨hsize, Nat.le_succ_of_le hcount⟩
    · exact ih (hbefore t _ (by simp) hret)
    · by_cases htest : s.data.counter < LEN
      · rw [if_pos htest] at hret
        exact ih (hbefore t _ (by simp) hret)
      · by_cases ht : side LEN = t
        · -- the test has read more than `LEN`
          have hne : s.data.counter ≠ LEN := fun he => hok ⟨⟨c, by rw [ht]⟩, ht ▸ hl, he⟩
          simp only
          omega
        · exact ih ((Function.update_of_ne ht ..).symm.trans hret)
  | retry t => exact ih hret

/-- **When every number is printed.** A completed run has printed `1, …, LEN`, the odd numbers by
the odd thread and the even numbers by the even thread, exactly if no loop test in it was
overtaken. -/
theorem prints_all_iff (hlen : 2 ≤ LEN) (hsize : LEN < sizeT)
    {tr : List (Config Side Side Store Loc × Label Side Unit)} {s : Config Side Side Store Loc}
    (hp : (machine LEN).Path tr s) (hret : ∀ t, s.loc t = .returned) :
    s.data.stdout = countUp line LEN ↔ ∀ x ∈ tr, ¬ Overtaken LEN x.1 x.2 := by
  rw [machine, initSemaphores_eq] at hp
  have hout : s.data.stdout = countUp wrappedLine s.data.fetched :=
    ((handover LEN).out_of_idle hp.reach fun t => by rw [hret t]; rfl).1
  constructor
  · intro hall x hx hover
    have hcount := (overtaken_path hp ⟨x, hx, hover⟩).2
    have hlength := congrArg List.length (hout.symm.trans hall)
    rw [length_countUp, length_countUp] at hlength
    rw [hlength] at hcount
    rcases Nat.lt_or_ge (LEN + 1) sizeT with hlt | hge
    · rw [Nat.mod_eq_of_lt hlt] at hcount
      omega
    · rw [show LEN + 1 = sizeT by omega, Nat.mod_self] at hcount
      omega
  · intro hnone
    obtain ⟨hsize', hge⟩ := counted_of_returned (hp.reachIf hnone) (hret _)
    have hle := (kept hsize' hp.reach).bound
    have hcount : s.data.fetched = LEN := by omega
    rw [hout, hcount, countUp_wrappedLine hsize]

/-- The run that misses `4` has an overtaken test. -/
theorem prints_all_iff_early_run : ∃ tr s, (machine 4).Path tr s ∧ (∀ t, s.loc t = .returned) ∧
    ¬ ∀ x ∈ tr, ¬ Overtaken 4 x.1 x.2 := by
  obtain ⟨s, hs, hret, hout⟩ := early_run
  obtain ⟨tr, hp, -⟩ := hs.exists_path
  refine ⟨tr, s, hp, hret, fun hnone => ?_⟩
  have hall := (prints_all_iff (by decide) (by decide) hp hret).mpr hnone
  have hlength := congrArg List.length (hout.symm.trans hall)
  rw [length_countUp] at hlength
  cases hlength

end CppOddEven

end PosixIntro
