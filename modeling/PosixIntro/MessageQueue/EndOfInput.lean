import PosixIntro.MessageQueue.Texts

set_option relaxedAutoImplicit false
set_option autoImplicit false

/-!
# When the message-queue writers stop at the end of input

Neither writer asks whether `fgets` or `getline` has taken anything. At the end of its input the C
writer sends the last text again and again, the C++ writer the empty text.

## Main definitions

* `StopsAtEnd` — a writer leaves its loop and sends no text more often than it was entered.
* `ZeroInReach` — a line begins with `'0'`, and the lines before it are not too long for `getline`.

## Main results

* `stops_iff` — both writers stop for exactly the inputs with `ZeroInReach`.
* `not_stops_empty` — they do not for an empty input.
-/

namespace PosixIntro

namespace MessageQueue

/-- The texts that have been entered by the first `n` calls of `fgets` or `getline`. -/
def enteredTexts (lang : Lang) (stdin : List UInt8) (n : ℕ) : List (List UInt8) :=
  (List.range n).filterMap fun i => (typed lang stdin i).map (lineText lang)

/-- The writer leaves its loop, and at no time it has sent a text more often than it was entered. -/
def StopsAtEnd (lang : Lang) (stdin : List UInt8) : Prop :=
  (∃ s, (writer lang stdin).Reach s ∧ s.2.loc = .left) ∧
    ∀ s, (writer lang stdin).Reach s →
      ∀ t, s.2.sent.count t ≤ (enteredTexts lang stdin s.2.entered).count t

/-- A line begins with `'0'`, and each line before it has at most 19 characters. -/
def ZeroInReach (lines : List (List UInt8)) : Prop :=
  ∃ before l rest, lines = before ++ l :: rest ∧ BeginsZero l ∧ ∀ b ∈ before, b.length < bufferSize

variable {lang : Lang} {stdin l rest : List UInt8} {lines : List (List UInt8)} {n i : ℕ}
  {s : Stream} {buf : CharArray bufferSize} {good : Bool}

/-! ### Nothing can be taken -/

/-- When a call takes nothing, the later ones do not either. -/
lemma typed_eq_none (h : typed lang stdin i = none) (hi : i ≤ n) : typed lang stdin n = none := by
  induction n, hi using Nat.le_induction with
  | base => exact h
  | succ n _ ih =>
    rw [typed, ← after_fst] at ih ⊢
    have hsucc : (after lang stdin (n + 1)).1 = ((after lang stdin n).1.read lang).2 := by
      rw [after, Function.iterate_succ_apply']
      rfl
    rw [hsucc]
    exact Stream.read_none ih

/-- Then the buffer does not come to begin with `'0'`. -/
lemma startsZero_of_none (h : (enter lang buf none).StartsZero) : buf.StartsZero := by
  cases lang with
  | c => exact (startsZero_strtokNewline buf).mp h
  | cpp => exact absurd h (not_startsZero_none buf)

/-- All rounds up to the last have taken a line. -/
lemma exists_typed (hzero : (after lang stdin (n + 1)).2.StartsZero) (hpast : Past lang stdin n)
    (hi : i ≤ n) : ∃ line, typed lang stdin i = some line := by
  refine Option.ne_none_iff_exists'.mp fun hnone => ?_
  -- back from the end of the loop to the round that has taken nothing
  have hback : ∀ j, i ≤ j → (after lang stdin (j + 1)).2.StartsZero →
      (after lang stdin i).2.StartsZero := by
    intro j hj
    induction j, hj using Nat.le_induction with
    | base =>
      rw [after_succ_snd, hnone]
      exact startsZero_of_none
    | succ j hj ih =>
      intro hz
      rw [after_succ_snd, typed_eq_none hnone (Nat.le_succ_of_le hj)] at hz
      exact ih (startsZero_of_none hz)
  have hz := hback n hi hzero
  cases i with
  | zero =>
    have hnul : (0 : UInt8) = charZero := hz
    exact absurd hnul (by decide)
  | succ i => exact hpast i hi hz

/-- The texts that are sent are those that have been entered. -/
lemma rounds_eq (hzero : (after lang stdin (n + 1)).2.StartsZero) (hpast : Past lang stdin n)
    (hi : i ≤ n + 1) : rounds lang stdin i = enteredTexts lang stdin i := by
  induction i with
  | zero => rfl
  | succ i ih =>
    obtain ⟨line, hline⟩ := exists_typed hzero hpast (Nat.le_of_succ_le_succ hi)
    have hout : (writerLoop lang).out (after lang stdin (i + 1)) = lineText lang line := by
      show (after lang stdin (i + 1)).2.text = lineText lang line
      rw [after_succ_snd, hline, text_enter]
    have hentered : enteredTexts lang stdin (i + 1) =
        enteredTexts lang stdin i ++ [lineText lang line] := by
      simp [enteredTexts, List.range_succ, List.filterMap_append, hline]
    rw [rounds, DoWhile.output_succ, hentered, ← ih (Nat.le_of_succ_le hi)]
    exact congrArg (rounds lang stdin i ++ [·]) hout

/-- What has been sent, at any time. -/
lemma exists_rounds {s : Queue × Writer} (h : (writer lang stdin).Reach s) :
    ∃ k n, s.2.sent = rounds lang stdin k ∧ k ≤ n + 1 ∧ k ≤ s.2.entered ∧ Past lang stdin n := by
  have hw := refines h
  generalize s.2 = w at hw
  cases hl : w.loc with
  | start | enter | inside =>
    simp only [Refines, hl] at hw
    exact ⟨_, _, hw.2.1, Nat.le_succ _, Nat.le_refl _, hw.2.2⟩
  | cut =>
    simp only [Refines, hl] at hw
    obtain ⟨n, -, hentered, -, hsent, hpast⟩ := hw
    exact ⟨n, n, hsent, Nat.le_succ n, hentered ▸ Nat.le_succ n, hpast⟩
  | send =>
    simp only [Refines, hl] at hw
    obtain ⟨n, hentered, -, hsent, hpast⟩ := hw
    exact ⟨n, n, hsent, Nat.le_succ n, hentered ▸ Nat.le_succ n, hpast⟩
  | test =>
    simp only [Refines, hl] at hw
    obtain ⟨n, hentered, -, hsent, hpast⟩ := hw
    exact ⟨n + 1, n, hsent, Nat.le_refl _, hentered.ge, hpast⟩
  | left =>
    simp only [Refines, hl] at hw
    obtain ⟨n, hentered, hsent, hend⟩ := hw
    exact ⟨n + 1, n, hsent, Nat.le_refl _, hentered.ge, hend.2⟩

/-- **A writer stops when its loop ends**: then it sends nothing that has not been entered. -/
theorem stopsAtEnd_iff :
    StopsAtEnd lang stdin ↔ ∃ texts, (writerLoop lang).Emits (entered₀ stdin) texts := by
  constructor
  · rintro ⟨⟨s, hr, hl⟩, -⟩
    exact ⟨s.2.sent, sends_iff.mp ⟨s, hr, hl, rfl⟩⟩
  · rintro ⟨texts, h⟩
    obtain ⟨s, hr, hl, -⟩ := sends_iff.mpr h
    refine ⟨⟨s, hr, hl⟩, fun s hr t => ?_⟩
    obtain ⟨K, hend, -⟩ := DoWhile.emits_iff.mp h
    obtain ⟨k, n, hsent, hkn, hk, hpast⟩ := exists_rounds hr
    have hle : n ≤ K := Nat.le_of_not_lt fun hlt => hpast K hlt hend.1
    rw [hsent, rounds_eq hend.1 hend.2 (Nat.le_trans hkn (Nat.succ_le_succ hle))]
    have hsub : (List.range k).Sublist (List.range s.2.entered) := List.range_sublist.mpr hk
    exact (hsub.filterMap _).count_le t

/-- A loop ends when some line that is taken begins with `'0'`. -/
lemma exists_emits_iff_typed : (∃ texts, (writerLoop lang).Emits (entered₀ stdin) texts) ↔
    ∃ i, ∃ line ∈ typed lang stdin i, line.StartsZero := by
  constructor
  · rintro ⟨texts, h⟩
    obtain ⟨k, hend, -⟩ := DoWhile.emits_iff.mp h
    obtain ⟨line, hline⟩ := exists_typed hend.1 hend.2 (Nat.le_refl k)
    have hz : (after lang stdin (k + 1)).2.StartsZero := hend.1
    rw [after_succ_snd, hline] at hz
    exact ⟨k, line, hline, (startsZero_enter _ line).mp hz⟩
  · rintro ⟨i, line, hline, hz⟩
    refine DoWhile.exists_emits_iff.mpr ⟨i, ?_⟩
    show (after lang stdin (i + 1)).2.StartsZero
    rw [after_succ_snd, Option.mem_def.mp hline]
    exact (startsZero_enter _ line).mpr hz

/-! ### Induction on the lines -/

/-- Standard input is a line that the end of the file ends, or a line before more input. -/
lemma lines_induction {motive : List UInt8 → Prop} (last : ∀ l, newline ∉ l → motive l)
    (line : ∀ l rest, newline ∉ l → motive rest → motive (l ++ newline :: rest))
    (stdin : List UInt8) : motive stdin := by
  induction h : stdin.length using Nat.strong_induction_on generalizing stdin with
  | _ n ih =>
    by_cases hmem : newline ∈ stdin
    · obtain ⟨l, rest, rfl, hl⟩ := List.eq_append_cons_of_mem hmem
      refine line l rest hl (ih rest.length ?_ rest rfl)
      rw [← h, List.length_append, List.length_cons]
      omega
    · exact last stdin hmem

lemma zeroInReach_cons :
    ZeroInReach (l :: lines) ↔ BeginsZero l ∨ (l.length < bufferSize ∧ ZeroInReach lines) := by
  constructor
  · rintro ⟨before, z, rest, heq, hz, hbefore⟩
    cases before with
    | nil =>
      obtain ⟨rfl, -⟩ := List.cons.inj heq
      exact .inl hz
    | cons b before =>
      obtain ⟨rfl, rfl⟩ := List.cons.inj heq
      obtain ⟨hb, hbefore⟩ := List.forall_mem_cons.mp hbefore
      exact .inr ⟨hb, before, z, rest, rfl, hz, hbefore⟩
  · rintro (hz | ⟨hl, before, z, rest, rfl, hz, hbefore⟩)
    · exact ⟨[], l, lines, rfl, hz, nofun⟩
    · exact ⟨l :: before, z, rest, rfl, hz, List.forall_mem_cons.mpr ⟨hl, hbefore⟩⟩

lemma not_zeroInReach_nil : ¬ ZeroInReach [] := by
  rintro ⟨before, z, rest, heq, -⟩
  exact absurd heq.symm (by simp)

/-- The first round ends the loop, or the later ones do. -/
lemma exists_emits_read {line : InputLine bufferSize} {s' : Stream}
    (h : s.read lang = (some line, s')) :
    (∃ texts, (writerLoop lang).Emits (s, buf) texts) ↔ line.StartsZero ∨
      ∃ texts, (writerLoop lang).Emits (s', enter lang buf (some line)) texts := by
  rw [DoWhile.exists_emits_step]
  simp only [writerLoop, h, startsZero_enter]

/-- **When the C++ loop ends.** -/
theorem exists_emits_cpp : ∀ buf, (∃ texts, (writerLoop .cpp).Emits (⟨stdin, true⟩, buf) texts) ↔
    ZeroInReach (stdin.splitOn newline) := by
  induction stdin using lines_induction with
  | last l hl =>
    intro buf
    rw [List.splitOn_eq_singleton hl, zeroInReach_cons]
    have hfalse : ¬ (l.length < bufferSize ∧ ZeroInReach []) := fun h => not_zeroInReach_nil h.2
    by_cases hne : l = []
    · subst hne
      have hfail : ¬ ∃ texts, (writerLoop .cpp).Emits (⟨[], true⟩, buf) texts := by
        rw [DoWhile.exists_emits_step]
        rintro (hz | ⟨texts, h⟩)
        · exact not_startsZero_none buf hz
        · exact not_emits_failed rfl h
      exact iff_of_false hfail (not_or_intro nofun hfalse)
    · have hgood : (storeLine (bufferSize - 1) l).2.good = false := by
        rcases Nat.lt_or_ge l.length bufferSize with hlt | hge
        · rw [storeLine_eof hl (Nat.le_sub_one_of_lt hlt)]
        · have hlong := storeLine_long (s := []) hl
            (Nat.lt_of_lt_of_le (by decide : bufferSize - 1 < bufferSize) hge)
          rw [List.append_nil] at hlong
          rw [hlong]
      rw [exists_emits_read (read_cpp_eq hne), startsZero_getlineLine]
      exact or_congr Iff.rfl (iff_of_false (fun ⟨_, h⟩ => not_emits_failed hgood h) hfalse)
  | line l rest hl ih =>
    intro buf
    rw [List.splitOn_append_cons_self_of_not_mem hl, zeroInReach_cons]
    obtain ⟨line, s', hread, -, hz, hrest, hfail⟩ := read_cpp rest hl
    rw [exists_emits_read hread, hz]
    refine or_congr Iff.rfl ?_
    rcases Nat.lt_or_ge l.length bufferSize with hlt | hge
    · obtain rfl := hrest hlt
      rw [ih]
      exact (and_iff_right hlt).symm
    · exact iff_of_false (fun ⟨_, h⟩ => not_emits_failed (hfail hge) h) fun h =>
        absurd h.1 (Nat.not_lt.mpr hge)

/-- Then the C loop ends as well. -/
lemma exists_emits_c (h : ZeroInReach (stdin.splitOn newline)) :
    ∀ buf, ∃ texts, (writerLoop .c).Emits (⟨stdin, good⟩, buf) texts := by
  -- the first call takes a line that begins with `'0'`
  have hfirst : ∀ {t : List UInt8} buf, BeginsZero t →
      ∃ texts, (writerLoop .c).Emits (⟨t, good⟩, buf) texts := by
    intro t buf hz
    have hne : t ≠ [] := by
      rintro rfl
      cases hz
    exact (exists_emits_read (read_c_eq hne)).mpr (.inl ((startsZero_fgetsLine _).mpr hz))
  induction stdin using lines_induction with
  | last l hl =>
    intro buf
    rw [List.splitOn_eq_singleton hl, zeroInReach_cons] at h
    exact hfirst buf (h.resolve_right fun h => not_zeroInReach_nil h.2)
  | line l rest hl ih =>
    intro buf
    rw [List.splitOn_append_cons_self_of_not_mem hl, zeroInReach_cons] at h
    -- an empty line, or the newline that a long line has left
    have hempty : ZeroInReach (rest.splitOn newline) → ∀ buf,
        ∃ texts, (writerLoop .c).Emits (⟨newline :: rest, good⟩, buf) texts := by
      intro h buf
      obtain ⟨line, hread, -⟩ := read_c_empty rest good
      exact (exists_emits_read hread).mpr (.inr (ih h _))
    rcases h with hz | ⟨hlt, h⟩
    · have hne : l ≠ [] := by
        rintro rfl
        cases hz
      exact hfirst buf ((beginsZero_append hne).mpr hz)
    · by_cases hne : l = []
      · subst hne
        exact hempty h buf
      · obtain ⟨line, s', hread, -, -, hshort, hlong⟩ := read_c rest good hne hl
        refine (exists_emits_read hread).mpr (.inr ?_)
        rcases Nat.lt_or_ge (l.length + 1) bufferSize with hlt' | hge
        · rw [hshort hlt']
          exact ih h _
        · have hdrop : l.drop (bufferSize - 1) = [] :=
            List.drop_eq_nil_of_le (Nat.le_sub_one_of_lt hlt)
          rw [hlong hge, hdrop]
          exact hempty h _

/-- **When the writers stop at the end of input.** Each of them stops if some line that it takes
begins with `'0'`, and both do for exactly the inputs in which a line begins with `'0'` and no line
before it has more than 19 characters. -/
theorem stops_iff (stdin : List UInt8) :
    (∀ lang, StopsAtEnd lang stdin ↔ ∃ i, ∃ line ∈ typed lang stdin i, line.StartsZero) ∧
      ((∀ lang, StopsAtEnd lang stdin) ↔ ZeroInReach (stdin.splitOn newline)) := by
  refine ⟨fun lang => stopsAtEnd_iff.trans exists_emits_iff_typed, fun h => ?_, fun h lang => ?_⟩
  · exact (exists_emits_cpp _).mp (stopsAtEnd_iff.mp (h .cpp))
  · cases lang with
    | c => exact stopsAtEnd_iff.mpr (exists_emits_c h _)
    | cpp => exact stopsAtEnd_iff.mpr ((exists_emits_cpp _).mpr h)

/-- An empty input is never left: the C++ writer sends the empty text again and again. -/
theorem not_stops_empty : ¬ ∀ lang stdin, StopsAtEnd lang stdin := by
  intro h
  have hreach := (exists_emits_cpp _).mp (stopsAtEnd_iff.mp (h .cpp []))
  rw [List.splitOn_nil, zeroInReach_cons] at hreach
  exact hreach.elim nofun fun h => not_zeroInReach_nil h.2

end MessageQueue

end PosixIntro
