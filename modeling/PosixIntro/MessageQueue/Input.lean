import PosixIntro.DoWhile
import PosixIntro.MessageQueue.Model

set_option relaxedAutoImplicit false
set_option autoImplicit false

/-!
# The message-queue writers and their standard input

## Main definitions

* `Stream`, `Stream.read` — standard input, and what one call of `fgets` or `getline` takes from it.
* `writer` — a writer whose lines come from a given standard input.
* `writerLoop` — its loop, as a function of the stream and the buffer.

## Main results

* `refines` — what a writer has sent are the outputs of the first rounds of `writerLoop`.
* `sends_iff` — a writer leaves its loop after it has sent the outputs of `writerLoop`.

## Design

`getline` tests for the end of file first, then for the newline, and then whether the buffer is
full. So a line of 19 characters is taken with its newline, and a longer one sets `failbit`.
-/

namespace PosixIntro

namespace MessageQueue

/-- Standard input: what has not been taken, and in C++ whether the stream is good. -/
structure Stream where
  rest : List UInt8
  good : Bool

/-! ### The two readers of lines -/

/-- What `fgets` takes, at most `k` characters, and what it leaves. -/
def takeLine : ℕ → List UInt8 → List UInt8 × List UInt8
  | 0, s => ([], s)
  | _ + 1, [] => ([], [])
  | k + 1, c :: s =>
    if c = newline then ([c], s) else (c :: (takeLine k s).1, (takeLine k s).2)

/-- What `getline` stores, at most `k` characters, and the stream that it leaves: the end of the
file sets `eofbit`, a further character `failbit`. -/
def storeLine : ℕ → List UInt8 → List UInt8 × Stream
  | _, [] => ([], ⟨[], false⟩)
  | 0, c :: s => if c = newline then ([], ⟨s, true⟩) else ([], ⟨c :: s, false⟩)
  | k + 1, c :: s =>
    if c = newline then ([], ⟨s, true⟩) else (c :: (storeLine k s).1, (storeLine k s).2)

variable {k : ℕ} {l s : List UInt8}

lemma length_takeLine_le (k : ℕ) (s : List UInt8) : (takeLine k s).1.length ≤ k := by
  fun_induction takeLine k s with
  | case1 => exact Nat.le_refl _
  | case2 => exact Nat.zero_le _
  | case3 k s => exact Nat.succ_le_succ (Nat.zero_le k)
  | case4 k c s h ih => exact Nat.succ_le_succ ih

lemma newline_notMem_takeLine (k : ℕ) (s : List UInt8) :
    newline ∉ (takeLine k s).1.dropLast := by
  fun_induction takeLine k s with
  | case1 | case2 => exact List.not_mem_nil
  | case3 k s => exact List.not_mem_nil
  | case4 k c s h ih =>
    intro hmem
    cases ht : (takeLine k s).1 with
    | nil => simp [ht] at hmem
    | cons b bs =>
      rw [ht] at hmem ih
      rcases List.mem_cons.mp hmem with hc | hmem
      · exact h hc.symm
      · exact ih hmem

lemma length_storeLine_le (k : ℕ) (s : List UInt8) : (storeLine k s).1.length ≤ k := by
  fun_induction storeLine k s with
  | case5 k c s h ih => exact Nat.succ_le_succ ih
  | _ => exact Nat.zero_le _

lemma newline_notMem_storeLine (k : ℕ) (s : List UInt8) : newline ∉ (storeLine k s).1 := by
  fun_induction storeLine k s with
  | case5 k c s h ih =>
    intro hmem
    rcases List.mem_cons.mp hmem with hc | hmem
    · exact h hc.symm
    · exact ih hmem
  | _ => exact List.not_mem_nil

/-- `fgets` takes a line with its newline. -/
lemma takeLine_line (hl : newline ∉ l) (hk : l.length < k) :
    takeLine k (l ++ newline :: s) = (l ++ [newline], s) := by
  induction l generalizing k with
  | nil =>
    obtain ⟨k, rfl⟩ := Nat.exists_eq_succ_of_ne_zero (Nat.ne_of_gt hk)
    simp [takeLine]
  | cons c l ih =>
    obtain ⟨hc, hl⟩ := List.ne_and_not_mem_of_not_mem_cons hl
    obtain ⟨k, rfl⟩ := Nat.exists_eq_succ_of_ne_zero (Nat.ne_of_gt (Nat.zero_lt_of_lt hk))
    simp [takeLine, Ne.symm hc, ih hl (Nat.lt_of_succ_lt_succ hk)]

/-- `fgets` takes the beginning of a line that is too long. -/
lemma takeLine_long (hl : newline ∉ l) (hk : k ≤ l.length) :
    takeLine k (l ++ s) = (l.take k, l.drop k ++ s) := by
  induction l generalizing k with
  | nil =>
    obtain rfl : k = 0 := Nat.le_zero.mp hk
    rfl
  | cons c l ih =>
    obtain ⟨hc, hl⟩ := List.ne_and_not_mem_of_not_mem_cons hl
    cases k with
    | zero => rfl
    | succ k => simp [takeLine, Ne.symm hc, ih hl (Nat.le_of_succ_le_succ hk)]

/-- `getline` stores a line without its newline. -/
lemma storeLine_line (hl : newline ∉ l) (hk : l.length ≤ k) :
    storeLine k (l ++ newline :: s) = (l, ⟨s, true⟩) := by
  induction l generalizing k with
  | nil => cases k <;> simp [storeLine]
  | cons c l ih =>
    obtain ⟨hc, hl⟩ := List.ne_and_not_mem_of_not_mem_cons hl
    obtain ⟨k, rfl⟩ := Nat.exists_eq_succ_of_ne_zero (Nat.ne_of_gt (Nat.zero_lt_of_lt hk))
    simp [storeLine, Ne.symm hc, ih hl (Nat.le_of_succ_le_succ hk)]

/-- `getline` stores the beginning of a line that is too long and fails. -/
lemma storeLine_long (hl : newline ∉ l) (hk : k < l.length) :
    storeLine k (l ++ s) = (l.take k, ⟨l.drop k ++ s, false⟩) := by
  induction l generalizing k with
  | nil => exact absurd hk (Nat.not_lt_zero k)
  | cons c l ih =>
    obtain ⟨hc, hl⟩ := List.ne_and_not_mem_of_not_mem_cons hl
    cases k with
    | zero => simp [storeLine, Ne.symm hc]
    | succ k => simp [storeLine, Ne.symm hc, ih hl (Nat.lt_of_succ_lt_succ hk)]

/-- `getline` stores a line that the end of the file ends. -/
lemma storeLine_eof (hl : newline ∉ l) (hk : l.length ≤ k) :
    storeLine k l = (l, ⟨[], false⟩) := by
  induction l generalizing k with
  | nil => cases k <;> rfl
  | cons c l ih =>
    obtain ⟨hc, hl⟩ := List.ne_and_not_mem_of_not_mem_cons hl
    obtain ⟨k, rfl⟩ := Nat.exists_eq_succ_of_ne_zero (Nat.ne_of_gt (Nat.zero_lt_of_lt hk))
    simp [storeLine, Ne.symm hc, ih hl (Nat.le_of_succ_le_succ hk)]

namespace Stream

/-- The line of `fgets(text, BUFFER_SIZE, stdin)`. -/
def fgetsLine (s : Stream) : InputLine bufferSize where
  bytes := (takeLine (bufferSize - 1) s.rest).1
  length_lt := Nat.lt_succ_of_le (length_takeLine_le (bufferSize - 1) s.rest)
  newline_last := newline_notMem_takeLine (bufferSize - 1) s.rest

/-- The line of `std::cin.getline(text, buffer)`. -/
def getlineLine (s : Stream) : InputLine bufferSize where
  bytes := (storeLine (bufferSize - 1) s.rest).1
  length_lt := Nat.lt_succ_of_le (length_storeLine_le (bufferSize - 1) s.rest)
  newline_last hmem :=
    newline_notMem_storeLine (bufferSize - 1) s.rest (List.dropLast_subset _ hmem)

/-- What a call of `fgets` or `getline` takes from standard input; `none` when it takes nothing. -/
def read (lang : Lang) (s : Stream) : Option (InputLine bufferSize) × Stream :=
  match lang with
  | .c =>
    if s.rest = [] then (none, s)
    else (some s.fgetsLine, { s with rest := (takeLine (bufferSize - 1) s.rest).2 })
  | .cpp =>
    if s.good = false ∨ s.rest = [] then (none, { s with good := false })
    else (some s.getlineLine, (storeLine (bufferSize - 1) s.rest).2)

/-- When nothing can be taken, nothing can be taken later. -/
lemma read_none {lang : Lang} {s : Stream} (h : (s.read lang).1 = none) :
    ((s.read lang).2.read lang).1 = none := by
  cases lang with
  | c =>
    by_cases hs : s.rest = []
    · simp [read, hs]
    · simp [read, hs] at h
  | cpp =>
    by_cases hs : s.good = false ∨ s.rest = []
    · simp [read, hs]
    · simp [read, hs] at h

end Stream

/-! ### The loop of a writer -/

/-- The loop of a writer on standard input and the text of the buffer. -/
def writerLoop (lang : Lang) : DoWhile (Stream × CharArray bufferSize) (List UInt8) where
  body s := ((s.1.read lang).2, enter lang s.2 (s.1.read lang).1)
  out s := s.2.text
  stop s := s.2.StartsZero

/-- The line that the call number `i` of `fgets` or `getline` takes. -/
def typed (lang : Lang) (stdin : List UInt8) (i : ℕ) : Option (InputLine bufferSize) :=
  (((fun s : Stream => (s.read lang).2)^[i] ⟨stdin, true⟩).read lang).1

/-- A writer with the standard input `stdin`. -/
def writer (lang : Lang) (stdin : List UInt8) : Machine (Queue × Writer) Unit where
  init := ([], (programs lang lang (typed lang stdin)).left₀)
  step s _ := Writer.run lang (typed lang stdin) s.1 s.2

/-- The writer leaves its loop after it has sent `texts`. -/
def Sends (lang : Lang) (stdin : List UInt8) (texts : List (List UInt8)) : Prop :=
  ∃ s, (writer lang stdin).Reach s ∧ s.2.loc = .left ∧ s.2.sent = texts

/-- The state in which the loop is entered. -/
def entered₀ (stdin : List UInt8) : Stream × CharArray bufferSize :=
  (⟨stdin, true⟩, MessageBuffer.zero.text)

/-- The state of the loop after `n` rounds. -/
def after (lang : Lang) (stdin : List UInt8) (n : ℕ) : Stream × CharArray bufferSize :=
  (writerLoop lang).body^[n] (entered₀ stdin)

variable {lang : Lang} {stdin : List UInt8} {w : Writer} {n : ℕ}

lemma after_fst (n : ℕ) :
    (after lang stdin n).1 = (fun s : Stream => (s.read lang).2)^[n] ⟨stdin, true⟩ := by
  induction n with
  | zero => rfl
  | succ n ih =>
    rw [after, Function.iterate_succ_apply', Function.iterate_succ_apply', ← ih]
    rfl

/-- The buffer after a round is what the program makes of the line. -/
lemma after_succ_snd (n : ℕ) :
    (after lang stdin (n + 1)).2 = enter lang (after lang stdin n).2 (typed lang stdin n) := by
  rw [after, Function.iterate_succ_apply', typed, ← after_fst]
  rfl

/-- None of the first `n` rounds is the last. -/
def Past (lang : Lang) (stdin : List UInt8) (n : ℕ) : Prop :=
  ∀ i < n, ¬ (after lang stdin (i + 1)).2.StartsZero

/-- The texts that the first `n` rounds send. -/
abbrev rounds (lang : Lang) (stdin : List UInt8) (n : ℕ) : List (List UInt8) :=
  (writerLoop lang).output (entered₀ stdin) n

/-- What holds at the program points of a writer: the buffer and the texts sent are those of the
loop. -/
def Refines (lang : Lang) (stdin : List UInt8) (w : Writer) : Prop :=
  match w.loc with
  | .start | .enter | .inside =>
    w.msg.text = (after lang stdin w.entered).2 ∧ w.sent = rounds lang stdin w.entered ∧
      Past lang stdin w.entered
  | .cut =>
    ∃ n, lang = .c ∧ w.entered = n + 1 ∧
      w.msg.text = fgets (after lang stdin n).2 (typed lang stdin n) ∧
      w.sent = rounds lang stdin n ∧ Past lang stdin n
  | .send =>
    ∃ n, w.entered = n + 1 ∧ w.msg.text = (after lang stdin (n + 1)).2 ∧
      w.sent = rounds lang stdin n ∧ Past lang stdin n
  | .test =>
    ∃ n, w.entered = n + 1 ∧ w.msg.text = (after lang stdin (n + 1)).2 ∧
      w.sent = rounds lang stdin (n + 1) ∧ Past lang stdin n
  | .left =>
    ∃ n, w.entered = n + 1 ∧ w.sent = rounds lang stdin (n + 1) ∧
      (writerLoop lang).EndsAt (entered₀ stdin) n

/-- The next round is not the last either. -/
lemma Past.succ (h : Past lang stdin n) (hn : ¬ (after lang stdin (n + 1)).2.StartsZero) :
    Past lang stdin (n + 1) := by
  intro i hi
  rcases Nat.lt_succ_iff_lt_or_eq.mp hi with hi | rfl
  · exact h i hi
  · exact hn

/-- A statement of the writer keeps to the loop. -/
lemma Refines.step {q q' : Queue} {w' : Writer} (h : Refines lang stdin w)
    (hm : WriterMove lang (typed lang stdin) q w w.loc q' w') : Refines lang stdin w' := by
  generalize hl : w.loc = l at hm
  cases hm with
  | start | enter =>
    simp only [Refines, hl] at h
    exact h
  | inside =>
    simp only [Refines, hl] at h
    obtain ⟨htext, hsent, hpast⟩ := h
    cases lang with
    | c => exact ⟨_, rfl, rfl, by simp [entry, htext], hsent, hpast⟩
    | cpp =>
      refine ⟨_, rfl, ?_, hsent, hpast⟩
      rw [after_succ_snd, ← htext]
      simp [entry, enter]
  | cut =>
    simp only [Refines, hl] at h
    obtain ⟨n, rfl, hentered, htext, hsent, hpast⟩ := h
    refine ⟨n, hentered, ?_, hsent, hpast⟩
    rw [after_succ_snd, MessageBuffer.text_setText, htext]
    rfl
  | send =>
    simp only [Refines, hl] at h
    obtain ⟨n, hentered, htext, hsent, hpast⟩ := h
    refine ⟨n, hentered, htext, ?_, hpast⟩
    show w.sent ++ [w.msg.text.text] = rounds lang stdin (n + 1)
    rw [hsent, htext, rounds, rounds, DoWhile.output_succ]
    rfl
  | testZero hz =>
    simp only [Refines, hl] at h
    obtain ⟨n, hentered, htext, hsent, hpast⟩ := h
    refine ⟨n, hentered, hsent, ?_, hpast⟩
    rw [htext] at hz
    exact hz
  | testOther hz =>
    simp only [Refines, hl] at h
    obtain ⟨n, hentered, htext, hsent, hpast⟩ := h
    rw [htext] at hz
    refine ⟨?_, ?_, ?_⟩
    · rw [hentered]
      exact htext
    · rw [hentered]
      exact hsent
    · rw [hentered]
      exact hpast.succ hz

/-- **The writer runs its loop.** -/
theorem refines {s : Queue × Writer} (h : (writer lang stdin).Reach s) :
    Refines lang stdin s.2 := by
  refine Machine.ReachIf.invariant (I := fun s => Refines lang stdin s.2) ?_ ?_ h
  · exact ⟨rfl, rfl, fun i hi => absurd hi (Nat.not_lt_zero i)⟩
  · rintro ⟨q, w⟩ _ ⟨q', w'⟩ _ hw _ hs
    exact hw.step (writer_cases hs)

/-- A round up to its test. -/
lemma reach_test {q : Queue} (h : (writer lang stdin).Reach (q, w)) (hl : w.loc = .enter) :
    ∃ q' w', (writer lang stdin).Reach (q', w') ∧ w'.loc = .test ∧ w'.entered = w.entered + 1 := by
  obtain ⟨loc, msg, entered, closed, sent, copied⟩ := w
  obtain rfl : loc = .enter := hl
  have hinside := h.next (a := ()) rfl
  cases lang with
  | c =>
    have hsend := (hinside.next (a := ()) rfl).next (a := ()) rfl
    exact ⟨_, _, hsend.next (a := ()) rfl, rfl, rfl⟩
  | cpp =>
    have hsend := hinside.next (a := ()) rfl
    exact ⟨_, _, hsend.next (a := ()) rfl, rfl, rfl⟩

/-- The writer comes to the round `n` if no round before is the last. -/
lemma reach_enter (h : Past lang stdin n) :
    ∃ q w, (writer lang stdin).Reach (q, w) ∧ w.loc = .enter ∧ w.entered = n := by
  induction n with
  | zero => exact ⟨_, _, Machine.Reach.next (a := ()) .init rfl, rfl, rfl⟩
  | succ n ih =>
    obtain ⟨q, w, hr, hl, rfl⟩ := ih fun i hi => h i (Nat.lt_succ_of_lt hi)
    obtain ⟨q, w', hr, hl, hentered⟩ := reach_test hr hl
    have hw := refines hr
    simp only [Refines, hl] at hw
    obtain ⟨n, hn, htext, -, -⟩ := hw
    obtain rfl : n = w.entered := Nat.succ.inj (hn.symm.trans hentered)
    have hz : ¬ w'.msg.text.StartsZero := by
      rw [htext]
      exact h _ (Nat.lt_succ_self _)
    refine ⟨q, { w' with loc := .enter }, hr.next (a := ()) ?_, rfl, hentered⟩
    simp [writer, Writer.run, hl, hz]

/-- **What a writer sends** before it leaves its loop are the outputs of `writerLoop`. -/
theorem sends_iff {texts : List (List UInt8)} :
    Sends lang stdin texts ↔ (writerLoop lang).Emits (entered₀ stdin) texts := by
  rw [DoWhile.emits_iff]
  constructor
  · rintro ⟨s, hr, hl, rfl⟩
    have hw := refines hr
    simp only [Refines, hl] at hw
    obtain ⟨n, -, hsent, hend⟩ := hw
    exact ⟨n, hend, hsent⟩
  · rintro ⟨n, hend, rfl⟩
    obtain ⟨q, w, hr, hl, rfl⟩ := reach_enter (n := n) hend.2
    obtain ⟨q, w', hr, hl, hentered⟩ := reach_test hr hl
    have hw := refines hr
    simp only [Refines, hl] at hw
    obtain ⟨n, hn, htext, hsent, -⟩ := hw
    obtain rfl : n = w.entered := Nat.succ.inj (hn.symm.trans hentered)
    have hz : w'.msg.text.StartsZero := by
      rw [htext]
      exact hend.1
    refine ⟨(q, { w' with loc := .left }), hr.next (a := ()) ?_, rfl, hsent⟩
    simp [writer, Writer.run, hl, hz]

end MessageQueue

end PosixIntro
