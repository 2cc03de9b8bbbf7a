import PosixIntro.MessageQueue.Texts

set_option relaxedAutoImplicit false
set_option autoImplicit false

/-!
# When the C and the C++ writer send the same texts

The two writers take the same standard input apart in different ways: `strtok` leaves an empty line
a newline, `fgets` leaves the rest of a long line for the next call, and `getline` fails on it for
good.

## Main definitions

* `LineInput` — standard input of lines, one of which begins with `'0'`.
* `SameTexts` — both writers leave their loops, after the same texts, the last of which is the first
  line that begins with `'0'`.
* `FitsBoth` — the lengths of lines on which the two readers agree.

## Main results

* `sameTexts_iff` — the texts are the same for exactly the inputs with `FitsBoth`.
* `not_sameTexts_empty` — they are not for an empty line.
-/

namespace PosixIntro

namespace MessageQueue

/-- Standard input made of lines without `NUL`, one of which begins with `'0'`. -/
structure LineInput where
  lines : List (List UInt8)
  newline_notMem : ∀ l ∈ lines, newline ∉ l
  nul_notMem : ∀ l ∈ lines, 0 ∉ l
  zero : ∃ l ∈ lines, BeginsZero l

/-- The lines with their newlines. -/
def joinLines (lines : List (List UInt8)) : List UInt8 := lines.flatMap (· ++ [newline])

/-- What is typed. -/
def LineInput.stdin (input : LineInput) : List UInt8 := joinLines input.lines

/-- Both writers leave their loops after they have sent the same texts, and the last one is the
first line that begins with `'0'`. -/
def SameTexts (input : LineInput) : Prop :=
  ∃ texts, Sends .c input.stdin texts ∧ Sends .cpp input.stdin texts ∧
    texts.getLast? = input.lines.find? (BeginsZero ·)

/-- The lines before the first one that begins with `'0'` have 1 to 18 characters, and it has at
most 19. -/
def FitsBoth (lines : List (List UInt8)) : Prop :=
  (∀ l ∈ lines.takeWhile (¬ BeginsZero ·), l ≠ [] ∧ l.length + 1 < bufferSize) ∧
    ∀ l ∈ lines.find? (BeginsZero ·), l.length < bufferSize

variable {lang : Lang} {l : List UInt8} {lines : List (List UInt8)} {s s' : Stream}
  {buf bufC bufCpp : CharArray bufferSize} {line : InputLine bufferSize}
  {texts : List (List UInt8)}

@[simp] lemma joinLines_cons : joinLines (l :: lines) = l ++ newline :: joinLines lines := by
  simp [joinLines]

/-! ### Rounds of the loop -/

/-- The loop ends with a line that begins with `'0'`. -/
lemma emits_zero (h : s.read lang = (some line, s')) (hz : line.StartsZero) :
    (writerLoop lang).Emits (s, buf) texts ↔ texts = [lineText lang line] := by
  have hstop : (writerLoop lang).stop ((writerLoop lang).body (s, buf)) := by
    simpa [writerLoop, h] using (startsZero_enter buf line).mpr hz
  rw [DoWhile.emits_of_stop hstop]
  simp only [writerLoop, h, text_enter]

/-- With another line it goes on. -/
lemma emits_other (h : s.read lang = (some line, s')) (hz : ¬ line.StartsZero) :
    (writerLoop lang).Emits (s, buf) texts ↔ ∃ ts, texts = lineText lang line :: ts ∧
      (writerLoop lang).Emits (s', enter lang buf (some line)) ts := by
  have hstop : ¬ (writerLoop lang).stop ((writerLoop lang).body (s, buf)) := by
    simpa [writerLoop, h] using fun hz' => hz ((startsZero_enter buf line).mp hz')
  rw [DoWhile.emits_of_not_stop hstop]
  simp only [writerLoop, h, text_enter]

/-- A text sent in C++ has no newline. -/
lemma newline_notMem_of_emits {t : List UInt8} (h : (writerLoop .cpp).Emits (s, buf) (t :: texts)) :
    newline ∉ t := by
  obtain ⟨ts, heq⟩ := h.exists_cons
  obtain ⟨rfl, -⟩ := List.cons.inj heq
  intro hmem
  cases hread : (s.read .cpp).1 with
  | none =>
    have hnil : ([] : List UInt8).length < bufferSize := by decide
    have htext : (enter .cpp buf none).text = [] := CharArray.text_overlay hnil
    simp [writerLoop, hread, htext] at hmem
  | some line =>
    simp only [writerLoop, hread, text_enter, lineText, InputLine.text] at hmem
    have hfilter := List.of_mem_filter ((List.takeWhile_prefix _).subset hmem)
    simp at hfilter

/-! ### Induction on the lines -/

/-- Both loops end, after the same texts, the last of which is the first line that begins with
`'0'`. -/
def SameFrom (lines : List (List UInt8)) (bufC bufCpp : CharArray bufferSize) : Prop :=
  ∃ texts, (writerLoop .c).Emits (⟨joinLines lines, true⟩, bufC) texts ∧
    (writerLoop .cpp).Emits (⟨joinLines lines, true⟩, bufCpp) texts ∧
    texts.getLast? = lines.find? (BeginsZero ·)

/-- A line that begins with `'0'` is the last one, and its text is complete if it fits. -/
lemma sameFrom_zero (hl : newline ∉ l) (h0 : 0 ∉ l) (hz : BeginsZero l) :
    SameFrom (l :: lines) bufC bufCpp ↔ FitsBoth (l :: lines) := by
  have hne : l ≠ [] := by
    rintro rfl
    cases hz
  obtain ⟨c, sC, hc, htextC, hzC, -, -⟩ := read_c (joinLines lines) true hne hl
  obtain ⟨d, sCpp, hd, htextCpp, hzCpp, -, -⟩ := read_cpp (joinLines lines) hl
  have hfits : FitsBoth (l :: lines) ↔ l.length < bufferSize := by simp [FitsBoth, hz]
  rw [hfits, SameFrom, joinLines_cons]
  simp only [emits_zero hc (hzC.mpr hz), emits_zero hd (hzCpp.mpr hz), htextC h0,
    htextCpp h0]
  constructor
  · rintro ⟨_, rfl, -, hlast⟩
    have htake : l.take (bufferSize - 1) = l := by simpa [hz] using hlast
    have hlen := congrArg List.length htake
    rw [List.length_take] at hlen
    exact Nat.lt_succ_of_le (hlen ▸ Nat.min_le_left _ _)
  · intro hlt
    refine ⟨_, rfl, rfl, ?_⟩
    rw [List.take_of_length_le (Nat.le_sub_one_of_lt hlt)]
    simp [hz]

/-- Another line that fits both readers is sent by both. -/
lemma sameFrom_line (hl : newline ∉ l) (h0 : 0 ∉ l) (hz : ¬ BeginsZero l) (hne : l ≠ [])
    (hfits : l.length + 1 < bufferSize) :
    ∃ bufC' bufCpp', SameFrom (l :: lines) bufC bufCpp ↔ SameFrom lines bufC' bufCpp' := by
  obtain ⟨c, sC, hc, htextC, hzC, hsC, -⟩ := read_c (joinLines lines) true hne hl
  obtain ⟨d, sCpp, hd, htextCpp, hzCpp, hsCpp, -⟩ := read_cpp (joinLines lines) hl
  obtain rfl := hsC hfits
  obtain rfl := hsCpp (Nat.lt_of_succ_lt hfits)
  refine ⟨enter .c bufC (some c), enter .cpp bufCpp (some d), ?_⟩
  have hlast : ∀ {ts : List (List UInt8)} {t},
      (writerLoop .c).Emits (⟨joinLines lines, true⟩, enter .c bufC (some c)) ts →
      (t :: ts).getLast? = ts.getLast? := by
    intro ts t hts
    obtain ⟨ts', rfl⟩ := hts.exists_cons
    rfl
  have hfind : (l :: lines).find? (BeginsZero ·) = lines.find? (BeginsZero ·) := by simp [hz]
  rw [SameFrom, SameFrom, joinLines_cons, hfind]
  simp only [emits_other hc fun h => hz (hzC.mp h), emits_other hd fun h => hz (hzCpp.mp h),
    htextC h0, htextCpp h0]
  constructor
  · rintro ⟨_, ⟨ts, rfl, hts⟩, ⟨ts', heq, hts'⟩, hend⟩
    obtain ⟨-, rfl⟩ := List.cons.inj heq
    exact ⟨ts, hts, hts', (hlast hts).symm.trans hend⟩
  · rintro ⟨ts, hts, hts', hend⟩
    exact ⟨_, ⟨ts, rfl, hts⟩, ⟨ts, rfl, hts'⟩, (hlast hts).trans hend⟩

/-- An empty line is sent differently. -/
lemma not_sameFrom_empty : ¬ SameFrom ([] :: lines) bufC bufCpp := by
  rintro ⟨texts, hC, hCpp, -⟩
  obtain ⟨c, hc, htextC, hzC⟩ := read_c_empty (joinLines lines) true
  rw [joinLines_cons, List.nil_append] at hC hCpp
  obtain ⟨ts, rfl, -⟩ := (emits_other hc hzC).mp hC
  rw [htextC] at hCpp
  exact newline_notMem_of_emits hCpp List.mem_cons_self

/-- A line that does not fit both readers is sent differently. -/
lemma not_sameFrom_long (hl : newline ∉ l) (hz : ¬ BeginsZero l) (hne : l ≠ [])
    (hlong : bufferSize ≤ l.length + 1) : ¬ SameFrom (l :: lines) bufC bufCpp := by
  rintro ⟨texts, hC, hCpp, -⟩
  rw [joinLines_cons] at hC hCpp
  obtain ⟨c, sC, hc, -, hzC, -, hsC⟩ := read_c (joinLines lines) true hne hl
  obtain ⟨d, sCpp, hd, -, hzCpp, hsCpp, hfail⟩ := read_cpp (joinLines lines) hl
  obtain ⟨ts, rfl, hts⟩ := (emits_other hc fun h => hz (hzC.mp h)).mp hC
  obtain ⟨ts', heq, hts'⟩ := (emits_other hd fun h => hz (hzCpp.mp h)).mp hCpp
  obtain ⟨-, rfl⟩ := List.cons.inj heq
  rcases Nat.lt_or_ge l.length bufferSize with hlt | hge
  · -- 19 characters: `fgets` leaves the newline, which is sent as a text of its own
    have hdrop : l.drop (bufferSize - 1) = [] :=
      List.drop_eq_nil_of_le (Nat.le_sub_one_of_lt hlt)
    rw [hsC hlong, hdrop, List.nil_append] at hts
    obtain ⟨c, hc, htextC, hzC⟩ := read_c_empty (joinLines lines) true
    obtain ⟨ts, rfl, -⟩ := (emits_other hc hzC).mp hts
    rw [htextC] at hts'
    exact newline_notMem_of_emits hts' List.mem_cons_self
  · exact not_emits_failed (hfail hge) hts'

/-- Both loops send the same exactly for lines that fit both readers. -/
lemma sameFrom_iff (hl : ∀ l ∈ lines, newline ∉ l) (h0 : ∀ l ∈ lines, 0 ∉ l)
    (hzero : ∃ l ∈ lines, BeginsZero l) : SameFrom lines bufC bufCpp ↔ FitsBoth lines := by
  induction lines generalizing bufC bufCpp with
  | nil => exact absurd hzero (by simp)
  | cons l lines ih =>
    obtain ⟨hnl, hl⟩ := List.forall_mem_cons.mp hl
    obtain ⟨hn0, h0⟩ := List.forall_mem_cons.mp h0
    by_cases hz : BeginsZero l
    · exact sameFrom_zero hnl hn0 hz
    have hzero' : ∃ l ∈ lines, BeginsZero l := by simpa [hz] using hzero
    have hfits : FitsBoth (l :: lines) ↔
        (l ≠ [] ∧ l.length + 1 < bufferSize) ∧ FitsBoth lines := by
      simp [FitsBoth, hz, and_assoc]
    rw [hfits]
    by_cases hne : l = []
    · subst hne
      exact iff_of_false not_sameFrom_empty fun h => h.1.1 rfl
    · rcases Nat.lt_or_ge (l.length + 1) bufferSize with hlt | hge
      · obtain ⟨bufC', bufCpp', hiff⟩ := sameFrom_line hnl hn0 hz hne hlt
        rw [hiff, ih hl h0 hzero']
        exact ⟨fun h => ⟨⟨hne, hlt⟩, h⟩, fun h => h.2⟩
      · exact iff_of_false (not_sameFrom_long hnl hz hne hge) fun h =>
          absurd h.1.2 (Nat.not_lt.mpr hge)

/-- The texts of the programs are those of the loops. -/
lemma sameTexts_iff_sameFrom (input : LineInput) :
    SameTexts input ↔ SameFrom input.lines MessageBuffer.zero.text MessageBuffer.zero.text := by
  simp only [SameTexts, sends_iff]
  rfl

/-- **When the C and the C++ writer send the same texts**: for exactly the inputs whose lines have 1
to 18 characters before the first one that begins with `'0'`, and at most 19 in that one. -/
theorem sameTexts_iff (input : LineInput) : SameTexts input ↔ FitsBoth input.lines :=
  (sameTexts_iff_sameFrom input).trans
    (sameFrom_iff input.newline_notMem input.nul_notMem input.zero)

/-- An empty line, and `0`. -/
def emptyThenZero : LineInput := ⟨[[], [48]], by decide, by decide, ⟨[48], by decide, by decide⟩⟩

/-- The C writer sends the empty line as a newline. -/
theorem not_sameTexts_empty : ¬ ∀ input, SameTexts input := fun h =>
  not_sameFrom_empty ((sameTexts_iff_sameFrom emptyThenZero).mp (h emptyThenZero))

end MessageQueue

end PosixIntro
