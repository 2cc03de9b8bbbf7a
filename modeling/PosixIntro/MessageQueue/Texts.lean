import Mathlib.Data.List.TakeWhile
import PosixIntro.MessageQueue.Input

set_option relaxedAutoImplicit false
set_option autoImplicit false

/-!
# The text that a line becomes

## Main definitions

* `cutNewline` — what `strtok(text, "\n")` makes of a text.
* `lineText` — the text that is sent for a line.

## Main results

* `text_strtokNewline` — `strtok` cuts the text where its first token ends.
* `text_enter` — the text sent for a line does not depend on what the buffer held before.
* `not_emits_failed` — the C++ loop does not end when the stream has failed.
* `read_c`, `read_c_empty`, `read_cpp` — what is read and sent of a line of standard input.
-/

namespace PosixIntro

namespace MessageQueue

variable {l s : List UInt8} {lang : Lang}

/-- A text with what follows its first token cut off. -/
def cutNewline (t : List UInt8) : List UInt8 := t.take (tokenEnd t)

/-! ### The first token -/

/-- What is taken while a test holds, when it holds up to a first element for which it does not. -/
lemma takeWhile_append_of_head {α : Type*} {p : α → Bool} {u rest : List α} (hu : ∀ c ∈ u, p c)
    (hrest : ∀ c ∈ rest.head?, p c = false) : (u ++ rest).takeWhile p = u := by
  rw [List.takeWhile_append_of_pos hu]
  cases rest with
  | nil => simp
  | cons c rest => simp [hrest c rfl]

/-- A list with its leading newlines, its first token and the rest told apart. -/
structure Token (s a b c : List UInt8) : Prop where
  eq : s = a ++ (b ++ c)
  newlines : ∀ x ∈ a, x = newline
  token : ∀ x ∈ b, x ≠ newline ∧ x ≠ 0
  head : ∀ x ∈ (b ++ c).head?, x ≠ newline
  rest : ∀ x ∈ c.head?, x = newline ∨ x = 0

variable {a b c : List UInt8}

/-- The place where the token ends. -/
lemma Token.tokenEnd_eq (h : Token s a b c) : tokenEnd s = a.length + b.length := by
  obtain ⟨rfl, ha, hb, hhead, hrest⟩ := h
  have hskip : (a ++ (b ++ c)).takeWhile (· = newline) = a :=
    takeWhile_append_of_head (by simpa using ha) (by simpa using hhead)
  have htoken : (b ++ c).takeWhile (fun x => x ≠ newline ∧ x ≠ 0) = b := by
    refine takeWhile_append_of_head (by simpa using hb) fun x hx => ?_
    rcases hrest x hx with rfl | rfl <;> simp
  simp only [tokenEnd, hskip, List.drop_left, htoken]

/-- Every list can be told apart. -/
lemma exists_token (s : List UInt8) : ∃ a b c, Token s a b c := by
  refine ⟨s.takeWhile (· = newline),
    (s.dropWhile (· = newline)).takeWhile (fun x => x ≠ newline ∧ x ≠ 0),
    (s.dropWhile (· = newline)).dropWhile (fun x => x ≠ newline ∧ x ≠ 0), ?_, ?_, ?_, ?_, ?_⟩
  · rw [List.takeWhile_append_dropWhile, List.takeWhile_append_dropWhile]
  · exact fun x hx => by simpa using List.mem_takeWhile_imp hx
  · exact fun x hx => by simpa using List.mem_takeWhile_imp hx
  · intro x hx
    rw [List.takeWhile_append_dropWhile] at hx
    have hnot := List.head?_dropWhile_not (fun x : UInt8 => decide (x = newline)) s
    rw [Option.mem_def.mp hx] at hnot
    simpa using hnot
  · intro x hx
    have hnot := List.head?_dropWhile_not
      (fun x : UInt8 => decide (x ≠ newline ∧ x ≠ 0)) (s.dropWhile (· = newline))
    rw [Option.mem_def.mp hx] at hnot
    have hor : ¬ (x ≠ newline ∧ x ≠ 0) := of_decide_eq_false hnot
    by_cases hx : x = newline
    · exact .inl hx
    · exact .inr (not_not.mp fun hne => hor ⟨hx, hne⟩)

/-- The text of a list, up to its first `NUL`, has the same first token. -/
lemma Token.takeWhile (h : Token s a b c) :
    Token (s.takeWhile (· ≠ 0)) a b (c.takeWhile (· ≠ 0)) := by
  obtain ⟨rfl, ha, hb, hhead, hrest⟩ := h
  have hhead' : ∀ x ∈ (c.takeWhile (· ≠ 0)).head?, x ∈ c.head? := by
    intro x hx
    rw [List.head?_takeWhile] at hx
    exact (Option.filter_eq_some_iff.mp hx).1
  refine ⟨?_, ha, hb, ?_, fun x hx => hrest x (hhead' x hx)⟩
  · rw [List.takeWhile_append_of_pos, List.takeWhile_append_of_pos]
    · exact fun x hx => by simpa using (hb x hx).2
    · intro x hx
      rw [ha x hx]
      decide
  · cases b with
    | nil => exact fun x hx => hhead x (hhead' x hx)
    | cons y b => exact hhead

/-- What is left when the text is cut at the end of its first token. -/
lemma Token.cutNewline_eq (h : Token s a b c) : cutNewline s = a ++ b := by
  rw [cutNewline, h.tokenEnd_eq, h.eq, ← List.append_assoc, ← List.length_append, List.take_left]

section Strtok

variable {n : ℕ} {buf : CharArray n}

/-- `strtok` leaves the newlines and the token alone. -/
lemma Token.take_strtokNewline (h : Token (List.ofFn buf) a b c) :
    (List.ofFn (strtokNewline buf)).take (a ++ b).length = a ++ b := by
  have hend : tokenEnd (List.ofFn buf) = (a ++ b).length := by
    rw [h.tokenEnd_eq, List.length_append]
  have htake : (List.ofFn buf).take (a ++ b).length = a ++ b := by
    rw [h.eq, ← List.append_assoc, List.take_left]
  refine Eq.trans (List.ext_getElem (by simp) fun i hi _ => ?_) htake
  have hi' : i < (a ++ b).length := by
    rw [List.length_take] at hi
    omega
  rw [List.getElem_take, List.getElem_take, List.getElem_ofFn, List.getElem_ofFn]
  exact if_neg fun hcut => Nat.ne_of_lt hi' (hcut.1.trans hend)

/-- Then the token is followed by a `NUL`, or the buffer ends. -/
lemma Token.head_drop_strtokNewline (h : Token (List.ofFn buf) a b c) :
    ∀ x ∈ ((List.ofFn (strtokNewline buf)).drop (a ++ b).length).head?, x = 0 := by
  have hend : tokenEnd (List.ofFn buf) = (a ++ b).length := by
    rw [h.tokenEnd_eq, List.length_append]
  have hdrop : (List.ofFn buf).drop (a ++ b).length = c := by
    rw [h.eq, ← List.append_assoc, List.drop_left]
  intro x hx
  rw [List.head?_drop, Option.mem_def, List.getElem?_eq_some_iff] at hx
  obtain ⟨hi, rfl⟩ := hx
  have hi' : (a ++ b).length < n := by simpa using hi
  have hget : c.head? = some (buf ⟨(a ++ b).length, hi'⟩) := by
    rw [← hdrop, List.head?_drop, List.getElem?_ofFn, dif_pos hi']
  rw [List.getElem_ofFn, strtokNewline]
  rcases h.rest _ hget with hx | hx
  · exact if_pos ⟨hend.symm, hx⟩
  · rw [hx, ite_self]

/-- **What `strtok` does**: the text of the buffer is cut at the end of its first token. -/
theorem text_strtokNewline (buf : CharArray n) :
    (strtokNewline buf).text = cutNewline buf.text := by
  obtain ⟨a, b, c, h⟩ := exists_token (List.ofFn buf)
  have htext : (strtokNewline buf).text = a ++ b := by
    rw [CharArray.text, ← List.take_append_drop (a ++ b).length (List.ofFn (strtokNewline buf)),
      h.take_strtokNewline]
    refine takeWhile_append_of_head (fun x hx => ?_) fun x hx => ?_
    · rcases List.mem_append.mp hx with hx | hx
      · rw [h.newlines x hx]
        decide
      · simpa using (h.token x hx).2
    · rw [h.head_drop_strtokNewline x hx]
      decide
  rw [htext, CharArray.text, h.takeWhile.cutNewline_eq]

end Strtok

/-! ### The texts of lines -/

/-- The text that is sent for a line. -/
def lineText (lang : Lang) (line : InputLine bufferSize) : List UInt8 :=
  match lang with
  | .c => cutNewline (line.bytes.takeWhile (· ≠ 0))
  | .cpp => line.text

/-- **The text sent for a line** does not depend on the buffer. -/
theorem text_enter (buf : CharArray bufferSize) (line : InputLine bufferSize) :
    (enter lang buf (some line)).text = lineText lang line := by
  cases lang with
  | c => rw [enter, text_strtokNewline, fgets, CharArray.text_overlay line.length_lt, lineText]
  | cpp => exact text_getline buf line

/-- A message begins with `'0'` when its line does. -/
lemma startsZero_enter (buf : CharArray bufferSize) (line : InputLine bufferSize) :
    (enter lang buf (some line)).StartsZero ↔ line.StartsZero := by
  cases lang with
  | c => exact (startsZero_strtokNewline _).trans (startsZero_fgets buf line)
  | cpp => exact startsZero_getline buf line

/-- When nothing can be taken, C++ stores an empty text. -/
lemma not_startsZero_none (buf : CharArray bufferSize) : ¬ (enter .cpp buf none).StartsZero :=
  fun h => by
    have hz : ([] : List UInt8).head? = some charZero := CharArray.startsZero_overlay.mp h
    cases hz

/-- **A failed stream keeps the C++ loop going.** -/
theorem not_emits_failed {s : Stream} {buf : CharArray bufferSize} {texts : List (List UInt8)}
    (h : s.good = false) : ¬ (writerLoop .cpp).Emits (s, buf) texts := by
  refine DoWhile.not_emits (I := fun x => x.1.good = false) ?_ h
  intro x hx
  have hread : x.1.read .cpp = (none, { x.1 with good := false }) := if_pos (.inl hx)
  simp only [writerLoop, hread]
  exact ⟨trivial, not_startsZero_none x.2⟩

/-- A line that holds no `NUL` is its own text. -/
lemma takeWhile_of_notMem (h : 0 ∉ l) : l.takeWhile (· ≠ 0) = l := by
  rw [List.takeWhile_eq_self_iff]
  rintro x hx
  have hne : x ≠ 0 := fun h0 => h (h0 ▸ hx)
  simpa using hne

/-- A line is cut before its newline. -/
lemma cutNewline_line (hne : l ≠ []) (hl : newline ∉ l) (h0 : 0 ∉ l) :
    cutNewline (l ++ [newline]) = l := by
  have htoken : Token (l ++ [newline]) [] l [newline] := by
    refine ⟨rfl, nofun, fun x hx => ⟨fun h => hl (h ▸ hx), fun h => h0 (h ▸ hx)⟩, ?_, ?_⟩
    · obtain ⟨x, l, rfl⟩ := List.exists_cons_of_ne_nil hne
      rintro y hy rfl
      have hxy : x = newline := by simpa using hy
      exact hl (hxy ▸ List.mem_cons_self)
    · exact fun x hx => .inl (by simpa using hx.symm)
  exact htoken.cutNewline_eq

/-- A text without a newline is not cut. -/
lemma cutNewline_of_notMem (hl : newline ∉ l) (h0 : 0 ∉ l) : cutNewline l = l := by
  have htoken : Token l [] l [] := by
    refine ⟨by simp, nofun, fun x hx => ⟨fun h => hl (h ▸ hx), fun h => h0 (h ▸ hx)⟩, ?_, nofun⟩
    intro x hx h
    rw [List.append_nil] at hx
    exact hl (h ▸ List.mem_of_mem_head? hx)
  exact htoken.cutNewline_eq

/-! ### Lines of standard input -/

/-- The line begins with `'0'`. -/
def BeginsZero (l : List UInt8) : Prop := l.head? = some charZero

instance (l : List UInt8) : Decidable (BeginsZero l) := inferInstanceAs (Decidable (_ = _))

variable {rest : List UInt8} {good : Bool}

lemma read_c_eq (h : rest ≠ []) : Stream.read .c ⟨rest, good⟩ =
    (some (Stream.fgetsLine ⟨rest, good⟩), ⟨(takeLine (bufferSize - 1) rest).2, good⟩) :=
  if_neg h

lemma read_cpp_eq (h : rest ≠ []) : Stream.read .cpp ⟨rest, true⟩ =
    (some (Stream.getlineLine ⟨rest, true⟩), (storeLine (bufferSize - 1) rest).2) :=
  if_neg (not_or_intro nofun h)

/-- What `fgets` takes begins as standard input does. -/
lemma startsZero_fgetsLine (s : Stream) : s.fgetsLine.StartsZero ↔ BeginsZero s.rest := by
  have htake : ∀ k t, (takeLine (k + 1) t).1.head? = t.head? := by
    intro k t
    cases t with
    | nil => rfl
    | cons c t =>
      simp only [takeLine]
      split_ifs <;> rfl
  exact iff_of_eq (congrArg (· = some charZero) (htake (bufferSize - 2) s.rest))

/-- So does what `getline` stores, if it begins with `'0'`. -/
lemma startsZero_getlineLine (s : Stream) : s.getlineLine.StartsZero ↔ BeginsZero s.rest := by
  have hstore : ∀ k t,
      (storeLine (k + 1) t).1.head? = some charZero ↔ t.head? = some charZero := by
    intro k t
    cases t with
    | nil => rfl
    | cons c t =>
      simp only [storeLine]
      split_ifs with hc
      · subst hc
        exact iff_of_false (by simp) fun h => absurd (Option.some.inj h) (by decide)
      · rfl
  exact hstore (bufferSize - 2) s.rest

lemma beginsZero_append (hne : l ≠ []) : BeginsZero (l ++ s) ↔ BeginsZero l := by
  obtain ⟨x, l', rfl⟩ := List.exists_cons_of_ne_nil hne
  exact Iff.rfl

/-- What `fgets` reads of a line that is not empty. -/
lemma read_c (rest : List UInt8) (good : Bool) (hne : l ≠ []) (hl : newline ∉ l) :
    ∃ line s', Stream.read .c ⟨l ++ newline :: rest, good⟩ = (some line, s') ∧
      (0 ∉ l → lineText .c line = l.take (bufferSize - 1)) ∧ (line.StartsZero ↔ BeginsZero l) ∧
      (l.length + 1 < bufferSize → s' = ⟨rest, good⟩) ∧
      (bufferSize ≤ l.length + 1 → s' = ⟨l.drop (bufferSize - 1) ++ newline :: rest, good⟩) := by
  have hzero := (startsZero_fgetsLine ⟨l ++ newline :: rest, good⟩).trans (beginsZero_append hne)
  refine ⟨_, _, read_c_eq (by simp), ?_⟩
  rcases Nat.lt_or_ge (l.length + 1) bufferSize with hlt | hge
  · have htake := takeLine_line (s := rest) hl (Nat.lt_sub_of_add_lt hlt)
    have hbytes : (Stream.fgetsLine ⟨l ++ newline :: rest, good⟩).bytes = l ++ [newline] :=
      congrArg Prod.fst htake
    refine ⟨fun h0 => ?_, hzero, fun _ => ?_, fun hle => absurd hlt (Nat.not_lt.mpr hle)⟩
    · have hnul : 0 ∉ l ++ [newline] := by simpa [newline] using h0
      rw [lineText, hbytes, takeWhile_of_notMem hnul, cutNewline_line hne hl h0,
        List.take_of_length_le (Nat.le_of_lt (Nat.lt_sub_of_add_lt hlt))]
    · rw [htake]
  · have htake := takeLine_long (s := newline :: rest) hl (Nat.sub_le_of_le_add hge)
    have hbytes : (Stream.fgetsLine ⟨l ++ newline :: rest, good⟩).bytes =
        l.take (bufferSize - 1) := congrArg Prod.fst htake
    have hl' : newline ∉ l.take (bufferSize - 1) := fun h => hl (List.mem_of_mem_take h)
    refine ⟨fun h0 => ?_, hzero, fun hlt => absurd hlt (Nat.not_lt.mpr hge), fun _ => ?_⟩
    · have h0' : 0 ∉ l.take (bufferSize - 1) := fun h => h0 (List.mem_of_mem_take h)
      rw [lineText, hbytes, takeWhile_of_notMem h0', cutNewline_of_notMem hl' h0']
    · rw [htake]

/-- An empty line is read and sent as a newline. -/
lemma read_c_empty (rest : List UInt8) (good : Bool) :
    ∃ line, Stream.read .c ⟨newline :: rest, good⟩ = (some line, ⟨rest, good⟩) ∧
      lineText .c line = [newline] ∧ ¬ line.StartsZero := by
  have htake := takeLine_line (l := []) (s := rest) (k := bufferSize - 1) List.not_mem_nil
    (by decide)
  have hbytes : (Stream.fgetsLine ⟨newline :: rest, good⟩).bytes = [newline] :=
    congrArg Prod.fst htake
  have hleft : (takeLine (bufferSize - 1) (newline :: rest)).2 = rest := congrArg Prod.snd htake
  refine ⟨Stream.fgetsLine ⟨newline :: rest, good⟩, ?_, ?_, ?_⟩
  · rw [read_c_eq (List.cons_ne_nil _ _), hleft]
  · rw [lineText, hbytes]
    decide
  · rw [InputLine.StartsZero, hbytes]
    decide

/-- What `getline` reads of a line. -/
lemma read_cpp (rest : List UInt8) (hl : newline ∉ l) :
    ∃ line s', Stream.read .cpp ⟨l ++ newline :: rest, true⟩ = (some line, s') ∧
      (0 ∉ l → lineText .cpp line = l.take (bufferSize - 1)) ∧
      (line.StartsZero ↔ BeginsZero l) ∧
      (l.length < bufferSize → s' = ⟨rest, true⟩) ∧ (bufferSize ≤ l.length → s'.good = false) := by
  have htext : ∀ t : List UInt8, newline ∉ t → 0 ∉ t →
      (t.filter (· ≠ newline)).takeWhile (· ≠ 0) = t := by
    intro t ht ht0
    rw [List.filter_eq_self.mpr, takeWhile_of_notMem ht0]
    intro x hx
    have hne : x ≠ newline := fun h => ht (h ▸ hx)
    simpa using hne
  have hzero : (Stream.getlineLine ⟨l ++ newline :: rest, true⟩).StartsZero ↔ BeginsZero l := by
    rw [startsZero_getlineLine]
    cases l with
    | nil => exact iff_of_false (fun h => absurd (Option.some.inj h) (by decide)) nofun
    | cons => exact Iff.rfl
  refine ⟨_, _, read_cpp_eq (by simp), ?_⟩
  rcases Nat.lt_or_ge l.length bufferSize with hlt | hge
  · have hstore := storeLine_line (s := rest) hl (Nat.le_sub_one_of_lt hlt)
    have hbytes : (Stream.getlineLine ⟨l ++ newline :: rest, true⟩).bytes = l :=
      congrArg Prod.fst hstore
    refine ⟨fun h0 => ?_, hzero, fun _ => ?_, fun hge => absurd hlt (Nat.not_lt.mpr hge)⟩
    · rw [lineText, InputLine.text, hbytes, htext l hl h0,
        List.take_of_length_le (Nat.le_sub_one_of_lt hlt)]
    · rw [hstore]
  · have hstore := storeLine_long (s := newline :: rest) hl
      (Nat.lt_of_lt_of_le (by decide : bufferSize - 1 < bufferSize) hge)
    have hbytes : (Stream.getlineLine ⟨l ++ newline :: rest, true⟩).bytes =
        l.take (bufferSize - 1) := congrArg Prod.fst hstore
    refine ⟨fun h0 => ?_, hzero, fun hlt => absurd hlt (Nat.not_lt.mpr hge), fun _ => ?_⟩
    · rw [lineText, InputLine.text, hbytes]
      exact htext _ (fun h => hl (List.mem_of_mem_take h)) fun h => h0 (List.mem_of_mem_take h)
    · rw [hstore]

end MessageQueue

end PosixIntro
