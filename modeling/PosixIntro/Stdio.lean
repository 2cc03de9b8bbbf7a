import Mathlib.Algebra.GroupWithZero.Nat
import Mathlib.Tactic.Common

set_option relaxedAutoImplicit false
set_option autoImplicit false

/-!
# Characters, buffers and standard input

What the programs of `ipc/` use of the standard library's strings and input.

## Main definitions

* `Lang` — which of two sibling programs, the C or the C++ one.
* `fgetc` — a character of standard input as it is stored in a `char`.
* `CharArray`, `CharArray.overlay` — a `char` array, and writing over its first characters.
* `InputLine`, `fgets`, `strtokNewline`, `getline` — a line of standard input and what C and C++
  make of it.
* `CharArray.StartsZero`, `CharArray.StartsDone` — the two kinds of terminators.
-/

namespace PosixIntro

/-- The C program or its C++ sibling. -/
inductive Lang where
  | c
  | cpp
  deriving DecidableEq

/-- The character `'0'`, which ends the dialogues of all programs but the sockets. -/
def charZero : UInt8 := 48

/-- `EOF` (`-1`), stored in a `char`. -/
def charEof : UInt8 := 255

lemma charEof_ne_charZero : charEof ≠ charZero := by decide

/-- `(char)fgetc(stdin)`: the character stored and what is left of standard input. -/
def fgetc : List UInt8 → UInt8 × List UInt8
  | [] => (charEof, [])
  | c :: rest => (c, rest)

/-- The character that the call number `i` of `fgetc` stores. -/
def charAt (stdin : List UInt8) (i : ℕ) : UInt8 := (fgetc (stdin.drop i)).1

/-- The call number `i` of `fgetc` leaves what follows its character. -/
lemma fgetc_drop (stdin : List UInt8) (i : ℕ) :
    fgetc (stdin.drop i) = (charAt stdin i, stdin.drop (i + 1)) := by
  have hrest : (fgetc (stdin.drop i)).2 = (stdin.drop i).drop 1 := by
    cases stdin.drop i <;> rfl
  rw [List.drop_drop] at hrest
  rw [← hrest]
  rfl

/-- Before its end, the characters are those of standard input. -/
lemma charAt_eq_getElem {stdin : List UInt8} {i : ℕ} (h : i < stdin.length) :
    charAt stdin i = stdin[i] := by
  rw [charAt, List.drop_eq_getElem_cons h]
  rfl

/-- Past its end, the characters are `(char)EOF`. -/
lemma charAt_eq_eof {stdin : List UInt8} {i : ℕ} (h : stdin.length ≤ i) :
    charAt stdin i = charEof := by
  rw [charAt, List.drop_eq_nil_of_le h]
  rfl

/-- The first `'0'` of standard input is at position `p`. -/
structure FirstZero (stdin : List UInt8) (p : ℕ) : Prop where
  /-- The character at `p` is `'0'`. -/
  here : charAt stdin p = charZero
  /-- No character before `p` is. -/
  before : ∀ i < p, charAt stdin i ≠ charZero

/-- A `'0'` is not read at end of file. -/
lemma FirstZero.lt_length {stdin : List UInt8} {p : ℕ} (h : FirstZero stdin p) :
    p < stdin.length := by
  by_contra hle
  have heof : charAt stdin p = charEof := charAt_eq_eof (by omega)
  exact charEof_ne_charZero (heof.symm.trans h.here)

variable {stdin : List UInt8} {p : ℕ}

/-- A `'0'` of standard input up to `p` is the one at `p`. -/
lemma FirstZero.eq_of_le (hp : FirstZero stdin p) {c : ℕ} (hc : c ≤ p)
    (hz : charAt stdin c = charZero) : c = p := by
  by_contra hne
  exact hp.before c (by omega) hz

/-- Before the first `'0'` there is no `'0'`. -/
lemma FirstZero.notMem_take (hp : FirstZero stdin p) {c : ℕ} (hc : c ≤ p) :
    charZero ∉ stdin.take c := by
  intro hmem
  obtain ⟨i, hi, heq⟩ := List.getElem_of_mem hmem
  have hlen := hp.lt_length
  have hic : i < c := by
    simp only [List.length_take] at hi
    omega
  rw [List.getElem_take] at heq
  exact hp.before i (by omega) ((charAt_eq_getElem (by omega)).trans heq)

/-- The characters up to the first `'0'`. -/
lemma FirstZero.take_succ (hp : FirstZero stdin p) :
    stdin.take (p + 1) = stdin.take p ++ [charZero] := by
  have hlen := hp.lt_length
  rw [List.take_succ_eq_append_getElem hlen, ← charAt_eq_getElem hlen, hp.here]

/-! ### Buffers -/

/-- `char buf[n]`. -/
abbrev CharArray (n : ℕ) := Fin n → UInt8

namespace CharArray

variable {n : ℕ}

/-- The first characters are overwritten by `bytes`, the others stay. -/
def overlay (buf : CharArray n) (bytes : List UInt8) : CharArray n := fun i =>
  if h : i.val < bytes.length then bytes[i.val] else buf i

/-- The text of a buffer, up to the first `NUL`. -/
def text (buf : CharArray n) : List UInt8 := (List.ofFn buf).takeWhile (· ≠ 0)

/-- `strncmp(buf, "0", 1) == 0`. -/
def StartsZero [NeZero n] (buf : CharArray n) : Prop := buf 0 = charZero

instance [NeZero n] (buf : CharArray n) : Decidable buf.StartsZero :=
  inferInstanceAs (Decidable (buf 0 = charZero))

/-- `tolower` on the letters of ASCII. -/
def toLower (c : UInt8) : UInt8 := if 65 ≤ c ∧ c ≤ 90 then c + 32 else c

/-- `"done"`. -/
def done : List UInt8 := [100, 111, 110, 101]

/-- `strncasecmp(buf, "done", 4) == 0`. -/
def StartsDone (buf : CharArray n) : Prop := ((List.ofFn buf).take 4).map toLower = done

instance (buf : CharArray n) : Decidable buf.StartsDone :=
  inferInstanceAs (Decidable (_ = _))

/-- A character that is overwritten. -/
lemma overlay_of_lt {buf : CharArray n} {bytes : List UInt8} {i : Fin n}
    (h : i.val < bytes.length) : buf.overlay bytes i = bytes[i.val] := dif_pos h

/-- A character that is not. -/
lemma overlay_of_le {buf : CharArray n} {bytes : List UInt8} {i : Fin n}
    (h : bytes.length ≤ i.val) : buf.overlay bytes i = buf i := dif_neg (Nat.not_lt.mpr h)

/-- Nothing is overwritten. -/
@[simp] lemma overlay_nil (buf : CharArray n) : buf.overlay [] = buf := by
  funext i
  exact overlay_of_le (Nat.zero_le _)

/-- A whole buffer is overwritten. -/
lemma overlay_ofFn (buf record : CharArray n) : buf.overlay (List.ofFn record) = record := by
  funext i
  rw [overlay_of_lt (by simp), List.getElem_ofFn]

/-- Whether a buffer begins with `'0'` can be seen from its text. -/
lemma startsZero_iff_text [NeZero n] (buf : CharArray n) :
    buf.StartsZero ↔ buf.text.head? = some charZero := by
  obtain ⟨k, rfl⟩ := Nat.exists_eq_succ_of_ne_zero (NeZero.ne n)
  have hcons : List.ofFn buf = buf 0 :: List.ofFn fun i => buf i.succ := List.ofFn_succ
  rw [text, hcons, StartsZero]
  by_cases hnul : buf 0 = 0
  · simp [hnul, charZero]
  · simp [hnul]

/-- The first characters are overwritten and the others stay. -/
lemma ofFn_overlay {buf : CharArray n} {bytes : List UInt8} (h : bytes.length ≤ n) :
    List.ofFn (buf.overlay bytes) = bytes ++ (List.ofFn buf).drop bytes.length := by
  refine List.ext_getElem (by simp [h]) fun i hi hi' => ?_
  rw [List.getElem_ofFn]
  by_cases hlt : i < bytes.length
  · rw [overlay_of_lt hlt, List.getElem_append_left hlt]
  · have hle : bytes.length ≤ i := Nat.not_lt.mp hlt
    rw [overlay_of_le hle, List.getElem_append_right hle, List.getElem_drop, List.getElem_ofFn]
    congr 2
    omega

/-- The text of a buffer that a terminated string was written to. -/
lemma text_overlay {buf : CharArray n} {bytes : List UInt8} (h : bytes.length < n) :
    (buf.overlay (bytes ++ [0])).text = bytes.takeWhile (· ≠ 0) := by
  have hle : (bytes ++ [0]).length ≤ n := by simpa using Nat.succ_le_of_lt h
  rw [text, ofFn_overlay hle, List.append_assoc, List.takeWhile_append]
  split_ifs with hall
  · have hpre : bytes.takeWhile (· ≠ 0) <+: bytes := List.takeWhile_prefix _
    rw [hpre.eq_of_length hall]
    simp
  · rfl

/-- The first character of a buffer that a terminated string was written to. -/
lemma startsZero_overlay [NeZero n] {buf : CharArray n} {bytes : List UInt8} :
    (buf.overlay (bytes ++ [0])).StartsZero ↔ bytes.head? = some charZero := by
  have hpos : ((0 : Fin n) : ℕ) < (bytes ++ [0]).length := by simp
  rw [StartsZero, overlay_of_lt hpos]
  cases bytes with
  | nil => simp [charZero]
  | cons b bytes => simp

end CharArray

/-! ### Lines -/

/-- `'\n'`. -/
def newline : UInt8 := 10

/-- What one call of `fgets` with a buffer of `n` characters takes from standard input: fewer than
`n` characters, a newline only as the last of them. -/
structure InputLine (n : ℕ) where
  /-- The characters. -/
  bytes : List UInt8
  /-- They leave room for the `NUL`. -/
  length_lt : bytes.length < n
  /-- `fgets` stops after a newline. -/
  newline_last : newline ∉ bytes.dropLast

/-- The first character after the first token of `strtok(buf, "\n")`: newlines are skipped, then
everything up to a newline or the `NUL` is the token. -/
def tokenEnd (s : List UInt8) : ℕ :=
  let skipped := s.takeWhile (· = newline)
  let token := (s.drop skipped.length).takeWhile fun c => c ≠ newline ∧ c ≠ 0
  skipped.length + token.length

variable {n : ℕ}

/-- `strtok(buf, "\n")`: a newline that ends the first token is replaced by a `NUL`. -/
def strtokNewline (buf : CharArray n) : CharArray n := fun i =>
  if i.val = tokenEnd (List.ofFn buf) ∧ buf i = newline then 0 else buf i

/-- `fgets(buf, n, stdin)`; at end of file, or when it is interrupted, it leaves the buffer
alone. -/
def fgets (buf : CharArray n) : Option (InputLine n) → CharArray n
  | some line => buf.overlay (line.bytes ++ [0])
  | none => buf

/-- `std::cin.getline(buf, n)`: the newline is taken from standard input but not stored. When
nothing can be taken, a `NUL` is stored all the same. -/
def getline (buf : CharArray n) : Option (InputLine n) → CharArray n
  | some line => buf.overlay (line.bytes.filter (· ≠ newline) ++ [0])
  | none => buf.overlay [0]

/-- How a program enters a message: `fgets` and `strtok` in C, `getline` in C++. -/
def enter (lang : Lang) (buf : CharArray n) (line : Option (InputLine n)) : CharArray n :=
  match lang with
  | .c => strtokNewline (fgets buf line)
  | .cpp => getline buf line

/-! ### How an entered message begins -/

namespace InputLine

/-- The line begins with `'0'`. -/
def StartsZero (line : InputLine n) : Prop := line.bytes.head? = some charZero

instance (line : InputLine n) : Decidable line.StartsZero :=
  inferInstanceAs (Decidable (_ = _))

/-- The text of a line, up to the newline or the first `NUL`. -/
def text (line : InputLine n) : List UInt8 :=
  (line.bytes.filter (· ≠ newline)).takeWhile (· ≠ 0)

end InputLine

/-- `getline` stores the text of the line. -/
lemma text_getline (buf : CharArray n) (line : InputLine n) :
    (getline buf (some line)).text = line.text :=
  CharArray.text_overlay (Nat.lt_of_le_of_lt (List.length_filter_le _ _) line.length_lt)

variable [NeZero n]

/-- A message entered with `fgets` begins as its line does. -/
lemma startsZero_fgets (buf : CharArray n) (line : InputLine n) :
    (fgets buf (some line)).StartsZero ↔ line.StartsZero :=
  CharArray.startsZero_overlay

/-- A message entered with `getline` does, too. -/
lemma startsZero_getline (buf : CharArray n) (line : InputLine n) :
    (getline buf (some line)).StartsZero ↔ line.StartsZero := by
  rw [getline, CharArray.startsZero_overlay, InputLine.StartsZero]
  cases hb : line.bytes with
  | nil => rfl
  | cons b bytes =>
    by_cases hnl : b = newline
    · -- a newline can only be the last character
      have hlast := line.newline_last
      rw [hb] at hlast
      cases bytes with
      | nil => simp [hnl, newline, charZero]
      | cons c bytes => simp [hnl] at hlast
    · simp [hnl]

/-- A newline at the start is skipped, so the token ends later. -/
lemma tokenEnd_newline_pos (s : List UInt8) : 0 < tokenEnd (newline :: s) := by
  have hskip : 0 < ((newline :: s).takeWhile (· = newline)).length := by simp
  exact Nat.lt_of_lt_of_le hskip (Nat.le_add_right _ _)

/-- The text of a line begins as the line does. -/
lemma InputLine.startsZero_iff_text (line : InputLine n) :
    line.StartsZero ↔ line.text.head? = some charZero := by
  rw [← startsZero_getline (fun _ => 0), CharArray.startsZero_iff_text, text_getline]

/-- `strtok` leaves the first character alone. -/
lemma startsZero_strtokNewline (buf : CharArray n) :
    (strtokNewline buf).StartsZero ↔ buf.StartsZero := by
  have hsame : strtokNewline buf 0 = buf 0 := by
    refine if_neg fun h => ?_
    obtain ⟨hend, hnl⟩ := h
    obtain ⟨k, rfl⟩ := Nat.exists_eq_succ_of_ne_zero (NeZero.ne n)
    have hcons : List.ofFn buf = newline :: List.ofFn fun i => buf i.succ := by
      rw [List.ofFn_succ, hnl]
    rw [hcons] at hend
    exact absurd hend (Nat.ne_of_lt (tokenEnd_newline_pos _))
  rw [CharArray.StartsZero, CharArray.StartsZero, hsame]

end PosixIntro
