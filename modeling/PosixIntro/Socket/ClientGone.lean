import Mathlib.Data.List.Induction
import Mathlib.Logic.Function.Iterate
import PosixIntro.Socket.Model

set_option relaxedAutoImplicit false
set_option autoImplicit false

/-!
# The socket server when its client is gone

When the client has closed, `read` returns what is still in the stream and then zero for ever. The
server does not look at the zero; it leaves only if its buffer happens to begin with `done`.

## Main definitions

* `Segment` — what one `read` can return.
* `Server.fed`, `Terminates` — the run of the server on a segmentation, and that its loop ends.
* `lastByte`, `SpellsDone` — the byte that was delivered last to a place of the buffer, and that
  the first four of them spell `done`.

## Main results

* `serverStep_fed` — the run is the server of `session` on a stream that is closed.
* `terminates_iff` — the loop ends exactly when some test after the first `read` sees `done`.
-/

namespace PosixIntro

namespace Socket

/-- The bytes that one `read` returns. -/
structure Segment where
  bytes : List UInt8
  nonempty : bytes ≠ []
  length_le : bytes.length ≤ bufferSize

/-- What the next `read` returns. -/
def returned : List Segment → List UInt8
  | [] => []
  | seg :: _ => seg.bytes

/-- The next statement of the server when `read` returns the segments and then nothing. -/
def Server.fed (st : List Segment × Server) : List Segment × Server :=
  (if st.2.loc = .read then st.1.tail else st.1, st.2.next (returned st.1))

/-- The server before its loop. -/
def Server.start (buffer : CharArray bufferSize) : Server := ⟨.read, buffer, [], []⟩

/-- The server's loop terminates. -/
def Terminates (segs : List Segment) (buffer : CharArray bufferSize) : Prop :=
  ∃ t, (Server.fed^[t] (segs, Server.start buffer)).2.HasLeft

/-- The byte that the reads have delivered last to place `j` of the buffer, or else the one that was
there. -/
def lastByte (segs : List Segment) (buffer : CharArray bufferSize) (j : Fin bufferSize) : UInt8 :=
  (segs.filterMap fun seg => seg.bytes[j.val]?).getLast?.getD (buffer j)

/-- The bytes delivered last to the first four places spell `done`, in capital or small letters. -/
def SpellsDone (segs : List Segment) (buffer : CharArray bufferSize) : Prop :=
  ∀ j : Fin 4, CharArray.toLower (lastByte segs buffer (j.castLE (by decide))) =
    CharArray.done[j.val]

/-- The server that is fed makes the steps of the server of a session on a closed stream. -/
theorem serverStep_fed {segs : List Segment} {c : Connection} {sv : Server} (hl : sv.loc ≠ .left)
    (hup : c.up = ⟨segs.flatMap Segment.bytes, true⟩) :
    ∃ c', serverStep (returned segs).length c sv = some (c', (Server.fed (segs, sv)).2) ∧
      c'.up = ⟨(Server.fed (segs, sv)).1.flatMap Segment.bytes, true⟩ := by
  unfold serverStep Server.fed Server.next
  cases hloc : sv.loc with
  | left => exact absurd hloc hl
  | read =>
    cases segs with
    | nil => simp [hup, ByteStream.read, returned]
    | cons seg segs =>
      have hpos : 0 < seg.bytes.length := List.length_pos_iff.mpr seg.nonempty
      simp [hup, ByteStream.read, returned, hpos, seg.length_le, seg.nonempty]
  | write | test | close => simp [hup]

/-- Only a `read` looks at the segments. -/
lemma Server.fed_of_ne_read {sv : Server} (hl : sv.loc ≠ .read) (segs : List Segment) :
    Server.fed (segs, sv) = (segs, sv.next []) := by
  unfold Server.fed Server.next
  cases hloc : sv.loc with
  | read => exact absurd hloc hl
  | _ => rfl

/-- Only a `read` changes the buffer. -/
lemma Server.next_buffer {sv : Server} (hl : sv.loc ≠ .read) (got : List UInt8) :
    (sv.next got).buffer = sv.buffer := by
  unfold Server.next
  cases hloc : sv.loc with
  | read => exact absurd hloc hl
  | _ => rfl

/-! ### The buffer -/

/-- The buffer after some reads. -/
def overlayAll (segs : List Segment) (buffer : CharArray bufferSize) : CharArray bufferSize :=
  segs.foldl (fun b seg => b.overlay seg.bytes) buffer

lemma overlayAll_cons (seg : Segment) (segs : List Segment) (buffer : CharArray bufferSize) :
    overlayAll (seg :: segs) buffer = overlayAll segs (buffer.overlay seg.bytes) := rfl

lemma overlayAll_append_singleton (segs : List Segment) (seg : Segment)
    (buffer : CharArray bufferSize) :
    overlayAll (segs ++ [seg]) buffer = (overlayAll segs buffer).overlay seg.bytes :=
  List.foldl_append

/-- Each place holds what was delivered to it last. -/
lemma overlayAll_apply (segs : List Segment) (buffer : CharArray bufferSize) (j : Fin bufferSize) :
    overlayAll segs buffer j = lastByte segs buffer j := by
  induction segs using List.reverseRecOn with
  | nil => rfl
  | append_singleton segs seg ih =>
    rw [overlayAll_append_singleton]
    by_cases hj : j.val < seg.bytes.length
    · rw [CharArray.overlay_of_lt hj]
      simp [lastByte, List.filterMap_append, List.getElem?_eq_getElem hj]
    · rw [CharArray.overlay_of_le (Nat.not_lt.mp hj), ih]
      simp [lastByte, List.filterMap_append, List.getElem?_eq_none (Nat.not_lt.mp hj)]

/-- The test of the server. -/
lemma startsDone_iff (buffer : CharArray bufferSize) :
    buffer.StartsDone ↔
      ∀ j : Fin 4, CharArray.toLower (buffer (j.castLE (by decide))) = CharArray.done[j.val] := by
  have htake : (List.ofFn buffer).take 4 = [buffer 0, buffer 1, buffer 2, buffer 3] := rfl
  rw [CharArray.StartsDone, htake]
  simp [CharArray.done, Fin.forall_fin_succ]

/-- So the test sees `done` when the bytes delivered last spell it. -/
lemma startsDone_overlayAll_iff (segs : List Segment) (buffer : CharArray bufferSize) :
    (overlayAll segs buffer).StartsDone ↔ SpellsDone segs buffer := by
  simp only [startsDone_iff, overlayAll_apply, SpellsDone]

/-- One more `read`. -/
lemma overlayAll_take_succ {segs rest : List Segment} {seg : Segment} {n : ℕ}
    (h : segs.drop n = seg :: rest) (buffer : CharArray bufferSize) :
    (overlayAll (segs.take n) buffer).overlay seg.bytes =
      overlayAll (segs.take (n + 1)) buffer := by
  have hget : segs[n]? = some seg := by
    rw [← List.head?_drop, h, List.head?_cons]
  rw [List.take_add_one, hget]
  simp [overlayAll]

/-! ### The loop -/

/-- The server has made its test after `n` reads: there was nothing to read, or `n` is positive. -/
def Tested (segs : List Segment) (n : ℕ) : Prop := n ≤ segs.length ∧ (segs = [] ∨ 0 < n)

/-- What holds during the loop after `n` reads. -/
structure Looping (segs : List Segment) (buffer : CharArray bufferSize) (n : ℕ)
    (st : List Segment × Server) : Prop where
  rest : st.1 = segs.drop n
  le : n ≤ segs.length
  buffer_eq : st.2.buffer = overlayAll (segs.take n) buffer
  tested : st.2.loc ≠ .read → Tested segs n
  left : st.2.HasLeft → (overlayAll (segs.take n) buffer).StartsDone

variable {segs : List Segment} {buffer : CharArray bufferSize}

section Steps

variable {n : ℕ} {sv : Server}

/-- A `read` that returns zero leaves the buffer as it is. -/
lemma Looping.read_nil (h : Looping segs buffer n (segs.drop n, sv)) (hl : sv.loc = .read)
    (hdrop : segs.drop n = []) : Looping segs buffer n (Server.fed (segs.drop n, sv)) := by
  have hbuffer : sv.buffer = overlayAll (segs.take n) buffer := h.buffer_eq
  have hlen : segs.length ≤ n := List.drop_eq_nil_iff.mp hdrop
  have hempty : segs = [] ∨ 0 < n := by
    cases segs with
    | nil => exact .inl rfl
    | cons seg segs =>
      simp only [List.length_cons] at hlen
      exact .inr (by omega)
  refine ⟨?_, h.le, ?_, fun _ => ⟨h.le, hempty⟩, ?_⟩
  · simp [Server.fed, hl, hdrop]
  · simp [Server.fed, Server.next, hl, hdrop, returned, hbuffer]
  · simp [Server.fed, Server.next, Server.HasLeft, hl, hdrop, returned]

/-- A `read` that returns a segment. -/
lemma Looping.read_cons {seg : Segment} {rest : List Segment}
    (h : Looping segs buffer n (segs.drop n, sv)) (hl : sv.loc = .read)
    (hdrop : segs.drop n = seg :: rest) :
    Looping segs buffer (n + 1) (Server.fed (segs.drop n, sv)) := by
  have hbuffer : sv.buffer = overlayAll (segs.take n) buffer := h.buffer_eq
  have hlt : n < segs.length := by
    by_contra hge
    rw [List.drop_eq_nil_of_le (by omega)] at hdrop
    cases hdrop
  have hrest : segs.drop (n + 1) = rest := by
    rw [← List.tail_drop, hdrop, List.tail_cons]
  refine ⟨?_, hlt, ?_, fun _ => ⟨hlt, .inr n.succ_pos⟩, ?_⟩
  · simp [Server.fed, hl, hdrop, hrest]
  · rw [← overlayAll_take_succ hdrop]
    simp [Server.fed, Server.next, hl, hdrop, returned, hbuffer]
  · simp [Server.fed, Server.next, Server.HasLeft, hl, hdrop, returned, seg.nonempty]

/-- The other statements. -/
lemma Looping.other (h : Looping segs buffer n (segs.drop n, sv)) (hl : sv.loc ≠ .read) :
    Looping segs buffer n (Server.fed (segs.drop n, sv)) := by
  have hbuffer : sv.buffer = overlayAll (segs.take n) buffer := h.buffer_eq
  rw [Server.fed_of_ne_read hl]
  refine ⟨rfl, h.le, (Server.next_buffer hl []).trans hbuffer, fun _ => h.tested hl, ?_⟩
  cases hloc : sv.loc with
  | read => exact absurd hloc hl
  | write => simp [Server.next, Server.HasLeft, hloc]
  | test =>
    by_cases hd : sv.buffer.StartsDone
    · exact fun _ => hbuffer ▸ hd
    · simp [Server.next, Server.HasLeft, hloc, hd]
  | close | left => exact fun _ => h.left (by simp [Server.HasLeft, hloc])

end Steps

/-- **One step of the loop.** -/
lemma Looping.fed {n : ℕ} {st : List Segment × Server} (h : Looping segs buffer n st) :
    ∃ n', Looping segs buffer n' (Server.fed st) := by
  obtain ⟨rest, sv⟩ := st
  obtain rfl : rest = segs.drop n := h.rest
  by_cases hl : sv.loc = .read
  · cases hdrop : segs.drop n with
    | nil => exact ⟨n, hdrop ▸ h.read_nil hl hdrop⟩
    | cons seg rest => exact ⟨n + 1, hdrop ▸ h.read_cons hl hdrop⟩
  · exact ⟨n, h.other hl⟩

/-- The run comes to this state. -/
def Comes (segs : List Segment) (buffer : CharArray bufferSize) (st : List Segment × Server) :
    Prop :=
  ∃ t, Server.fed^[t] (segs, Server.start buffer) = st

/-- One more step of the run. -/
lemma Comes.next {st : List Segment × Server} (h : Comes segs buffer st) :
    Comes segs buffer (Server.fed st) := by
  obtain ⟨t, rfl⟩ := h
  exact ⟨t + 1, Function.iterate_succ_apply' _ _ _⟩

/-- **The invariant rule** for a run of the server. -/
lemma Comes.invariant {I : List Segment × Server → Prop} (h₀ : I (segs, Server.start buffer))
    (hstep : ∀ st, I st → I (Server.fed st)) {st : List Segment × Server}
    (h : Comes segs buffer st) : I st := by
  obtain ⟨t, rfl⟩ := h
  induction t with
  | zero => exact h₀
  | succ t ih =>
    rw [Function.iterate_succ_apply']
    exact hstep _ ih

/-- The run of the server. -/
lemma exists_looping {st : List Segment × Server} (h : Comes segs buffer st) :
    ∃ n, Looping segs buffer n st := by
  refine h.invariant (I := fun st => ∃ n, Looping segs buffer n st) ?_ ?_
  · refine ⟨0, rfl, Nat.zero_le _, rfl, fun h => absurd rfl h, fun h => ?_⟩
    simp [Server.HasLeft, Server.start] at h
  · rintro st ⟨n, hn⟩
    exact hn.fed

/-- A loop that ends has seen `done` in a test. -/
lemma Terminates.exists_done (h : Terminates segs buffer) :
    ∃ n, Tested segs n ∧ (overlayAll (segs.take n) buffer).StartsDone := by
  obtain ⟨t, ht⟩ := h
  obtain ⟨n, hn⟩ := exists_looping ⟨t, rfl⟩
  refine ⟨n, hn.tested ?_, hn.left ht⟩
  rcases ht with hl | hl <;> simp [hl]

/-- The server reads after `n` reads. -/
def ReadsAfter (segs : List Segment) (buffer : CharArray bufferSize) (n : ℕ) : Prop :=
  ∃ sv, Comes segs buffer (segs.drop n, sv) ∧ sv.loc = .read ∧
    sv.buffer = overlayAll (segs.take n) buffer

/-- The server echoes after `n` reads. -/
def WritesAfter (segs : List Segment) (buffer : CharArray bufferSize) (n : ℕ) : Prop :=
  ∃ sv, Comes segs buffer (segs.drop n, sv) ∧ sv.loc = .write ∧
    sv.buffer = overlayAll (segs.take n) buffer

/-- The server tests after `n` reads. -/
def TestsAfter (segs : List Segment) (buffer : CharArray bufferSize) (n : ℕ) : Prop :=
  ∃ sv, Comes segs buffer (segs.drop n, sv) ∧ sv.loc = .test ∧
    sv.buffer = overlayAll (segs.take n) buffer

/-- The server reads a segment. -/
lemma ReadsAfter.writes {n : ℕ} (h : ReadsAfter segs buffer n) (hn : n < segs.length) :
    WritesAfter segs buffer (n + 1) := by
  obtain ⟨sv, hcomes, hl, hbuffer⟩ := h
  have hdrop : segs.drop n = segs[n] :: segs.drop (n + 1) := List.drop_eq_getElem_cons hn
  have hnext := hcomes.next
  rw [hdrop] at hnext
  simp only [Server.fed, Server.next, hl, returned, segs[n].nonempty, if_true, if_false,
    List.tail_cons] at hnext
  refine ⟨_, hnext, rfl, ?_⟩
  rw [← overlayAll_take_succ hdrop, hbuffer]

/-- The server echoes its buffer. -/
lemma WritesAfter.tests {n : ℕ} (h : WritesAfter segs buffer n) : TestsAfter segs buffer n := by
  obtain ⟨sv, hcomes, hl, hbuffer⟩ := h
  have hread : sv.loc ≠ .read := by simp [hl]
  have hnext := hcomes.next
  rw [Server.fed_of_ne_read hread] at hnext
  exact ⟨_, hnext, by rw [Server.next, hl], (Server.next_buffer hread []).trans hbuffer⟩

/-- The server leaves its loop. -/
lemma TestsAfter.terminates {n : ℕ} (h : TestsAfter segs buffer n)
    (hd : (overlayAll (segs.take n) buffer).StartsDone) : Terminates segs buffer := by
  obtain ⟨sv, hcomes, hl, hbuffer⟩ := h
  obtain ⟨t, ht⟩ := hcomes.next
  rw [← hbuffer] at hd
  exact ⟨t, by rw [ht]; simp [Server.fed, Server.next, Server.HasLeft, hl, hd]⟩

/-- The server reads again. -/
lemma TestsAfter.reads {n : ℕ} (h : TestsAfter segs buffer n)
    (hd : ¬ (overlayAll (segs.take n) buffer).StartsDone) : ReadsAfter segs buffer n := by
  obtain ⟨sv, hcomes, hl, hbuffer⟩ := h
  rw [← hbuffer] at hd
  have hread : sv.loc ≠ .read := by simp [hl]
  have hnext := hcomes.next
  rw [Server.fed_of_ne_read hread] at hnext
  exact ⟨_, hnext, by simp [Server.next, hl, hd], (Server.next_buffer hread []).trans hbuffer⟩

/-- Unless the loop has ended, the server makes all its reads. -/
lemma readsAfter (segs : List Segment) (buffer : CharArray bufferSize) :
    ∀ n ≤ segs.length, Terminates segs buffer ∨ ReadsAfter segs buffer n := by
  intro n
  induction n with
  | zero => exact fun _ => .inr ⟨Server.start buffer, ⟨0, rfl⟩, rfl, rfl⟩
  | succ n ih =>
    intro hn
    rcases ih (by omega) with h | h
    · exact .inl h
    · have htests := (h.writes (by omega)).tests
      by_cases hd : (overlayAll (segs.take (n + 1)) buffer).StartsDone
      · exact .inl (htests.terminates hd)
      · exact .inr (htests.reads hd)

/-- When a test sees `done`, the loop ends. -/
lemma terminates_of_done {n : ℕ} (hn : Tested segs n)
    (hd : (overlayAll (segs.take n) buffer).StartsDone) : Terminates segs buffer := by
  rcases n with _ | n
  · -- nothing to read
    obtain rfl : segs = [] := hn.2.resolve_right (Nat.lt_irrefl 0)
    have htests : TestsAfter [] buffer 0 := ⟨_, ⟨1, rfl⟩, rfl, CharArray.overlay_nil _⟩
    exact htests.terminates hd
  · rcases readsAfter segs buffer n (Nat.le_of_succ_le hn.1) with h | h
    · exact h
    · exact (h.writes hn.1).tests.terminates hd

/-- **When the server ends without its client.** For every segmentation of what the client has sent
before it closed and every initial buffer: the loop of the server terminates exactly when, after
some number of reads (after none only if there is nothing to read), the bytes that were delivered
last to the first four places of the buffer spell `done`. -/
theorem terminates_iff (segs : List Segment) (buffer : CharArray bufferSize) :
    Terminates segs buffer ↔
      ∃ n ≤ segs.length, (segs = [] ∨ 0 < n) ∧ SpellsDone (segs.take n) buffer := by
  constructor
  · intro h
    obtain ⟨n, ⟨hle, htested⟩, hd⟩ := h.exists_done
    exact ⟨n, hle, htested, (startsDone_overlayAll_iff _ _).mp hd⟩
  · rintro ⟨n, hle, htested, hd⟩
    exact terminates_of_done ⟨hle, htested⟩ ((startsDone_overlayAll_iff _ _).mpr hd)

/-- A client that closes without sending anything leaves the zeroed buffer as it is. -/
theorem not_terminates_nil : ¬ ∀ segs buffer, Terminates segs buffer := by
  intro h
  obtain ⟨n, -, hd⟩ := (h [] fun _ => 0).exists_done
  rw [List.take_nil] at hd
  exact absurd hd (by decide)

end Socket

end PosixIntro
