import PosixIntro.Socket.Segments

set_option relaxedAutoImplicit false
set_option autoImplicit false

/-!
# The zero in the buffer of the C++ server

The C++ server prints its buffer as a string after every successful `read`. The array has no room
for a zero of its own, as the one of the C server has, so the zero must be one that a client has
sent. A record ends with one, but a later `read` may overwrite it.

## Main definitions

* `AlwaysTerminated` — after every successful `read` there is a zero in the buffer.
* `Made` — the server makes that many reads before it sees `done`.
* `LeavesZero` — some read has delivered a zero to a place that no later one has reached.
* `KeepsZero` — the condition on the lengths of the reads, when only the last byte of a record is
  known to be zero.

## Main results

* `alwaysTerminated_iff` — when there is always a zero, for a segmentation and for its lengths.
* `session_endsInZero` — the records of a session end with a zero.
* `session_isTerminated` — so the condition on the lengths is one on the runs of a session.

## Design

The server prints between `read` and `write`, so the states before a `write` are the states in which
it prints. For the lengths it is enough to follow one zero: at the start the one at the last place,
and later the end of the record that is delivered whenever a `read` overwrites the one that is
followed. Records whose other bytes are not zero show that nothing less is enough.
-/

namespace PosixIntro

namespace Socket

/-- There is a zero in the buffer, so a string that is printed from it ends inside of it. -/
def IsTerminated (buffer : CharArray bufferSize) : Prop := ∃ j, buffer j = 0

/-- `msg{}`. -/
def zeros : CharArray bufferSize := fun _ => 0

/-- After every successful `read` of the C++ server there is a zero in its buffer. -/
def AlwaysTerminated (segs : List Segment) : Prop :=
  ∀ st, Comes segs zeros st → st.2.loc = .write → IsTerminated st.2.buffer

/-- A record as the clients send it. -/
def EndsInZero (m : CharArray bufferSize) : Prop := m (Fin.last 19) = 0

/-- The server makes `n` reads at least: no test before has seen `done`. -/
structure Made (segs : List Segment) (n : ℕ) : Prop where
  pos : 0 < n
  le : n ≤ segs.length
  goes_on : ∀ i, 0 < i → i < n → ¬ SpellsDone (segs.take i) zeros

/-- Place `j` holds a zero that no later read has reached: the one of the start, or one that a read
has delivered. -/
def LeavesZero (segs : List Segment) (j : Fin bufferSize) : Prop :=
  (∀ seg ∈ segs, seg.bytes.length ≤ j.val) ∨
    ∃ earlier seg later, segs = earlier ++ seg :: later ∧ seg.bytes[j.val]? = some 0 ∧
      ∀ seg' ∈ later, seg'.bytes.length ≤ j.val

/-- How many bytes a successful `read` can return. -/
abbrev ReadLength := {k : ℕ // 0 < k ∧ k ≤ bufferSize}

/-- How many bytes it has returned. -/
def Segment.readLength (seg : Segment) : ReadLength :=
  ⟨seg.bytes.length, List.length_pos_iff.mpr seg.nonempty, seg.length_le⟩

/-- Where a `read` delivers the next last byte of a record, when `offset` bytes have been read. -/
def nextEnd (offset : ℕ) : ℕ := 19 - offset % 20

/-- The lengths of the reads keep a zero in the buffer: a zero is at `place`, `offset` bytes have
been read, and every read either does not reach the zero or delivers the last byte of a record. -/
def KeepsZero (place offset : ℕ) : List ReadLength → Prop
  | [] => True
  | k :: ks =>
    if k.val ≤ place then KeepsZero place (offset + k.val) ks
    else nextEnd offset < k.val ∧ KeepsZero (nextEnd offset) (offset + k.val) ks

instance decidableKeepsZero : (place offset : ℕ) → (ks : List ReadLength) →
    Decidable (KeepsZero place offset ks)
  | _, _, [] => isTrue trivial
  | place, offset, k :: ks =>
    have := decidableKeepsZero place (offset + k.val) ks
    have := decidableKeepsZero (nextEnd offset) (offset + k.val) ks
    inferInstanceAs (Decidable (if k.val ≤ place then KeepsZero place (offset + k.val) ks
      else nextEnd offset < k.val ∧ KeepsZero (nextEnd offset) (offset + k.val) ks))

variable {segs : List Segment} {n : ℕ}

/-! ### The reads that are made -/

/-- The server reads again unless a test has seen `done`. -/
lemma readsAfter_of_not_done (hn : n ≤ segs.length)
    (h : ∀ i, 0 < i → i ≤ n → ¬ SpellsDone (segs.take i) zeros) : ReadsAfter segs zeros n := by
  induction n with
  | zero => exact ⟨Server.start zeros, ⟨0, rfl⟩, rfl, rfl⟩
  | succ n ih =>
    have hreads := ih (by omega) fun i hpos hi => h i hpos (by omega)
    refine (hreads.writes hn).tests.reads fun hd => ?_
    exact h (n + 1) n.succ_pos (Nat.le_refl _) ((startsDone_overlayAll_iff _ _).mp hd)

/-- After every read that is made the server prints. -/
lemma Made.writes (h : Made segs n) : WritesAfter segs zeros n := by
  obtain ⟨n, rfl⟩ := Nat.exists_eq_succ_of_ne_zero (Nat.ne_zero_of_lt h.pos)
  have hreads : ReadsAfter segs zeros n :=
    readsAfter_of_not_done (Nat.le_of_succ_le h.le) fun i hpos hi =>
      h.goes_on i hpos (Nat.lt_succ_of_le hi)
  exact hreads.writes h.le

/-- What the tests have seen after `n` reads, by the statement that is next. -/
def Passed (segs : List Segment) (n : ℕ) : Server.Loc → Prop
  | .read => ∀ i, 0 < i → i ≤ n → ¬ SpellsDone (segs.take i) zeros
  | .write => Made segs n
  | .test => ∀ i, 0 < i → i < n → ¬ SpellsDone (segs.take i) zeros
  | .close | .left => True

/-- What holds during the loop after `n` reads. -/
structure Printing (segs : List Segment) (n : ℕ) (st : List Segment × Server) : Prop
    extends Looping segs zeros n st where
  passed : Passed segs n st.2.loc

variable {sv : Server}

/-- A `read`. -/
lemma Printing.read (h : Printing segs n (segs.drop n, sv)) (hl : sv.loc = .read) :
    ∃ n', Printing segs n' (Server.fed (segs.drop n, sv)) := by
  have hpassed : Passed segs n .read := hl ▸ h.passed
  cases hdrop : segs.drop n with
  | nil =>
    refine ⟨n, hdrop ▸ h.toLooping.read_nil hl hdrop, ?_⟩
    have hloc : (Server.fed ([], sv)).2.loc = .test := by
      simp [Server.fed, Server.next, hl, returned]
    rw [hloc]
    exact fun i hpos hi => hpassed i hpos (Nat.le_of_lt hi)
  | cons seg rest =>
    have hloop := h.toLooping.read_cons hl hdrop
    refine ⟨n + 1, hdrop ▸ hloop, ?_⟩
    have hloc : (Server.fed (seg :: rest, sv)).2.loc = .write := by
      simp [Server.fed, Server.next, hl, returned, seg.nonempty]
    rw [hloc]
    exact ⟨n.succ_pos, hloop.le, fun i hpos hi => hpassed i hpos (Nat.le_of_lt_succ hi)⟩

/-- The other statements. -/
lemma Printing.other (h : Printing segs n (segs.drop n, sv)) (hl : sv.loc ≠ .read) :
    Printing segs n (Server.fed (segs.drop n, sv)) := by
  refine ⟨h.toLooping.other hl, ?_⟩
  have hbuffer : sv.buffer = overlayAll (segs.take n) zeros := h.buffer_eq
  have hpassed : Passed segs n sv.loc := h.passed
  rw [Server.fed_of_ne_read hl]
  unfold Server.next
  cases hloc : sv.loc with
  | read => exact absurd hloc hl
  | write =>
    rw [hloc] at hpassed
    exact hpassed.goes_on
  | test =>
    rw [hloc] at hpassed
    by_cases hd : sv.buffer.StartsDone
    · simp [hd, Passed]
    · simp only [hd, if_false]
      intro i hpos hi
      rcases Nat.lt_or_eq_of_le hi with hlt | rfl
      · exact hpassed i hpos hlt
      · rwa [← startsDone_overlayAll_iff, ← hbuffer]
  | close | left => simp [hloc, Passed]

/-- The run of the server. -/
lemma exists_printing {st : List Segment × Server} (h : Comes segs zeros st) :
    ∃ n, Printing segs n st := by
  refine h.invariant (I := fun st => ∃ n, Printing segs n st) ?_ ?_
  · refine ⟨0, ⟨rfl, Nat.zero_le _, rfl, fun h => absurd rfl h, fun h => ?_⟩, ?_⟩
    · simp [Server.HasLeft, Server.start] at h
    · intro i hpos hi
      omega
  · rintro ⟨rest, sv⟩ ⟨n, hn⟩
    obtain rfl : rest = segs.drop n := hn.rest
    by_cases hl : sv.loc = .read
    · exact hn.read hl
    · exact ⟨n, hn.other hl⟩

/-- **The states in which the server prints** are those after the reads that are made. -/
lemma alwaysTerminated_iff_made :
    AlwaysTerminated segs ↔ ∀ n, Made segs n → IsTerminated (overlayAll (segs.take n) zeros) := by
  constructor
  · intro h n hn
    obtain ⟨sv, hcomes, hl, hbuffer⟩ := hn.writes
    exact hbuffer ▸ h _ hcomes hl
  · intro h st hst hl
    obtain ⟨n, hn⟩ := exists_printing hst
    have hmade : Passed segs n .write := hl ▸ hn.passed
    rw [hn.buffer_eq]
    exact h n hmade

/-! ### Zeros that no later read has reached -/

lemma leavesZero_append_singleton {seg : Segment} {j : Fin bufferSize} :
    LeavesZero (segs ++ [seg]) j ↔
      seg.bytes[j.val]? = some 0 ∨ (seg.bytes.length ≤ j.val ∧ LeavesZero segs j) := by
  constructor
  · rintro (hall | ⟨earlier, seg', later, heq, hzero, hlater⟩)
    · obtain ⟨hall, hlast⟩ := List.forall_mem_append.mp hall
      exact .inr ⟨hlast seg List.mem_cons_self, .inl hall⟩
    · rcases List.eq_nil_or_concat later with rfl | ⟨later', last, rfl⟩
      · -- the zero is one of the last read
        obtain ⟨-, hseg⟩ := List.append_inj' heq rfl
        rw [List.singleton_inj.mp hseg]
        exact .inl hzero
      · rw [List.concat_eq_append] at heq hlater
        rw [← List.cons_append, ← List.append_assoc] at heq
        obtain ⟨hsegs, hseg⟩ := List.append_inj' heq rfl
        rw [List.singleton_inj.mp hseg]
        obtain ⟨hlater, hlast⟩ := List.forall_mem_append.mp hlater
        exact .inr ⟨hlast last List.mem_cons_self,
          .inr ⟨earlier, seg', later', hsegs, hzero, hlater⟩⟩
  · rintro (hzero | ⟨hlen, hall | ⟨earlier, seg', later, rfl, hzero, hlater⟩⟩)
    · exact .inr ⟨segs, seg, [], rfl, hzero, fun seg' hseg' => absurd hseg' List.not_mem_nil⟩
    · exact .inl (List.forall_mem_append.mpr ⟨hall, List.forall_mem_singleton.mpr hlen⟩)
    · refine .inr ⟨earlier, seg', later ++ [seg], by simp, hzero, ?_⟩
      exact List.forall_mem_append.mpr ⟨hlater, List.forall_mem_singleton.mpr hlen⟩

/-- They are the zeros in the buffer. -/
lemma overlayAll_eq_zero_iff (segs : List Segment) (j : Fin bufferSize) :
    overlayAll segs zeros j = 0 ↔ LeavesZero segs j := by
  induction segs using List.reverseRecOn with
  | nil => exact iff_of_true rfl (.inl fun seg hseg => absurd hseg List.not_mem_nil)
  | append_singleton segs seg ih =>
    rw [leavesZero_append_singleton, overlayAll_append_singleton]
    by_cases hj : j.val < seg.bytes.length
    · rw [CharArray.overlay_of_lt hj, List.getElem?_eq_getElem hj, Option.some.injEq]
      exact ⟨.inl, fun h => h.resolve_right fun h' => absurd h'.1 (Nat.not_le.mpr hj)⟩
    · have hle : seg.bytes.length ≤ j.val := Nat.not_lt.mp hj
      rw [CharArray.overlay_of_le hle, ih, List.getElem?_eq_none hle]
      exact ⟨fun h => .inr ⟨hle, h⟩, fun h => (h.resolve_left (by simp)).2⟩

/-! ### Lengths that are enough -/

lemma nextEnd_lt (offset : ℕ) : nextEnd offset < bufferSize :=
  Nat.lt_of_le_of_lt (Nat.sub_le _ _) (Nat.lt_succ_self 19)

/-- There the last byte of a record is delivered. -/
lemma add_nextEnd (offset : ℕ) : (offset + nextEnd offset) % 20 = 19 := by
  rw [nextEnd]
  omega

/-- And only there. -/
lemma eq_nextEnd {offset i : ℕ} (hi : i < bufferSize) (h : (offset + i) % 20 = 19) :
    i = nextEnd offset := by
  have hi' : i < 20 := hi
  rw [nextEnd]
  omega

/-- The last bytes of the records in a stream. -/
lemma bytesOf_eq_zero {messages : List (CharArray bufferSize)}
    (h : ∀ m ∈ messages, EndsInZero m) {i : ℕ} (hi : i < (bytesOf messages).length)
    (hend : i % 20 = 19) : (bytesOf messages)[i] = 0 := by
  induction messages generalizing i with
  | nil => simp [bytesOf] at hi
  | cons m messages ih =>
    have hsize : bufferSize = 20 := rfl
    have hcons : bytesOf (m :: messages) = List.ofFn m ++ bytesOf messages := rfl
    simp only [hcons, List.length_append, List.length_ofFn] at hi ⊢
    by_cases hlt : i < 20
    · have hlast : m (Fin.last 19) = 0 := h m List.mem_cons_self
      rw [List.getElem_append_left (by simpa using hlt), List.getElem_ofFn]
      obtain rfl : i = 19 := by omega
      exact hlast
    · rw [List.getElem_append_right (by simpa using hlt)]
      simp only [List.length_ofFn]
      exact ih (fun m' hm' => h m' (List.mem_cons_of_mem m hm')) (by omega) (by omega)

/-- **Lengths that keep a zero** keep one for any records. -/
lemma isTerminated_of_keepsZero {bytes : List UInt8}
    (hbytes : ∀ i (hi : i < bytes.length), i % 20 = 19 → bytes[i] = 0) {place : Fin bufferSize}
    {offset : ℕ} {buffer : CharArray bufferSize} (hplace : buffer place = 0)
    (hpre : segs.flatMap Segment.bytes <+: bytes.drop offset)
    (h : KeepsZero place.val offset (segs.map Segment.readLength)) (n : ℕ) :
    IsTerminated (overlayAll (segs.take n) buffer) := by
  induction segs generalizing place offset buffer n with
  | nil =>
    rw [List.take_nil]
    exact ⟨place, hplace⟩
  | cons seg segs ih =>
    cases n with
    | zero => exact ⟨place, hplace⟩
    | succ n =>
      rw [List.take_succ_cons, overlayAll_cons]
      rw [List.flatMap_cons] at hpre
      have hpre' : segs.flatMap Segment.bytes <+: bytes.drop (offset + seg.bytes.length) := by
        obtain ⟨more, hmore⟩ := hpre
        rw [← List.drop_drop, ← hmore, List.append_assoc, List.drop_left]
        exact List.prefix_append _ _
      rw [List.map_cons, KeepsZero] at h
      split at h
      · next hle =>
        exact ih ((CharArray.overlay_of_le hle).trans hplace) hpre' h n
      · have hlt : nextEnd offset < seg.bytes.length := h.1
        have hzero : seg.bytes[nextEnd offset] = 0 := by
          have hlt' : nextEnd offset < (seg.bytes ++ segs.flatMap Segment.bytes).length := by
            rw [List.length_append]
            omega
          have hget := hpre.getElem hlt'
          rw [List.getElem_append_left hlt, List.getElem_drop] at hget
          rw [hget]
          exact hbytes _ _ (add_nextEnd offset)
        have hplace' : buffer.overlay seg.bytes ⟨nextEnd offset, nextEnd_lt offset⟩ = 0 :=
          (CharArray.overlay_of_lt hlt).trans hzero
        exact ih hplace' hpre' h.2 n

/-! ### Lengths that are not -/

/-- Byte `i` of a stream of records that are filled up to the zero at their end. -/
def filledByte (i : ℕ) : UInt8 := if i % 20 = 19 then 0 else 97

/-- Such a record. -/
def filled : CharArray bufferSize := fun j => filledByte j.val

/-- The segmentation of the stream, from `offset` on, into reads of these lengths. -/
def filledSegments (offset : ℕ) : List ReadLength → List Segment
  | [] => []
  | k :: ks =>
    ⟨(List.range k.val).map fun i => filledByte (offset + i),
      by simpa using Nat.ne_of_gt k.property.1, by simpa using k.property.2⟩ ::
    filledSegments (offset + k.val) ks

lemma filledByte_eq_zero {i : ℕ} (h : filledByte i = 0) : i % 20 = 19 := by
  by_contra hne
  rw [filledByte, if_neg hne] at h
  exact absurd h (by decide)

lemma endsInZero_filled : EndsInZero filled := rfl

lemma map_readLength_filledSegments (offset : ℕ) (ks : List ReadLength) :
    (filledSegments offset ks).map Segment.readLength = ks := by
  induction ks generalizing offset with
  | nil => rfl
  | cons k ks ih =>
    rw [filledSegments, List.map_cons, ih]
    congr 1
    exact Subtype.ext (by simp [Segment.readLength])

/-- The bytes of the segmentation are those of the stream. -/
lemma flatMap_filledSegments (offset : ℕ) (ks : List ReadLength) :
    (filledSegments offset ks).flatMap Segment.bytes =
      (List.range (ks.map Subtype.val).sum).map fun i => filledByte (offset + i) := by
  induction ks generalizing offset with
  | nil => rfl
  | cons k ks ih =>
    rw [filledSegments, List.flatMap_cons, ih, List.map_cons, List.sum_cons, List.range_add,
      List.map_append, List.map_map]
    congr 2
    funext i
    simp [Nat.add_assoc]

lemma bytesOf_replicate_filled (n : ℕ) :
    bytesOf (List.replicate n filled) = (List.range (20 * n)).map filledByte := by
  induction n with
  | zero => rfl
  | succ n ih =>
    have hrecord : List.ofFn filled = (List.range 20).map filledByte := by decide
    rw [List.replicate_succ', bytesOf_append, ih, hrecord, Nat.mul_succ, List.range_add,
      List.map_append, List.map_map]
    congr 2
    funext i
    simp [filledByte]

/-- So it is a segmentation of the first bytes of sufficiently many records. -/
lemma filledSegments_isPrefix (ks : List ReadLength) :
    (filledSegments 0 ks).flatMap Segment.bytes <+:
      bytesOf (List.replicate (ks.map Subtype.val).sum filled) := by
  rw [flatMap_filledSegments, bytesOf_replicate_filled]
  obtain ⟨more, hmore⟩ := Nat.exists_eq_add_of_le
    (Nat.le_mul_of_pos_left (ks.map Subtype.val).sum (by decide : 0 < 20))
  rw [hmore, List.range_add, List.map_append]
  simp only [Nat.zero_add]
  exact List.prefix_append _ _

/-- What holds of the initial bytes and of the bytes that are read holds of the buffer. -/
lemma overlayAll_of_forall {P : UInt8 → Prop} {buffer : CharArray bufferSize}
    (hbuffer : ∀ j, P (buffer j)) (hsegs : ∀ seg ∈ segs, ∀ x ∈ seg.bytes, P x)
    (j : Fin bufferSize) : P (overlayAll segs buffer j) := by
  induction segs generalizing buffer with
  | nil => exact hbuffer j
  | cons seg segs ih =>
    rw [overlayAll_cons]
    refine ih (fun i => ?_) fun seg' hseg' => hsegs seg' (List.mem_cons_of_mem seg hseg')
    by_cases hi : i.val < seg.bytes.length
    · rw [CharArray.overlay_of_lt hi]
      exact hsegs seg List.mem_cons_self _ (List.getElem_mem hi)
    · rw [CharArray.overlay_of_le (Nat.not_lt.mp hi)]
      exact hbuffer i

lemma mem_filledSegments {offset : ℕ} {ks : List ReadLength} {seg : Segment}
    (hseg : seg ∈ filledSegments offset ks) {x : UInt8} (hx : x ∈ seg.bytes) : x = 0 ∨ x = 97 := by
  induction ks generalizing offset with
  | nil => exact absurd hseg List.not_mem_nil
  | cons k ks ih =>
    rcases List.mem_cons.mp hseg with rfl | hmem
    · obtain ⟨i, -, rfl⟩ := List.mem_map.mp hx
      rw [filledByte]
      split
      · exact .inl rfl
      · exact .inr rfl
    · exact ih hmem

/-- The server never sees `done` in such a stream. -/
lemma made_filledSegments {ks : List ReadLength} (hpos : 0 < n) (hn : n ≤ ks.length) :
    Made (filledSegments 0 ks) n where
  pos := hpos
  le := by rwa [← map_readLength_filledSegments 0 ks, List.length_map] at hn
  goes_on i _ _ hdone := by
    have hbyte : ∀ j, overlayAll ((filledSegments 0 ks).take i) zeros j = 0 ∨
        overlayAll ((filledSegments 0 ks).take i) zeros j = 97 :=
      overlayAll_of_forall (P := fun x => x = 0 ∨ x = 97) (fun _ => .inl rfl)
        fun seg hseg x hx => mem_filledSegments (List.mem_of_mem_take hseg) hx
    have hfirst := (startsDone_iff _).mp ((startsDone_overlayAll_iff _ _).mpr hdone) 0
    rcases hbyte ((0 : Fin 4).castLE (by decide)) with hx | hx
    · rw [hx] at hfirst
      exact absurd hfirst (by decide)
    · rw [hx] at hfirst
      exact absurd hfirst (by decide)

/-- **Lengths that do not keep a zero** do not keep one for these records. -/
lemma keepsZero_of_isTerminated {ks : List ReadLength} {place offset : ℕ}
    {buffer : CharArray bufferSize} (hbuffer : ∀ j, buffer j = 0 → j.val ≤ place)
    (h : ∀ n, 0 < n → n ≤ ks.length →
      IsTerminated (overlayAll ((filledSegments offset ks).take n) buffer)) :
    KeepsZero place offset ks := by
  induction ks generalizing place offset buffer with
  | nil => exact trivial
  | cons k ks ih =>
    have hlen : ((List.range k.val).map fun i => filledByte (offset + i)).length = k.val := by simp
    -- a zero behind the place that is followed, or a zero that the read has delivered
    have hzero : ∀ j : Fin bufferSize, CharArray.overlay buffer
        ((List.range k.val).map fun i => filledByte (offset + i)) j = 0 →
        (j.val < k.val ∧ j.val = nextEnd offset) ∨ (k.val ≤ j.val ∧ j.val ≤ place) := by
      intro j hj
      by_cases hlt : j.val < k.val
      · rw [CharArray.overlay_of_lt (by rwa [hlen]), List.getElem_map, List.getElem_range] at hj
        exact .inl ⟨hlt, eq_nextEnd j.isLt (filledByte_eq_zero hj)⟩
      · rw [CharArray.overlay_of_le (by rw [hlen]; omega)] at hj
        exact .inr ⟨Nat.not_lt.mp hlt, hbuffer j hj⟩
    have hrest : ∀ m, 0 < m → m ≤ ks.length →
        IsTerminated (overlayAll ((filledSegments (offset + k.val) ks).take m)
          (buffer.overlay ((List.range k.val).map fun i => filledByte (offset + i)))) := by
      intro m _ hm
      exact h (m + 1) m.succ_pos (Nat.succ_le_succ hm)
    rw [KeepsZero]
    split
    · next hle =>
      refine ih (fun j hj => ?_) hrest
      rcases hzero j hj with ⟨hlt, -⟩ | ⟨-, hle'⟩ <;> omega
    · next hlt =>
      obtain ⟨j, hj⟩ := h 1 (by decide) (Nat.succ_le_succ (Nat.zero_le _))
      refine ⟨?_, ih (fun j hj => ?_) hrest⟩
      · rcases hzero j hj with ⟨hlt', heq⟩ | ⟨hle, hle'⟩ <;> omega
      · rcases hzero j hj with ⟨hlt', heq⟩ | ⟨hle, hle'⟩ <;> omega

/-! ### The condition -/

/-- For a segmentation: after every read some place holds a zero that no later read has reached. -/
lemma alwaysTerminated_iff_leavesZero :
    AlwaysTerminated segs ↔ ∀ n, Made segs n → ∃ j, LeavesZero (segs.take n) j := by
  simp only [alwaysTerminated_iff_made, IsTerminated, overlayAll_eq_zero_iff]

/-- For the lengths of the reads: they keep a zero of any records that end with one. -/
lemma forall_alwaysTerminated_iff (ks : List ReadLength) :
    (∀ messages segs, (∀ m ∈ messages, EndsInZero m) →
      segs.flatMap Segment.bytes <+: bytesOf messages → segs.map Segment.readLength = ks →
      AlwaysTerminated segs) ↔ KeepsZero 19 0 ks := by
  constructor
  · intro h
    have hrecords : ∀ m ∈ List.replicate (ks.map Subtype.val).sum filled, EndsInZero m := by
      intro m hm
      rw [List.eq_of_mem_replicate hm]
      exact endsInZero_filled
    have halways := h _ _ hrecords (filledSegments_isPrefix ks) (map_readLength_filledSegments 0 ks)
    have hbuffer : ∀ j : Fin bufferSize, zeros j = 0 → j.val ≤ 19 :=
      fun j _ => Nat.le_of_lt_succ j.isLt
    refine keepsZero_of_isTerminated hbuffer fun n hpos hn => ?_
    exact alwaysTerminated_iff_made.mp halways n (made_filledSegments hpos hn)
  · rintro h messages segs hmessages hpre rfl
    refine alwaysTerminated_iff_made.mpr fun n _ => ?_
    have hplace : zeros (Fin.last 19) = 0 := rfl
    exact isTerminated_of_keepsZero (fun i hi hend => bytesOf_eq_zero hmessages hi hend) hplace
      hpre h n

/-- **When the C++ server prints terminated strings.** For a segmentation: exactly when after every
read that is made, some place holds a zero that no later read has reached. For the lengths of the
reads: they suffice for all records that end with a zero exactly when they keep a zero. -/
theorem alwaysTerminated_iff (segs : List Segment) (ks : List ReadLength) :
    (AlwaysTerminated segs ↔ ∀ n, Made segs n → ∃ j, LeavesZero (segs.take n) j) ∧
      ((∀ messages segs', (∀ m ∈ messages, EndsInZero m) →
        segs'.flatMap Segment.bytes <+: bytesOf messages → segs'.map Segment.readLength = ks →
        AlwaysTerminated segs') ↔ KeepsZero 19 0 ks) :=
  ⟨alwaysTerminated_iff_leavesZero, forall_alwaysTerminated_iff ks⟩

/-! ### Sessions -/

section Session

variable {lang : Lang} {typed : ℕ → Option (InputLine bufferSize)} {buffer : CharArray bufferSize}
  {s : Duo.State Connection Client Server}

/-- A string that is written into a buffer leaves the zero at its end, or is what ends there. -/
lemma EndsInZero.overlay {m : CharArray bufferSize} (h : EndsInZero m) {bytes : List UInt8}
    (hlen : bytes.length < bufferSize) : EndsInZero (m.overlay (bytes ++ [0])) := by
  by_cases hlt : 19 < (bytes ++ [0]).length
  · rw [EndsInZero, CharArray.overlay_of_lt hlt]
    have hlast : bytes.length = 19 := by
      rw [List.length_append, List.length_singleton] at hlt
      have hle : bytes.length < 20 := hlen
      omega
    show (bytes ++ [0])[19] = 0
    rw [List.getElem_append_right (Nat.le_of_eq hlast)]
    simp
  · exact (CharArray.overlay_of_le (Nat.not_lt.mp hlt)).trans h

/-- **A message that is entered ends with a zero.** -/
lemma EndsInZero.enterMessage {m : CharArray bufferSize} (h : EndsInZero m)
    (line : Option (InputLine bufferSize)) : EndsInZero (enterMessage lang m line) := by
  cases lang with
  | c =>
    have hzeros : EndsInZero (fun _ => 0) := rfl
    have hfgets : EndsInZero (fgets (fun _ => 0) line) := by
      cases line with
      | none => exact hzeros
      | some line => exact hzeros.overlay line.length_lt
    show strtokNewline (fgets (fun _ => 0) line) (Fin.last 19) = 0
    unfold strtokNewline
    split
    · rfl
    · exact hfgets
  | cpp =>
    cases line with
    | none =>
      have hnone : EndsInZero (m.overlay ([] ++ [0])) := h.overlay (by decide)
      exact hnone
    | some line =>
      exact h.overlay (Nat.lt_of_le_of_lt (List.length_filter_le _ _) line.length_lt)

/-- The records of a session are as the condition supposes. -/
theorem session_endsInZero (h : (session lang typed buffer).machine.Reach s) :
    ∀ m ∈ s.left.messages, EndsInZero m := by
  have hmsg : EndsInZero s.left.msg ∧ ∀ m ∈ s.left.messages, EndsInZero m := by
    refine Duo.invariant
      (I := fun _ cl _ => EndsInZero cl.msg ∧ ∀ m ∈ cl.messages, EndsInZero m) ?_ ?_ ?_ ?_ h
    · exact ⟨rfl, fun m hm => absurd hm List.not_mem_nil⟩
    · intro c cl sv k c' cl' _ _ ih hs
      have hm := client_cases hs
      generalize cl.loc = l at hm
      cases hm with
      | enter => exact ⟨ih.1.enterMessage _, ih.2⟩
      | write =>
        exact ⟨ih.1, List.forall_mem_append.mpr ⟨ih.2, List.forall_mem_singleton.mpr ih.1⟩⟩
      | read got st h =>
        unfold Client.receive
        split <;> exact ih
      | testDone h | testOther h | close => exact ih
    · exact fun _ _ _ _ _ _ _ _ ih _ => ih
    · exact fun _ _ _ e => e.elim
  exact hmsg.2

/-- **The condition in a session**, for either client: if the lengths of the reads that have led to
a state keep a zero, what the server prints there is terminated. -/
theorem session_isTerminated (h : (session lang typed zeros).machine.Reach s) :
    ∃ segs, Comes segs zeros ([], s.right) ∧
      (KeepsZero 19 0 (segs.map Segment.readLength) → s.right.loc = .write →
        IsTerminated s.right.buffer) := by
  obtain ⟨segs, hpre, hcomes⟩ := session_segments h
  refine ⟨segs, hcomes, fun hkeep hl => ?_⟩
  have hplace : zeros (Fin.last 19) = 0 := rfl
  obtain ⟨n, hn⟩ := exists_printing hcomes
  rw [hn.buffer_eq]
  exact isTerminated_of_keepsZero
    (fun i hi hend => bytesOf_eq_zero (session_endsInZero h) hi hend) hplace hpre hkeep n

end Session

/-- Lengths that do not: the first `read` leaves the end of the first record for the second, which
puts it at the first place, and the second end takes its place only until the last `read`. -/
example : ¬ KeepsZero 19 0 [⟨19, by decide⟩, ⟨20, by decide⟩, ⟨1, by decide⟩, ⟨1, by decide⟩] := by
  decide

/-- A line of nineteen characters. -/
def lineFull : InputLine bufferSize := ⟨List.replicate 19 97, by decide, by decide⟩

/-- The C++ client sends three such lines, and the server reads 19, 20, 1 and 1 bytes. -/
def runFull : List (Duo.Label ℕ ℕ Empty) :=
  [.left 0, .left 0, .right 19, .right 0, .right 0, .left 20, .left 0, .left 0, .left 0,
    .right 20, .right 0, .right 0, .left 20, .left 0, .left 0, .left 0,
    .right 1, .right 0, .right 0, .right 1]

/-- Then there is no zero in the buffer. -/
theorem not_isTerminated : ¬ ∀ s, (session .cpp (fun _ => some lineFull) zeros).machine.Reach s →
    s.right.loc = .write → IsTerminated s.right.buffer := by
  have hexec : ∃ s, (session .cpp (fun _ => some lineFull) zeros).machine.exec
      (session .cpp (fun _ => some lineFull) zeros).machine.init runFull = some s ∧
      s.right.loc = .write ∧ ∀ j, s.right.buffer j ≠ 0 := by
    set_option maxRecDepth 4000 in
    exact ⟨_, rfl, rfl, by decide⟩
  obtain ⟨s, hs, hl, hbuffer⟩ := hexec
  intro h
  obtain ⟨j, hj⟩ := h s (Machine.reach_of_exec hs) hl
  exact hbuffer j hj

end Socket

end PosixIntro
