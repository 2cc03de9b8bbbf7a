import PosixIntro.Socket.ClientGone
import PosixIntro.Socket.Echo

set_option relaxedAutoImplicit false
set_option autoImplicit false

/-!
# The reads of a session as a segmentation

In a session the client sends while the server reads. What the server does there is what it does
when its reads return the segments of what the client has sent.

## Main definitions

* `Follows` — the server has come to its state by reads that return some segments.
* `Segmented` — the segments, with what is on its way, are what the client has sent.

## Main results

* `session_segments` — in every state of a session there are such segments.
-/

namespace PosixIntro

namespace Socket

/-! ### What `read` takes -/

/-- A `read` that returns nothing finds a stream that is closed and empty. -/
lemma ByteStream.read_nil {st st' : ByteStream} {k : ℕ} (h : st.read k = some ([], st')) :
    st.closed = true ∧ st.bytes = [] ∧ st' = st := by
  obtain ⟨-, rfl, hlen⟩ := ByteStream.read_eq_some h
  obtain ⟨hk, -⟩ := Option.ite_none_right_eq_some.mp h
  obtain rfl : k = 0 := hlen.symm
  obtain ⟨-, hbytes, hclosed⟩ := hk.resolve_left fun hk => absurd hk.1 (Nat.lt_irrefl 0)
  exact ⟨hclosed, hbytes, rfl⟩

/-- A `read` takes at most a buffer from the stream. -/
lemma ByteStream.read_length_le {st st' : ByteStream} {got : List UInt8}
    {k : ℕ} (h : st.read k = some (got, st')) : got.length ≤ bufferSize := by
  obtain ⟨-, -, hlen⟩ := ByteStream.read_eq_some h
  obtain ⟨hk, -⟩ := Option.ite_none_right_eq_some.mp h
  rw [hlen]
  rcases hk with ⟨-, hle, -⟩ | ⟨rfl, -⟩
  · exact hle
  · exact Nat.zero_le _

/-! ### The segments -/

/-- The reads of the server are the segments: they are followed by others, or the client has closed
and everything has been read. -/
def Follows (buffer : CharArray bufferSize) (segs : List Segment) (c : Connection) (sv : Server) :
    Prop :=
  (∀ more, Comes (segs ++ more) buffer (more, sv)) ∨
    (c.up.closed = true ∧ c.up.bytes = [] ∧ Comes segs buffer ([], sv))

/-- The segments, and what is on its way, are what the client has sent. -/
structure Segmented (buffer : CharArray bufferSize) (c : Connection) (cl : Client) (sv : Server)
    (segs : List Segment) : Prop where
  bytes : segs.flatMap Segment.bytes ++ c.up.bytes = bytesOf cl.messages
  closed : c.up.closed = true → cl.loc = .left
  follows : Follows buffer segs c sv

variable {lang : Lang} {typed : ℕ → Option (InputLine bufferSize)} {buffer : CharArray bufferSize}
  {segs : List Segment} {k : ℕ} {c c' : Connection} {cl cl' : Client} {sv sv' : Server}

lemma Follows.comes (h : Follows buffer segs c sv) : Comes segs buffer ([], sv) := by
  rcases h with h | ⟨-, -, h⟩
  · have hnil := h []
    rwa [List.append_nil] at hnil
  · exact h

/-- A step of the server that is not a `read`. -/
lemma Follows.other (h : Follows buffer segs c sv) (hl : sv.loc ≠ .read) (hup : c'.up = c.up) :
    Follows buffer segs c' (sv.next []) := by
  rcases h with h | ⟨hclosed, hbytes, h⟩
  · refine .inl fun more => ?_
    rw [← Server.fed_of_ne_read hl]
    exact (h more).next
  · refine .inr ⟨by rw [hup, hclosed], by rw [hup, hbytes], ?_⟩
    rw [← Server.fed_of_ne_read hl]
    exact h.next

/-- A `read` that returns something is one more segment. -/
lemma Follows.read (h : Follows buffer segs c sv) (hl : sv.loc = .read) {seg : Segment}
    (hne : c.up.bytes ≠ []) : Follows buffer (segs ++ [seg]) c' (sv.next seg.bytes) := by
  rcases h with h | ⟨-, hbytes, -⟩
  · refine .inl fun more => ?_
    have hnext := (h (seg :: more)).next
    rw [List.append_cons] at hnext
    simpa only [Server.fed, hl, returned, if_true, List.tail_cons] using hnext
  · exact absurd hbytes hne

/-- One step of the client. -/
lemma Segmented.client (h : Segmented buffer c cl sv segs)
    (hm : ClientMove lang typed k c cl cl.loc c' cl') : Segmented buffer c' cl' sv segs := by
  have hopen : cl.loc ≠ .left → c.up.closed ≠ true := fun hl hclosed => hl (h.closed hclosed)
  have hrun : cl.loc ≠ .left → ∀ more, Comes (segs ++ more) buffer (more, sv) := by
    intro hl
    exact h.follows.resolve_right fun h' => hopen hl h'.1
  generalize hloc : cl.loc = l at hm
  cases hm with
  | enter | testDone h' | testOther h' =>
    have hl : cl.loc ≠ .left := by simp [hloc]
    exact ⟨h.bytes, fun hclosed => absurd hclosed (hopen hl), .inl (hrun hl)⟩
  | read got st h' =>
    have hl : cl.loc ≠ .left := by simp [hloc]
    have hmessages : (cl.receive lang got).messages = cl.messages := by
      unfold Client.receive
      split <;> rfl
    refine ⟨?_, fun hclosed => absurd hclosed (hopen hl), .inl (hrun hl)⟩
    rw [hmessages]
    exact h.bytes
  | write =>
    have hl : cl.loc ≠ .left := by simp [hloc]
    refine ⟨?_, fun hclosed => absurd hclosed (hopen hl), .inl (hrun hl)⟩
    rw [bytesOf_append, ← h.bytes, List.append_assoc]
    rfl
  | close =>
    have hl : cl.loc ≠ .left := by simp [hloc]
    exact ⟨h.bytes, fun _ => rfl, .inl (hrun hl)⟩

/-- One step of the server. -/
lemma Segmented.server (h : Segmented buffer c cl sv segs)
    (hs : serverStep k c sv = some (c', sv')) : ∃ segs', Segmented buffer c' cl sv' segs' := by
  unfold serverStep at hs
  cases hl : sv.loc with
  | read =>
    simp only [hl] at hs
    obtain ⟨⟨got, st⟩, hread, heq⟩ := Option.map_eq_some_iff.mp hs
    obtain ⟨rfl, rfl⟩ := Prod.mk.inj heq
    by_cases hgot : got = []
    · subst hgot
      obtain ⟨hclosed, hbytes, rfl⟩ := ByteStream.read_nil hread
      have hnext := h.follows.comes.next
      simp only [Server.fed, hl, returned, if_true, List.tail_nil] at hnext
      exact ⟨segs, h.bytes, h.closed, .inr ⟨hclosed, hbytes, hnext⟩⟩
    · obtain ⟨hbytes, rfl, -⟩ := ByteStream.read_eq_some hread
      have hne : c.up.bytes ≠ [] := fun hnil => hgot (by rw [hbytes, hnil, List.take_nil])
      let seg : Segment := ⟨got, hgot, ByteStream.read_length_le hread⟩
      refine ⟨segs ++ [seg], ?_, h.closed, h.follows.read hl hne⟩
      have hseg : [seg].flatMap Segment.bytes = got := List.append_nil got
      rw [List.flatMap_append, hseg, List.append_assoc, hbytes, List.take_append_drop]
      exact h.bytes
  | left =>
    simp only [hl] at hs
    cases hs
  | write | test | close =>
    simp only [hl] at hs
    obtain ⟨rfl, rfl⟩ := Prod.mk.inj (Option.some.inj hs)
    exact ⟨segs, h.bytes, h.closed, h.follows.other (by simp [hl]) rfl⟩

variable {s : Duo.State Connection Client Server}

/-- **The reads of a session** are a segmentation of the first bytes that its client has sent. -/
theorem session_segments (h : (session lang typed buffer).machine.Reach s) :
    ∃ segs, segs.flatMap Segment.bytes <+: bytesOf s.left.messages ∧
      Comes segs buffer ([], s.right) := by
  obtain ⟨segs, hsegs⟩ : ∃ segs, Segmented buffer s.shared s.left s.right segs := by
    refine Duo.invariant (I := fun c cl sv => ∃ segs, Segmented buffer c cl sv segs) ?_ ?_ ?_ ?_ h
    · exact ⟨[], rfl, by simp [session], .inl fun more => ⟨0, rfl⟩⟩
    · rintro c cl sv k c' cl' - - ⟨segs, hsegs⟩ hs
      exact ⟨segs, hsegs.client (client_cases hs)⟩
    · rintro c cl sv k c' sv' - - ⟨segs, hsegs⟩ hs
      exact hsegs.server hs
    · exact fun _ _ _ e => e.elim
  exact ⟨segs, ⟨_, hsegs.bytes⟩, hsegs.follows.comes⟩

end Socket

end PosixIntro
