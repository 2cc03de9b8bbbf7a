import PosixIntro.Socket.Echo

set_option relaxedAutoImplicit false
set_option autoImplicit false

/-!
# A reply comes to every message, whatever the segmentation

When the stream is cut into short reads the echo is not faithful any more. But client and server
stay in step in the following sense: for each read of the server, however short, a whole record is
sent, and a read of the client takes one record at most. So there is always something for the client
to read once the server has gone on.

## Main definitions

* `Blocked` — the client has not left, and cannot go on.
* `Flow` — the account of the bytes in both directions.

## Main results

* `replies_come` — the server receives what was sent in its order, and it never leaves the client
  blocked for long.

## Design

The socket buffers are unbounded, as in the other modules about sessions.
-/

namespace PosixIntro

namespace Socket

variable {lang : Lang} {typed : ℕ → Option (InputLine bufferSize)} {buffer : CharArray bufferSize}
  {s s' : Duo.State Connection Client Server} {c c' : Connection} {cl cl' : Client}
  {sv sv' : Server} {k : ℕ}

/-- The client has not left, and cannot go on whatever `read` would return. -/
def Blocked (lang : Lang) (typed : ℕ → Option (InputLine bufferSize)) (c : Connection)
    (cl : Client) : Prop :=
  cl.loc ≠ .left ∧ ∀ k, clientStep lang typed k c cl = none

/-- How many bytes the server has read and not yet answered. -/
def Server.owes (sv : Server) : ℕ := if sv.loc = .write then bufferSize else 0

/-- **The account of the bytes.** -/
structure Flow (c : Connection) (cl : Client) (sv : Server) : Prop where
  /-- What was sent is what the server has received and what is still on its way. -/
  up : bytesOf cl.messages = sv.received ++ c.up.bytes
  /-- The server has sent at least as much as it has received. -/
  echo : sv.received.length ≤ sv.sent.length + sv.owes
  /-- A read of the client takes one record at most. -/
  down : sv.sent.length ≤ c.down.bytes.length + bufferSize * cl.replies.length
  /-- As long as the server has not left, each message but the last one has its reply. -/
  turn : c.down.closed = false →
    cl.messages.length = cl.replies.length + if cl.loc = .read then 1 else 0
  /-- The server closes the connection when it leaves. -/
  closed : c.down.closed = true ↔ sv.loc = .left

/-! ### One step -/

@[simp] lemma length_bytesOf (messages : List (CharArray bufferSize)) :
    (bytesOf messages).length = bufferSize * messages.length := by
  induction messages with
  | nil => rfl
  | cons m messages ih =>
    rw [show bytesOf (m :: messages) = List.ofFn m ++ bytesOf messages from rfl,
      List.length_append, List.length_ofFn, ih, List.length_cons, Nat.mul_succ, Nat.add_comm]

/-- What a read takes is a record at most, and something if there is something. -/
lemma ByteStream.read_bounds {st st' : ByteStream} {got : List UInt8}
    (h : st.read k = some (got, st')) : st.bytes = got ++ st'.bytes ∧ st'.closed = st.closed ∧
      got.length ≤ bufferSize ∧ (got = [] → st.bytes = [] ∧ st.closed) := by
  obtain ⟨hk, hr⟩ := Option.ite_none_right_eq_some.mp h
  obtain ⟨rfl, rfl⟩ := Prod.mk.inj (Option.some.inj hr)
  refine ⟨(List.take_append_drop k st.bytes).symm, rfl, ?_, fun hnil => ?_⟩
  · rw [List.length_take]
    omega
  · rcases hk with ⟨hpos, -, hle⟩ | ⟨-, hempty, hclosed⟩
    · have hlen := congrArg List.length hnil
      rw [List.length_take, List.length_nil] at hlen
      omega
    · exact ⟨hempty, hclosed⟩

/-- A byte can be read when there is one. -/
lemma ByteStream.read_one {st : ByteStream} (h : st.bytes ≠ []) :
    st.read 1 = some (st.bytes.take 1, { st with bytes := st.bytes.drop 1 }) :=
  if_pos (.inl ⟨Nat.one_pos, by decide, List.length_pos_iff.mpr h⟩)

/-- `read` blocks when there is nothing to read and the other side has not closed. -/
lemma ByteStream.read_eq_none_iff {st : ByteStream} :
    (∀ k, st.read k = none) ↔ st.bytes = [] ∧ st.closed = false := by
  constructor
  · intro hnone
    have hempty : st.bytes = [] := by
      by_contra hne
      have h1 := hnone 1
      rw [read_one hne] at h1
      cases h1
    refine ⟨hempty, ?_⟩
    by_contra hclosed
    have h0 := hnone 0
    rw [read, if_pos (.inr ⟨rfl, hempty, by simpa using hclosed⟩)] at h0
    cases h0
  · rintro ⟨hempty, hopen⟩ k
    refine if_neg ?_
    rintro (⟨hpos, -, hle⟩ | ⟨-, -, hclosed⟩)
    · rw [hempty] at hle
      exact absurd hle (Nat.not_le.mpr hpos)
    · rw [hopen] at hclosed
      cases hclosed

/-- A step of the client. -/
lemma Flow.client (h : Flow c cl sv) (hm : ClientMove lang typed k c cl cl.loc c' cl') :
    Flow c' cl' sv := by
  obtain ⟨hup, hecho, hdown, hturn, hclosed⟩ := h
  generalize hl : cl.loc = l at hm
  cases hm with
  | write =>
    refine ⟨?_, hecho, hdown, fun hopen => ?_, hclosed⟩
    · rw [bytesOf_append, hup, List.append_assoc]
      rfl
    · simpa [hl] using hturn hopen
  | read got st hr =>
    obtain ⟨hbytes, hst, hle, hempty⟩ := ByteStream.read_bounds hr
    by_cases hgot : got = []
    · have hend := hempty hgot
      subst hgot
      -- only the location changes
      have hrec : cl.receive lang [] = { cl with loc := (cl.receive lang []).loc } := by
        simp only [Client.receive, if_true]
      rw [hrec]
      refine ⟨hup, hecho, ?_, fun hopen => ?_, ?_⟩
      · rwa [hbytes] at hdown
      · rw [hst, hend.2] at hopen
        cases hopen
      · rw [hst]
        exact hclosed
    · rw [Client.receive_of_ne hgot]
      refine ⟨hup, hecho, ?_, fun hopen => ?_, ?_⟩
      · rw [hbytes, List.length_append] at hdown
        rw [List.length_append, List.length_singleton, Nat.mul_succ]
        show sv.sent.length ≤ st.bytes.length + (bufferSize * cl.replies.length + bufferSize)
        omega
      · rw [hst] at hopen
        simpa [hl] using hturn hopen
      · rw [hst]
        exact hclosed
  | enter | testDone | testOther | close =>
    exact ⟨hup, hecho, hdown, fun hopen => by simpa [hl] using hturn hopen, hclosed⟩

/-- A step of the server. -/
lemma Flow.server (h : Flow c cl sv) (hm : ServerMove k c sv sv.loc c' sv') : Flow c' cl sv' := by
  obtain ⟨hup, hecho, hdown, hturn, hclosed⟩ := h
  generalize hl : sv.loc = l at hm
  have howes : sv.owes = if l = .write then bufferSize else 0 := by rw [Server.owes, hl]
  rw [howes] at hecho
  rw [hl] at hclosed
  cases hm with
  | readNothing st hr =>
    obtain ⟨hbytes, -⟩ := ByteStream.read_bounds hr
    exact ⟨hup.trans (congrArg _ hbytes), hecho, hdown, hturn, hclosed.trans (by simp)⟩
  | read got st hr hgot =>
    obtain ⟨hbytes, -, hle, -⟩ := ByteStream.read_bounds hr
    refine ⟨?_, ?_, hdown, hturn, hclosed.trans (by simp)⟩
    · rw [hup, hbytes, List.append_assoc]
    · rw [List.length_append]
      exact Nat.add_le_add hecho hle
  | write =>
    refine ⟨hup, ?_, ?_, hturn, hclosed.trans (by simp)⟩
    · rw [List.length_append, List.length_ofFn]
      exact hecho
    · rw [List.length_append, List.length_ofFn, ByteStream.write, List.length_append,
        List.length_ofFn]
      omega
  | testDone | testOther => exact ⟨hup, hecho, hdown, hturn, hclosed.trans (by simp)⟩
  | close =>
    refine ⟨hup, hecho, hdown, fun hopen => ?_, iff_of_true rfl rfl⟩
    cases hopen

/-- **The account of the bytes** holds in every state. -/
theorem flow (h : (session lang typed buffer).machine.Reach s) :
    Flow s.shared s.left s.right := by
  refine Duo.invariant (P := session lang typed buffer) (I := Flow) ?_ ?_ ?_ ?_ h
  · exact ⟨rfl, Nat.zero_le _, Nat.zero_le _, fun _ => rfl, by simp [session]⟩
  · intro d l r a d' l' _ _ ih hs
    exact ih.client (client_cases hs)
  · intro d l r b d' r' _ _ ih hs
    exact ih.server (server_cases hs)
  · exact fun d l r e => e.elim

/-! ### The client is not blocked for long -/

/-- A client that is blocked waits for a reply. -/
lemma blocked_iff : Blocked lang typed c cl ↔
    cl.loc = .read ∧ c.down.bytes = [] ∧ c.down.closed = false := by
  constructor
  · rintro ⟨hleft, hnone⟩
    have hl : cl.loc = .read := by
      have h0 := hnone 0
      unfold clientStep at h0
      cases hloc : cl.loc with
      | read => rfl
      | left => exact absurd hloc hleft
      | _ => simp [hloc] at h0
    refine ⟨hl, ByteStream.read_eq_none_iff.mp fun k => ?_⟩
    have hk := hnone k
    rw [clientStep, hl] at hk
    exact Option.map_eq_none_iff.mp hk
  · rintro ⟨hl, hdown⟩
    refine ⟨by simp [hl], fun k => ?_⟩
    rw [clientStep, hl, ByteStream.read_eq_none_iff.mpr hdown k]
    rfl

/-- Then there is something for the server to read, or it is past its read. -/
lemma Blocked.up_ne_nil (hb : Blocked lang typed c cl) (h : Flow c cl sv) (hl : sv.loc ≠ .write) :
    c.up.bytes ≠ [] := by
  obtain ⟨hread, hempty, hopen⟩ := blocked_iff.mp hb
  intro hnil
  have hturn := h.turn hopen
  have hecho := h.echo
  have hdown := h.down
  have hup := congrArg List.length h.up
  rw [hread, if_pos rfl] at hturn
  rw [Server.owes, if_neg hl] at hecho
  rw [hempty, List.length_nil] at hdown
  rw [length_bytesOf, hnil, List.append_nil, hturn, Nat.mul_succ] at hup
  have hpos : 0 < bufferSize := by decide
  omega

/-- The server goes on while the client is blocked. -/
lemma Blocked.exists_step (hb : Blocked lang typed c cl) (h : Flow c cl sv) :
    ∃ k, (serverStep k c sv).isSome := by
  cases hl : sv.loc with
  | read =>
    have hne : sv.loc ≠ .write := by simp [hl]
    exact ⟨1, by simp [serverStep, hl, ByteStream.read_one (hb.up_ne_nil h hne)]⟩
  | left =>
    obtain ⟨-, -, hopen⟩ := blocked_iff.mp hb
    rw [h.closed.mpr hl] at hopen
    cases hopen
  | write | test | close => exact ⟨0, by simp [serverStep, hl]⟩

/-- How many steps the server can make at a program point and leave the client blocked. -/
def Server.Loc.distance : Server.Loc → ℕ
  | .test => 2
  | .read => 1
  | _ => 0

/-- A step of the server after which the client is still blocked. -/
lemma Blocked.of_move (hb : Blocked lang typed c' cl) (h : Flow c cl sv)
    (hm : ServerMove k c sv sv.loc c' sv') :
    Blocked lang typed c cl ∧ sv'.loc.distance < sv.loc.distance := by
  obtain ⟨hread, hempty, hopen⟩ := blocked_iff.mp hb
  generalize hl : sv.loc = l at hm
  cases hm with
  | readNothing st hr =>
    have hb' : Blocked lang typed c cl := blocked_iff.mpr ⟨hread, hempty, hopen⟩
    have hne : sv.loc ≠ .write := by simp [hl]
    exact absurd ((ByteStream.read_bounds hr).2.2.2 rfl).1 (hb'.up_ne_nil h hne)
  | read got st hr hgot => exact ⟨blocked_iff.mpr ⟨hread, hempty, hopen⟩, Nat.zero_lt_one⟩
  | write =>
    have hlen := congrArg List.length hempty
    simp [ByteStream.write] at hlen
  | testDone hd => exact ⟨hb, Nat.zero_lt_two⟩
  | testOther hd => exact ⟨hb, Nat.one_lt_two⟩
  | close => cases hopen

/-- Steps of the server alone after which the client is still blocked. -/
lemma length_le_distance (h : (session lang typed buffer).machine.Reach s) (ks : List ℕ)
    (hexec : (session lang typed buffer).machine.exec s (ks.map .right) = some s')
    (hb : Blocked lang typed s'.shared s'.left) :
    Blocked lang typed s.shared s.left ∧
      ks.length + s'.right.loc.distance ≤ s.right.loc.distance := by
  induction ks generalizing s with
  | nil =>
    obtain rfl := Option.some.inj hexec
    exact ⟨hb, by simp⟩
  | cons k ks ih =>
    obtain ⟨t, hst, hrest⟩ := Option.bind_eq_some_iff.mp hexec
    obtain ⟨hbt, hlen⟩ := ih (h.next hst) hrest
    obtain ⟨d, r, hr, rfl⟩ := Duo.of_step_right hst
    have hmove : serverStep k s.shared s.right = some (d, r) := hr
    have hbt : Blocked lang typed d s.left := hbt
    obtain ⟨hbs, hlt⟩ := hbt.of_move (flow h) (server_cases hmove)
    refine ⟨hbs, ?_⟩
    have hlen' : ks.length + s'.right.loc.distance ≤ r.loc.distance := hlen
    rw [List.length_cons]
    omega

/-- **A reply comes to every message.** In every session, whatever is typed, however the streams are
cut into reads and however client and server alternate, what the server has received is what the
client has sent, up to a place; and while the client cannot go on, the server can, and after three
of its steps at most so can the client.

**Proof sketch.** Each byte that the server has read is covered by one that it has sent, and each
read of the client takes at most as much as one message has. So if all that was sent has been read on
both sides, the client has as many replies as messages and does not wait. -/
theorem replies_come (h : (session lang typed buffer).machine.Reach s) :
    s.right.received <+: bytesOf s.left.messages ∧
      (Blocked lang typed s.shared s.left → ∃ k s',
        (session lang typed buffer).machine.step s (.right k) = some s') ∧
      ∀ (ks : List ℕ) s', (session lang typed buffer).machine.exec s (ks.map .right) = some s' →
        Blocked lang typed s'.shared s'.left → ks.length < 3 := by
  have hflow := flow h
  refine ⟨⟨_, hflow.up.symm⟩, fun hb => ?_, fun ks s' hexec hb => ?_⟩
  · obtain ⟨k, hk⟩ := hb.exists_step hflow
    obtain ⟨⟨d, r⟩, hr⟩ := Option.isSome_iff_exists.mp hk
    exact ⟨k, _, Duo.step_right hr⟩
  · have hle := (length_le_distance h ks hexec hb).2
    have hdist : s.right.loc.distance ≤ 2 := by
      cases s.right.loc <;> decide
    omega

/-- The input is at its end, so the client has sent an empty buffer, and the server has read one byte
of it: the client is blocked. -/
theorem replies_come_short : ∃ s : Duo.State Connection Client Server,
    Blocked .c (fun _ => none) s.shared s.left ∧ s.right.received.length = 1 ∧
      s.right.received <+: bytesOf s.left.messages ∧
      (Blocked .c (fun _ => none) s.shared s.left → ∃ k s',
        (session .c (fun _ => none) fun _ => 0).machine.step s (.right k) = some s') ∧
      ∀ (ks : List ℕ) s',
        (session .c (fun _ => none) fun _ => 0).machine.exec s (ks.map .right) = some s' →
          Blocked .c (fun _ => none) s'.shared s'.left → ks.length < 3 := by
  have hrun : ∃ s, (session .c (fun _ => none) fun _ => 0).machine.exec
      (session .c (fun _ => none) fun _ => 0).machine.init [.left 0, .left 0, .right 1] = some s ∧
      s.left.loc = .read ∧ s.shared.down = ⟨[], false⟩ ∧ s.right.received.length = 1 :=
    ⟨_, rfl, rfl, rfl, rfl⟩
  obtain ⟨s, hexec, hread, hdown, hlen⟩ := hrun
  have hb : Blocked .c (fun _ => none) s.shared s.left :=
    blocked_iff.mpr ⟨hread, by rw [hdown], by rw [hdown]⟩
  exact ⟨s, hb, hlen, replies_come (Machine.reach_of_exec hexec)⟩

end Socket

end PosixIntro
