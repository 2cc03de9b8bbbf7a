import Mathlib.Data.List.Basic
import PosixIntro.Concurrency.Duo
import PosixIntro.Stdio

set_option relaxedAutoImplicit false
set_option autoImplicit false

/-!
# The socket programs (`client.c`, `server.c` and `sockets.hh`)

A client sends what is typed, a buffer at a time, and the server echoes every buffer.

## Main definitions

* `ByteStream`, `Connection` — one direction of the connection, and both.
* `Client`, `clientStep`, `Server`, `serverStep` — the two loops, statement by statement.
* `session` — the interleavings of a client and a server.

## Main results

* `client_cases`, `server_cases` — what a step of the client and of the server can do.

## Design

A write puts a whole buffer into the stream. The label of a step is the number of bytes that `read`
returns, at most what is available and at least one, or zero when nothing is available and the other
side has closed; the other statements ignore it. So a run is a segmentation together with an
interleaving. The loops of the C and of the C++ server are the same; only the C server starts with
an arbitrary buffer. The clients differ in how a message is entered, in the buffer that is tested
and in where `continue` leads. The branch for a `write` that returns zero is never taken.
-/

namespace PosixIntro

namespace Socket

/-- `BUFFER_SIZE` and `Common::buffer`. -/
abbrev bufferSize : ℕ := 20

/-- The bytes in flight in one direction, and whether the sender has closed. -/
structure ByteStream where
  bytes : List UInt8
  closed : Bool

namespace ByteStream

/-- `write(fd, buf, BUFFER_SIZE)`. -/
def write (st : ByteStream) (buf : CharArray bufferSize) : ByteStream :=
  { st with bytes := st.bytes ++ List.ofFn buf }

/-- `read(fd, buf, BUFFER_SIZE)` when it returns `k`: the bytes and what is left in the stream. -/
def read (st : ByteStream) (k : ℕ) : Option (List UInt8 × ByteStream) :=
  if (0 < k ∧ k ≤ bufferSize ∧ k ≤ st.bytes.length) ∨ (k = 0 ∧ st.bytes = [] ∧ st.closed) then
    some (st.bytes.take k, { st with bytes := st.bytes.drop k })
  else
    none

/-- `close(fd)`. -/
def close (st : ByteStream) : ByteStream := { st with closed := true }

end ByteStream

/-- Both directions: `up` to the server, `down` to the client. -/
structure Connection where
  up : ByteStream
  down : ByteStream

/-! ### The client -/

/-- The statements of the client. -/
inductive Client.Loc where
  /-- `memset`, `fgets` and `strtok`, or `getline`. -/
  | enter
  /-- `write`. -/
  | write
  /-- `read`. -/
  | read
  /-- `strncasecmp(.., "done", 4) == 0`. -/
  | test
  /-- `close(client_fd)`, after the loop. -/
  | close
  | left
  deriving DecidableEq

/-- The client: its two buffers, how many lines it has taken, and as history the messages that it
has sent and the replies that it has displayed. -/
structure Client where
  loc : Client.Loc
  msg : CharArray bufferSize
  received : CharArray bufferSize
  entered : ℕ
  messages : List (CharArray bufferSize)
  replies : List (CharArray bufferSize)

/-- How a message is entered: the C client clears the buffer first. -/
def enterMessage (lang : Lang) (msg : CharArray bufferSize) (line : Option (InputLine bufferSize)) :
    CharArray bufferSize :=
  match lang with
  | .c => enter .c (fun _ => 0) line
  | .cpp => enter .cpp msg line

namespace Client

/-- `read` has returned `got`. When it is empty, `continue` leads the C client to the start of the
loop and the C++ client to the test. -/
def receive (lang : Lang) (got : List UInt8) (cl : Client) : Client :=
  if got = [] then
    { cl with loc := match lang with
        | .c => .enter
        | .cpp => .test }
  else
    { cl with
      loc := .test
      received := cl.received.overlay got
      replies := cl.replies ++ [cl.received.overlay got] }

/-- The buffer that is compared with `"done"`. -/
def tested (lang : Lang) (cl : Client) : CharArray bufferSize :=
  match lang with
  | .c => cl.received
  | .cpp => cl.msg

/-- The client has left its loop. -/
def HasLeft (cl : Client) : Prop := cl.loc = .close ∨ cl.loc = .left

instance (cl : Client) : Decidable cl.HasLeft := inferInstanceAs (Decidable (_ ∨ _))

end Client

/-- The next statement of the client. -/
def clientStep (lang : Lang) (typed : ℕ → Option (InputLine bufferSize)) (k : ℕ) (c : Connection)
    (cl : Client) : Option (Connection × Client) :=
  match cl.loc with
  | .enter =>
    some (c, { cl with
      loc := .write
      msg := enterMessage lang cl.msg (typed cl.entered)
      entered := cl.entered + 1 })
  | .write =>
    some ({ c with up := c.up.write cl.msg },
      { cl with loc := .read, messages := cl.messages ++ [cl.msg] })
  | .read => (c.down.read k).map fun r => ({ c with down := r.2 }, cl.receive lang r.1)
  | .test => some (c, { cl with loc := if (cl.tested lang).StartsDone then .close else .enter })
  | .close => some ({ c with up := c.up.close }, { cl with loc := .left })
  | .left => none

/-! ### The server -/

/-- The statements of the server. -/
inductive Server.Loc where
  /-- `read`. -/
  | read
  /-- `write`, when `count > 0`. -/
  | write
  /-- `strncasecmp(buffer, "done", 4) == 0`. -/
  | test
  /-- `close(client_fd)`, after the loop. -/
  | close
  | left
  deriving DecidableEq

/-- The server: its buffer, and as history the bytes that it has received and sent. -/
structure Server where
  loc : Server.Loc
  buffer : CharArray bufferSize
  received : List UInt8
  sent : List UInt8

namespace Server

/-- What the next statement does with the server, if it is a `read` when that returns `got`. -/
def next (got : List UInt8) (sv : Server) : Server :=
  match sv.loc with
  | .read =>
    { sv with
      loc := if got = [] then .test else .write
      buffer := sv.buffer.overlay got
      received := sv.received ++ got }
  | .write => { sv with loc := .test, sent := sv.sent ++ List.ofFn sv.buffer }
  | .test => { sv with loc := if sv.buffer.StartsDone then .close else .read }
  | .close => { sv with loc := .left }
  | .left => sv

/-- The server has left its loop. -/
def HasLeft (sv : Server) : Prop := sv.loc = .close ∨ sv.loc = .left

instance (sv : Server) : Decidable sv.HasLeft := inferInstanceAs (Decidable (_ ∨ _))

end Server

/-- The next statement of the server. -/
def serverStep (k : ℕ) (c : Connection) (sv : Server) : Option (Connection × Server) :=
  match sv.loc with
  | .read => (c.up.read k).map fun r => ({ c with up := r.2 }, sv.next r.1)
  | .write => some ({ c with down := c.down.write sv.buffer }, sv.next [])
  | .test => some (c, sv.next [])
  | .close => some ({ c with down := c.down.close }, sv.next [])
  | .left => none

/-- A client and a server after `connect` and `accept`. The server's buffer holds `buffer`. -/
def session (lang : Lang) (typed : ℕ → Option (InputLine bufferSize))
    (buffer : CharArray bufferSize) : Duo Connection Client Server ℕ ℕ Empty where
  shared₀ := ⟨⟨[], false⟩, ⟨[], false⟩⟩
  left₀ := ⟨.enter, fun _ => 0, fun _ => 0, 0, [], []⟩
  right₀ := ⟨.read, buffer, [], []⟩
  left := clientStep lang typed
  right := serverStep
  env e := e.elim

/-! ### What the statements do -/

/-- A `read` that returns something returns the first bytes of the stream. -/
lemma ByteStream.read_eq_some {st st' : ByteStream} {k : ℕ} {got : List UInt8}
    (h : st.read k = some (got, st')) :
    got = st.bytes.take k ∧ st' = { st with bytes := st.bytes.drop k } ∧ got.length = k := by
  obtain ⟨hk, hr⟩ := Option.ite_none_right_eq_some.mp h
  obtain ⟨rfl, rfl⟩ := Prod.mk.inj (Option.some.inj hr)
  refine ⟨rfl, rfl, ?_⟩
  rw [List.length_take]
  rcases hk with hk | ⟨rfl, -⟩
  · omega
  · exact Nat.zero_min _

variable {lang : Lang} {typed : ℕ → Option (InputLine bufferSize)} {k : ℕ} {c c' : Connection}

/-- A `read` of the client that returns something. -/
lemma Client.receive_of_ne {got : List UInt8} {cl : Client} (h : got ≠ []) :
    cl.receive lang got = { cl with
      loc := .test
      received := cl.received.overlay got
      replies := cl.replies ++ [cl.received.overlay got] } :=
  if_neg h

/-- The steps of the client. -/
inductive ClientMove (lang : Lang) (typed : ℕ → Option (InputLine bufferSize)) (k : ℕ)
    (c : Connection) (cl : Client) : Client.Loc → Connection → Client → Prop
  | enter : ClientMove lang typed k c cl .enter c { cl with
      loc := .write
      msg := enterMessage lang cl.msg (typed cl.entered)
      entered := cl.entered + 1 }
  | write : ClientMove lang typed k c cl .write { c with up := c.up.write cl.msg }
      { cl with loc := .read, messages := cl.messages ++ [cl.msg] }
  | read (got st) (h : c.down.read k = some (got, st)) :
      ClientMove lang typed k c cl .read { c with down := st } (cl.receive lang got)
  | testDone (h : (cl.tested lang).StartsDone) :
      ClientMove lang typed k c cl .test c { cl with loc := .close }
  | testOther (h : ¬ (cl.tested lang).StartsDone) :
      ClientMove lang typed k c cl .test c { cl with loc := .enter }
  | close : ClientMove lang typed k c cl .close { c with up := c.up.close } { cl with loc := .left }

/-- Every step of the client is one of the moves. -/
lemma client_cases {cl cl' : Client} (h : clientStep lang typed k c cl = some (c', cl')) :
    ClientMove lang typed k c cl cl.loc c' cl' := by
  unfold clientStep at h
  cases hl : cl.loc with
  | read =>
    rw [hl] at h
    obtain ⟨⟨got, st⟩, hr, heq⟩ := Option.map_eq_some_iff.mp h
    obtain ⟨rfl, rfl⟩ := Prod.mk.inj heq
    exact .read got st hr
  | test =>
    rw [hl] at h
    obtain ⟨rfl, rfl⟩ := Prod.mk.inj (Option.some.inj h)
    split_ifs with hd
    · exact .testDone hd
    · exact .testOther hd
  | left =>
    rw [hl] at h
    cases h
  | enter | write | close =>
    rw [hl] at h
    obtain ⟨rfl, rfl⟩ := Prod.mk.inj (Option.some.inj h)
    constructor

/-- The steps of the server. -/
inductive ServerMove (k : ℕ) (c : Connection) (sv : Server) :
    Server.Loc → Connection → Server → Prop
  | readNothing (st) (h : c.up.read k = some ([], st)) :
      ServerMove k c sv .read { c with up := st } { sv with loc := .test }
  | read (got st) (h : c.up.read k = some (got, st)) (hgot : got ≠ []) :
      ServerMove k c sv .read { c with up := st } { sv with
        loc := .write
        buffer := sv.buffer.overlay got
        received := sv.received ++ got }
  | write : ServerMove k c sv .write { c with down := c.down.write sv.buffer }
      { sv with loc := .test, sent := sv.sent ++ List.ofFn sv.buffer }
  | testDone (h : sv.buffer.StartsDone) : ServerMove k c sv .test c { sv with loc := .close }
  | testOther (h : ¬ sv.buffer.StartsDone) : ServerMove k c sv .test c { sv with loc := .read }
  | close : ServerMove k c sv .close { c with down := c.down.close } { sv with loc := .left }

/-- Every step of the server is one of the moves. -/
lemma server_cases {sv sv' : Server} (h : serverStep k c sv = some (c', sv')) :
    ServerMove k c sv sv.loc c' sv' := by
  unfold serverStep Server.next at h
  cases hl : sv.loc with
  | read =>
    simp only [hl] at h
    obtain ⟨⟨got, st⟩, hr, heq⟩ := Option.map_eq_some_iff.mp h
    obtain ⟨rfl, rfl⟩ := Prod.mk.inj heq
    by_cases hgot : got = []
    · subst hgot
      have hm : ServerMove k c sv .read _ _ := .readNothing st hr
      simpa using hm
    · rw [if_neg hgot]
      exact .read got st hr hgot
  | test =>
    simp only [hl] at h
    obtain ⟨rfl, rfl⟩ := Prod.mk.inj (Option.some.inj h)
    split_ifs with hd
    · exact .testDone hd
    · exact .testOther hd
  | left =>
    rw [hl] at h
    cases h
  | write | close =>
    simp only [hl] at h
    obtain ⟨rfl, rfl⟩ := Prod.mk.inj (Option.some.inj h)
    constructor

end Socket

end PosixIntro
