import PosixIntro.Socket.Model

set_option relaxedAutoImplicit false
set_option autoImplicit false

/-!
# The echo of the socket server

The server echoes its whole buffer whatever part of it `read` has filled. So the echo is faithful
as long as every `read` returns a whole record, and a shorter one breaks it at the next `write`.

## Main definitions

* `WholeReads` — the condition on a run that every `read` returns a whole record.
* `Phase` — the phases of an exchange of client and server.

## Main results

* `exists_phase` — every state of a run with whole reads is in a phase.
* `echo_faithful` — in these runs the server echoes what it receives, the client displays what it
  has sent, and both leave on the first message that begins with `done`.
* `short_read_breaks` — after a shorter `read` of the server the echo is not what was received.
-/

namespace PosixIntro

namespace Socket

/-- Every `read` returns a whole record. -/
def WholeReads (s : Duo.State Connection Client Server) : Duo.Label ℕ ℕ Empty → Prop
  | .left k => s.left.loc = .read → k = bufferSize
  | .right k => s.right.loc = .read → k = bufferSize
  | .env _ => True

instance (s : Duo.State Connection Client Server) : (x : Duo.Label ℕ ℕ Empty) →
    Decidable (WholeReads s x)
  | .left k => inferInstanceAs (Decidable (s.left.loc = .read → k = bufferSize))
  | .right k => inferInstanceAs (Decidable (s.right.loc = .read → k = bufferSize))
  | .env _ => isTrue trivial

/-- The bytes of some messages. -/
def bytesOf (messages : List (CharArray bufferSize)) : List UInt8 := messages.flatMap List.ofFn

/-- No message begins with `done`. -/
def NoDone (messages : List (CharArray bufferSize)) : Prop := ∀ m ∈ messages, ¬ m.StartsDone

/-- A message that begins with `done` has been sent. -/
def DoneSent (cl : Client) : Prop := ∃ m ∈ cl.messages, m.StartsDone

/-- The server reads next. -/
def Server.Ready (sv : Server) : Prop :=
  sv.loc = .read ∨ (sv.loc = .test ∧ ¬ sv.buffer.StartsDone)

/-- The server leaves, or has left. -/
def Server.Leaving (sv : Server) : Prop :=
  (sv.loc = .test ∧ sv.buffer.StartsDone) ∨ sv.HasLeft

/-- The server has echoed `m`. -/
def Server.Echoed (sv : Server) (m : CharArray bufferSize) : Prop :=
  (m.StartsDone ∧ sv.Leaving) ∨ (¬ m.StartsDone ∧ sv.Ready)

/-- **The phases of an exchange.** -/
inductive Phase (c : Connection) (cl : Client) (sv : Server) : Prop
  /-- The client enters a message. -/
  | speaks (hc : cl.loc = .enter ∨ cl.loc = .write) (hs : sv.Ready) (hup : c.up.bytes = [])
      (hdown : c.down.bytes = []) (hreplies : cl.replies = cl.messages)
      (hreceived : sv.received = bytesOf cl.messages) (hsent : sv.sent = bytesOf cl.messages)
      (hno : NoDone cl.messages)
  /-- The message is on its way to the server. -/
  | asks (hc : cl.loc = .read) (hs : sv.Ready) (hup : c.up.bytes = List.ofFn cl.msg)
      (hdown : c.down.bytes = []) (hmessages : cl.messages = cl.replies ++ [cl.msg])
      (hreceived : sv.received = bytesOf cl.replies) (hsent : sv.sent = bytesOf cl.replies)
      (hno : NoDone cl.replies)
  /-- The server has read it. -/
  | echoes (hc : cl.loc = .read) (hs : sv.loc = .write) (hbuffer : sv.buffer = cl.msg)
      (hup : c.up.bytes = []) (hdown : c.down.bytes = [])
      (hmessages : cl.messages = cl.replies ++ [cl.msg])
      (hreceived : sv.received = bytesOf cl.messages) (hsent : sv.sent = bytesOf cl.replies)
      (hno : NoDone cl.replies)
  /-- The echo is on its way to the client. -/
  | answered (hc : cl.loc = .read) (hs : sv.Echoed cl.msg) (hup : c.up.bytes = [])
      (hdown : c.down.bytes = List.ofFn cl.msg)
      (hmessages : cl.messages = cl.replies ++ [cl.msg])
      (hreceived : sv.received = bytesOf cl.messages) (hsent : sv.sent = bytesOf cl.messages)
      (hno : NoDone cl.replies)
  /-- The client has displayed it. -/
  | tests (past : List (CharArray bufferSize)) (hc : cl.loc = .test) (hs : sv.Echoed cl.msg)
      (heq : cl.received = cl.msg) (hup : c.up.bytes = []) (hdown : c.down.bytes = [])
      (hreplies : cl.replies = cl.messages) (hmessages : cl.messages = past ++ [cl.msg])
      (hreceived : sv.received = bytesOf cl.messages) (hsent : sv.sent = bytesOf cl.messages)
      (hno : NoDone past)
  /-- The message has begun with `done`, and the client has left its loop. -/
  | ended (past : List (CharArray bufferSize)) (hc : cl.HasLeft) (hs : sv.Leaving)
      (hdone : cl.msg.StartsDone) (hup : c.up.bytes = []) (hdown : c.down.bytes = [])
      (hreplies : cl.replies = cl.messages) (hmessages : cl.messages = past ++ [cl.msg])
      (hreceived : sv.received = bytesOf cl.messages) (hsent : sv.sent = bytesOf cl.messages)
      (hno : NoDone past)

/-! ### One step -/

@[simp] lemma bytesOf_append (ms : List (CharArray bufferSize)) (m : CharArray bufferSize) :
    bytesOf (ms ++ [m]) = bytesOf ms ++ List.ofFn m := by
  simp [bytesOf]

/-- From an empty stream a whole record cannot be read. -/
lemma ByteStream.read_of_nil {st : ByteStream} (h : st.bytes = []) :
    st.read bufferSize = none := by
  simp [ByteStream.read, h]

/-- From a stream that holds one record it can. -/
lemma ByteStream.read_of_record {st : ByteStream} {m : CharArray bufferSize}
    (h : st.bytes = List.ofFn m) :
    st.read bufferSize = some (List.ofFn m, { st with bytes := [] }) := by
  have htake : (List.ofFn m).take bufferSize = List.ofFn m := List.take_of_length_le (by simp)
  have hdrop : (List.ofFn m).drop bufferSize = [] := List.drop_eq_nil_of_le (by simp)
  rw [ByteStream.read, h, htake, hdrop, if_pos (by simp)]

section Steps

variable {lang : Lang} {typed : ℕ → Option (InputLine bufferSize)} {k : ℕ} {c c' : Connection}
  {cl cl' : Client} {sv sv' : Server}

/-- A server that has nothing to read does not change what was exchanged. -/
lemma ServerMove.quiet (hm : ServerMove k c sv sv.loc c' sv')
    (hk : sv.loc = .read → k = bufferSize) (hup : sv.loc = .read → c.up.bytes = [])
    (hw : sv.loc ≠ .write) :
    c'.up.bytes = c.up.bytes ∧ c'.down.bytes = c.down.bytes ∧ sv'.received = sv.received ∧
      sv'.sent = sv.sent ∧ (sv.Ready → sv'.Ready) ∧ (sv.Leaving → sv'.Leaving) := by
  generalize hl : sv.loc = l at hm hk hup hw
  cases hm with
  | readNothing st h | read got st h =>
    rw [hk rfl, ByteStream.read_of_nil (hup rfl)] at h
    cases h
  | write => exact absurd rfl hw
  | testDone h => simp [Server.Ready, Server.Leaving, Server.HasLeft, hl, h]
  | testOther h => simp [Server.Ready, Server.Leaving, Server.HasLeft, hl, h]
  | close => simp [Server.Ready, Server.Leaving, Server.HasLeft, hl, ByteStream.close]

/-- A server that is ready is not about to write. -/
lemma Server.Ready.loc_ne (h : sv.Ready) : sv.loc ≠ .write := by
  rcases h with h | ⟨h, -⟩ <;> simp [h]

/-- Neither is one that leaves. -/
lemma Server.Leaving.loc_ne (h : sv.Leaving) : sv.loc ≠ .write := by
  rcases h with ⟨h, -⟩ | h | h <;> simp [h]

/-- Neither is one that has echoed. -/
lemma Server.Echoed.loc_ne {m : CharArray bufferSize} (h : sv.Echoed m) : sv.loc ≠ .write := by
  rcases h with ⟨-, h⟩ | ⟨-, h⟩
  · exact h.loc_ne
  · exact h.loc_ne

/-- **A step of the server.** -/
lemma Phase.server (h : Phase c cl sv) (hm : ServerMove k c sv sv.loc c' sv')
    (hk : sv.loc = .read → k = bufferSize) : Phase c' cl sv' := by
  cases h with
  | speaks hc hs hup hdown hreplies hreceived hsent hno =>
    obtain ⟨hup', hdown', hr', hs', hready, -⟩ := hm.quiet hk (fun _ => hup) hs.loc_ne
    exact .speaks hc (hready hs) (hup'.trans hup) (hdown'.trans hdown) hreplies
      (hr'.trans hreceived) (hs'.trans hsent) hno
  | asks hc hs hup hdown hmessages hreceived hsent hno =>
    rcases hs with hl | ⟨hl, hnot⟩
    · -- the server reads the record
      rw [hl] at hm
      obtain rfl := hk hl
      cases hm with
      | readNothing st h =>
        rw [ByteStream.read_of_record hup, Option.some.injEq, Prod.mk.injEq] at h
        simpa using congrArg List.length h.1
      | read got st h hgot =>
        rw [ByteStream.read_of_record hup] at h
        obtain ⟨rfl, rfl⟩ := Prod.mk.inj (Option.some.inj h)
        refine .echoes hc rfl (CharArray.overlay_ofFn _ _) rfl hdown hmessages ?_ hsent hno
        rw [hreceived, hmessages, bytesOf_append]
    · have hread : sv.loc = .read → c.up.bytes = [] := fun h => by simp [hl] at h
      obtain ⟨hup', hdown', hr', hs', hready, -⟩ := hm.quiet hk hread (by simp [hl])
      exact .asks hc (hready (.inr ⟨hl, hnot⟩)) (hup'.trans hup) (hdown'.trans hdown) hmessages
        (hr'.trans hreceived) (hs'.trans hsent) hno
  | echoes hc hl hbuffer hup hdown hmessages hreceived hsent hno =>
    rw [hl] at hm
    cases hm with
    | write =>
      refine .answered hc ?_ hup (by simp [ByteStream.write, hdown, hbuffer]) hmessages hreceived ?_
        hno
      · by_cases hd : cl.msg.StartsDone
        · exact .inl ⟨hd, .inl ⟨rfl, hbuffer ▸ hd⟩⟩
        · exact .inr ⟨hd, .inr ⟨rfl, hbuffer ▸ hd⟩⟩
      · rw [hmessages, bytesOf_append, hsent, hbuffer]
  | answered hc hs hup hdown hmessages hreceived hsent hno =>
    obtain ⟨hup', hdown', hr', hs', hready, hleaving⟩ := hm.quiet hk (fun _ => hup) hs.loc_ne
    exact .answered hc (hs.imp (.imp_right hleaving) (.imp_right hready)) (hup'.trans hup)
      (hdown'.trans hdown) hmessages (hr'.trans hreceived) (hs'.trans hsent) hno
  | tests past hc hs heq hup hdown hreplies hmessages hreceived hsent hno =>
    obtain ⟨hup', hdown', hr', hs', hready, hleaving⟩ := hm.quiet hk (fun _ => hup) hs.loc_ne
    exact .tests past hc (hs.imp (.imp_right hleaving) (.imp_right hready)) heq (hup'.trans hup)
      (hdown'.trans hdown) hreplies hmessages (hr'.trans hreceived) (hs'.trans hsent) hno
  | ended past hc hs hdone hup hdown hreplies hmessages hreceived hsent hno =>
    obtain ⟨hup', hdown', hr', hs', -, hleaving⟩ := hm.quiet hk (fun _ => hup) hs.loc_ne
    exact .ended past hc (hleaving hs) hdone (hup'.trans hup) (hdown'.trans hdown) hreplies
      hmessages (hr'.trans hreceived) (hs'.trans hsent) hno

/-- **A step of the client.** -/
lemma Phase.client (h : Phase c cl sv) (hm : ClientMove lang typed k c cl cl.loc c' cl')
    (hk : cl.loc = .read → k = bufferSize) : Phase c' cl' sv := by
  cases h with
  | speaks hc hs hup hdown hreplies hreceived hsent hno =>
    rcases hc with hl | hl
    · rw [hl] at hm
      cases hm with
      | enter => exact .speaks (.inr rfl) hs hup hdown hreplies hreceived hsent hno
    · rw [hl] at hm
      cases hm with
      | write =>
        rw [← hreplies] at hreceived hsent hno
        exact .asks rfl hs (by simp [ByteStream.write, hup]) hdown (by simp [hreplies]) hreceived
          hsent hno
  | asks hc _ _ hdown | echoes hc _ _ _ hdown =>
    -- nothing to read
    rw [hc] at hm
    obtain rfl := hk hc
    cases hm with
    | read got st h =>
      rw [ByteStream.read_of_nil hdown] at h
      cases h
  | answered hc hs hup hdown hmessages hreceived hsent hno =>
    rw [hc] at hm
    obtain rfl := hk hc
    cases hm with
    | read got st h =>
      rw [ByteStream.read_of_record hdown] at h
      obtain ⟨rfl, rfl⟩ := Prod.mk.inj (Option.some.inj h)
      have hgot : List.ofFn cl.msg ≠ [] := by simp
      rw [Client.receive_of_ne hgot, CharArray.overlay_ofFn]
      exact .tests cl.replies rfl hs rfl hup rfl hmessages.symm hmessages hreceived hsent hno
  | tests past hc hs heq hup hdown hreplies hmessages hreceived hsent hno =>
    have htested : cl.tested lang = cl.msg := by
      cases lang
      · exact heq
      · rfl
    rw [hc] at hm
    cases hm with
    | testDone h =>
      rw [htested] at h
      have hleaving := (hs.resolve_right fun hn => hn.1 h).2
      exact .ended past (.inl rfl) hleaving h hup hdown hreplies hmessages hreceived hsent hno
    | testOther h =>
      rw [htested] at h
      have hready := (hs.resolve_left fun hn => h hn.1).2
      refine .speaks (.inl rfl) hready hup hdown hreplies hreceived hsent ?_
      rw [hmessages]
      exact List.forall_mem_append.mpr ⟨hno, List.forall_mem_singleton.mpr h⟩
  | ended past hc hs hdone hup hdown hreplies hmessages hreceived hsent hno =>
    rcases hc with hl | hl
    · rw [hl] at hm
      cases hm with
      | close =>
        exact .ended past (.inr rfl) hs hdone hup hdown hreplies hmessages hreceived hsent hno
    · rw [hl] at hm
      cases hm

end Steps

variable {lang : Lang} {typed : ℕ → Option (InputLine bufferSize)} {buffer : CharArray bufferSize}
  {s : Duo.State Connection Client Server}

/-- **Every state of a run with whole reads is in a phase.** -/
theorem exists_phase (h : (session lang typed buffer).machine.ReachIf WholeReads s) :
    Phase s.shared s.left s.right := by
  refine Duo.invariant (I := Phase) ?_ ?_ ?_ ?_ h
  · exact .speaks (.inl rfl) (.inl rfl) rfl rfl rfl rfl rfl fun m hm => by cases hm
  · intro c cl sv k c' cl' _ hk hphase hs
    exact hphase.client (client_cases hs) hk
  · intro c cl sv k c' sv' _ hk hphase hs
    exact hphase.server (server_cases hs) hk
  · exact fun _ _ _ e => e.elim

/-! ### Progress -/

/-- A client that neither reads nor has left can move. -/
lemma exists_client_step (hread : s.left.loc ≠ .read) (hleft : s.left.loc ≠ .left) :
    ∃ x s', WholeReads s x ∧ (session lang typed buffer).machine.step s x = some s' := by
  have hstep : ∃ r, clientStep lang typed 0 s.shared s.left = some r := by
    unfold clientStep
    cases hl : s.left.loc with
    | read => exact absurd hl hread
    | left => exact absurd hl hleft
    | _ => exact ⟨_, rfl⟩
  obtain ⟨⟨c, cl⟩, hr⟩ := hstep
  exact ⟨.left 0, _, fun h => absurd h hread, Duo.step_left hr⟩

/-- A server that neither reads nor has left can move. -/
lemma exists_server_step (hread : s.right.loc ≠ .read) (hleft : s.right.loc ≠ .left) :
    ∃ x s', WholeReads s x ∧ (session lang typed buffer).machine.step s x = some s' := by
  have hstep : ∃ r, serverStep 0 s.shared s.right = some r := by
    unfold serverStep
    cases hl : s.right.loc with
    | read => exact absurd hl hread
    | left => exact absurd hl hleft
    | _ => exact ⟨_, rfl⟩
  obtain ⟨⟨c, sv⟩, hr⟩ := hstep
  exact ⟨.right 0, _, fun h => absurd h hread, Duo.step_right hr⟩

/-- In every phase one of the two can move, until both have closed. -/
lemma Phase.exists_step (h : Phase s.shared s.left s.right)
    (hend : ¬ (s.left.loc = .left ∧ s.right.loc = .left)) :
    ∃ x s', WholeReads s x ∧ (session lang typed buffer).machine.step s x = some s' := by
  cases h with
  | speaks hc =>
    refine exists_client_step ?_ ?_
    · rcases hc with hl | hl <;> simp [hl]
    · rcases hc with hl | hl <;> simp [hl]
  | asks hc hs hup =>
    rcases hs with hl | ⟨hl, -⟩
    · have hstep : ∃ r, serverStep bufferSize s.shared s.right = some r := by
        rw [serverStep, hl, ByteStream.read_of_record hup]
        exact ⟨_, rfl⟩
      obtain ⟨⟨c, sv⟩, hr⟩ := hstep
      exact ⟨.right bufferSize, _, fun _ => rfl, Duo.step_right hr⟩
    · exact exists_server_step (by simp [hl]) (by simp [hl])
  | echoes _ hl => exact exists_server_step (by simp [hl]) (by simp [hl])
  | answered hl _ _ hdown =>
    have hstep : ∃ r, clientStep lang typed bufferSize s.shared s.left = some r := by
      rw [clientStep, hl, ByteStream.read_of_record hdown]
      exact ⟨_, rfl⟩
    obtain ⟨⟨c, cl⟩, hr⟩ := hstep
    exact ⟨.left bufferSize, _, fun _ => rfl, Duo.step_left hr⟩
  | tests _ hl => exact exists_client_step (by simp [hl]) (by simp [hl])
  | ended _ hc hs =>
    rcases hc with hl | hl
    · exact exists_client_step (by simp [hl]) (by simp [hl])
    · have hopen : s.right.loc ≠ .left := fun hr => hend ⟨hl, hr⟩
      refine exists_server_step ?_ hopen
      rcases hs with ⟨hr, -⟩ | hr | hr <;> simp [hr]

/-- How many steps the client has left at most when `done` has been sent. -/
def Client.rank (cl : Client) : ℕ :=
  match cl.loc with
  | .read => 3
  | .test => 2
  | .close => 1
  | .enter | .write | .left => 0

/-- How many steps the server has left at most when `done` has been sent. -/
def Server.rank (sv : Server) : ℕ :=
  match sv.loc with
  | .read => 4
  | .write => 3
  | .test => if sv.buffer.StartsDone then 2 else 5
  | .close => 1
  | .left => 0

lemma Client.rank_le (cl : Client) : cl.rank ≤ 3 := by
  unfold Client.rank
  split <;> omega

lemma Server.rank_le (sv : Server) : sv.rank ≤ 5 := by
  unfold Server.rank
  split
  · omega
  · omega
  · split_ifs <;> omega
  · omega
  · omega

section Ranks

variable {k : ℕ} {c c' : Connection} {cl cl' : Client} {sv sv' : Server}

/-- What was sent stays sent. -/
lemma ClientMove.doneSent (hm : ClientMove lang typed k c cl cl.loc c' cl') (h : DoneSent cl) :
    DoneSent cl' := by
  obtain ⟨m, hmem, hd⟩ := h
  generalize cl.loc = l at hm
  cases hm with
  | write => exact ⟨m, List.mem_append_left _ hmem, hd⟩
  | read got =>
    refine ⟨m, ?_, hd⟩
    unfold Client.receive
    split_ifs <;> exact hmem
  | enter | testDone | testOther | close => exact ⟨m, hmem, hd⟩

/-- The last of the messages is the one that begins with `done`. -/
lemma DoneSent.startsDone {past : List (CharArray bufferSize)} {m : CharArray bufferSize}
    (h : DoneSent cl) (hmessages : cl.messages = past ++ [m]) (hno : NoDone past) :
    m.StartsDone := by
  obtain ⟨m', hmem, hd⟩ := h
  rw [hmessages] at hmem
  rcases List.mem_append.mp hmem with hmem | hmem
  · exact absurd hd (hno m' hmem)
  · rw [← List.mem_singleton.mp hmem]
    exact hd

/-- After `done` every step of the client lowers its rank. -/
lemma Phase.client_rank (h : Phase c cl sv) (hdone : DoneSent cl)
    (hm : ClientMove lang typed k c cl cl.loc c' cl') (hk : cl.loc = .read → k = bufferSize) :
    cl'.rank < cl.rank := by
  have hspeaks : cl.loc ≠ .enter ∧ cl.loc ≠ .write := by
    cases h with
    | speaks _ _ _ _ _ _ _ hno =>
      obtain ⟨m, hmem, hd⟩ := hdone
      exact absurd hd (hno m hmem)
    | asks hl | echoes hl | answered hl | tests _ hl => simp [hl]
    | ended _ hl => rcases hl with hl | hl <;> simp [hl]
  generalize hl : cl.loc = l at hm hspeaks
  cases hm with
  | enter => exact absurd rfl hspeaks.1
  | write => exact absurd rfl hspeaks.2
  | read got st h =>
    obtain ⟨-, -, hlen⟩ := ByteStream.read_eq_some h
    have hgot : got ≠ [] := by
      rintro rfl
      rw [hk hl] at hlen
      cases hlen
    rw [Client.receive_of_ne hgot]
    simp [Client.rank, hl]
  | testDone | testOther | close => simp [Client.rank, hl]

/-- After `done` every step of the server lowers its rank. -/
lemma Phase.server_rank (h : Phase c cl sv) (hdone : DoneSent cl)
    (hm : ServerMove k c sv sv.loc c' sv') (hk : sv.loc = .read → k = bufferSize) :
    sv'.rank < sv.rank := by
  have hbuffer : sv.loc = .write → sv.buffer.StartsDone := by
    intro hl
    cases h with
    | speaks _ hs | asks _ hs => exact absurd hl hs.loc_ne
    | answered _ hs | tests _ _ hs => exact absurd hl hs.loc_ne
    | ended _ _ hs => exact absurd hl hs.loc_ne
    | echoes _ _ heq _ _ hmessages _ _ hno =>
      rw [heq]
      exact hdone.startsDone hmessages hno
  generalize hl : sv.loc = l at hm hbuffer
  cases hm with
  | readNothing st h =>
    obtain ⟨-, -, hlen⟩ := ByteStream.read_eq_some h
    rw [hk hl] at hlen
    cases hlen
  | testDone h | testOther h => simp [Server.rank, hl, h]
  | write => simp [Server.rank, hl, hbuffer rfl]
  | read | close => simp [Server.rank, hl]

end Ranks

/-- **After `done` both sides leave.** At most eight more steps follow. -/
theorem length_le_of_doneSent (h : (session lang typed buffer).machine.ReachIf WholeReads s)
    (hdone : DoneSent s.left) {tr : List (Duo.State Connection Client Server × Duo.Label ℕ ℕ Empty)}
    {s' : Duo.State Connection Client Server}
    (hp : ((session lang typed buffer).machine.startAt s).Path tr s')
    (hok : ∀ x ∈ tr, WholeReads x.1 x.2) : tr.length ≤ 8 := by
  have hle := h.length_le (I := fun t => DoneSent t.left) hdone
    (fun t => t.left.rank + t.right.rank) ?_ hp hok
  · have hclient := s.left.rank_le
    have hserver := s.right.rank_le
    omega
  · intro t x t' ht hsent hx hs
    have hphase := exists_phase ht
    rcases Duo.step_cases hs with ⟨k, c, cl, rfl, hc, rfl⟩ | ⟨k, c, sv, rfl, hc, rfl⟩ | ⟨e, -⟩
    · have hm := client_cases hc
      exact ⟨hm.doneSent hsent, Nat.add_lt_add_right (hphase.client_rank hsent hm hx) _⟩
    · exact ⟨hsent, Nat.add_lt_add_left (hphase.server_rank hsent (server_cases hc) hx) _⟩
    · exact e.elim

/-! ### Faithful echoes -/

section Facts

variable {c : Connection} {cl : Client} {sv : Server}

/-- The server has sent what it has received, but for the record that it is about to write. -/
lemma Phase.sent_isPrefix (h : Phase c cl sv) : sv.sent <+: sv.received := by
  cases h with
  | echoes _ _ _ _ _ hmessages hreceived hsent =>
    rw [hsent, hreceived, hmessages, bytesOf_append]
    exact List.prefix_append _ _
  | speaks _ _ _ _ _ hreceived hsent | asks _ _ _ _ _ hreceived hsent
    | answered _ _ _ _ _ hreceived hsent | tests _ _ _ _ _ _ _ _ hreceived hsent
    | ended _ _ _ _ _ _ _ _ hreceived hsent =>
    exact (hsent.trans hreceived.symm) ▸ List.prefix_rfl

/-- The client has displayed all messages, or all but the last. -/
lemma Phase.replies (h : Phase c cl sv) :
    cl.replies = cl.messages ∨ cl.messages = cl.replies ++ [cl.msg] := by
  cases h with
  | speaks _ _ _ _ hreplies | tests _ _ _ _ _ _ hreplies | ended _ _ _ _ _ _ hreplies =>
    exact .inl hreplies
  | asks _ _ _ _ hmessages | echoes _ _ _ _ _ hmessages | answered _ _ _ _ hmessages =>
    exact .inr hmessages

/-- Only the last message can begin with `done`. -/
lemma Phase.noDone (h : Phase c cl sv) : NoDone cl.messages.dropLast := by
  cases h with
  | speaks _ _ _ _ _ _ _ hno => exact fun m hm => hno m (List.dropLast_subset _ hm)
  | asks _ _ _ _ hmessages _ _ hno | echoes _ _ _ _ _ hmessages _ _ hno
    | answered _ _ _ _ hmessages _ _ hno | tests _ _ _ _ _ _ _ hmessages _ _ hno
    | ended _ _ _ _ _ _ _ hmessages _ _ hno =>
    rw [hmessages, List.dropLast_concat]
    exact hno

/-- A client that has left has sent `done` and displayed it. -/
lemma Phase.client_left (h : Phase c cl sv) (hl : cl.HasLeft) :
    DoneSent cl ∧ cl.replies = cl.messages := by
  cases h with
  | ended past _ _ hdone _ _ hreplies hmessages =>
    exact ⟨⟨cl.msg, by simp [hmessages], hdone⟩, hreplies⟩
  | speaks hc => rcases hc with hc | hc <;> rcases hl with hl | hl <;> simp [hc] at hl
  | asks hc | echoes hc | answered hc | tests _ hc => rcases hl with hl | hl <;> simp [hc] at hl

/-- A server that is ready has not left. -/
lemma Server.Ready.not_hasLeft (h : sv.Ready) : ¬ sv.HasLeft := by
  rcases h with h | ⟨h, -⟩ <;> simp [Server.HasLeft, h]

/-- A server that has left has received `done`. -/
lemma Phase.server_left (h : Phase c cl sv) (hl : sv.HasLeft) : DoneSent cl := by
  cases h with
  | speaks _ hs | asks _ hs => exact absurd hl hs.not_hasLeft
  | echoes _ hs => rcases hl with hl | hl <;> simp [hs] at hl
  | answered _ hs _ _ hmessages | tests _ _ hs _ _ _ _ hmessages =>
    rcases hs with ⟨hdone, -⟩ | ⟨-, hs⟩
    · exact ⟨cl.msg, by simp [hmessages], hdone⟩
    · exact absurd hl hs.not_hasLeft
  | ended _ _ _ hdone _ _ _ hmessages => exact ⟨cl.msg, by simp [hmessages], hdone⟩

end Facts

/-- **Echoes are faithful when no read is short.** In every run of a C or a C++ client and a server
in which every `read` returns a whole record, whatever is typed: the bytes that the server has sent
are a prefix of those that it has received; the replies that the client has displayed are its
messages in order, and it never sends a message before it has displayed the reply to the one before;
only the last message can begin with `done`; a side leaves its loop only after such a message, the
client when it has displayed it; the run can go on until both have closed; and after such a message
both do so within eight steps. -/
theorem echo_faithful (h : (session lang typed buffer).machine.ReachIf WholeReads s) :
    s.right.sent <+: s.right.received ∧
    s.left.replies <+: s.left.messages ∧
    s.left.messages.length ≤ s.left.replies.length + 1 ∧
    NoDone s.left.messages.dropLast ∧
    (s.left.HasLeft → DoneSent s.left ∧ s.left.replies = s.left.messages) ∧
    (s.right.HasLeft → DoneSent s.left) ∧
    (¬ (s.left.loc = .left ∧ s.right.loc = .left) →
      ∃ x s', WholeReads s x ∧ (session lang typed buffer).machine.step s x = some s') ∧
    (DoneSent s.left → ∀ tr s', ((session lang typed buffer).machine.startAt s).Path tr s' →
      (∀ x ∈ tr, WholeReads x.1 x.2) → tr.length ≤ 8) := by
  have hphase := exists_phase h
  refine ⟨hphase.sent_isPrefix, ?_, ?_, hphase.noDone, hphase.client_left, hphase.server_left,
    hphase.exists_step, fun hdone tr s' => length_le_of_doneSent h hdone⟩
  · rcases hphase.replies with hr | hr
    · exact hr ▸ List.prefix_rfl
    · rw [hr]
      exact List.prefix_append _ _
  · rcases hphase.replies with hr | hr
    · rw [hr]
      omega
    · simp [hr]

/-- The line `Done`. -/
def lineDone : InputLine 20 := ⟨[68, 111, 110, 101, 10], by decide, by decide⟩

/-- A C client that sends `Done`. -/
def sessionDone : Duo Connection Client Server ℕ ℕ Empty :=
  session .c (fun _ => some lineDone) fun _ => 0

/-- The message goes up and comes back, the server closes and then the client. -/
def runDone : List (Duo.Label ℕ ℕ Empty) :=
  [.left 0, .left 0, .right 20, .right 0, .right 0, .left 20, .right 0, .left 0, .left 0]

/-- Both have left, and the client has displayed what it has sent. -/
theorem echo_faithful_done :
    ∃ s, sessionDone.machine.execIf WholeReads sessionDone.machine.init runDone = some s ∧
      s.left.loc = .left ∧ s.right.loc = .left ∧ s.left.replies = s.left.messages := by
  have hexec : ∃ s,
      sessionDone.machine.execIf WholeReads sessionDone.machine.init runDone = some s ∧
      s.left.loc = .left ∧ s.right.loc = .left := ⟨_, rfl, rfl, rfl⟩
  obtain ⟨s, hs, hl, hr⟩ := hexec
  obtain ⟨-, -, -, -, hleft, -⟩ := echo_faithful (.of_execIf .init hs)
  exact ⟨s, hs, hl, hr, (hleft (.inr hl)).2⟩

/-! ### Short reads -/

/-- As long as the server reads, it has sent as much as it has received. -/
lemma Phase.sent_eq {c : Connection} {cl : Client} {sv : Server} (h : Phase c cl sv)
    (hl : sv.loc = .read) : sv.sent = sv.received := by
  cases h with
  | echoes _ hs =>
    rw [hs] at hl
    cases hl
  | speaks _ _ _ _ _ hreceived hsent | asks _ _ _ _ _ hreceived hsent
    | answered _ _ _ _ _ hreceived hsent | tests _ _ _ _ _ _ _ _ hreceived hsent
    | ended _ _ _ _ _ _ _ _ hreceived hsent =>
    rw [hsent, hreceived]

/-- **A short read breaks the echo.** When the server reads less than a record, it has sent more
than it has received after its next statement. -/
theorem short_read_breaks (h : (session lang typed buffer).machine.ReachIf WholeReads s) {k j : ℕ}
    {t u : Duo.State Connection Client Server} (hl : s.right.loc = .read) (hk : 0 < k)
    (hshort : k < bufferSize) (ht : (session lang typed buffer).machine.step s (.right k) = some t)
    (hu : (session lang typed buffer).machine.step t (.right j) = some u) :
    ¬ u.right.sent <+: u.right.received := by
  have heq := (exists_phase h).sent_eq hl
  obtain ⟨c, sv, hr, rfl⟩ := Duo.of_step_right ht
  obtain ⟨c', sv', hr', rfl⟩ := Duo.of_step_right hu
  have hm := server_cases hr
  rw [hl] at hm
  cases hm with
  | readNothing st hread =>
    obtain ⟨-, -, hlen⟩ := ByteStream.read_eq_some hread
    simp only [List.length_nil] at hlen
    omega
  | read got st hread =>
    obtain ⟨-, -, hlen⟩ := ByteStream.read_eq_some hread
    obtain ⟨rfl, rfl⟩ := Prod.mk.inj (Option.some.inj hr')
    intro hpre
    have hle := hpre.length_le
    simp only [Server.next, heq, List.length_append, List.length_ofFn, hlen] at hle
    omega

/-- A C client that sends `Done`, when the server reads one byte of it and writes. -/
def runShort : List (Duo.Label ℕ ℕ Empty) := [.left 0, .left 0, .right 1, .right 0]

/-- The server has sent twenty bytes and received one. -/
theorem echo_not_faithful :
    ¬ ∀ s, sessionDone.machine.Reach s → s.right.sent <+: s.right.received := by
  have hexec : ∃ s, sessionDone.machine.exec sessionDone.machine.init runShort = some s ∧
      s.right.sent.length = 20 ∧ s.right.received.length = 1 := ⟨_, rfl, rfl, rfl⟩
  obtain ⟨s, hs, hsent, hreceived⟩ := hexec
  intro h
  have hle := (h s (Machine.reach_of_exec hs)).length_le
  omega

end Socket

end PosixIntro
