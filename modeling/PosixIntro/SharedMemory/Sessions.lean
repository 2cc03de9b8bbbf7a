import PosixIntro.SharedMemory.Handshake

set_option relaxedAutoImplicit false
set_option autoImplicit false

/-!
# Sessions of the shared-memory programs one after another

The named semaphores live longer than the processes: `sem_open` with `O_CREAT` and without `O_EXCL`
takes a semaphore that is there as it is, and only a writer that has left its loop unlinks the
names. So what a killed session leaves is what the next one starts from.

## Main definitions

* `Names` — what outlives the processes: the names `/one` and `/two`, and the file.
* `Session`, `Session.machine` — one writer and one reader over what earlier sessions have left.
* `Host`, `host` — histories of sessions, any of which may be killed at any point.
* `ReadsStored` — what the reader is about to read has been stored by the writer of its session.

## Main results

* `session_readsStored_iff` — a session keeps `ReadsStored` when it starts with no count in `/two`,
  and then only.
* `host_readsStored` — the same along every history.
* `not_readsStored_after_kill` — a history that breaks it.

## Design

A process that is killed takes no more steps, so a session with one process killed is one of the
runs of both. Unlinking a name changes nothing for a process that has opened it.
-/

namespace PosixIntro

namespace SharedMemory

/-- The names `/one` and `/two` with the values of their semaphores, and the bytes of
`shared_object.txt`. -/
structure Names where
  one : Option ℕ
  two : Option ℕ
  mem : ℕ → UInt8

/-- The value of the semaphore that `sem_open(name, O_CREAT, S_IRUSR | S_IWUSR, 0)` returns. -/
def semOpen (name : Option ℕ) : ℕ := name.getD 0

/-- `init_semaphores` in the writer, then `open_semaphores` in the reader. -/
def Names.initSemaphores (n : Names) : Shared := ⟨semOpen n.one, semOpen n.two, n.mem⟩

/-- A writer and a reader, and what earlier sessions have left for them. -/
structure Session where
  writer : Lang
  reader : Lang
  stdin : List UInt8
  names : Names

/-- The two processes of a session. -/
def Session.duo (b : Session) : Duo Shared Writer Reader WriterLabel Unit Empty :=
  { SharedMemory.duo b.writer b.reader b.stdin b.names.mem with
    shared₀ := b.names.initSemaphores }

/-- The interleavings of a session. -/
def Session.machine (b : Session) : Machine State Label := b.duo.machine

/-- The machine that the sessions run on, between two sessions or during one. -/
inductive Host where
  | idle (n : Names)
  | session (b : Session) (s : State)

/-- What happens on the host. -/
inductive HostLabel where
  /-- A writer and a reader are started. -/
  | start (writer reader : Lang) (stdin : List UInt8)
  /-- A writer is killed between the two `sem_open` of `init_semaphores`. -/
  | killInit
  /-- A step of the session. -/
  | move (x : Label)
  /-- The session is over and nothing was unlinked. -/
  | kill
  /-- The session is over, the writer was killed between the two `sem_unlink`. -/
  | killUnlinking
  /-- The session is over and `close_semaphores` has unlinked both names. -/
  | unlinked

/-- What happens on the host. -/
def Host.step : Host → HostLabel → Option Host
  | .idle n, .start W R stdin =>
    let b : Session := ⟨W, R, stdin, n⟩
    some (.session b b.machine.init)
  | .idle n, .killInit => some (.idle { n with one := some (semOpen n.one) })
  | .session b s, .move x => (b.machine.step s x).map (.session b)
  | .session _ s, .kill => some (.idle ⟨some s.shared.one, some s.shared.two, s.shared.mem⟩)
  | .session _ s, .killUnlinking =>
    if s.left.loc.rounds ≠ none then some (.idle ⟨none, some s.shared.two, s.shared.mem⟩) else none
  | .session _ s, .unlinked =>
    if s.left.loc.rounds ≠ none then some (.idle ⟨none, none, s.shared.mem⟩) else none
  | _, _ => none

/-- All histories of a host on which no program has run, with arbitrary bytes in the file. -/
def host (mem : ℕ → UInt8) : Machine Host HostLabel := ⟨.idle ⟨none, none, mem⟩, Host.step⟩

/-- The number of cells that the writer has stored to. -/
def WriterLoc.stored : WriterLoc → ℕ
  | .waitReader | .giveBack => 0
  | .waitOne c | .fgetc c | .store c _ => c
  | .testRunning c | .storeEnd c | .postTwo c | .test c => c + 1
  | .done c => c

/-- A cell that the reader is about to read has been stored by the writer of its session. -/
def ReadsStored (s : State) : Prop := ∀ k, s.right.loc.cell = some k → k < s.left.loc.stored

/-- `ReadsStored` during a session. -/
def Host.ReadsStored : Host → Prop
  | .idle _ => True
  | .session _ s => SharedMemory.ReadsStored s

/-- A session is only started when no count is left in `/two`. -/
def NoneLeft : Host → HostLabel → Prop
  | .idle n, .start _ _ _ => semOpen n.two = 0
  | _, _ => True

instance : (h : Host) → (x : HostLabel) → Decidable (NoneLeft h x)
  | .idle n, .start _ _ _ => inferInstanceAs (Decidable (semOpen n.two = 0))
  | .idle _, .killInit | .idle _, .move _ | .idle _, .kill | .idle _, .killUnlinking
  | .idle _, .unlinked => isTrue trivial
  | .session _ _, _ => isTrue trivial

/-! ### One session -/

variable {b : Session}

/-- Only cells that were stored are handed over. -/
lemma WriterLoc.finished_le_stored (l : WriterLoc) : l.finished ≤ l.stored := by
  cases l <;> simp [finished, stored]

/-- `sem_two` counts the cells finished and not yet taken, on top of what earlier sessions have
left in it. -/
theorem session_two_add_taken {s : State} (h : b.machine.Reach s) :
    s.shared.two + s.right.loc.taken = s.left.loc.finished + semOpen b.names.two := by
  have hinv := Duo.invariant (P := b.duo)
    (I := fun m w r => m.two + r.loc.taken = w.loc.finished + semOpen b.names.two)
    ?start ?writer ?reader (fun _ _ _ e => e.elim) h
  · exact hinv
  case start =>
    show semOpen b.names.two + 0 = (writerStart b.writer).finished + semOpen b.names.two
    cases b.writer <;> simp [writerStart, WriterLoc.finished]
  case writer =>
    intro m w r a m' w' _ _ ih hstep
    have hmove := Writer.move_of_step hstep
    cases hmove <;> simp only [WriterLoc.finished] at ih ⊢ <;> omega
  case reader =>
    intro m w r u m' r' _ _ ih hstep
    have hmove := Reader.move_of_step (u := u) hstep
    cases hmove <;> simp only [ReaderLoc.taken] at ih ⊢ <;> omega

/-- With no count left in `/two`, the reader is let through to stored cells only. -/
lemma readsStored_of_noneLeft (h₀ : semOpen b.names.two = 0) {s : State} (h : b.machine.Reach s) :
    ReadsStored s := by
  intro k hk
  have htwo := session_two_add_taken h
  have htaken := ReaderLoc.cell_lt_taken hk
  have hstored := s.left.loc.finished_le_stored
  omega

/-- With a count left in `/two`, the reader comes to its first cell before the writer has moved. -/
lemma exists_reach_unstored (h₀ : 0 < semOpen b.names.two) :
    ∃ s, b.machine.Reach s ∧ ¬ ReadsStored s := by
  obtain ⟨W, R, stdin, n⟩ := b
  let m : Shared := n.initSemaphores
  have hgreet : (Session.machine ⟨W, R, stdin, n⟩).Reach
      ⟨{ m with one := m.one + 1 }, ⟨writerStart W, true, stdin⟩, ⟨.waitTwo 0, []⟩⟩ :=
    Machine.Reach.next .init (Duo.step_right (b := ()) (Reader.step_eq R () _ _))
  have htwo : Reader.step R () { m with one := m.one + 1 } ⟨.waitTwo 0, []⟩ =
      some ({ m with one := m.one + 1, two := m.two - 1 }, ⟨.putchar 0, []⟩) := by
    rw [Reader.step_eq]
    exact if_pos h₀
  refine ⟨_, hgreet.next (Duo.step_right (b := ()) htwo), fun hread => ?_⟩
  have hlt : 0 < (writerStart W).stored := hread 0 rfl
  cases W <;> exact Nat.lt_irrefl 0 hlt

/-- **A session keeps the reader behind the writer** exactly when it starts with no count left in
`/two`. -/
theorem session_readsStored_iff :
    (∀ s, b.machine.Reach s → ReadsStored s) ↔ semOpen b.names.two = 0 := by
  constructor
  · intro h
    by_contra hne
    obtain ⟨s, hs, hbad⟩ := exists_reach_unstored (Nat.pos_of_ne_zero hne)
    exact hbad (h s hs)
  · exact fun h₀ s hs => readsStored_of_noneLeft h₀ hs

/-! ### Histories -/

variable {mem : ℕ → UInt8}

/-- A session on the host is a run of its machine, started under the condition of its history. -/
lemma host_session {ok : Host → HostLabel → Prop} {h : Host} (hr : (host mem).ReachIf ok h) :
    ∀ b s, h = .session b s →
      b.machine.Reach s ∧ ok (.idle b.names) (.start b.writer b.reader b.stdin) := by
  induction hr with
  | init => exact fun b s heq => by cases heq
  | @step t t' a _ hok hstep ih =>
    rintro b s rfl
    cases t with
    | idle n =>
      cases a with
      | start W R stdin =>
        obtain ⟨rfl, rfl⟩ := by simpa [host, Host.step] using hstep
        exact ⟨.init, hok⟩
      | _ => simp [host, Host.step] at hstep
    | session b' t =>
      cases a with
      | move x =>
        obtain ⟨t', hx, heq⟩ := Option.map_eq_some_iff.mp hstep
        obtain ⟨rfl, rfl⟩ := by simpa using heq
        obtain ⟨hreach, hstart⟩ := ih b' t rfl
        exact ⟨hreach.next hx, hstart⟩
      | _ => simp [host, Host.step] at hstep

/-- **Killed sessions and the next one.** In every history whose sessions all start with no count
left in `/two`, the readers only read what the writers of their own sessions have stored; and after
every history at all, the following session does so exactly when no count is left in `/two`. -/
theorem host_readsStored (mem : ℕ → UInt8) :
    (∀ h, (host mem).ReachIf NoneLeft h → h.ReadsStored) ∧
      ∀ n W R stdin, (host mem).Reach (.idle n) →
        ((∀ s, (Session.machine ⟨W, R, stdin, n⟩).Reach s → ReadsStored s) ↔
          semOpen n.two = 0) := by
  refine ⟨fun h hr => ?_, fun n W R stdin _ => session_readsStored_iff⟩
  cases h with
  | idle n => trivial
  | session b s =>
    obtain ⟨hreach, hstart⟩ := host_session hr b s rfl
    exact readsStored_of_noneLeft hstart hreach

/-- A complete session on `a0` and the first round of the next one; and a session that was killed
after the first `sem_post(*two)`. -/
theorem host_readsStored_second :
    (∃ b s, (host fun _ => 0).ReachIf NoneLeft (.session b s) ∧ s.right.loc.cell = some 0 ∧
      ReadsStored s) ∧
    ∃ n, (host fun _ => 0).Reach (.idle n) ∧
      ¬ ∀ s, (Session.machine ⟨.c, .c, [98], n⟩).Reach s → ReadsStored s := by
  let write : HostLabel := .move (.left .run)
  let read : HostLabel := .move (.right ())
  constructor
  · have hrun : ∃ b s, (host fun _ => 0).execIf NoneLeft (host fun _ => 0).init
        (.start .cpp .c [97, 48] :: read :: List.replicate 4 write ++ List.replicate 4 read ++
          List.replicate 5 write ++ List.replicate 4 read ++
          [write, .unlinked, .start .cpp .c [98], read] ++ List.replicate 4 write ++ [read]) =
          some (.session b s) ∧ s.right.loc.cell = some 0 := ⟨_, _, rfl, rfl⟩
    obtain ⟨b, s, hexec, hcell⟩ := hrun
    have hs := Machine.ReachIf.of_execIf .init hexec
    exact ⟨b, s, hs, hcell, (host_readsStored fun _ => 0).1 _ hs⟩
  · have hrun : ∃ n, (host fun _ => 0).exec (host fun _ => 0).init
        [.start .c .c [97], read, write, write, write, write, write, write, write, .kill] =
          some (.idle n) ∧ semOpen n.two ≠ 0 := ⟨_, rfl, by decide⟩
    obtain ⟨n, hexec, htwo⟩ := hrun
    have hn := Machine.reach_of_exec hexec
    exact ⟨n, hn, fun hall => htwo (((host_readsStored fun _ => 0).2 n .c .c [98] hn).mp hall)⟩

/-- A writer that is killed after its first `sem_post(*two)` leaves a count, and the reader of the
next session reads the old byte before the new writer has moved. -/
theorem not_readsStored_after_kill :
    ¬ ∀ mem h, (host mem).Reach h → h.ReadsStored := by
  intro hall
  let write : HostLabel := .move (.left .run)
  let read : HostLabel := .move (.right ())
  have hrun : ∃ n s, (host fun _ => 0).exec (host fun _ => 0).init
      [.start .c .c [97], read, write, write, write, write, write, write, write, .kill,
        .start .c .c [98], read, read] = some (.session ⟨.c, .c, [98], n⟩ s) ∧
      s.right.loc = .putchar 0 ∧ s.left.loc = .waitReader := ⟨_, _, rfl, rfl, rfl⟩
  obtain ⟨n, s, hexec, hright, hleft⟩ := hrun
  have hread := hall _ _ (Machine.reach_of_exec hexec) 0 (by rw [hright]; rfl)
  rw [hleft] at hread
  exact Nat.not_lt_zero 0 hread

end SharedMemory

end PosixIntro
