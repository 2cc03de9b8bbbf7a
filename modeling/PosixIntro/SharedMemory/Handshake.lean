import PosixIntro.SharedMemory.Model

set_option relaxedAutoImplicit false
set_option autoImplicit false

/-!
# The handshake of the shared-memory programs

What holds in every state that a writer and a reader can reach, for both languages and wherever
`SIGINT` is delivered. An interrupted `sem_wait(sem_one)` gives the writer a round that the reader
has not asked for; the reader relies on `sem_two` alone, which is posted once per finished cell.

## Main definitions

* `ReaderLoc.taken` — the cells that the reader has been handed.
* `Writer.Ok`, `Reader.Ok` — what the mapping and the two streams contain at each program point.

## Main results

* `two_add_taken` — `sem_two` counts the cells finished and not yet taken.
* `one_add_waits`, `posts_le` — the account of `sem_one`, without and with signals.
* `writer_ok`, `reader_ok` — the contents.
* `cell_frozen` — a cell that was handed over is never changed.
-/

namespace PosixIntro

namespace SharedMemory

variable {W R : Lang} {stdin : List UInt8} {mem : ℕ → UInt8} {ok : State → Label → Prop}

/-! ### The semaphores -/

/-- The number of times the reader has been let through by `sem_two`. -/
def ReaderLoc.taken : ReaderLoc → ℕ
  | .greet => 0
  | .waitTwo c => c
  | .putchar c | .postOne c | .test c => c + 1
  | .done c => c

/-- The number of posts of `sem_one` by the reader. -/
def ReaderLoc.posts : ReaderLoc → ℕ
  | .greet => 0
  | .waitTwo c | .putchar c | .postOne c => c + 1
  | .test c => c + 2
  | .done c => c + 1

/-- The number of times the writer has come through `sem_one`, less its own post. -/
def WriterLoc.waits : WriterLoc → ℕ
  | .waitReader => 0
  | .giveBack => 1
  | .waitOne c => c
  | .fgetc c | .store c _ | .testRunning c | .storeEnd c | .postTwo c | .test c => c + 1
  | .done c => c

/-- **`sem_two` counts the cells that are finished and not yet taken.** -/
theorem two_add_taken {s : State} (h : (machine W R stdin mem).ReachIf ok s) :
    s.shared.two + s.right.loc.taken = s.left.loc.finished := by
  refine invariant (I := fun m w r => m.two + r.loc.taken = w.loc.finished) ?_ ?_ ?_ h
  · cases W <;> rfl
  · intro m w r a m' w' _ _ ih hmove
    cases hmove <;> simp only [WriterLoc.finished] at ih ⊢ <;> omega
  · intro m w r m' r' _ ih hmove
    cases hmove <;> simp only [ReaderLoc.taken] at ih ⊢ <;> omega

/-- Without signals, `sem_one` counts the rounds that the reader has asked for and the writer has
not begun. -/
theorem one_add_waits {s : State} (h : (machine W R stdin mem).ReachIf NoSignal s) :
    s.shared.one + s.left.loc.waits = s.right.loc.posts := by
  refine invariant (I := fun m w r => m.one + w.loc.waits = r.loc.posts) ?_ ?_ ?_ h
  · cases W <;> rfl
  · intro m w r a m' w' _ hok ih hmove
    obtain rfl : a = .run := hok
    cases hmove <;> simp only [WriterLoc.waits] at ih ⊢ <;> omega
  · intro m w r m' r' _ ih hmove
    cases hmove <;> simp only [ReaderLoc.posts] at ih ⊢ <;> omega

/-- With signals, the writer has come through `sem_one` at least as often as it was let through. -/
theorem posts_le {s : State} (h : (machine W R stdin mem).ReachIf ok s) :
    s.right.loc.posts ≤ s.shared.one + s.left.loc.waits := by
  refine invariant (I := fun m w r => r.loc.posts ≤ m.one + w.loc.waits) ?_ ?_ ?_ h
  · cases W <;> exact Nat.zero_le _
  · intro m w r a m' w' _ _ ih hmove
    cases hmove <;> simp only [WriterLoc.waits] at ih ⊢ <;> omega
  · intro m w r m' r' _ ih hmove
    cases hmove <;> simp only [ReaderLoc.posts] at ih ⊢ <;> omega

/-- The reader's next cell is one that it was handed. -/
lemma ReaderLoc.cell_lt_taken {l : ReaderLoc} {k : ℕ} (h : l.cell = some k) : k < l.taken := by
  cases l with
  | putchar c | test c =>
    obtain rfl := Option.some.inj h
    exact Nat.lt_succ_self _
  | _ => cases h

/-- The reader's next cell is finished. -/
lemma cell_lt_finished {s : State} (h : (machine W R stdin mem).ReachIf ok s) {k : ℕ}
    (hk : s.right.loc.cell = some k) : k < s.left.loc.finished := by
  have htwo := two_add_taken h
  have htaken := ReaderLoc.cell_lt_taken hk
  omega

/-! ### The cells -/

/-- A step of the writer changes no finished cell. -/
lemma WriterMove.frozen {a : WriterLabel} {m m' : Shared} {w w' : Writer}
    (h : WriterMove W a m w m' w') {i : ℕ} (hi : i < w.loc.finished) :
    m'.mem i = m.mem i := by
  cases h with
  | storeC _ _ _ c | storeCpp _ _ _ c | storeEnd _ _ _ c =>
    have hne : i ≠ c := Nat.ne_of_lt hi
    exact Function.update_of_ne hne _ _
  | _ => rfl

/-- The reader changes no cell. -/
lemma ReaderMove.mem_eq {m m' : Shared} {r r' : Reader} (h : ReaderMove m r m' r') :
    m'.mem = m.mem := by
  cases h <;> rfl

/-- **A cell that was handed over is never changed.** -/
theorem cell_frozen {s s' : State} {x : Label} (h : (machine W R stdin mem).step s x = some s')
    {i : ℕ} (hi : i < s.left.loc.finished) : s'.shared.mem i = s.shared.mem i := by
  rcases Duo.step_cases h with ⟨a, d, l, rfl, hl, rfl⟩ | ⟨b, d, r, rfl, hr, rfl⟩ |
    ⟨e, d, rfl, he, rfl⟩
  · exact (Writer.move_of_step hl).frozen hi
  · rw [(Reader.move_of_step (u := b) hr).mem_eq]
  · exact e.elim

/-! ### What the writer has written -/

/-- The cells before `c` are those of standard input, none of them `'0'`. -/
def Written (stdin : List UInt8) (mem : ℕ → UInt8) (c : ℕ) : Prop :=
  ∀ i < c, mem i = charAt stdin i ∧ mem i ≠ charZero

/-- Writing a cell leaves those before it alone. -/
lemma Written.update {c : ℕ} (h : Written stdin mem c) (v : UInt8) :
    Written stdin (Function.update mem c v) c := by
  intro i hi
  rw [Function.update_of_ne (Nat.ne_of_lt hi)]
  exact h i hi

/-- One cell more. -/
lemma Written.succ {c : ℕ} (h : Written stdin mem c) (hc : mem c = charAt stdin c)
    (hne : mem c ≠ charZero) : Written stdin mem (c + 1) := by
  intro i hi
  rcases Nat.lt_succ_iff_lt_or_eq.mp hi with hlt | rfl
  · exact h i hlt
  · exact ⟨hc, hne⟩

/-- What has been written when the writer is at a program point. A cell that is handed over holds
the character of standard input, or `'0'` after a signal. -/
def Writer.Ok (stdin : List UInt8) (mem : ℕ → UInt8) (w : Writer) : Prop :=
  match w.loc with
  | .waitReader | .giveBack => w.stdin = stdin.drop 0
  | .waitOne c | .fgetc c => Written stdin mem c ∧ w.stdin = stdin.drop c
  | .store c v => Written stdin mem c ∧
      (w.running = true → v = charAt stdin c ∧ w.stdin = stdin.drop (c + 1))
  | .testRunning c => Written stdin mem c ∧
      (w.running = true → mem c = charAt stdin c ∧ w.stdin = stdin.drop (c + 1))
  | .storeEnd c => Written stdin mem c ∧ w.running = false
  | .postTwo c | .test c => Written stdin mem c ∧
      ((mem c = charAt stdin c ∧ w.stdin = stdin.drop (c + 1)) ∨
        (mem c = charZero ∧ w.running = false))
  | .done n => ∃ c, n = c + 1 ∧ Written stdin mem c ∧ mem c = charZero ∧
      (mem c = charAt stdin c ∨ w.running = false)

/-- The C++ writer is never told to stop. -/
lemma running_of_cpp (hcpp : W = .cpp) {s : State}
    (h : (machine W R stdin mem).ReachIf ok s) : s.left.running = true := by
  refine invariant (I := fun _ w _ => w.running = true) rfl ?_ ?_ h
  · intro m w r a m' w' _ _ ih hmove
    cases hmove with
    | sigint _ _ _ hl | intrReader _ _ _ hl | intrOne _ _ _ _ hl | intrFgetc _ _ _ _ hl =>
      rw [hl] at hcpp
      cases hcpp
    | _ => exact ih
  · exact fun _ _ _ _ _ _ ih _ => ih

/-- Without signals, no writer is told to stop. -/
lemma running_of_noSignal {s : State} (h : (machine W R stdin mem).ReachIf NoSignal s) :
    s.left.running = true := by
  refine invariant (I := fun _ w _ => w.running = true) rfl ?_ ?_ h
  · intro m w r a m' w' _ hok ih hmove
    obtain rfl : a = .run := hok
    cases hmove with
    | _ => exact ih
  · exact fun _ _ _ _ _ _ ih _ => ih

/-- One step of the writer. -/
lemma Writer.Ok.move {a : WriterLabel} {m m' : Shared} {w w' : Writer}
    (hcpp : W = .cpp → w.running = true) (h : w.Ok stdin m.mem)
    (hmove : WriterMove W a m w m' w') : w'.Ok stdin m'.mem := by
  cases hmove with
  | waitReader | intrReader => exact h
  | giveBack => exact ⟨fun i hi => absurd hi (Nat.not_lt_zero i), h⟩
  | waitOne | intrOne => exact h
  | fgetc _ b is c =>
    obtain ⟨hwr, his⟩ := h
    obtain rfl : is = stdin.drop c := his
    exact ⟨hwr, fun _ => by rw [fgetc_drop]; exact ⟨rfl, rfl⟩⟩
  | intrFgetc => exact ⟨h.1, fun hrun => absurd hrun Bool.false_ne_true⟩
  | storeC _ b is c v =>
    refine ⟨h.1.update v, fun hrun => ?_⟩
    obtain ⟨rfl, his⟩ := h.2 hrun
    exact ⟨Function.update_self .., his⟩
  | storeCpp _ b is c v hl =>
    obtain ⟨rfl, his⟩ := h.2 (hcpp hl)
    exact ⟨h.1.update _, .inl ⟨Function.update_self .., his⟩⟩
  | keep => exact ⟨h.1, .inl (h.2 rfl)⟩
  | stop => exact ⟨h.1, rfl⟩
  | storeEnd => exact ⟨h.1.update _, .inr ⟨Function.update_self .., h.2⟩⟩
  | postTwo => exact h
  | again _ b is c hne =>
    obtain ⟨hwr, ⟨hc, his⟩ | ⟨hz, -⟩⟩ := h
    · exact ⟨hwr.succ hc hne, his⟩
    · exact absurd hz hne
  | leave _ b is c hz => exact ⟨c, rfl, h.1, hz, h.2.imp And.left And.right⟩
  | sigint _ l is =>
    cases l with
    | waitReader | giveBack | waitOne | fgetc => exact h
    | store c v => exact ⟨h.1, fun hrun => absurd hrun Bool.false_ne_true⟩
    | testRunning c => exact ⟨h.1, fun hrun => absurd hrun Bool.false_ne_true⟩
    | storeEnd c => exact ⟨h.1, rfl⟩
    | postTwo c | test c => exact ⟨h.1, h.2.imp id fun hz => ⟨hz.1, rfl⟩⟩
    | done n =>
      obtain ⟨c, hn, hwr, hz, -⟩ := h
      exact ⟨c, hn, hwr, hz, .inr rfl⟩

/-- The writer has written what its program point says. -/
theorem writer_ok {s : State} (h : (machine W R stdin mem).ReachIf ok s) :
    s.left.Ok stdin s.shared.mem := by
  refine invariant (I := fun m w _ => w.Ok stdin m.mem) ?_ ?_ ?_ h
  · cases W
    · exact rfl
    · exact ⟨fun i hi => absurd hi (Nat.not_lt_zero i), rfl⟩
  · intro m w r a m' w' hs _ ih hmove
    exact ih.move (fun hl => running_of_cpp hl hs) hmove
  · intro m w r m' r' _ ih hmove
    rwa [hmove.mem_eq]

/-! ### What the reader has printed -/

/-- What has been printed when the reader is at a program point. -/
def Reader.Ok (mem : ℕ → UInt8) (r : Reader) : Prop :=
  match r.loc with
  | .greet => r.stdout = []
  | .waitTwo c | .putchar c =>
    r.stdout = (List.range c).map mem ∧ ∀ i < c, mem i ≠ charZero
  | .postOne c | .test c =>
    r.stdout = (List.range (c + 1)).map mem ∧ ∀ i < c, mem i ≠ charZero
  | .done n => ∃ c, n = c + 1 ∧ r.stdout = (List.range (c + 1)).map mem ∧
      (∀ i < c, mem i ≠ charZero) ∧ mem c = charZero

/-- The cells before `c` alone decide what they contribute. -/
lemma map_range_congr {mem mem' : ℕ → UInt8} {c : ℕ} (h : ∀ i < c, mem' i = mem i) :
    (List.range c).map mem' = (List.range c).map mem :=
  List.map_congr_left fun i hi => h i (List.mem_range.mp hi)

/-- Only the cells taken matter. -/
lemma Reader.Ok.congr {mem mem' : ℕ → UInt8} {r : Reader} (h : r.Ok mem)
    (hm : ∀ i < r.loc.taken, mem' i = mem i) : r.Ok mem' := by
  obtain ⟨l, out⟩ := r
  cases l with
  | greet => exact h
  | waitTwo c =>
    obtain ⟨hout, hne⟩ := h
    exact ⟨hout.trans (map_range_congr hm).symm, fun i hi => by rw [hm i hi]; exact hne i hi⟩
  | putchar c =>
    obtain ⟨hout, hne⟩ := h
    have hm' : ∀ i < c, mem' i = mem i := fun i hi => hm i (Nat.lt_succ_of_lt hi)
    exact ⟨hout.trans (map_range_congr hm').symm, fun i hi => by rw [hm' i hi]; exact hne i hi⟩
  | postOne c | test c =>
    obtain ⟨hout, hne⟩ := h
    refine ⟨hout.trans (map_range_congr hm).symm, fun i hi => ?_⟩
    rw [hm i (Nat.lt_succ_of_lt hi)]
    exact hne i hi
  | done n =>
    obtain ⟨c, rfl, hout, hne, hz⟩ := h
    refine ⟨c, rfl, hout.trans (map_range_congr hm).symm, fun i hi => ?_, ?_⟩
    · rw [hm i (Nat.lt_succ_of_lt hi)]
      exact hne i hi
    · rw [hm c (Nat.lt_succ_self c)]
      exact hz

/-- One step of the reader. -/
lemma Reader.Ok.move {m m' : Shared} {r r' : Reader} (h : r.Ok m.mem)
    (hmove : ReaderMove m r m' r') : r'.Ok m'.mem := by
  cases hmove with
  | greet => exact ⟨h, fun i hi => absurd hi (Nat.not_lt_zero i)⟩
  | waitTwo | postOne => exact h
  | putchar out c =>
    obtain ⟨hout, hne⟩ := h
    refine ⟨?_, hne⟩
    change out ++ [m.mem c] = (List.range (c + 1)).map m.mem
    rw [List.range_succ, List.map_append, ← show out = (List.range c).map m.mem from hout]
    rfl
  | again out c hc =>
    obtain ⟨hout, hne⟩ := h
    refine ⟨hout, fun i hi => ?_⟩
    rcases Nat.lt_succ_iff_lt_or_eq.mp hi with hlt | rfl
    · exact hne i hlt
    · exact hc
  | leave out c hz => exact ⟨c, rfl, h.1, h.2, hz⟩

/-- The reader has printed what its program point says. -/
theorem reader_ok {s : State} (h : (machine W R stdin mem).ReachIf ok s) :
    s.right.Ok s.shared.mem := by
  refine invariant (I := fun m _ r => r.Ok m.mem) rfl ?_ ?_ h
  · intro m w r a m' w' hs _ ih hmove
    refine ih.congr fun i hi => hmove.frozen ?_
    have htwo : m.two + r.loc.taken = w.loc.finished := two_add_taken hs
    omega
  · intro m w r m' r' _ ih hmove
    exact ih.move hmove

end SharedMemory

end PosixIntro
