import PosixIntro.SharedMemory.Handshake

set_option relaxedAutoImplicit false
set_option autoImplicit false

/-!
# What the shared-memory programs transfer

Standard input has its first `'0'` at `p`. The reader prints what comes before it and the `'0'`;
after a `SIGINT` it prints a prefix of that, and a `'0'`.

## Main definitions

* `WriterLoc.rank`, `ReaderLoc.rank`, `rank` — how many steps are left at most.

## Main results

* `output` — what the reader has printed.
* `exists_ordinary_step` — no state before the end is stuck.
* `length_le_rank` — every run ends.
* `transfer_survives_sigint` — the C programs with `SIGINT` at any moment.
* `pairings_interchangeable` — the four pairings of writers and readers without signals.
-/

namespace PosixIntro

namespace SharedMemory

variable {W R : Lang} {stdin : List UInt8} {mem : ℕ → UInt8} {ok : State → Label → Prop} {p : ℕ}

/-! ### Where the loops are -/

/-- The writer does not come past the first `'0'`. -/
lemma Written.le (hp : FirstZero stdin p) {c : ℕ} (h : Written stdin mem c) : c ≤ p := by
  by_contra hlt
  obtain ⟨heq, hne⟩ := h p (by omega)
  exact hne (heq.trans hp.here)

/-- A cell that was handed over holds the character of standard input, or `'0'` after a
signal. -/
lemma Writer.Ok.cell_eq {w : Writer} (h : w.Ok stdin mem) {i : ℕ} (hi : i < w.loc.finished) :
    mem i = charAt stdin i ∨ mem i = charZero ∧ w.running = false := by
  obtain ⟨l, b, is⟩ := w
  cases l with
  | waitReader | giveBack => exact absurd hi (Nat.not_lt_zero i)
  | waitOne c | fgetc c | store c v | testRunning c | storeEnd c | postTwo c =>
    exact .inl (h.1 i hi).1
  | test c =>
    obtain ⟨hwr, hlast⟩ := h
    rcases Nat.lt_succ_iff_lt_or_eq.mp hi with hlt | rfl
    · exact .inl (hwr i hlt).1
    · exact hlast.imp And.left id
  | done n =>
    obtain ⟨c, rfl, hwr, hz, hlast⟩ := h
    rcases Nat.lt_succ_iff_lt_or_eq.mp hi with hlt | rfl
    · exact .inl (hwr i hlt).1
    · exact hlast.imp id fun hb => ⟨hz, hb⟩

/-- The reader does not come past the first `'0'` either. -/
lemma passed_le (hp : FirstZero stdin p) {s : State} (h : (machine W R stdin mem).ReachIf ok s)
    {c : ℕ} (hc : c ≤ s.right.loc.taken) (hne : ∀ i < c, s.shared.mem i ≠ charZero) : c ≤ p := by
  by_contra hlt
  have htwo := two_add_taken h
  rcases (writer_ok h).cell_eq (i := p) (by omega) with heq | ⟨hz, -⟩
  · exact hne p (by omega) (heq.trans hp.here)
  · exact hne p (by omega) hz

/-- Cells that hold characters of standard input. -/
lemma map_range_eq_take {c : ℕ} (hc : c ≤ stdin.length) (h : ∀ i < c, mem i = charAt stdin i) :
    (List.range c).map mem = stdin.take c := by
  refine List.ext_getElem (by simp [hc]) fun i hi hi' => ?_
  have hic : i < c := by simpa using hi
  rw [List.getElem_map, List.getElem_range, h i hic, charAt_eq_getElem (by omega),
    List.getElem_take]

/-- The cells that the reader has passed are those of standard input. -/
lemma passed_eq_take (hp : FirstZero stdin p) {s : State}
    (h : (machine W R stdin mem).ReachIf ok s) {c : ℕ} (hc : c ≤ s.right.loc.taken)
    (hne : ∀ i < c, s.shared.mem i ≠ charZero) :
    c ≤ p ∧ (List.range c).map s.shared.mem = stdin.take c := by
  have hle := passed_le hp h hc hne
  have hlen := hp.lt_length
  have htwo := two_add_taken h
  refine ⟨hle, map_range_eq_take (by omega) fun i hi => ?_⟩
  rcases (writer_ok h).cell_eq (i := i) (by omega) with heq | ⟨hz, -⟩
  · exact heq
  · exact absurd hz (hne i hi)

/-- The same with the `'0'` after them. -/
lemma passed_append (hp : FirstZero stdin p) {s : State}
    (h : (machine W R stdin mem).ReachIf ok s) {c : ℕ} (hc : c ≤ s.right.loc.taken)
    (hne : ∀ i < c, s.shared.mem i ≠ charZero) (hz : s.shared.mem c = charZero) :
    c ≤ p ∧ (List.range (c + 1)).map s.shared.mem = stdin.take c ++ [charZero] := by
  obtain ⟨hle, htake⟩ := passed_eq_take hp h hc hne
  refine ⟨hle, ?_⟩
  rw [List.range_succ, List.map_append, htake, List.map_singleton, hz]

/-- **What the reader has printed**: the first characters of standard input, none of them `'0'`,
and a `'0'` after them from the last round on. -/
theorem output (hp : FirstZero stdin p) {s : State} (h : (machine W R stdin mem).ReachIf ok s) :
    ∃ c ≤ p, (s.right.stdout = stdin.take c ∧ s.right.loc.rounds = none) ∨
      s.right.stdout = stdin.take c ++ [charZero] := by
  have hok := reader_ok h
  have hcut := fun c => passed_eq_take (c := c) hp h
  have hend := fun c => passed_append (c := c) hp h
  obtain ⟨m, w, l, out⟩ := s
  cases l with
  | greet => exact ⟨0, Nat.zero_le p, .inl ⟨hok, rfl⟩⟩
  | waitTwo c =>
    obtain ⟨hout, hne⟩ := hok
    obtain ⟨hle, htake⟩ := hcut c (Nat.le_refl c) hne
    exact ⟨c, hle, .inl ⟨hout.trans htake, rfl⟩⟩
  | putchar c =>
    obtain ⟨hout, hne⟩ := hok
    obtain ⟨hle, htake⟩ := hcut c (Nat.le_succ c) hne
    exact ⟨c, hle, .inl ⟨hout.trans htake, rfl⟩⟩
  | postOne c | test c =>
    obtain ⟨hout, hne⟩ := hok
    by_cases hz : m.mem c = charZero
    · obtain ⟨hle, htake⟩ := hend c (Nat.le_succ c) hne hz
      exact ⟨c, hle, .inr (hout.trans htake)⟩
    · have hne' : ∀ i < c + 1, m.mem i ≠ charZero := fun i hi => by
        rcases Nat.lt_succ_iff_lt_or_eq.mp hi with hlt | rfl
        · exact hne i hlt
        · exact hz
      obtain ⟨hle, htake⟩ := hcut (c + 1) (Nat.le_refl (c + 1)) hne'
      exact ⟨c + 1, hle, .inl ⟨hout.trans htake, rfl⟩⟩
  | done n =>
    obtain ⟨c, rfl, hout, hne, hz⟩ := hok
    obtain ⟨hle, htake⟩ := hend c (Nat.le_succ c) hne hz
    exact ⟨c, hle, .inr (hout.trans htake)⟩

/-- The reader ends at a `'0'`. -/
lemma reader_rounds (hp : FirstZero stdin p) {s : State}
    (h : (machine W R stdin mem).ReachIf ok s) {n : ℕ} (hn : s.right.loc.rounds = some n) :
    ∃ c ≤ p, n = c + 1 ∧ s.right.stdout = stdin.take c ++ [charZero] ∧
      c < s.left.loc.finished ∧ s.shared.mem c = charZero := by
  have hok := reader_ok h
  have hend := fun c => passed_append (c := c) hp h
  have htwo := two_add_taken h
  obtain ⟨m, w, l, out⟩ := s
  cases l with
  | done k =>
    obtain rfl := Option.some.inj hn
    obtain ⟨c, rfl, hout, hne, hz⟩ := hok
    obtain ⟨hle, htake⟩ := hend c (Nat.le_succ c) hne hz
    refine ⟨c, hle, rfl, hout.trans htake, ?_, hz⟩
    change m.two + (c + 1) = w.loc.finished at htwo
    change c < w.loc.finished
    omega
  | _ => cases hn

/-- The writer ends at a `'0'`. -/
lemma Writer.Ok.rounds (hp : FirstZero stdin p) {w : Writer} (h : w.Ok stdin mem) {n : ℕ}
    (hn : w.loc.rounds = some n) :
    ∃ c ≤ p, n = c + 1 ∧ mem c = charZero ∧ (mem c = charAt stdin c ∨ w.running = false) := by
  obtain ⟨l, b, is⟩ := w
  cases l with
  | done k =>
    obtain rfl := Option.some.inj hn
    obtain ⟨c, rfl, hwr, hz, hlast⟩ := h
    exact ⟨c, hwr.le hp, rfl, hz, hlast⟩
  | _ => cases hn

/-! ### No state before the end is stuck -/

/-- A writer that cannot execute its next statement has ended or waits. -/
lemma Writer.run_or (m : Shared) (w : Writer) :
    (∃ r, w.run W m = some r) ∨ w.loc.rounds ≠ none ∨
      m.one = 0 ∧ (w.loc = .waitReader ∨ ∃ c, w.loc = .waitOne c) := by
  obtain ⟨l, b, is⟩ := w
  cases l with
  | waitReader =>
    rcases Nat.eq_zero_or_pos m.one with h0 | hpos
    · exact .inr (.inr ⟨h0, .inl rfl⟩)
    · exact .inl ⟨_, if_pos hpos⟩
  | waitOne c =>
    rcases Nat.eq_zero_or_pos m.one with h0 | hpos
    · exact .inr (.inr ⟨h0, .inr ⟨c, rfl⟩⟩)
    · exact .inl ⟨_, if_pos hpos⟩
  | done c => exact .inr (.inl (by simp [WriterLoc.rounds]))
  | _ => exact .inl ⟨_, rfl⟩

/-- A reader that cannot execute its next statement has ended or waits. -/
lemma Reader.step_or (m : Shared) (r : Reader) :
    (∃ x, r.step R () m = some x) ∨ r.loc.rounds ≠ none ∨
      m.two = 0 ∧ ∃ c, r.loc = .waitTwo c := by
  obtain ⟨l, out⟩ := r
  rw [Reader.step_eq]
  cases l with
  | waitTwo c =>
    rcases Nat.eq_zero_or_pos m.two with h0 | hpos
    · exact .inr (.inr ⟨h0, c, rfl⟩)
    · exact .inl ⟨_, if_pos hpos⟩
  | done c => exact .inr (.inl (by simp [ReaderLoc.rounds]))
  | _ => exact .inl ⟨_, rfl⟩

/-- A reader that waits for a cell that is not there has passed all cells. -/
lemma writer_of_waiting_reader {s : State} (h : (machine W R stdin mem).ReachIf ok s) {c : ℕ}
    (h0 : s.shared.two = 0) (hl : s.right.loc = .waitTwo c) :
    s.left.loc.finished = c ∧ s.left.loc.rounds = none := by
  have htwo := two_add_taken h
  have hread := reader_ok h
  have hwrite := writer_ok h
  obtain ⟨m, ⟨lw, b, is⟩, lr, out⟩ := s
  obtain rfl : lr = .waitTwo c := hl
  simp only [ReaderLoc.taken] at htwo h0 ⊢
  refine ⟨by omega, ?_⟩
  cases lw with
  | done n =>
    obtain ⟨k, rfl, -, hz, -⟩ := hwrite
    simp only [WriterLoc.finished] at htwo
    exact absurd hz (hread.2 k (by omega))
  | _ => rfl

/-- A reader that waits has posted once more often than it was let through, so a writer that waits
with it finds a token; and a writer never waits once the reader has ended.

**Proof sketch.** `posts_le` bounds the reader's posts by the writer's waits, `two_add_taken` says
how many cells the reader has been handed. A reader that has ended has seen a `'0'` in a cell
which a writer that still waits has passed without seeing one. -/
lemma not_both_waiting (hp : FirstZero stdin p) {s : State}
    (h : (machine W R stdin mem).ReachIf ok s) (h0 : s.shared.one = 0)
    (hw : s.left.loc = .waitReader ∨ ∃ c, s.left.loc = .waitOne c)
    (hr : s.right.loc.rounds ≠ none ∨ s.shared.two = 0 ∧ ∃ c, s.right.loc = .waitTwo c) :
    False := by
  have hone := posts_le h
  have htwo := two_add_taken h
  rcases hr with hr | ⟨h2, c, hc⟩
  · obtain ⟨n, hn⟩ := Option.ne_none_iff_exists'.mp hr
    obtain ⟨k, -, -, -, hk, hz⟩ := reader_rounds hp h hn
    have hwrite := writer_ok h
    obtain ⟨m, ⟨lw, b, is⟩, r⟩ := s
    rcases hw with hw | ⟨c, hw⟩
    · obtain rfl : lw = .waitReader := hw
      exact absurd hk (Nat.not_lt_zero k)
    · obtain rfl : lw = .waitOne c := hw
      exact (hwrite.1 k hk).2 hz
  · rw [hc] at htwo hone
    simp only [ReaderLoc.taken, ReaderLoc.posts] at htwo hone
    rcases hw with hw | ⟨k, hw⟩
    · rw [hw] at htwo hone
      simp only [WriterLoc.finished, WriterLoc.waits] at htwo hone
      omega
    · rw [hw] at htwo hone
      simp only [WriterLoc.finished, WriterLoc.waits] at htwo hone
      omega

/-- **No state before both loops have ended is stuck**, even when no further signal comes. -/
theorem exists_ordinary_step (hp : FirstZero stdin p) {s : State}
    (h : (machine W R stdin mem).ReachIf ok s) (hend : ¬ Ended s) :
    ∃ x s', Label.Ordinary x ∧ (machine W R stdin mem).step s x = some s' := by
  rcases Writer.run_or (W := W) s.shared s.left with ⟨r, hr⟩ | hw
  · exact ⟨.left .run, _, rfl, Duo.step_left (P := duo W R stdin mem) hr⟩
  rcases Reader.step_or (R := R) s.shared s.right with ⟨r, hr⟩ | hr
  · exact ⟨.right (), _, trivial, Duo.step_right (P := duo W R stdin mem) hr⟩
  exfalso
  rcases hw with hw | ⟨h0, hw⟩
  · rcases hr with hr | ⟨h2, c, hc⟩
    · exact hend ⟨hw, hr⟩
    · exact hw (writer_of_waiting_reader h h2 hc).2
  · exact not_both_waiting hp h h0 hw hr

/-! ### Every run ends -/

/-- How many steps the writer has left at most. -/
def WriterLoc.rank (p : ℕ) : WriterLoc → ℕ
  | .waitReader => 8 * p + 10
  | .giveBack => 8 * p + 9
  | .waitOne c => 8 * (p - c) + 8
  | .fgetc c => 8 * (p - c) + 7
  | .store c _ => 8 * (p - c) + 6
  | .testRunning c => 8 * (p - c) + 5
  | .storeEnd c => 8 * (p - c) + 4
  | .postTwo c => 8 * (p - c) + 3
  | .test c => 8 * (p - c) + 2
  | .done _ => 0

/-- How many steps the reader has left at most. -/
def ReaderLoc.rank (p : ℕ) : ReaderLoc → ℕ
  | .greet => 4 * p + 5
  | .waitTwo c => 4 * (p - c) + 4
  | .putchar c => 4 * (p - c) + 3
  | .postOne c => 4 * (p - c) + 2
  | .test c => 4 * (p - c) + 1
  | .done _ => 0

/-- How many steps are left at most; the first `SIGINT` may be one of them. -/
def rank (p : ℕ) (s : State) : ℕ :=
  s.left.loc.rank p + s.right.loc.rank p + s.left.running.toNat

/-- The writer's steps lower its rank. -/
lemma WriterMove.rank_lt (hp : FirstZero stdin p) {a : WriterLabel} {m m' : Shared}
    {w w' : Writer} (h : WriterMove W a m w m' w') (hok : w'.Ok stdin m'.mem) :
    w'.loc.rank p + w'.running.toNat < w.loc.rank p + w.running.toNat := by
  cases h with
  | again b is c hne =>
    have hle := Written.le hp hok.1
    simp only [WriterLoc.rank]
    omega
  | intrReader | intrOne | intrFgetc =>
    simp only [WriterLoc.rank, Bool.toNat_false]
    omega
  | sigint l => exact Nat.lt_succ_self _
  | _ =>
    simp only [WriterLoc.rank]
    omega

/-- The reader's steps lower its rank. -/
lemma ReaderMove.rank_lt {m m' : Shared} {r r' : Reader} (h : ReaderMove m r m' r')
    (hle : ∀ c, r'.loc = .waitTwo c → c ≤ p) : r'.loc.rank p < r.loc.rank p := by
  cases h with
  | again out c hne =>
    have hc := hle (c + 1) rfl
    simp only [ReaderLoc.rank]
    omega
  | _ =>
    simp only [ReaderLoc.rank]
    omega

/-- **Every run ends**: it has at most as many steps as the rank of the initial state says. -/
theorem length_le_rank (hp : FirstZero stdin p) {tr : List (State × Label)} {s : State}
    (h : (machine W R stdin mem).Path tr s) :
    tr.length ≤ rank p (machine W R stdin mem).init := by
  suffices hlt : ∀ s x s', (machine W R stdin mem).Reach s → True →
      (machine W R stdin mem).step s x = some s' → rank p s' < rank p s by
    have hle := h.length_add_le (rank p) hlt fun _ _ => trivial
    omega
  intro s x s' hs _ hstep
  have hs' : (machine W R stdin mem).Reach s' := hs.next hstep
  have hwrite := writer_ok hs'
  have hread := reader_ok hs'
  have hpass := fun c => passed_le (c := c) hp hs'
  rcases Duo.step_cases hstep with ⟨a, d, l, rfl, hl, rfl⟩ | ⟨b, d, r, rfl, hr, rfl⟩ |
    ⟨e, d, rfl, he, rfl⟩
  · have hw := (Writer.move_of_step hl).rank_lt hp hwrite
    simp only [rank]
    omega
  · have hr := (Reader.move_of_step (u := b) hr).rank_lt (p := p) fun c hc => by
      obtain ⟨l, out⟩ := r
      obtain rfl : l = .waitTwo c := hc
      exact hpass c (Nat.le_refl c) hread.2
    simp only [rank]
    omega
  · exact e.elim

/-! ### The programs -/

/-- The writer hands over no cell after the first `'0'`. -/
lemma Writer.Ok.finished_le (hp : FirstZero stdin p) {w : Writer} (h : w.Ok stdin mem) :
    w.loc.finished ≤ p + 1 := by
  obtain ⟨l, b, is⟩ := w
  cases l with
  | waitReader | giveBack => exact Nat.zero_le _
  | waitOne c | fgetc c | store c v | testRunning c | storeEnd c | postTwo c =>
    exact Nat.le_succ_of_le (h.1.le hp)
  | test c => exact Nat.succ_le_succ (h.1.le hp)
  | done n =>
    obtain ⟨c, rfl, hwr, -⟩ := h
    exact Nat.succ_le_succ (hwr.le hp)

/-- The writer touches no cell after the one for the first `'0'`. -/
lemma Writer.Ok.cell_le (hp : FirstZero stdin p) {w : Writer} (h : w.Ok stdin mem) {k : ℕ}
    (hk : w.loc.cell = some k) : k ≤ p := by
  obtain ⟨l, b, is⟩ := w
  cases l with
  | store c v | storeEnd c | test c =>
    obtain rfl := Option.some.inj hk
    exact h.1.le hp
  | _ => cases hk

/-- Neither process touches a cell after the one for the first `'0'`. -/
lemma cell_le (hp : FirstZero stdin p) {s : State} (h : (machine W R stdin mem).ReachIf ok s)
    {k : ℕ} (hk : s.left.loc.cell = some k ∨ s.right.loc.cell = some k) : k ≤ p := by
  rcases hk with hk | hk
  · exact (writer_ok h).cell_le hp hk
  · have hlt := cell_lt_finished h hk
    have hfin := (writer_ok h).finished_le hp
    omega

/-- The reader has printed cells that it was handed. -/
lemma Reader.Ok.exists_printed {r : Reader} (h : r.Ok mem) :
    ∃ c ≤ r.loc.taken, r.stdout = (List.range c).map mem := by
  obtain ⟨l, out⟩ := r
  cases l with
  | greet => exact ⟨0, Nat.le_refl 0, h⟩
  | waitTwo c => exact ⟨c, Nat.le_refl c, h.1⟩
  | putchar c => exact ⟨c, Nat.le_succ c, h.1⟩
  | postOne c | test c => exact ⟨c + 1, Nat.le_refl _, h.1⟩
  | done n =>
    obtain ⟨c, rfl, hout, -⟩ := h
    exact ⟨c + 1, Nat.le_refl _, hout⟩

/-- Without signals, a cell that was handed over holds the character of standard input. -/
lemma cell_eq_of_noSignal {s : State} (h : (machine W R stdin mem).ReachIf NoSignal s) {i : ℕ}
    (hi : i < s.left.loc.finished) : s.shared.mem i = charAt stdin i := by
  rcases (writer_ok h).cell_eq hi with heq | ⟨-, hb⟩
  · exact heq
  · rw [running_of_noSignal h] at hb
    cases hb

/-- Without signals the reader ends with the input up to its first `'0'`. -/
lemma output_of_noSignal (hp : FirstZero stdin p) {s : State}
    (h : (machine W R stdin mem).ReachIf NoSignal s) {n : ℕ}
    (hn : s.right.loc.rounds = some n) :
    n = p + 1 ∧ s.right.stdout = stdin.take p ++ [charZero] := by
  obtain ⟨c, hc, rfl, hout, hfin, hz⟩ := reader_rounds hp h hn
  obtain rfl := hp.eq_of_le hc ((cell_eq_of_noSignal h hfin).symm.trans hz)
  exact ⟨rfl, hout⟩

/-- Without signals the reader prints the input up to its first `'0'`. -/
lemma output_prefix_of_noSignal (hp : FirstZero stdin p) {s : State}
    (h : (machine W R stdin mem).ReachIf NoSignal s) :
    s.right.stdout <+: stdin.take (p + 1) := by
  obtain ⟨c, hc, hout⟩ := (reader_ok h).exists_printed
  have htwo := two_add_taken h
  have hfin := (writer_ok h).finished_le hp
  have hlen := hp.lt_length
  rw [hout, map_range_eq_take (by omega) fun i hi => cell_eq_of_noSignal h (by omega)]
  exact List.take_prefix_take_left (by omega)

/-- The reader posts at most once more than it is let through. -/
lemma ReaderLoc.posts_le_taken (l : ReaderLoc) : l.posts ≤ l.taken + 1 := by
  cases l <;> simp [ReaderLoc.posts, ReaderLoc.taken]

/-- The writer finishes a cell only after it was let through. -/
lemma WriterLoc.finished_le_waits (l : WriterLoc) : l.finished ≤ l.waits := by
  cases l <;> simp [WriterLoc.finished, WriterLoc.waits]

/-- Without signals the two semaphores hold one token at most. -/
lemma one_add_two_le {s : State} (h : (machine W R stdin mem).ReachIf NoSignal s) :
    s.shared.one + s.shared.two ≤ 1 := by
  have hone := one_add_waits h
  have htwo := two_add_taken h
  have hr := s.right.loc.posts_le_taken
  have hw := s.left.loc.finished_le_waits
  omega

/-- **The C transfer survives `SIGINT` at any moment.** Standard input has its first `'0'` at `p`
inside the mapping. Wherever signals are delivered and however the two processes interleave: both
stay inside the mapping, the reader only reads cells that the writer has finished, a finished cell
is never changed, the reader has at every moment printed a prefix of `d` and a `'0'` and in the end
all of it, for some prefix `d` of standard input without a `'0'`, which is everything before the
`'0'` if no signal was delivered; as long as one of the two loops runs, one of the processes can go
on, and every run ends. -/
theorem transfer_survives_sigint (hp : FirstZero stdin p) (hlen : p < fileLen) {s : State}
    (h : (machine .c .c stdin mem).Reach s) :
    (∀ k, s.left.loc.cell = some k ∨ s.right.loc.cell = some k → k < fileLen) ∧
    (∀ k, s.right.loc.cell = some k → k < s.left.loc.finished) ∧
    (∀ x s', (machine .c .c stdin mem).step s x = some s' →
      ∀ i < s.left.loc.finished, s'.shared.mem i = s.shared.mem i) ∧
    (∃ d, d <+: stdin ∧ charZero ∉ d ∧ s.right.stdout <+: d ++ [charZero] ∧
      (s.right.loc.rounds ≠ none → s.right.stdout = d ++ [charZero])) ∧
    ((machine .c .c stdin mem).ReachIf NoSignal s → s.right.loc.rounds ≠ none →
      s.right.stdout = stdin.take p ++ [charZero]) ∧
    (¬ Ended s → ∃ x s', Label.Ordinary x ∧ (machine .c .c stdin mem).step s x = some s') ∧
    ∃ B, ∀ tr s, (machine .c .c stdin mem).Path tr s → tr.length ≤ B := by
  refine ⟨fun k hk => Nat.lt_of_le_of_lt (cell_le hp h hk) hlen, fun k hk => cell_lt_finished h hk,
    fun x s' hs i hi => cell_frozen hs hi, ?_, ?_, exists_ordinary_step hp h, _,
    fun tr s => length_le_rank hp⟩
  · obtain ⟨c, hc, ⟨hout, hend⟩ | hout⟩ := output hp h
    · refine ⟨stdin.take c, List.take_prefix c stdin, hp.notMem_take hc, ?_, fun hne => ?_⟩
      · rw [hout]
        exact List.prefix_append _ _
      · exact absurd hend hne
    · exact ⟨stdin.take c, List.take_prefix c stdin, hp.notMem_take hc,
        ⟨[], by rw [hout, List.append_nil]⟩, fun _ => hout⟩
  · intro hno hend
    obtain ⟨n, hn⟩ := Option.ne_none_iff_exists'.mp hend
    exact (output_of_noSignal hp hno hn).2

/-- Standard input `ab0`, and a signal that interrupts the writer's second `sem_wait(*one)`. -/
def interruptedRun : List Label :=
  [.right (), .left .run, .left .run] ++ List.replicate 6 (.left .run) ++ [.left .eintr] ++
    List.replicate 6 (.left .run) ++ List.replicate 8 (.right ())

lemma firstZero_ab0 : FirstZero [97, 98, 48] 2 := ⟨rfl, by decide⟩

/-- The C programs on the standard input `ab0`. -/
def machineAb0 : Machine State Label := machine .c .c [97, 98, 48] fun _ => 0

/-- After the interruption the reader prints `a0`. -/
theorem transfer_survives_sigint_interrupted :
    ∃ s, machineAb0.exec machineAb0.init interruptedRun = some s ∧ s.right.stdout = [97, 48] ∧
      ∃ d, d <+: [97, 98, 48] ∧ charZero ∉ d ∧ s.right.stdout = d ++ [charZero] := by
  have hexec : ∃ s, machineAb0.exec machineAb0.init interruptedRun = some s ∧
      s.right.stdout = [97, 48] ∧ s.right.loc.rounds = some 2 := ⟨_, rfl, rfl, rfl⟩
  obtain ⟨s, hs, hout, hn⟩ := hexec
  obtain ⟨-, -, -, ⟨d, hd, hz, -, hend⟩, -⟩ :=
    transfer_survives_sigint firstZero_ab0 (by decide) (Machine.reach_of_exec hs)
  exact ⟨s, hs, hout, d, hd, hz, hend (by simp [hn])⟩

/-- **The C and the C++ programs are interchangeable.** Without signals, for either writer and
either reader: the reader prints the input up to its first `'0'`, both loops end after exactly
`p + 1` rounds, the two semaphores hold at most one token, the reader reads what the writer has
stored, neither leaves its mapping, no state before the end is stuck and every run ends. -/
theorem pairings_interchangeable (hp : FirstZero stdin p) (hW : p < mapped W)
    (hR : p < mapped R) :
    (∀ s, (machine W R stdin mem).ReachIf NoSignal s →
      s.right.stdout <+: stdin.take (p + 1) ∧
      (∀ n, s.right.loc.rounds = some n → n = p + 1 ∧ s.right.stdout = stdin.take (p + 1)) ∧
      (∀ n, s.left.loc.rounds = some n → n = p + 1) ∧
      s.shared.one + s.shared.two ≤ 1 ∧
      (∀ k, s.right.loc.cell = some k →
        k < s.left.loc.finished ∧ k < mapped R ∧ s.shared.mem k = charAt stdin k) ∧
      (∀ k, s.left.loc.cell = some k → k < mapped W) ∧
      (¬ Ended s → ∃ x s', Label.Ordinary x ∧ (machine W R stdin mem).step s x = some s')) ∧
    ∃ B, ∀ tr s, (machine W R stdin mem).Path tr s → tr.length ≤ B := by
  refine ⟨fun s h => ⟨output_prefix_of_noSignal hp h, fun n hn => ?_, fun n hn => ?_,
    one_add_two_le h, fun k hk => ?_, fun k hk => Nat.lt_of_le_of_lt (cell_le hp h (.inl hk)) hW,
    exists_ordinary_step hp h⟩, _, fun tr s => length_le_rank hp⟩
  · rw [hp.take_succ]
    exact output_of_noSignal hp h hn
  · obtain ⟨c, hc, rfl, hz, heq | hb⟩ := (writer_ok h).rounds hp hn
    · rw [hp.eq_of_le hc (heq.symm.trans hz)]
    · rw [running_of_noSignal h] at hb
      cases hb
  · have hfin := cell_lt_finished h hk
    exact ⟨hfin, Nat.lt_of_le_of_lt (cell_le hp h (.inr hk)) hR, cell_eq_of_noSignal h hfin⟩

/-- A C++ writer and a C reader on the standard input `ab0c`. -/
def machineAb0c : Machine State Label := machine .cpp .c [97, 98, 48, 99] fun _ => 0

/-- The schedule that ends it, round by round. -/
def runAb0c : List Label :=
  .right () :: List.replicate 4 (.left .run) ++ List.replicate 4 (.right ()) ++
    List.replicate 5 (.left .run) ++ List.replicate 4 (.right ()) ++
    List.replicate 5 (.left .run) ++ List.replicate 4 (.right ()) ++ [.left .run]

/-- Both loops end after three rounds and the reader has printed `ab0`. -/
theorem pairings_interchangeable_ab0c :
    ∃ s, machineAb0c.ReachIf NoSignal s ∧ s.left.loc.rounds = some 3 ∧
      s.right.loc.rounds = some 3 ∧ s.right.stdout = [97, 98, 48] ∧
      ∃ B, ∀ tr s, machineAb0c.Path tr s → tr.length ≤ B := by
  have hexec : ∃ s, machineAb0c.exec machineAb0c.init runAb0c = some s ∧
      s.left.loc.rounds = some 3 ∧ s.right.loc.rounds = some 3 := ⟨_, rfl, rfl, rfl⟩
  obtain ⟨s, hs, hl, hr⟩ := hexec
  have hord : ∀ x ∈ runAb0c, Label.Ordinary x := by
    simp [runAb0c, Label.Ordinary]
  have hreach : machineAb0c.ReachIf NoSignal s :=
    Machine.ReachIf.exec .init runAb0c (fun x hx _ => hord x hx) hs
  have hp : FirstZero [97, 98, 48, 99] 2 := ⟨rfl, by decide⟩
  have hW : 2 < mapped .cpp := by decide
  have hR : 2 < mapped .c := by decide
  obtain ⟨hall, hend⟩ := pairings_interchangeable hp hW hR
  exact ⟨s, hreach, hl, hr, ((hall s hreach).2.1 3 hr).2, hend⟩

end SharedMemory

end PosixIntro
