import PosixIntro.RustSemaphore.Progress
import PosixIntro.Warehouse.RustModel

set_option relaxedAutoImplicit false
set_option autoImplicit false

/-!
# The Rust warehouse is a bounded FIFO

The proofs are about the program over ideal semaphores; the refinement of `semaphore.rs` carries
them over. `BUFFER_LEN as i32` is what the semaphore of free places starts with, so a buffer whose
length is not an `i32` is safe but may get stuck.

## Main definitions

* `Stock` — the buffer holds a queue in its circular window.
* `Holds` — what a thread may rely on in each phase of the region the buffer's mutex protects.

## Main results

* `owned` — the invariant of the warehouse, phase by phase.
* `gets_stuck` — with `2 ^ 32` slots the threads can all be left parked.
* `bounded_fifo` — what `add` and `remove` meet, the order of the items, and progress.
-/

namespace PosixIntro

namespace RustWarehouse

variable {nP nC N : ℕ} [NeZero N]

/-- A state of the program over ideal semaphores. -/
abbrev IdealState (nP nC N : ℕ) := Config (Fin nP ⊕ Fin nC) Sem (Store N) Loc

variable (nP nC N) in
/-- The program over ideal semaphores. -/
abbrev idealMachine : Machine (IdealState nP nC N) (Label (Fin nP ⊕ Fin nC) ℕ) :=
  (program nP nC N).machine (Rust.idealStart (initSemaphores N))

/-! ### Threads and the buffer's mutex -/

/-- Producers run the one closure and consumers the other. -/
lemma runs {v : Sem → ℕ} {s : IdealState nP nC N} (h : ((program nP nC N).machine v).Reach s)
    (i : Fin nP ⊕ Fin nC) : Runs i (s.loc i) := by
  refine Program.loc_invariant retries Runs (fun i => by cases i <;> trivial) ?_ ?_ ?_ h i
  · intro i l x next intr hst hl
    rcases code_wait hst with ⟨-, ⟨rfl, rfl, rfl⟩ | ⟨rfl, rfl, rfl⟩⟩ <;> cases i <;> exact hl
  · intro i l x next hst hl
    rcases code_post hst with ⟨rfl, rfl, rfl⟩ | ⟨rfl, rfl, rfl⟩ <;> cases i <;> exact hl
  · intro i l f c d d' l' hst hf hl
    cases move_of_act hst hf with
    | fmtSloth r | fmtDone r => cases i <;> cases r <;> exact hl
    | _ => cases i <;> exact hl

/-- Whether a location is inside the region, as a weight. -/
def inside (l : Loc) : ℕ := if phase l = none then 0 else 1

/-- The mutex is locked iff one thread is inside the region. -/
lemma inside_eq_locked {v : Sem → ℕ} {s : IdealState nP nC N}
    (h : ((program nP nC N).machine v).Reach s) :
    tally (fun _ => inside) s.loc = s.data.locked.toNat := by
  refine h.invariant (I := fun s => tally (fun _ => inside) s.loc = s.data.locked.toNat)
    (tally_eq_zero fun i => by cases i <;> rfl) fun s a s' _ ih _ hs => ?_
  rcases Program.step_cases retries hs with ⟨i, c, st, sem, d, l, -, hst, hx, rfl⟩ |
    ⟨i, -, rfl⟩ | ⟨d, -, hd, rfl⟩
  · have hup := tally_update (fun _ => inside) s.loc i l
    have hle : inside (s.loc i) ≤ tally (fun _ => inside) s.loc :=
      le_tally (fun _ => inside) s.loc i
    have hlocked : s.data.locked.toNat ≤ 1 := Bool.toNat_le _
    suffices inside (s.loc i) = 1 ∧ inside l = 0 ∧ d.locked.toNat = 0 ∨
        inside l + s.data.locked.toNat = inside (s.loc i) + d.locked.toNat by
      show tally (fun _ => inside) (Function.update s.loc i l) = d.locked.toNat
      omega
    rcases Stmt.exec_cases hx with ⟨x, intr, rfl, -, rfl, -⟩ | ⟨x, rfl, rfl, -⟩ | ⟨f, rfl, hf, -⟩
    · right
      rcases code_wait hst with ⟨-, ⟨hl, rfl, rfl⟩ | ⟨hl, rfl, rfl⟩⟩ <;> rw [hl] <;> rfl
    · right
      rcases code_post hst with ⟨hl, rfl, rfl⟩ | ⟨hl, rfl, rfl⟩ <;> rw [hl] <;> rfl
    · revert hst
      generalize s.loc i = l₀
      intro hst
      cases move_of_act hst hf with
      | unlockProducer | unlockConsumer => exact .inl ⟨rfl, rfl, rfl⟩
      | lockProducer _ hfree | lockConsumer _ hfree =>
        right
        rw [hfree]
        rfl
      | _ => exact .inr rfl
  · exact ih
  · cases hd

/-- **Mutual exclusion.** At most one thread is inside the region. -/
lemma exclusive {v : Sem → ℕ} {s : IdealState nP nC N}
    (h : ((program nP nC N).machine v).Reach s) : Program.Exclusive phase s.loc := by
  intro i j hi hj
  have hle : tally (fun _ => inside) s.loc ≤ 1 := by
    rw [inside_eq_locked h]
    exact Bool.toNat_le _
  apply eq_of_tally_le_one hle
  · simp [inside, hi]
  · simp [inside, hj]

/-! ### The buffer as a queue -/

/-- The slots hold the queue `q` in the circular window that starts at `c`: `q` is what was added
and not yet removed, it fits, and `p` is the first place behind it. -/
structure Stock (p c : Fin N) (sloths : Fin N → Sloth) (added removed q : List Item) : Prop where
  history : added = removed ++ q
  room : q.length ≤ N
  items : ∀ x ∈ added, x ≠ .Other
  index : p = Ring.place c q.length
  slots : ∀ i, (sloths i).taken = Ring.slot q c i

namespace Stock

variable {p c : Fin N} {sloths : Fin N → Sloth} {added removed q : List Item} {item : Item}

/-- Storing an item behind the window. -/
lemma setTaken (h : Stock p c sloths added removed q) (hroom : q.length < N)
    (hitem : item ≠ .Other) :
    Stock (Ring.next p) c (Function.update sloths p (.Taken item)) (added ++ [item]) removed
      (q ++ [item]) where
  history := by rw [h.history, List.append_assoc]
  room := by rwa [List.length_append, List.length_singleton]
  items := List.forall_mem_append.mpr ⟨h.items, List.forall_mem_singleton.mpr hitem⟩
  index := by rw [h.index, Ring.next_place, List.length_append, List.length_singleton]
  slots i := by
    rw [Ring.slot_append q item c i hroom, ← h.index]
    by_cases hi : i = p
    · rw [if_pos hi, hi, Function.update_self]
      rfl
    · rw [if_neg hi, Function.update_of_ne hi, h.slots i]

/-- The place behind the window is not taken. -/
lemma not_taken (h : Stock p c sloths added removed q) (hroom : q.length < N) :
    (sloths p).taken = none := by
  rw [h.slots, h.index, Ring.slot_place q c hroom]
  exact List.getElem?_eq_none le_rfl

/-- The start of a nonempty window is taken, by the first item. -/
lemma head (h : Stock p c sloths added removed q) (hne : q ≠ []) :
    ∃ x q', q = x :: q' ∧ sloths c = .Taken x := by
  obtain ⟨x, q', rfl⟩ := List.exists_cons_of_ne_nil hne
  have hc := h.slots c
  rw [Ring.slot_self, List.head?_cons] at hc
  refine ⟨x, q', rfl, ?_⟩
  cases hs : sloths c with
  | Taken y =>
    rw [hs] at hc
    rw [Option.some.inj hc]
  | _ =>
    rw [hs] at hc
    cases hc

/-- Marking the start of the window as deleted. -/
lemma setDeleted (h : Stock p c sloths added removed (item :: q)) :
    Stock p (Ring.next c) (Function.update sloths c .Deleted) added (removed ++ [item]) q where
  history := by rw [h.history, List.append_assoc, List.singleton_append]
  room := by
    have := h.room
    rw [List.length_cons] at this
    omega
  items := h.items
  index := by rw [h.index, Ring.place_next, List.length_cons]
  slots i := by
    have hroom := h.room
    rw [List.length_cons] at hroom
    by_cases hi : i = c
    · rw [hi, Function.update_self, Ring.slot_next_self q c (by omega)]
      rfl
    · rw [Function.update_of_ne hi, Ring.slot_cons item q hi, h.slots i]

/-- Slots that are taken by the same items hold the same queue. -/
lemma congr {sloths' : Fin N → Sloth} (h : Stock p c sloths added removed q)
    (hs : ∀ i, (sloths' i).taken = (sloths i).taken) : Stock p c sloths' added removed q :=
  { h with slots := fun i => by rw [hs i, h.slots i] }

end Stock

omit [NeZero N] in
/-- **Formatting changes nothing**: `fmt` clears deleted slots and keeps the taken ones. -/
lemma fmtSloth_taken (b : Buffer N) (i j : Fin N) :
    ((b.fmtSloth i).1.sloths j).taken = (b.sloths j).taken := by
  unfold Buffer.fmtSloth
  split
  · rfl
  · rfl
  · rename_i hd
    by_cases hj : j = i
    · rw [hj, hd]
      simp [Sloth.taken]
    · simp [Function.update_of_ne hj]

omit [NeZero N] in
lemma producerIdx_fmtSloth (b : Buffer N) (i : Fin N) :
    (b.fmtSloth i).1.producerIdx = b.producerIdx := by
  unfold Buffer.fmtSloth
  split <;> rfl

omit [NeZero N] in
lemma consumerIdx_fmtSloth (b : Buffer N) (i : Fin N) :
    (b.fmtSloth i).1.consumerIdx = b.consumerIdx := by
  unfold Buffer.fmtSloth
  split <;> rfl

/-! ### The invariant -/

/-- What a thread may rely on in each phase of the region, and what holds while the mutex is
free. -/
def Holds : Option Phase → Store N → Prop
  | none, w | some .exact, w => ∃ q, Stock w.buffer.producerIdx w.buffer.consumerIdx
      w.buffer.sloths w.added w.removed q
  | some .stored, w => ∃ q, Stock (Ring.next w.buffer.producerIdx) w.buffer.consumerIdx
      w.buffer.sloths w.added w.removed q
  | some (.read item), w => ∃ q, Stock w.buffer.producerIdx w.buffer.consumerIdx
      w.buffer.sloths w.added w.removed (item :: q)
  | some .deleted, w => ∃ q, Stock w.buffer.producerIdx (Ring.next w.buffer.consumerIdx)
      w.buffer.sloths w.added w.removed q

/-- The items producers carry are the ones `produce` makes. -/
def Carries (_ : Fin nP ⊕ Fin nC) : Loc → Prop
  | .setTaken item => item ≠ .Other
  | _ => True

/-- `produce` never makes `Item::Other`. -/
lemma produce_ne_other (micros : ℕ) : produce micros ≠ .Other := by
  have hall : ∀ k < 9, produce k ≠ .Other := by decide
  have hmod : produce micros = produce (micros % 9) := by
    unfold produce
    rw [Nat.mod_mod]
  rw [hmod]
  exact hall _ (Nat.mod_lt _ (by decide))

/-- No producer carries `Item::Other`. -/
lemma carries {v : Sem → ℕ} {s : IdealState nP nC N}
    (h : ((program nP nC N).machine v).Reach s) (i : Fin nP ⊕ Fin nC) :
    Carries i (s.loc i) := by
  refine Program.loc_invariant retries Carries (fun i => by cases i <;> trivial) ?_ ?_ ?_ h i
  · intro i l x next intr hst hl
    rcases code_wait hst with ⟨-, ⟨rfl, rfl, rfl⟩ | ⟨rfl, rfl, rfl⟩⟩ <;> trivial
  · intro i l x next hst hl
    rcases code_post hst with ⟨rfl, rfl, rfl⟩ | ⟨rfl, rfl, rfl⟩ <;> trivial
  · intro i l f c d d' l' hst hf hl
    cases move_of_act hst hf with
    | produce micros => exact produce_ne_other micros
    | _ => trivial

/-- Each move takes what holds in its phase to what holds in the next one, if a thread that is
about to add finds room and a thread that is about to remove finds an item. -/
lemma Move.holds {i : Fin nP ⊕ Fin nC} {l l' : Loc} {w w' : Store N} (hm : Move i l w l' w')
    (hroom : holding l = .space → w.added.length < w.removed.length + N)
    (hitem : holding l = .item → w.removed.length < w.added.length) (hc : Carries i l)
    (h : Holds (phase l) w) : Holds (phase l') w' := by
  cases hm with
  | setTaken item w =>
    obtain ⟨q, hq⟩ := h
    have hlt := hroom rfl
    rw [hq.history, List.length_append] at hlt
    exact ⟨q ++ [item], hq.setTaken (by omega) hc⟩
  | getItem w =>
    obtain ⟨q, hq⟩ := h
    have hlt := hitem rfl
    rw [hq.history, List.length_append] at hlt
    obtain ⟨x, q', rfl, hx⟩ := hq.head (List.ne_nil_of_length_pos (by omega))
    refine ⟨q', ?_⟩
    have : w.buffer.getItem = x := by rw [Buffer.getItem, hx]; rfl
    rwa [this]
  | setDeleted item w =>
    obtain ⟨q, hq⟩ := h
    exact ⟨q, hq.setDeleted⟩
  | fmtSloth r item k res w =>
    obtain ⟨q, hq⟩ := h
    refine ⟨q, ?_⟩
    simp only [producerIdx_fmtSloth, consumerIdx_fmtSloth]
    exact hq.congr fun i => fmtSloth_taken w.buffer k i
  | _ => exact h

/-- A length read as an `i32` is no greater than it was. -/
lemma asI32_le (n : ℕ) : asI32 n ≤ n ∧ asI32 n ≤ Rust.i32Max := by
  unfold asI32 Rust.i32Max
  split <;> omega

omit [NeZero N] in
/-- The free places that the semaphore starts with are slots of the buffer. -/
lemma start_le : Rust.idealStart (initSemaphores N) .semEmpty ≤ N :=
  Int.toNat_le.mpr (asI32_le N).1

/-- A thread that holds a free place finds one in the buffer. -/
lemma room {s : IdealState nP nC N} (h : (idealMachine nP nC N).Reach s) {i : Fin nP ⊕ Fin nC}
    (hi : holding (s.loc i) = .space) : s.data.added.length < s.data.removed.length + N := by
  have hcap := start_le (N := N)
  have hlt : s.data.added.length <
      s.data.removed.length + Rust.idealStart (initSemaphores N) .semEmpty :=
    bufferProtocol.adds_lt_capacity retries h hi
  omega

/-- **The warehouse invariant**: whoever holds the buffer's mutex finds the buffer as its phase
says, and while the mutex is free the buffer is an exact circular window. -/
lemma owned {s : IdealState nP nC N} (h : (idealMachine nP nC N).Reach s) :
    Program.Owned phase Holds s.data s.loc := by
  refine Program.owner_invariant retries phase Holds (fun s hs => exclusive hs)
    (fun i => by cases i <;> rfl) ?_ ?_ ?_ ?_ ?_ (fun d d' φ hd => by simp [program] at hd) h
  · exact ⟨[], rfl, Nat.zero_le _, by simp [program], by simp [program, Buffer.new], fun i => rfl⟩
  · intro i l x next intr d hst hK
    rcases code_wait hst with ⟨-, ⟨rfl, rfl, rfl⟩ | ⟨rfl, rfl, rfl⟩⟩ <;> exact hK
  · intro i l x next d hst hK
    rcases code_post hst with ⟨rfl, rfl, rfl⟩ | ⟨rfl, rfl, rfl⟩ <;> exact hK
  · rintro s i l f c d l' hr - rfl hst hf hK
    exact (move_of_act hst hf).holds (fun hh => room hr hh)
      (fun hh => bufferProtocol.removes_lt_adds retries rfl hr hh) (carries hr i) hK
  · intro i l f c d d' l' hst hf hl hl' φ hK
    cases move_of_act hst hf <;> first | exact hK | simp [phase] at hl hl'

/-- In every phase the items taken out are the first ones put in, and none is `Item::Other`. -/
lemma history {s : IdealState nP nC N} (h : (idealMachine nP nC N).Reach s) :
    s.data.removed <+: s.data.added ∧ ∀ x ∈ s.data.removed, x ≠ .Other := by
  have hall : ∀ φ, Holds φ s.data →
      s.data.removed <+: s.data.added ∧ ∀ x ∈ s.data.removed, x ≠ .Other := by
    intro φ hφ
    obtain ⟨p, c, q, hq⟩ :
        ∃ p c q, Stock p c s.data.buffer.sloths s.data.added s.data.removed q := by
      rcases φ with _ | _ | _ | item | _
      all_goals
        obtain ⟨q, hq⟩ := hφ
        exact ⟨_, _, _, hq⟩
    refine ⟨⟨q, hq.history.symm⟩, fun x hx => hq.items x ?_⟩
    rw [hq.history]
    exact List.mem_append_left _ hx
  by_cases hin : ∀ i, phase (s.loc i) = none
  · exact hall none ((owned h).2 hin)
  · obtain ⟨i, hi⟩ := not_forall.mp hin
    obtain ⟨φ, hφ⟩ := Option.ne_none_iff_exists'.mp hi
    exact hall (some φ) ((owned h).1 i φ hφ)

/-- `add` meets a slot that is not taken. -/
lemma add_meets {s : IdealState nP nC N} (h : (idealMachine nP nC N).Reach s)
    {i : Fin nP ⊕ Fin nC} {item : Item} (hi : s.loc i = .setTaken item) :
    (s.data.buffer.sloths s.data.buffer.producerIdx).taken = none := by
  obtain ⟨q, hq⟩ := (owned h).1 i .exact (by rw [hi]; rfl)
  have hlt := room h (i := i) (by rw [hi]; rfl)
  rw [hq.history, List.length_append] at hlt
  exact hq.not_taken (by omega)

/-- `remove` meets a slot that is taken. -/
lemma remove_meets {s : IdealState nP nC N} (h : (idealMachine nP nC N).Reach s)
    {i : Fin nP ⊕ Fin nC} (hi : s.loc i = .getItem) :
    ∃ x, s.data.buffer.sloths s.data.buffer.consumerIdx = .Taken x ∧ x ≠ .Other := by
  obtain ⟨q, hq⟩ := (owned h).1 i .exact (by rw [hi]; rfl)
  have hhold : holding (s.loc i) = .item := by rw [hi]; rfl
  have hlt : s.data.removed.length < s.data.added.length :=
    bufferProtocol.removes_lt_adds retries rfl h hhold
  rw [hq.history, List.length_append] at hlt
  obtain ⟨x, q', rfl, hx⟩ := hq.head (List.ne_nil_of_length_pos (by omega))
  refine ⟨x, hx, hq.items x ?_⟩
  rw [hq.history]
  exact List.mem_append_right _ (List.mem_cons_self ..)

/-! ### Progress -/

/-- When no thread can move the buffer's mutex is free: the thread inside the region could. -/
lemma unlocked_of_stuck {s : IdealState nP nC N} (h : (idealMachine nP nC N).Reach s)
    (hno : (program nP nC N).Stuck s) : s.data.locked = false := by
  by_contra hl
  have hpos : 0 < tally (fun _ => inside) s.loc := by
    rw [inside_eq_locked h, Bool.eq_true_of_not_eq_false hl]
    decide
  obtain ⟨i, hi⟩ := exists_of_tally_pos hpos
  have hphase : phase (s.loc i) ≠ none := fun hp => by simp [inside, hp] at hi
  have hact : ∀ f, (program nP nC N).code i (s.loc i) = some (.act f) →
      ∃ c r, f c s.data = some r := fun f hc =>
    (code_total i _).2 f s.data hc
      (.inr ⟨fun hl => hphase (by rw [hl]; rfl), fun hl => hphase (by rw [hl]; rfl)⟩)
  rcases Program.returned_or_waiting hact (hno i) with hc | ⟨x, next, intr, hc, -⟩
  · exact (code_total i _).1 hc
  · rcases code_wait hc with ⟨-, ⟨hl, -⟩ | ⟨hl, -⟩⟩ <;> exact hphase (by rw [hl]; rfl)

/-- When no thread can move the producers wait for a free place and the consumers for an item. -/
lemma waits_of_stuck {s : IdealState nP nC N} (h : (idealMachine nP nC N).Reach s)
    (hno : (program nP nC N).Stuck s) (i : Fin nP ⊕ Fin nC) :
    holding (s.loc i) = .nothing ∧
      s.sem (match i with | .inl _ => .semEmpty | .inr _ => .semFull) = 0 := by
  have hruns := runs h i
  have hfree := unlocked_of_stuck h hno
  rcases Program.returned_or_waiting (fun f hc => (code_total i _).2 f _ hc (.inl hfree)) (hno i)
    with hc | ⟨x, next, intr, hc, hx⟩
  · exact absurd hc (code_total i _).1
  · rcases code_wait hc with ⟨-, ⟨hl, rfl, -⟩ | ⟨hl, rfl, -⟩⟩ <;> rw [hl] at hruns ⊢
    · cases i with
      | inl i => exact ⟨rfl, hx⟩
      | inr i => exact hruns.elim
    · cases i with
      | inl i => exact hruns.elim
      | inr i => exact ⟨rfl, hx⟩

/-- While the semaphore of free places starts positive and there are threads of both kinds, some
thread can move in the program over ideal semaphores.

**Proof sketch.** If none can, every thread waits on a semaphore that is zero and holds nothing; so
the whole capacity is in the two semaphores, but there is a thread waiting on each of them. -/
lemma exists_enabled (hpos : 0 < asI32 N) (hP : 1 ≤ nP) (hC : 1 ≤ nC) {s : IdealState nP nC N}
    (h : (idealMachine nP nC N).Reach s) : ∃ i, (program nP nC N).Enabled i s := by
  by_contra hno
  have hstuck : (program nP nC N).Stuck s := fun i hi => hno ⟨i, hi⟩
  have hempty := (waits_of_stuck h hstuck (.inl ⟨0, hP⟩)).2
  have hfull := (waits_of_stuck h hstuck (.inr ⟨0, hC⟩)).2
  have hsum : s.sem .semFull + s.sem .semEmpty =
      Rust.idealStart (initSemaphores N) .semEmpty :=
    bufferProtocol.full_add_empty_of_idle retries rfl h fun i => (waits_of_stuck h hstuck i).1
  simp only [Rust.idealStart, initSemaphores] at hempty hfull hsum
  omega

/-- Only producers wait for a free place, and only consumers for an item. -/
def mayWait : Sem → Fin nP ⊕ Fin nC → ℕ
  | .semEmpty, .inl _ => 1
  | .semFull, .inr _ => 1
  | _, _ => 0

/-- The program over ideal semaphores stays in the range of `i32`: the semaphores never exceed
the capacity, and only producers wait for a free place and only consumers for an item. -/
lemma inRange (hpos : 0 < asI32 N) (hP : nP < 2 ^ 31) (hC : nC < 2 ^ 31) :
    Rust.InRange (program nP nC N) (initSemaphores N) where
  start x := by
    cases x
    · exact le_rfl
    · exact hpos.le
  sem t ht x := by
    have hsum : t.sem .semFull + t.sem .semEmpty + _ =
        Rust.idealStart (initSemaphores N) .semEmpty :=
      bufferProtocol.full_add_empty retries rfl ht
    have hmax := (asI32_le N).2
    simp only [Rust.idealStart, initSemaphores] at hsum
    cases x <;> omega
  waits t ht x := by
    have hle : tally (Rust.waitsAt (program nP nC N) x) t.loc ≤
        tally (fun i _ => mayWait x i) t.loc :=
      tally_le_tally fun i => Rust.waitsAt_le fun next intr hc => by
        have hruns := runs ht i
        rcases code_wait hc with ⟨-, ⟨hl, rfl, -⟩ | ⟨hl, rfl, -⟩⟩ <;> rw [hl] at hruns <;>
          cases i <;> first | exact hruns.elim | exact Nat.le_refl 1
    have hsum : tally (fun i _ => mayWait x i) t.loc ≤ max nP nC := by
      cases x <;> simp [tally, mayWait, Fintype.sum_sum_type]
    omega

/-! ### The main results -/

/-- **A length that is not an `i32`.** With `2 ^ 32` slots `BUFFER_LEN as i32` is `0`: the one
producer and the one consumer are both parked, and nobody is left to post. -/
theorem gets_stuck : ¬ ∀ s, (machine 1 1 (2 ^ 32)).ReachIf Rust.Notified s →
    Rust.CanStep (program 1 1 (2 ^ 32)) (initSemaphores (2 ^ 32)) s := by
  intro hall
  obtain ⟨s, hs, hP, hC⟩ : ∃ s, (machine 1 1 (2 ^ 32)).exec (machine 1 1 (2 ^ 32)).init
      (List.replicate 4 (.run (.inl 0) 0) ++ List.replicate 4 (.run (.inr 0) 0)) = some s ∧
      s.place (.inl 0) = .wait .semEmpty .waitEmpty .lockProducer .parked ∧
      s.place (.inr 0) = .wait .semFull .waitFull .lockConsumer .parked :=
    ⟨_, rfl, rfl, rfl⟩
  have hr : (machine 1 1 (2 ^ 32)).ReachIf Rust.Notified s := by
    refine Machine.ReachIf.exec .init _ (fun a ha s j => ?_) hs
    rcases List.mem_append.mp ha with ha | ha <;> rw [List.eq_of_mem_replicate ha] <;> simp
  refine Rust.not_canStep_of_parked ?_ (hall s hr)
  rintro (i | i)
  · rw [Subsingleton.elim i 0]
    exact ⟨_, _, _, hP⟩
  · rw [Subsingleton.elim i 0]
    exact ⟨_, _, _, hC⟩

/-- **The warehouse is a bounded FIFO.** In every state reached without spurious wake-ups `add`
meets a slot that is not taken, `remove` meets a taken slot, the items removed are a prefix of the
items added, none is `Item::Other`, and the buffer never holds more than its length; formatting
the buffer changes none of the taken slots. If `BUFFER_LEN as i32` is positive, there are
producers and consumers and their numbers are `i32`s, then some thread can take a step. -/
theorem bounded_fifo {s : Rust.State (Fin nP ⊕ Fin nC) Sem (Store N) Loc}
    (h : (machine nP nC N).ReachIf Rust.Notified s) :
    (∀ i item, s.place i = .out (.setTaken item) →
        ∀ x, s.data.buffer.sloths s.data.buffer.producerIdx ≠ .Taken x) ∧
      (∀ i, s.place i = .out .getItem →
        ∃ x, s.data.buffer.sloths s.data.buffer.consumerIdx = .Taken x ∧ x ≠ .Other) ∧
      s.data.removed <+: s.data.added ∧
      (∀ x ∈ s.data.removed, x ≠ .Other) ∧
      s.data.added.length ≤ s.data.removed.length + N ∧
      (∀ i j x, (s.data.buffer.fmtSloth i).1.sloths j = .Taken x ↔
        s.data.buffer.sloths j = .Taken x) ∧
      (0 < asI32 N → 1 ≤ nP → 1 ≤ nC → nP < 2 ^ 31 → nC < 2 ^ 31 →
        Rust.CanStep (program nP nC N) (initSemaphores N) s) := by
  have hideal : (idealMachine nP nC N).Reach (Rust.ideal (initSemaphores N) s) :=
    Rust.ideal_reach h
  have hloc : ∀ i l, s.place i = .out l → (Rust.ideal (initSemaphores N) s).loc i = l :=
    fun i l hi => Rust.ideal_loc_of_out hi
  refine ⟨fun i item hi x hx => ?_, fun i hi => ?_, (history hideal).1, (history hideal).2, ?_,
    fun i j x => ?_, fun hpos hP hC hP' hC' => ?_⟩
  · have hnone := add_meets hideal (hloc i _ hi)
    have hx' : (s.data.buffer.sloths s.data.buffer.producerIdx).taken = some x := by
      rw [hx]
      rfl
    rw [show (s.data.buffer.sloths s.data.buffer.producerIdx).taken = none from hnone] at hx'
    cases hx'
  · exact remove_meets hideal (hloc i _ hi)
  · have hle : s.data.added.length ≤
        s.data.removed.length + Rust.idealStart (initSemaphores N) .semEmpty :=
      (bufferProtocol.removes_le_adds_le retries rfl hideal).2
    exact hle.trans (Nat.add_le_add_left start_le _)
  · have htaken : ∀ y : Sloth, y = .Taken x ↔ y.taken = some x := fun y => by
      cases y <;> simp [Sloth.taken]
    rw [htaken, htaken, fmtSloth_taken]
  · refine Rust.canStep_of_ideal (inRange hpos hP' hC')
      (fun t ht _ => exists_enabled hpos hP hC ht) h ⟨.inl ⟨0, hP⟩, fun l _ => (code_total _ l).1⟩

/-- One slot. Both consumers have been parked, the first producer has added an item and woken one of
them, which has removed it; the other consumer and the second producer are parked. -/
theorem bounded_fifo_parked : ∃ s : Rust.State (Fin 2 ⊕ Fin 2) Sem (Store 1) Loc,
    (machine 2 2 1).ReachIf Rust.Notified s ∧
      s.place (.inr 1) = .wait .semFull .waitFull .lockConsumer .parked ∧
      s.place (.inl 1) = .wait .semEmpty .waitEmpty .lockProducer .parked ∧
      s.data.removed.length = 1 ∧ s.data.removed <+: s.data.added ∧
      (∀ x ∈ s.data.removed, x ≠ .Other) ∧ s.data.added.length ≤ s.data.removed.length + 1 ∧
      Rust.CanStep (program 2 2 1) (initSemaphores 1) s := by
  have hrun : ∃ (as : List (Rust.Label (Fin 2 ⊕ Fin 2) ℕ)) (s : _),
      (∀ j, Rust.Label.spurious j ∉ as) ∧
      (machine 2 2 1).exec (machine 2 2 1).init as = some s ∧
      s.place (.inr 1) = .wait .semFull .waitFull .lockConsumer .parked ∧
      s.place (.inl 1) = .wait .semEmpty .waitEmpty .lockProducer .parked ∧
      s.data.removed.length = 1 :=
    ⟨List.replicate 4 (.run (.inr 0) 0) ++ List.replicate 4 (.run (.inr 1) 0) ++
      List.replicate 15 (.run (.inl 0) 0) ++ [.notify (.inl 0) (.inr 0), .run (.inl 0) 0] ++
      List.replicate 5 (.run (.inr 0) 0) ++ List.replicate 4 (.run (.inl 1) 0),
      _, by simp, rfl, rfl, rfl, rfl⟩
  obtain ⟨as, s, hno, hexec, hC, hP, hlen⟩ := hrun
  have hr : (machine 2 2 1).ReachIf Rust.Notified s :=
    Machine.ReachIf.exec .init as (fun a ha s j heq => hno j (heq ▸ ha)) hexec
  obtain ⟨-, -, hpre, hother, hle, -, hcan⟩ := bounded_fifo hr
  exact ⟨s, hr, hC, hP, hlen, hpre, hother, hle,
    hcan (by decide) (by decide) (by decide) (by decide) (by decide)⟩

end RustWarehouse

end PosixIntro
