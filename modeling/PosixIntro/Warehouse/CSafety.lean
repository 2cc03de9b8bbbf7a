import PosixIntro.Warehouse.CModel

set_option relaxedAutoImplicit false
set_option autoImplicit false

/-!
# The C warehouse is a bounded FIFO and never deadlocks

`sem_lock` protects the buffer and the two indices, so inside it the buffer can be described phase
by phase: which slots are taken, which one is being filled or marked, and up to which slot
`print_buffer` has cleared the marks. The other two semaphores follow the bounded-buffer protocol.

## Main definitions

* `Stock` — what the buffer looks like while the items `q` wait in it.
* `Holds` — what holds in each phase of the region that `sem_lock` protects.
* `InFlight` — between the first wait of a round and its last post.

## Main results

* `fifo` — the items removed are the first ones of the items added, and the taken slots are the
  waiting items.
* `never_deadlocks` — some thread can move in every reachable state.
-/

namespace PosixIntro

namespace CWarehouse

variable {nP nC N : ℕ} [NeZero N]

/-! ### The buffer as a queue -/

/-- The buffer holds the queue `q`: `q` is what was added and not yet removed, it fits, `p` is
the first place behind it, and the slots show the circular window that starts at `c`. From slot
`k` on, slots outside the window may still carry the mark `-1` that `print_buffer` clears. -/
structure Stock (p c : Fin N) (k : ℕ) (buffer : Fin N → ℤ) (added removed q : List ℤ) :
    Prop where
  history : added = removed ++ q
  room : q.length ≤ N
  items : ∀ x ∈ added, 1 ≤ x ∧ x ≤ 9
  index : p = Ring.place c q.length
  slots : ∀ i, buffer i = (Ring.slot q c i).getD 0 ∨
    (k ≤ i ∧ buffer i = -1 ∧ Ring.slot q c i = none)

namespace Stock

variable {p c : Fin N} {k : ℕ} {buffer : Fin N → ℤ} {added removed q : List ℤ}

/-- Fewer slots known to be exact. -/
lemma mono {k' : ℕ} (h : Stock p c k buffer added removed q) (hk : k' ≤ k) :
    Stock p c k' buffer added removed q :=
  { h with slots := fun i => (h.slots i).imp_right fun ⟨h₁, h₂⟩ => ⟨hk.trans h₁, h₂⟩ }

/-- With `k = N` every slot is exact. -/
lemma slot_eq (h : Stock p c N buffer added removed q) (i : Fin N) :
    buffer i = (Ring.slot q c i).getD 0 := by
  rcases h.slots i with h | ⟨h, -⟩
  · exact h
  · exact absurd i.isLt (by omega)

/-- The items in the queue are items that were added. -/
lemma mem_added (h : Stock p c k buffer added removed q) {x : ℤ} (hx : x ∈ q) : x ∈ added := by
  rw [h.history]
  exact List.mem_append_right _ hx

/-- Storing an item behind the window. -/
lemma store (h : Stock p c N buffer added removed q) (hroom : q.length < N) {item : ℤ}
    (hitem : 1 ≤ item ∧ item ≤ 9) :
    Stock (Ring.next p) c N (Function.update buffer p item) (added ++ [item]) removed
      (q ++ [item]) where
  history := by rw [h.history, List.append_assoc]
  room := by rwa [List.length_append, List.length_singleton]
  items := List.forall_mem_append.mpr ⟨h.items, List.forall_mem_singleton.mpr hitem⟩
  index := by rw [h.index, Ring.next_place, List.length_append, List.length_singleton]
  slots i := by
    left
    rw [Ring.slot_append q item c i hroom, ← h.index]
    by_cases hi : i = p
    · simp [hi]
    · simp [hi, h.slot_eq i]

/-- The start of a nonempty window holds the first item. -/
lemma head (h : Stock p c N buffer added removed q) (hne : q ≠ []) :
    ∃ q', q = buffer c :: q' := by
  obtain ⟨x, q', rfl⟩ := List.exists_cons_of_ne_nil hne
  have := h.slot_eq c
  rw [Ring.slot_self] at this
  exact ⟨q', by simp [this]⟩

/-- Marking the start of the window as removed. -/
lemma mark {item : ℤ} (h : Stock p c N buffer added removed (item :: q)) :
    Stock p (Ring.next c) 0 (Function.update buffer c (-1)) added (removed ++ [item]) q where
  history := by rw [h.history, List.append_assoc, List.singleton_append]
  room := by have := h.room; simp at this; omega
  items := h.items
  index := by rw [h.index, Ring.place_next, List.length_cons]
  slots i := by
    by_cases hi : i = c
    · right
      have hroom := h.room
      rw [List.length_cons] at hroom
      rw [hi, Ring.slot_next_self q c (by omega)]
      simp
    · left
      rw [Function.update_of_ne hi, Ring.slot_cons item q hi, h.slot_eq i]

/-- **One round of `print_buffer`** makes one more slot exact: a slot marked `-1` is outside the
window, because every item in the window is positive. -/
lemma clear {i : Fin N} (h : Stock p c i buffer added removed q) :
    Stock p c (i + 1) (if buffer i = -1 then Function.update buffer i 0 else buffer) added removed
      q := by
  refine { h with slots := fun j => ?_ }
  by_cases hj : j = i
  · subst hj
    left
    rcases h.slots j with hs | ⟨-, hm, hn⟩
    · have hne : buffer j ≠ -1 := by
        intro hm
        cases hsl : Ring.slot q c j with
        | none => simp [hs, hsl] at hm
        | some x =>
          have := h.items x (h.mem_added (List.mem_of_getElem? hsl))
          simp [hs, hsl] at hm
          omega
      rw [if_neg hne, hs]
    · simp [hm, hn]
  · have hsame : (if buffer i = -1 then Function.update buffer i 0 else buffer) j = buffer j := by
      split_ifs
      · exact Function.update_of_ne hj _ _
      · rfl
    rw [hsame]
    refine (h.slots j).imp_right fun ⟨h₁, h₂⟩ => ⟨?_, h₂⟩
    have : (j : ℕ) ≠ i := fun he => hj (Fin.ext he)
    omega

/-- The non-zero slots are the circular window. -/
lemma ne_zero_iff (h : Stock p c N buffer added removed q) (i : Fin N) :
    buffer i ≠ 0 ↔ ∃ k < q.length, i = Ring.place c k := by
  rw [h.slot_eq]
  constructor
  · intro hne
    refine ⟨Ring.offset c i, ?_, (Ring.place_offset c i).symm⟩
    rw [← Ring.slot_isSome_iff]
    cases hsl : Ring.slot q c i with
    | none => simp [hsl] at hne
    | some x => rfl
  · rintro ⟨k, hk, rfl⟩
    have hitem := h.items _ (h.mem_added (List.getElem_mem hk))
    rw [Ring.slot_place q c (hk.trans_le h.room), List.getElem?_eq_getElem hk, Option.getD_some]
    omega

end Stock

/-- What a thread may rely on in each phase of the critical section, and what holds while
`sem_lock` is free. -/
def Holds : Option Phase → Store N → Prop
  | none, w | some .exact, w =>
    ∃ q, Stock w.producerIdxBuff w.consumerIdxBuff N w.buffer w.added w.removed q
  | some .stored, w =>
    ∃ q, Stock (Ring.next w.producerIdxBuff) w.consumerIdxBuff N w.buffer w.added w.removed q
  | some (.read item), w =>
    ∃ q, Stock w.producerIdxBuff w.consumerIdxBuff N w.buffer w.added w.removed (item :: q)
  | some .marked, w =>
    ∃ q, Stock w.producerIdxBuff (Ring.next w.consumerIdxBuff) 0 w.buffer w.added w.removed q
  | some (.printing k), w =>
    ∃ q, Stock w.producerIdxBuff w.consumerIdxBuff k w.buffer w.added w.removed q

omit [NeZero N] in
lemma buffer_printSlot (w : Store N) (i : Fin N) : (w.printSlot i).buffer =
    if w.buffer i = -1 then Function.update w.buffer i 0 else w.buffer := by
  unfold Store.printSlot
  split_ifs with h₁ h₂
  · rw [h₁] at h₂; cases h₂
  · rfl
  · rfl
  · rfl

omit [NeZero N] in
lemma producerIdxBuff_printSlot (w : Store N) (i : Fin N) :
    (w.printSlot i).producerIdxBuff = w.producerIdxBuff := by
  unfold Store.printSlot
  split_ifs <;> rfl

omit [NeZero N] in
lemma consumerIdxBuff_printSlot (w : Store N) (i : Fin N) :
    (w.printSlot i).consumerIdxBuff = w.consumerIdxBuff := by
  unfold Store.printSlot
  split_ifs <;> rfl

/-- The items producers carry are the ones `produce` makes. -/
def Carries (_ : Fin nP ⊕ Fin nC) : Loc → Prop
  | .waitEmpty item | .lockProducer item | .storeItem item => 1 ≤ item ∧ item ≤ 9
  | _ => True

/-- `produce` makes items from `1` to `9`. -/
lemma produce_mem (rand : ℕ) : 1 ≤ produce rand ∧ produce rand ≤ 9 := by
  unfold produce
  omega

/-- Every producer carries an item from `1` to `9`. -/
lemma carries {s : Config (Fin nP ⊕ Fin nC) Sem (Store N) Loc} (h : (machine nP nC N).Reach s)
    (i : Fin nP ⊕ Fin nC) : Carries i (s.loc i) := by
  refine Program.loc_invariant retries Carries (fun i => by cases i <;> trivial) ?_ ?_ ?_ h i
  · intro i l x next intr hst hl
    rcases code_wait hst with ⟨-, ⟨_, rfl, rfl, rfl⟩ | ⟨_, rfl, rfl, rfl⟩ | ⟨rfl, rfl, rfl⟩ |
      ⟨rfl, rfl, rfl⟩⟩ <;> exact hl
  · intro i l x next hst hl
    rcases code_post hst with ⟨rfl, rfl, rfl⟩ | ⟨rfl, rfl, rfl⟩ | ⟨_, rfl, rfl, rfl⟩ |
      ⟨_, rfl, rfl, rfl⟩ <;> trivial
  · intro i l f c d d' l' hst hf hl
    cases move_of_act hst hf with
    | produce rand => exact produce_mem rand
    | _ => trivial

/-- Each move takes what holds in its phase to what holds in the next one, if a thread that is
about to store finds room and a thread that is about to remove finds an item. -/
lemma Move.holds {i : Fin nP ⊕ Fin nC} {l l' : Loc} {w w' : Store N} (hm : Move i l w l' w')
    (hroom : holding l = .space → w.added.length < w.removed.length + N)
    (hitem : holding l = .item → w.removed.length < w.added.length) (hc : Carries i l)
    (h : Holds (phase l) w) : Holds (phase l') w' := by
  cases hm with
  | produce | consume => exact h
  | storeItem item w =>
    obtain ⟨q, hq⟩ := h
    have hlt := hroom rfl
    rw [hq.history, List.length_append] at hlt
    exact ⟨q ++ [item], hq.store (by omega) hc⟩
  | advanceProducer item w =>
    obtain ⟨q, hq⟩ := h
    exact ⟨q, hq.mono (Nat.zero_le _)⟩
  | readItem w =>
    obtain ⟨q, hq⟩ := h
    have hlt := hitem rfl
    rw [hq.history, List.length_append] at hlt
    obtain ⟨q', rfl⟩ := hq.head (List.ne_nil_of_length_pos (by omega))
    exact ⟨q', hq⟩
  | markSlot item w =>
    obtain ⟨q, hq⟩ := h
    exact ⟨q, hq.mark⟩
  | advanceConsumer item w => exact h
  | printOpen r item w => exact h
  | printSlot r item k w =>
    obtain ⟨q, hq⟩ := h
    refine ⟨q, ?_⟩
    rw [buffer_printSlot, producerIdxBuff_printSlot, consumerIdxBuff_printSlot,
      added_printSlot, removed_printSlot]
    exact hq.clear
  | printClose r item k w hk =>
    obtain ⟨q, hq⟩ := h
    exact ⟨q, hq.mono hk⟩
  | reportAdd item w => exact h
  | reportRemove item w => exact h

/-- **The warehouse invariant**: whoever holds `sem_lock` finds the buffer as its phase says, and
while `sem_lock` is free the buffer is an exact circular window. -/
lemma owned {s : Config (Fin nP ⊕ Fin nC) Sem (Store N) Loc}
    (h : (machine nP nC N).Reach s) : Program.Owned phase Holds s.data s.loc := by
  refine Program.owner_invariant retries phase Holds
    (fun s hs => lockProtocol.exclusive retries rfl hs) (fun i => by cases i <;> rfl) ?_ ?_ ?_ ?_ ?_
    (fun d d' φ hd => by simp [program] at hd) h
  · exact ⟨[], rfl, Nat.zero_le _, by simp [program], by simp [program], fun i => .inl rfl⟩
  · intro i l x next intr d hst hK
    rcases code_wait hst with ⟨-, ⟨_, rfl, rfl, rfl⟩ | ⟨_, rfl, rfl, rfl⟩ | ⟨rfl, rfl, rfl⟩ |
      ⟨rfl, rfl, rfl⟩⟩ <;> exact hK
  · intro i l x next d hst hK
    rcases code_post hst with ⟨rfl, rfl, rfl⟩ | ⟨rfl, rfl, rfl⟩ | ⟨_, rfl, rfl, rfl⟩ |
      ⟨_, rfl, rfl, rfl⟩ <;> exact hK
  · rintro s i l f c d l' hr - rfl hst hf hK
    exact (move_of_act hst hf).holds
      (fun hh => bufferProtocol.adds_lt_capacity retries hr hh)
      (fun hh => bufferProtocol.removes_lt_adds retries rfl hr hh) (carries hr i) hK
  · intro i l f c d d' l' hst hf hl hl' φ hK
    cases move_of_act hst hf with
    | produce => exact hK
    | consume => rcases φ with _ | φ | _ | _ | _ | _ <;> exact hK
    | _ => simp [phase] at hl hl'

/-- While `sem_lock` is free the buffer is an exact circular window. -/
lemma stock_of_free {s : Config (Fin nP ⊕ Fin nC) Sem (Store N) Loc}
    (h : (machine nP nC N).Reach s) (hfree : 0 < s.sem .semLock) :
    ∃ q, Stock s.data.producerIdxBuff s.data.consumerIdxBuff N s.data.buffer s.data.added
      s.data.removed q :=
  (owned h).2 ((lockProtocol.free_iff retries rfl h).mp hfree)

/-- In every phase the items taken out are the first ones put in, and all are from `1` to `9`. -/
lemma history {s : Config (Fin nP ⊕ Fin nC) Sem (Store N) Loc} (h : (machine nP nC N).Reach s) :
    (∃ q, s.data.added = s.data.removed ++ q) ∧ ∀ x ∈ s.data.added, 1 ≤ x ∧ x ≤ 9 := by
  have hall : ∀ φ, Holds φ s.data → (∃ q, s.data.added = s.data.removed ++ q) ∧
      ∀ x ∈ s.data.added, 1 ≤ x ∧ x ≤ 9 := by
    intro φ hφ
    rcases φ with _ | φ | _ | item | _ | k
    case some.read =>
      obtain ⟨q, hq⟩ := hφ
      exact ⟨⟨item :: q, hq.history⟩, hq.items⟩
    all_goals
      obtain ⟨q, hq⟩ := hφ
      exact ⟨⟨q, hq.history⟩, hq.items⟩
  by_cases hin : ∀ i, phase (s.loc i) = none
  · exact hall none ((owned h).2 hin)
  · obtain ⟨i, hi⟩ := not_forall.mp hin
    obtain ⟨φ, hφ⟩ := Option.ne_none_iff_exists'.mp hi
    exact hall (some φ) ((owned h).1 i φ hφ)

/-! ### The main results -/

/-- **No item is lost, duplicated or reordered.** In every reachable state the items returned by
`remove_from_buffer` are a prefix of the items passed to `add_to_buffer`, between `0` and
`BUFFER_LEN` items are in the buffer, no item returned is `0` or `-1`, and while `sem_lock` is
free the non-zero slots are exactly the circular window from `consumer_idx_buff` on, holding the
items added and not yet removed in order. -/
theorem fifo {s : Config (Fin nP ⊕ Fin nC) Sem (Store N) Loc} (h : (machine nP nC N).Reach s) :
    s.data.removed <+: s.data.added ∧
      s.data.removed.length ≤ s.data.added.length ∧
      s.data.added.length ≤ s.data.removed.length + N ∧
      (∀ item ∈ s.data.removed, item ≠ 0 ∧ item ≠ -1) ∧
      (0 < s.sem .semLock →
        (∀ i, s.data.buffer i ≠ 0 ↔ ∃ k < s.data.added.length - s.data.removed.length,
          i = Ring.place s.data.consumerIdxBuff k) ∧
        ∀ k < s.data.added.length - s.data.removed.length,
          (s.data.added.drop s.data.removed.length)[k]? =
            some (s.data.buffer (Ring.place s.data.consumerIdxBuff k))) := by
  obtain ⟨⟨q, hq⟩, hitems⟩ := history h
  obtain ⟨hle, hroom⟩ := bufferProtocol.removes_le_adds_le retries rfl h
  refine ⟨⟨q, hq.symm⟩, hle, hroom, fun x hx => ?_, fun hfree => ?_⟩
  · have := hitems x (by rw [hq]; exact List.mem_append_left _ hx)
    omega
  · obtain ⟨q', hq'⟩ := stock_of_free h hfree
    obtain rfl : q' = q := List.append_cancel_left (hq'.history.symm.trans hq)
    have hlen : s.data.added.length - s.data.removed.length = q'.length := by
      rw [hq, List.length_append]
      omega
    have hdrop : s.data.added.drop s.data.removed.length = q' := by rw [hq]; simp
    rw [hlen, hdrop]
    refine ⟨hq'.ne_zero_iff, fun k hk => ?_⟩
    · have hkN : k < N := hk.trans_le hq'.room
      rw [hq'.slot_eq, Ring.slot_place _ _ hkN, List.getElem?_eq_getElem hk]
      rfl

/-- A producer stores a pair of shoes in a warehouse of two slots, interrupted once. -/
theorem fifo_shoes : ∃ s : Config (Fin 1 ⊕ Fin 1) Sem (Store 2) Loc,
    (machine 1 1 2).Reach s ∧ s.data.added = [5] ∧ 0 < s.sem .semLock ∧
      (∀ i, s.data.buffer i ≠ 0 ↔ ∃ k < s.data.added.length - s.data.removed.length,
        i = Ring.place s.data.consumerIdxBuff k) := by
  obtain ⟨s, hs, hadd, hlock⟩ : ∃ s : Config (Fin 1 ⊕ Fin 1) Sem (Store 2) Loc,
      (machine 1 1 2).exec (machine 1 1 2).init
        ([.run (.inl 0) 4, .eintr (.inl 0), .eintr (.inr 0)] ++
          List.replicate 10 (.run (.inl 0) 0)) = some s ∧
        s.data.added = [5] ∧ 0 < s.sem .semLock :=
    ⟨_, rfl, rfl, by decide⟩
  have hr := Machine.reach_of_exec hs
  exact ⟨s, hr, hadd, hlock, ((fifo hr).2.2.2.2 hlock).1⟩

/-- The program points after a thread's first wait and up to its last post. -/
def InFlight : Loc → Bool
  | .produce | .waitEmpty _ | .waitFull | .consume _ => false
  | _ => true

/-- The program points of `producer` and of `consumer`. -/
def Runs : Fin nP ⊕ Fin nC → Loc → Prop
  | .inl _ => fun l => match l with
    | .produce | .waitEmpty _ | .lockProducer _ | .storeItem _ | .advanceProducer _
    | .unlockProducer | .postFull | .printOpen .producer _ | .printSlot .producer _ _
    | .report .producer _ => True
    | _ => False
  | .inr _ => fun l => match l with
    | .waitFull | .lockConsumer | .readItem | .markSlot _ | .advanceConsumer _
    | .unlockConsumer _ | .postEmpty _ | .consume _ | .printOpen .consumer _
    | .printSlot .consumer _ _ | .report .consumer _ => True
    | _ => False

/-- Producers run `producer` and consumers run `consumer`. -/
lemma runs {s : Config (Fin nP ⊕ Fin nC) Sem (Store N) Loc} (h : (machine nP nC N).Reach s)
    (i : Fin nP ⊕ Fin nC) : Runs i (s.loc i) := by
  refine Program.loc_invariant retries Runs (fun i => by cases i <;> trivial) ?_ ?_ ?_ h i
  · intro i l x next intr hst hl
    rcases code_wait hst with ⟨-, ⟨_, rfl, rfl, rfl⟩ | ⟨_, rfl, rfl, rfl⟩ | ⟨rfl, rfl, rfl⟩ |
      ⟨rfl, rfl, rfl⟩⟩ <;> cases i <;> exact hl
  · intro i l x next hst hl
    rcases code_post hst with ⟨rfl, rfl, rfl⟩ | ⟨rfl, rfl, rfl⟩ | ⟨_, rfl, rfl, rfl⟩ |
      ⟨_, rfl, rfl, rfl⟩ <;> cases i <;> exact hl
  · intro i l f c d d' l' hst hf hl
    cases move_of_act hst hf with
    | printOpen r | printSlot r | printClose r => cases i <;> cases r <;> exact hl
    | _ => cases i <;> exact hl

/-- No statement other than `rk_sema_wait` blocks, and no thread ever returns. -/
lemma code_total (i : Fin nP ⊕ Fin nC) (l : Loc) : (program nP nC N).code i l ≠ none ∧
    ∀ f d, (program nP nC N).code i l = some (.act f) → ∃ c r, f c d = some r := by
  cases l with
  | printSlot r item k =>
    simp only [program, code, Stmt.update]
    split <;> exact ⟨by simp, fun f d h => ⟨0, by simp at h; subst h; simp⟩⟩
  | _ =>
    simp only [program, code, Stmt.update, rkSemaWait, rkSemaPost]
    exact ⟨by simp, fun f d h => ⟨0, by simp at h; try (subst h; simp)⟩⟩

/-- The threads in flight are the ones that hold a unit. -/
lemma units_holding (l : Loc) : (holding l).units = if InFlight l then 1 else 0 := by
  cases l with
  | printOpen r | printSlot r | report r => cases r <;> rfl
  | _ => rfl

/-- When no thread can move, the producers wait for a free place and the consumers for an item,
and nobody holds a unit. -/
lemma waits_of_stuck {s : Config (Fin nP ⊕ Fin nC) Sem (Store N) Loc}
    (h : (machine nP nC N).Reach s) (hno : (program nP nC N).Stuck s) (i : Fin nP ⊕ Fin nC) :
    holding (s.loc i) = .nothing ∧
      s.sem (match i with | .inl _ => .semEmpty | .inr _ => .semFull) = 0 := by
  have hidle : holding (s.loc i) = .nothing := by
    by_contra hne
    obtain ⟨j, hj⟩ := exists_enabled_of_holding bufferProtocol lockProtocol retries rfl
      (fun x => by cases x <;> simp [bufferProtocol, lockProtocol])
      (fun j l f d hc => (code_total j l).2 f d hc)
      (fun j l hc => absurd hc (code_total j l).1) h hne
    exact hno j hj
  refine ⟨hidle, ?_⟩
  have hruns := runs h i
  rcases Program.returned_or_waiting (fun f hc => (code_total i _).2 f _ hc) (hno i) with
    hc | ⟨x, next, intr, hc, hx⟩
  · exact absurd hc (code_total i _).1
  · rcases code_wait hc with ⟨-, ⟨_, hl, rfl, -⟩ | ⟨_, hl, rfl, -⟩ | ⟨hl, rfl, -⟩ |
      ⟨hl, rfl, -⟩⟩ <;> rw [hl] at hidle hruns
    · cases i with
      | inl i => exact hx
      | inr i => exact hruns.elim
    · cases hidle
    · cases i with
      | inl i => exact hruns.elim
      | inr i => exact hx
    · cases hidle

/-- **The warehouse never deadlocks.** With at least one producer and one consumer some thread
can move in every reachable state; at most one thread is between wait and post of `sem_lock`; and
`sem_full`, `sem_empty` and the threads between their first wait and their last post account for
`BUFFER_LEN`. -/
theorem never_deadlocks (hP : 1 ≤ nP) (hC : 1 ≤ nC)
    {s : Config (Fin nP ⊕ Fin nC) Sem (Store N) Loc} (h : (machine nP nC N).Reach s) :
    (∃ i, (program nP nC N).Enabled i s) ∧
      (∀ i j, phase (s.loc i) ≠ none → phase (s.loc j) ≠ none → i = j) ∧
      s.sem .semFull + s.sem .semEmpty +
        (Finset.univ.filter fun i => InFlight (s.loc i)).card = N := by
  refine ⟨?_, lockProtocol.exclusive retries rfl h, ?_⟩
  · by_contra hno
    have hstuck : (program nP nC N).Stuck s := fun i hi => hno ⟨i, hi⟩
    have hempty := (waits_of_stuck h hstuck (.inl ⟨0, hP⟩)).2
    have hfull := (waits_of_stuck h hstuck (.inr ⟨0, hC⟩)).2
    have hsum : s.sem .semFull + s.sem .semEmpty = N :=
      bufferProtocol.full_add_empty_of_idle retries rfl h fun i => (waits_of_stuck h hstuck i).1
    have := NeZero.ne N
    simp only at hempty hfull
    omega
  · have hb := bufferProtocol.full_add_empty retries rfl h
    rw [Finset.card_filter]
    simpa only [tally, bufferProtocol, units_holding, initSemaphores] using hb

/-- One slot, which the first producer has filled: both producers wait for a free place. -/
theorem never_deadlocks_full : ∃ s : Config (Fin 2 ⊕ Fin 1) Sem (Store 1) Loc,
    (machine 2 1 1).Reach s ∧ s.data.added = [5] ∧ s.sem .semEmpty = 0 ∧
      (∃ item, s.loc (.inl 0) = .waitEmpty item) ∧ (∃ item, s.loc (.inl 1) = .waitEmpty item) ∧
      (∃ i, (program 2 1 1).Enabled i s) ∧
      (∀ i j, phase (s.loc i) ≠ none → phase (s.loc j) ≠ none → i = j) ∧
      s.sem .semFull + s.sem .semEmpty +
        (Finset.univ.filter fun i => InFlight (s.loc i)).card = 1 := by
  have hrun : ∃ s : Config (Fin 2 ⊕ Fin 1) Sem (Store 1) Loc,
      (machine 2 1 1).exec (machine 2 1 1).init
        (List.replicate 12 (.run (.inl 0) 4) ++ [.run (.inl 1) 4]) = some s ∧
        s.data.added = [5] ∧ s.sem .semEmpty = 0 ∧
        (∃ item, s.loc (.inl 0) = .waitEmpty item) ∧ ∃ item, s.loc (.inl 1) = .waitEmpty item :=
    ⟨_, rfl, rfl, rfl, ⟨_, rfl⟩, ⟨_, rfl⟩⟩
  obtain ⟨s, hexec, hadd, hempty, h₀, h₁⟩ := hrun
  have hr := Machine.reach_of_exec hexec
  exact ⟨s, hr, hadd, hempty, h₀, h₁, never_deadlocks (by decide) (by decide) hr⟩

end CWarehouse

end PosixIntro
