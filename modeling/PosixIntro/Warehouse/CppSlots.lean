import PosixIntro.Warehouse.CppModel

set_option relaxedAutoImplicit false
set_option autoImplicit false

/-!
# When the slot array of the C++ warehouse tells the truth

`consumer` writes `cont` twice: `Slot::RECENTLY` before it advances `consumer_idx`, and
`Slot::EMPTY` after, which therefore goes to the next slot and not to the one removed from. The
array is right exactly in the runs in which that second write changes nothing. With more than one
slot this is so when no item waits and the next slot has never been used.

## Main definitions

* `Truthful` — while `sem_lock` is free the taken slots are the circular window.
* `SparesOthers` — a consumer's step changes no slot but the one it removes from.
* `LastItem` — a consumer has removed the only item, in the first turn through the buffer.

## Main results

* `slots_lie` — a short run of one producer and one consumer leaves a waiting item's slot empty.
* `truthful_iff` — a run is truthful and spares other slots throughout iff each critical section of
  a consumer removes the last item in the first turn.

## Design

`ClearsEmpty` says that the second write of `consumer` meets an empty slot. It stands between the
two sides of the equivalence.
-/

namespace PosixIntro

namespace CppWarehouse

variable {nP nC N : ℕ} [NeZero N] {mem : Sem → ℕ}

/-- While `sem_lock` is free, the taken slots are the circular window that starts at
`consumer_idx` and is as long as the completed critical sections of producers minus the completed
ones of consumers. -/
def Truthful (s : Config (Fin nP ⊕ Fin nC) Sem (Store N) Loc) : Prop :=
  0 < s.sem .semLock → ∀ i, s.data.cont i = .TAKEN ↔
    ∃ k < s.data.produced - s.data.consumed, i = Ring.place s.data.consumerIdx k

/-- The slot that a consumer's critical section removes from: `consumer_idx` up to the increment,
and the slot before it afterwards. -/
def RemovesFrom (l : Loc) (w : Store N) (j : Fin N) : Prop :=
  match l with
  | .markSlot | .advanceConsumer => j = w.consumerIdx
  | _ => Ring.next j = w.consumerIdx

/-- A step of a consumer changes no slot other than the one it removes from. -/
def SparesOthers (mem : Sem → ℕ) (s : Config (Fin nP ⊕ Fin nC) Sem (Store N) Loc)
    (a : Label (Fin nP ⊕ Fin nC) Unit) : Prop :=
  ∀ i c s', a = .run (.inr i) c → (machine nP nC N mem).step s a = some s' →
    ∀ j, s'.data.cont j ≠ s.data.cont j → RemovesFrom (s.loc (.inr i)) s.data j

/-- When a consumer completes its critical section with `cont[consumer_idx] = Slot::EMPTY`, no item
is left, and fewer items than there are slots have been removed, this one included; or the buffer has
a single slot. -/
def LastItem (s : Config (Fin nP ⊕ Fin nC) Sem (Store N) Loc) :
    Label (Fin nP ⊕ Fin nC) Unit → Prop
  | .run i _ => s.loc i = .clearSlot →
      N = 1 ∨ (s.data.produced = s.data.consumed ∧ s.data.consumed < N)
  | .eintr _ | .signal => True

instance (s : Config (Fin nP ⊕ Fin nC) Sem (Store N) Loc) :
    (a : Label (Fin nP ⊕ Fin nC) Unit) → Decidable (LastItem s a)
  | .run _ _ => inferInstanceAs (Decidable (_ → _ ∨ _ ∧ _))
  | .eintr _ | .signal => isTrue trivial

/-- A step that executes `cont[consumer_idx] = Slot::EMPTY` finds the slot at the advanced
`consumer_idx` empty already, or the buffer has a single slot. -/
def ClearsEmpty (s : Config (Fin nP ⊕ Fin nC) Sem (Store N) Loc)
    (a : Label (Fin nP ⊕ Fin nC) Unit) : Prop :=
  ∀ i c, a = .run i c → s.loc i = .clearSlot →
    N = 1 ∨ s.data.cont s.data.consumerIdx = .EMPTY

/-! ### The indices and the window -/

/-- The indices count the critical sections, `p` those of the producers and `c` those of the
consumers, and the slots that no producer has reached yet are the empty ones. -/
structure Counted (p c : Fin N) (w : Store N) : Prop where
  producer : p = Ring.place 0 w.produced
  consumer : c = Ring.place 0 w.consumed
  order : w.consumed ≤ w.produced
  empty : N ≠ 1 → ∀ i : Fin N, w.cont i = .EMPTY ↔ w.produced ≤ i

/-- The taken slots are the window from `c` on. -/
def Window (c : Fin N) (w : Store N) : Prop :=
  ∀ i, w.cont i = .TAKEN ↔ Ring.offset c i < w.produced - w.consumed

/-- The place that an index counts to is not before the index. -/
lemma place_val_le (k : ℕ) : (Ring.place (0 : Fin N) k : ℕ) ≤ k := by
  simpa [Ring.place] using Nat.mod_le k N

/-- An index that a count has not passed is its own place. -/
lemma place_of_eq {k : ℕ} {i : Fin N} (h : k = i) : Ring.place 0 k = i := by
  subst h
  exact Fin.ext (by simp [Ring.place, Nat.mod_eq_of_lt i.isLt])

section Statements

variable {p c : Fin N} {w : Store N}

/-- The next slot to be taken is the one behind the window. -/
lemma Counted.place_eq (h : Counted p c w) : p = Ring.place c (w.produced - w.consumed) := by
  rw [h.producer, h.consumer, Ring.place_place, Nat.add_sub_cancel' h.order]

/-- The counts and the slots are all that matters. -/
lemma Counted.congr {w' : Store N} (h : Counted p c w) (hp : w'.produced = w.produced)
    (hc : w'.consumed = w.consumed) (hcont : w'.cont = w.cont) : Counted p c w' where
  producer := hp ▸ h.producer
  consumer := hc ▸ h.consumer
  order := by
    rw [hp, hc]
    exact h.order
  empty := by
    rw [hp, hcont]
    exact h.empty

/-- Taking a slot. -/
lemma Counted.takeSlot (h : Counted w.producerIdx c w) :
    Counted (Ring.next w.producerIdx) c w.takeSlot where
  producer := by
    rw [h.producer, Ring.next_place]
    rfl
  consumer := h.consumer
  order := Nat.le_succ_of_le h.order
  empty hN i := by
    have hplace := place_val_le (N := N) w.produced
    rw [← h.producer] at hplace
    by_cases hi : i = w.producerIdx
    · subst hi
      simp only [Store.takeSlot, Function.update_self, reduceCtorEq, false_iff]
      omega
    · have hne : w.produced ≠ i := fun heq => hi ((place_of_eq heq).symm.trans h.producer.symm)
      simp only [Store.takeSlot, Function.update_of_ne hi, h.empty hN i]
      omega

/-- The taken slot joins the window. -/
lemma Window.takeSlot (h : Window c w) (hc : Counted w.producerIdx c w) :
    Window c w.takeSlot := by
  intro i
  have hlen : w.takeSlot.produced - w.takeSlot.consumed = w.produced - w.consumed + 1 :=
    Nat.succ_sub hc.order
  rw [hlen, Ring.offset_lt_succ, ← hc.place_eq, ← h i]
  by_cases hi : i = w.producerIdx
  · simp [Store.takeSlot, hi]
  · simp [Store.takeSlot, hi]

/-- Marking a slot. -/
lemma Counted.markSlot (h : Counted p w.consumerIdx w) (hitem : w.consumed < w.produced) :
    Counted p (Ring.next w.consumerIdx) w.markSlot where
  producer := h.producer
  consumer := by
    rw [h.consumer, Ring.next_place]
    rfl
  order := hitem
  empty hN i := by
    have hplace := place_val_le (N := N) w.consumed
    rw [← h.consumer] at hplace
    by_cases hi : i = w.consumerIdx
    · subst hi
      simp only [Store.markSlot, Function.update_self, reduceCtorEq, false_iff]
      omega
    · simp only [Store.markSlot, Function.update_of_ne hi]
      exact h.empty hN i

/-- The marked slot leaves the window, unless that goes all the way round. -/
lemma Window.markSlot (h : Window w.consumerIdx w) (hitem : w.consumed < w.produced)
    (hroom : w.produced ≤ w.consumed + N) : Window (Ring.next w.consumerIdx) w.markSlot := by
  intro i
  have hlen : w.produced - w.consumed = w.markSlot.produced - w.markSlot.consumed + 1 := by
    simp only [Store.markSlot]
    omega
  have hlt : w.markSlot.produced - w.markSlot.consumed < N := by omega
  rw [Ring.offset_next_lt _ i hlt, ← hlen, ← h i]
  by_cases hi : i = w.consumerIdx
  · simp [Store.markSlot, hi]
  · simp [Store.markSlot, hi]

omit [NeZero N] in
/-- Clearing a slot that is empty changes nothing. -/
lemma clearSlot_of_empty (h : w.cont w.consumerIdx = .EMPTY) : w.clearSlot = w := by
  rw [Store.clearSlot, ← h, Function.update_eq_self]

/-- The only slot is cleared when its item has been removed. -/
lemma Window.clearSlot_one (hN : N = 1) (h : w.produced = w.consumed) :
    Window w.consumerIdx w.clearSlot := by
  subst hN
  intro i
  obtain rfl : i = w.consumerIdx := Subsingleton.elim _ _
  simp [Store.clearSlot, h]

end Statements

/-- What a thread may rely on in each phase of the critical section, and what holds while
`sem_lock` is free. -/
def Holds : Option Phase → Store N → Prop
  | none, w | some .exact, w => Counted w.producerIdx w.consumerIdx w ∧ Window w.consumerIdx w
  | some .taken, w =>
    Counted (Ring.next w.producerIdx) w.consumerIdx w ∧ Window w.consumerIdx w
  | some .marked, w =>
    Counted w.producerIdx (Ring.next w.consumerIdx) w ∧
      (w.produced < w.consumed + N → Window (Ring.next w.consumerIdx) w)
  | some .clearing, w =>
    Counted w.producerIdx w.consumerIdx w ∧
      (w.produced < w.consumed + N → Window w.consumerIdx w)

/-- Each move takes what holds in its phase to what holds in the next one, if a thread that is
about to mark a slot finds an item, and the write of `Slot::EMPTY` meets an empty slot or the only
one, which is free. -/
lemma Move.holds {l l' : Loc} {w w' : Store N} (hm : Move l w l' w')
    (hitem : holding l = .item → w.consumed < w.produced)
    (hone : N = 1 → holding l = .space → w.produced < w.consumed + 1)
    (hclear : l = .clearSlot → N = 1 ∨ w.cont w.consumerIdx = .EMPTY)
    (h : Holds (phase l) w) : Holds (phase l') w' := by
  cases hm with
  | takeSlot => exact ⟨h.1.takeSlot, h.2.takeSlot h.1⟩
  | markSlot =>
    refine ⟨h.1.markSlot (hitem rfl), fun hroom => h.2.markSlot (hitem rfl) ?_⟩
    simp only [Store.markSlot] at hroom
    omega
  | clearSlot =>
    obtain ⟨hc, hw⟩ := h
    by_cases hN : N = 1
    · have hlast : w.produced = w.consumed := by
        have := hone hN rfl
        have := hc.order
        omega
      exact ⟨⟨hc.producer, hc.consumer, hc.order, fun hne => absurd hN hne⟩,
        Window.clearSlot_one hN hlast⟩
    · have hE := (hclear rfl).resolve_left hN
      rw [clearSlot_of_empty hE]
      refine ⟨hc, hw ?_⟩
      have := (hc.empty hN _).mp hE
      have := w.consumerIdx.isLt
      omega
  | printTaken => exact ⟨h.1.congr rfl rfl rfl, h.2⟩
  | advanceProducer => exact ⟨h.1.congr rfl rfl rfl, h.2⟩
  | printMarked => exact ⟨h.1.congr rfl rfl rfl, h.2⟩
  | advanceConsumer => exact ⟨h.1.congr rfl rfl rfl, h.2⟩
  | _ => exact h

/-- **The warehouse invariant**, for the runs in which the write of `Slot::EMPTY` meets an empty
slot. -/
lemma owned {s : Config (Fin nP ⊕ Fin nC) Sem (Store N) Loc}
    (h : (machine nP nC N mem).ReachIf ClearsEmpty s) :
    Program.Owned phase Holds s.data s.loc := by
  refine Program.owner_invariant retries phase Holds
    (fun s hs => lockProtocol.exclusive retries rfl hs.reach) (fun i => by cases i <;> rfl)
    ?_ ?_ ?_ ?_ ?_ ?_ h
  · refine ⟨⟨(Ring.place_zero 0).symm, (Ring.place_zero 0).symm, Nat.le_refl _, fun _ i => ?_⟩,
      fun i => ?_⟩ <;> simp [program]
  · intro i l x next intr d hst hK
    rcases code_wait hst with ⟨-, ⟨rfl, rfl, rfl⟩ | ⟨rfl, rfl, rfl⟩ | ⟨rfl, rfl, rfl⟩ |
      ⟨rfl, rfl, rfl⟩⟩ <;> exact hK
  · intro i l x next d hst hK
    rcases code_post hst with ⟨rfl, rfl, rfl⟩ | ⟨rfl, rfl, rfl⟩ | ⟨rfl, rfl, rfl⟩ |
      ⟨rfl, rfl, rfl⟩ <;> exact hK
  · rintro s i l f c d l' hr hok rfl hst hf hK
    refine (move_of_act hst hf).holds
      (fun hh => bufferProtocol.removes_lt_adds retries rfl hr.reach hh) (fun hN hh => ?_)
      (hok i c rfl) hK
    have hlt := bufferProtocol.adds_lt_capacity retries hr.reach hh
    have hcap : initSemaphores mem N .semEmpty = 1 := by
      rw [initSemaphores_semEmpty (by rw [hN]; decide), hN]
    exact hcap ▸ hlt
  · intro i l f c d d' l' hst hf hl hl' φ hK
    cases move_of_act hst hf <;> first | exact hK | simp [phase] at hl hl'
  · intro d d' φ hd hK
    obtain rfl := by simpa [program] using hd
    rcases φ with _ | _ | _ | _ | _ <;> exact ⟨hK.1.congr rfl rfl rfl, hK.2⟩

/-! ### What the second write meets -/

/-- **The slot that the second write meets.** As long as it has always met an empty slot, it does so
again iff no item is left and the buffer is in its first turn. -/
lemma clearsEmpty_iff {s : Config (Fin nP ⊕ Fin nC) Sem (Store N) Loc}
    (h : (machine nP nC N mem).ReachIf ClearsEmpty s) (a : Label (Fin nP ⊕ Fin nC) Unit) :
    ClearsEmpty s a ↔ LastItem s a := by
  have hiff : ∀ i, s.loc i = .clearSlot → ((N = 1 ∨ s.data.cont s.data.consumerIdx = .EMPTY) ↔
      N = 1 ∨ (s.data.produced = s.data.consumed ∧ s.data.consumed < N)) := by
    intro i hl
    have hc : Counted s.data.producerIdx s.data.consumerIdx s.data :=
      ((owned h).1 i .clearing (by rw [hl]; rfl)).1
    refine or_congr_right' fun hN => ?_
    have hidx : (s.data.consumerIdx : ℕ) = s.data.consumed % N := by
      rw [hc.consumer]
      simp [Ring.place]
    have horder := hc.order
    have hpos : 0 < N := Nat.pos_of_neZero N
    rw [hc.empty hN, hidx]
    constructor
    · intro hle
      have hmod := Nat.mod_le s.data.consumed N
      have heq : s.data.consumed % N = s.data.consumed := by omega
      exact ⟨by omega, heq ▸ Nat.mod_lt _ hpos⟩
    · rintro ⟨heq, hlt⟩
      rw [Nat.mod_eq_of_lt hlt]
      exact heq.le
  cases a with
  | run i c =>
    constructor
    · intro hok hl
      exact (hiff i hl).mp (hok i c rfl hl)
    · intro hok j c' heq hl
      obtain ⟨rfl, -⟩ := Label.run.inj heq
      exact (hiff i hl).mpr (hok hl)
  | eintr i => exact iff_of_true (fun j c heq => by cases heq) trivial
  | signal => exact iff_of_true (fun j c heq => by cases heq) trivial

/-- The same for a whole run. -/
lemma clearsEmpty_path_iff {tr : List (Config (Fin nP ⊕ Fin nC) Sem (Store N) Loc ×
      Label (Fin nP ⊕ Fin nC) Unit)} {s : Config (Fin nP ⊕ Fin nC) Sem (Store N) Loc}
    (h : (machine nP nC N mem).Path tr s) :
    (∀ x ∈ tr, ClearsEmpty x.1 x.2) ↔ ∀ x ∈ tr, LastItem x.1 x.2 := by
  induction h with
  | nil => simp
  | @snoc tr s s' a hp hs ih =>
    rw [List.forall_mem_append, List.forall_mem_append, List.forall_mem_singleton,
      List.forall_mem_singleton, ← ih]
    exact and_congr_right fun hok => clearsEmpty_iff (hp.reachIf hok) a

/-- A run whose steps are all `ClearsEmpty` is truthful. -/
lemma truthful {s : Config (Fin nP ⊕ Fin nC) Sem (Store N) Loc}
    (h : (machine nP nC N mem).ReachIf ClearsEmpty s) : Truthful s := by
  intro hfree i
  have hw := ((owned h).2 ((lockProtocol.free_iff retries rfl h.reach).mp hfree)).2
  rw [hw i, Ring.offset_lt_iff]

/-- A step that is `ClearsEmpty` spares all slots but the one removed from. -/
lemma sparesOthers {s : Config (Fin nP ⊕ Fin nC) Sem (Store N) Loc}
    {a : Label (Fin nP ⊕ Fin nC) Unit} (h : (machine nP nC N mem).Reach s) (hok : ClearsEmpty s a) :
    SparesOthers mem s a := by
  rintro i c s' rfl hs j hj
  obtain ⟨st, sem, d, l, hst, hx, rfl⟩ := Program.step_run_iff.mp hs
  have hruns := runs h (.inr i)
  have hok := hok (.inr i) c rfl
  revert hst hruns hok
  generalize s.loc (.inr i) = l₀
  intro hst hruns hok
  rcases Stmt.exec_cases hx with ⟨x, intr, rfl, -, rfl, -⟩ | ⟨x, rfl, rfl, -⟩ | ⟨f, rfl, hf, -⟩
  · exact absurd rfl hj
  · exact absurd rfl hj
  · cases move_of_act hst hf with
    | takeSlot => exact hruns.elim
    | markSlot =>
      by_contra hne
      exact hj (Function.update_of_ne hne _ _)
    | clearSlot =>
      have hj' : j = s.data.consumerIdx := by
        by_contra hne
        exact hj (Function.update_of_ne hne _ _)
      rcases hok rfl with rfl | hE
      · exact Subsingleton.elim _ _
      · exact absurd (by rw [hj', hE]; exact Function.update_self ..) hj
    | _ => exact absurd rfl hj

/-- A consumer's step that spares all slots but the one removed from is `ClearsEmpty`. -/
lemma clearsEmpty_of_spares {s s' : Config (Fin nP ⊕ Fin nC) Sem (Store N) Loc}
    {a : Label (Fin nP ⊕ Fin nC) Unit} (h : (machine nP nC N mem).Reach s)
    (hs : (machine nP nC N mem).step s a = some s') (hsp : SparesOthers mem s a) :
    ClearsEmpty s a := by
  rintro i c rfl hl
  have hruns := runs h i
  rw [hl] at hruns
  cases i with
  | inl i => exact hruns.elim
  | inr i =>
    by_contra hno
    obtain ⟨hN, hne⟩ := not_or.mp hno
    have hs' : s' = ⟨s.sem, s.data.clearSlot, Function.update s.loc (.inr i) .unlockConsumer⟩ := by
      simpa [machine, Program.machine, program, code, hl, Stmt.update, Stmt.exec] using hs.symm
    have hj := hsp i c s' rfl hs s.data.consumerIdx (by
      rw [hs']
      simpa [Store.clearSlot] using Ne.symm hne)
    rw [hl] at hj
    exact hN ((Ring.next_eq_self_iff _).mp hj)

/-! ### The main results -/

/-- Two slots, one producer that has added twice, one consumer that has removed once: the item
that waits in slot `1` has had its slot overwritten by `Slot::EMPTY`. -/
lemma lying_run : ∃ s : Config (Fin 1 ⊕ Fin 1) Sem (Store 2) Loc,
    (machine 1 1 2 fun _ => 0).Reach s ∧ ¬ Truthful s := by
  obtain ⟨s, hs, hfree, hp, hc, hidx, hcont⟩ :
      ∃ s : Config (Fin 1 ⊕ Fin 1) Sem (Store 2) Loc,
      (machine 1 1 2 fun _ => 0).exec (machine 1 1 2 fun _ => 0).init
        (List.replicate 16 (.run (.inl 0) ()) ++ List.replicate 8 (.run (.inr 0) ())) = some s ∧
        0 < s.sem .semLock ∧ s.data.produced = 2 ∧ s.data.consumed = 1 ∧
        s.data.consumerIdx = 1 ∧ s.data.cont 1 = .EMPTY :=
    ⟨_, rfl, by decide, rfl, rfl, rfl, rfl⟩
  refine ⟨s, Machine.reach_of_exec hs, fun ht => ?_⟩
  have htaken := (ht hfree 1).mpr ⟨0, by omega, by rw [hidx, Ring.place_zero]⟩
  rw [hcont] at htaken
  cases htaken

/-- **The array lies**: not every reachable state is truthful. -/
theorem slots_lie : ¬ ∀ s : Config (Fin 1 ⊕ Fin 1) Sem (Store 2) Loc,
    (machine 1 1 2 fun _ => 0).Reach s → Truthful s := by
  intro hall
  obtain ⟨s, hs, hlie⟩ := lying_run
  exact hlie (hall s hs)

/-- **When the slot array tells the truth**, for every length and whatever the memory of the
semaphores held. Every state of a run is truthful and every consumer's step spares all slots but
the one it removes from iff each critical section of a consumer removes the only item there is,
before as many items as there are slots have been removed; or there is only one slot. -/
theorem truthful_iff {tr : List (Config (Fin nP ⊕ Fin nC) Sem (Store N) Loc ×
      Label (Fin nP ⊕ Fin nC) Unit)} {s : Config (Fin nP ⊕ Fin nC) Sem (Store N) Loc}
    (h : (machine nP nC N mem).Path tr s) :
    ((∀ x ∈ tr, Truthful x.1 ∧ SparesOthers mem x.1 x.2) ∧ Truthful s) ↔
      ∀ x ∈ tr, LastItem x.1 x.2 := by
  rw [← clearsEmpty_path_iff h]
  constructor
  · rintro ⟨hall, -⟩ x hx
    obtain ⟨hr, s', hs⟩ := h.mem_reach x hx
    exact clearsEmpty_of_spares hr hs (hall x hx).2
  · intro hok
    refine ⟨fun x hx => ?_, truthful (h.reachIf hok)⟩
    have hr := (h.mem_step hok x hx).1
    exact ⟨truthful hr, sparesOthers hr.reach (hok x hx)⟩

/-- Two slots: one item is added and removed again, truthfully; and a lying run contains a critical
section of a consumer that leaves an item behind. -/
theorem truthful_iff_two_slots :
    (∃ (tr : List (Config (Fin 1 ⊕ Fin 1) Sem (Store 2) Loc × Label (Fin 1 ⊕ Fin 1) Unit)) (s : _),
      (machine 1 1 2 fun _ => 0).Path tr s ∧ s.data.consumed = 1 ∧ Truthful s) ∧
    ∃ (tr : List (Config (Fin 1 ⊕ Fin 1) Sem (Store 2) Loc × Label (Fin 1 ⊕ Fin 1) Unit)) (s : _),
      (machine 1 1 2 fun _ => 0).Path tr s ∧ ∃ x ∈ tr, ¬ LastItem x.1 x.2 := by
  constructor
  · have hrun : ∃ s, (machine 1 1 2 fun _ => 0).execIf LastItem (machine 1 1 2 fun _ => 0).init
        (List.replicate 8 (.run (.inl 0) ()) ++ List.replicate 9 (.run (.inr 0) ())) = some s ∧
        s.data.consumed = 1 := ⟨_, rfl, rfl⟩
    obtain ⟨s, hexec, hcount⟩ := hrun
    obtain ⟨tr, hp, hok⟩ := (Machine.ReachIf.of_execIf .init hexec).exists_path
    exact ⟨tr, s, hp, hcount, ((truthful_iff hp).mpr hok).2⟩
  · obtain ⟨s, hs, hlie⟩ := lying_run
    obtain ⟨tr, hp, -⟩ := hs.exists_path
    refine ⟨tr, s, hp, ?_⟩
    by_contra hno
    have hok : ∀ x ∈ tr, LastItem x.1 x.2 := fun x hx => by
      by_contra hx'
      exact hno ⟨x, hx, hx'⟩
    exact hlie ((truthful_iff hp).mpr hok).2

end CppWarehouse

end PosixIntro
