import PosixIntro.Concurrency.Threads

set_option relaxedAutoImplicit false
set_option autoImplicit false

/-!
# The bounded-buffer protocol and the lock protocol

Two disciplines by which threads use counting semaphores, each given by a classification of the
program's locations, and the conservation laws that follow from them. A program is shown to
follow a discipline statement by statement; the laws then hold for any number of threads.

## Main definitions

* `Holding` — what a thread has taken out of the pair of semaphores: nothing, a free place, or
  an item.
* `BufferProtocol` — free places are taken from `empty` and turned into items, items are given
  to `full`, and conversely.
* `LockProtocol` — a region entered by a wait on a binary semaphore and left by a post.

## Main results

* `BufferProtocol.items_balance`, `BufferProtocol.spaces_balance` — where the items and the free
  places are.
* `BufferProtocol.full_add_empty` — both semaphores and the threads between their first wait and
  their last post always account for the whole capacity.
* `LockProtocol.balance`, `LockProtocol.exclusive` — mutual exclusion.
* `exists_enabled_of_holding` — the two disciplines together leave nobody stuck in between.
-/

namespace PosixIntro

variable {ι S χ D L : Type*} [DecidableEq ι] [DecidableEq S]

/-! ## The bounded-buffer protocol -/

/-- What a thread holds between its first wait and its last post. -/
inductive Holding where
  | nothing
  | space
  | item
  deriving DecidableEq

/-- The items held. -/
def Holding.items : Holding → ℕ
  | .item => 1
  | _ => 0

/-- The free places held. -/
def Holding.spaces : Holding → ℕ
  | .space => 1
  | _ => 0

/-- Items and free places exchanged. -/
def Holding.swap : Holding → Holding
  | .nothing => .nothing
  | .space => .item
  | .item => .space

@[simp] lemma Holding.items_swap (h : Holding) : h.swap.items = h.spaces := by
  cases h <;> rfl

/-- The units held, free places and items together. -/
def Holding.units (h : Holding) : ℕ := h.items + h.spaces

/-- The bounded-buffer protocol. A thread takes a free place from `empty` or an item from `full`
while it holds nothing; adding turns the free place it holds into an item and removing turns the
item into a free place; and it gives back what it holds. -/
structure BufferProtocol (P : Program ι S χ D L) where
  /-- Counts the items that are ready. -/
  full : S
  /-- Counts the free places. -/
  empty : S
  full_ne_empty : full ≠ empty
  /-- What a thread holds at a location. -/
  holding : L → Holding
  /-- The number of additions so far. -/
  adds : D → ℕ
  /-- The number of removals so far. -/
  removes : D → ℕ
  start : ∀ i, holding (P.loc₀ i) = .nothing
  adds_start : adds P.data₀ = 0
  removes_start : removes P.data₀ = 0
  wait : ∀ {i l x next intr}, P.code i l = some (.wait x next intr) →
    (x = empty ∧ holding l = .nothing ∧ holding next = .space) ∨
    (x = full ∧ holding l = .nothing ∧ holding next = .item) ∨
    (x ≠ empty ∧ x ≠ full ∧ holding next = holding l)
  post : ∀ {i l x next}, P.code i l = some (.post x next) →
    (x = empty ∧ holding l = .space ∧ holding next = .nothing) ∨
    (x = full ∧ holding l = .item ∧ holding next = .nothing) ∨
    (x ≠ empty ∧ x ≠ full ∧ holding next = holding l)
  act : ∀ {i l f c d d' l'}, P.code i l = some (.act f) → f c d = some (d', l') →
    (holding l' = holding l ∧ adds d' = adds d ∧ removes d' = removes d) ∨
    (holding l = .space ∧ holding l' = .item ∧ adds d' = adds d + 1 ∧ removes d' = removes d) ∨
    (holding l = .item ∧ holding l' = .space ∧ adds d' = adds d ∧ removes d' = removes d + 1)
  signal : ∀ {d d'}, P.handler d = some d' → adds d' = adds d ∧ removes d' = removes d

namespace BufferProtocol

variable {P : Program ι S χ D L} (B : BufferProtocol P) {v : S → ℕ}

omit [DecidableEq ι] in
/-- Every statement keeps the account of the items. -/
lemma items_local {i : ι} {l l' : L} {st : Stmt S χ D L} {c : χ} {sem sem' : S → ℕ} {d d' : D}
    (hst : P.code i l = some st) (hx : st.exec c sem d = some (sem', d', l')) :
    B.removes d' + sem' B.full + (B.holding l').items + B.adds d =
      B.removes d + sem B.full + (B.holding l).items + B.adds d' := by
  rcases Stmt.exec_cases hx with ⟨x, intr, rfl, hpos, rfl, rfl⟩ | ⟨x, rfl, rfl, rfl⟩ |
    ⟨f, rfl, hf, rfl⟩
  · rcases B.wait hst with ⟨rfl, h₁, h₂⟩ | ⟨rfl, h₁, h₂⟩ | ⟨-, hne, h⟩
    · simp [Function.update_of_ne B.full_ne_empty, h₁, h₂, Holding.items]
    · simp only [Function.update_self, h₁, h₂, Holding.items]
      omega
    · simp [Function.update_of_ne hne.symm, h]
  · rcases B.post hst with ⟨rfl, h₁, h₂⟩ | ⟨rfl, h₁, h₂⟩ | ⟨-, hne, h⟩
    · simp [Function.update_of_ne B.full_ne_empty, h₁, h₂, Holding.items]
    · simp only [Function.update_self, h₁, h₂, Holding.items]
      omega
    · simp [Function.update_of_ne hne.symm, h]
  · rcases B.act hst hf with ⟨h₁, h₂, h₃⟩ | ⟨h₁, h₂, h₃, h₄⟩ | ⟨h₁, h₂, h₃, h₄⟩
    · simp [h₁, h₂, h₃]
    · simp only [h₁, h₂, h₃, h₄, Holding.items]
      omega
    · simp only [h₁, h₂, h₃, h₄, Holding.items]
      omega

/-- The same protocol seen from the other side: free places flow backwards as items do forwards. -/
def reverse : BufferProtocol P where
  full := B.empty
  empty := B.full
  full_ne_empty := B.full_ne_empty.symm
  holding l := (B.holding l).swap
  adds := B.removes
  removes := B.adds
  start i := by rw [B.start i]; rfl
  adds_start := B.removes_start
  removes_start := B.adds_start
  wait hst := by
    rcases B.wait hst with ⟨hx, h₁, h₂⟩ | ⟨hx, h₁, h₂⟩ | ⟨h₁, h₂, h⟩
    · exact .inr (.inl ⟨hx, by rw [h₁]; rfl, by rw [h₂]; rfl⟩)
    · exact .inl ⟨hx, by rw [h₁]; rfl, by rw [h₂]; rfl⟩
    · exact .inr (.inr ⟨h₂, h₁, by rw [h]⟩)
  post hst := by
    rcases B.post hst with ⟨hx, h₁, h₂⟩ | ⟨hx, h₁, h₂⟩ | ⟨h₁, h₂, h⟩
    · exact .inr (.inl ⟨hx, by rw [h₁]; rfl, by rw [h₂]; rfl⟩)
    · exact .inl ⟨hx, by rw [h₁]; rfl, by rw [h₂]; rfl⟩
    · exact .inr (.inr ⟨h₂, h₁, by rw [h]⟩)
  act hst hf := by
    rcases B.act hst hf with ⟨h₁, h₂, h₃⟩ | ⟨h₁, h₂, h₃, h₄⟩ | ⟨h₁, h₂, h₃, h₄⟩
    · exact .inl ⟨by rw [h₁], h₃, h₂⟩
    · exact .inr (.inr ⟨by rw [h₁]; rfl, by rw [h₂]; rfl, h₄, h₃⟩)
    · exact .inr (.inl ⟨by rw [h₁]; rfl, by rw [h₂]; rfl, h₄, h₃⟩)
  signal hd := (B.signal hd).symm

omit [DecidableEq ι] in
/-- Every statement keeps the account of the free places. -/
lemma spaces_local {i : ι} {l l' : L} {st : Stmt S χ D L} {c : χ} {sem sem' : S → ℕ} {d d' : D}
    (hst : P.code i l = some st) (hx : st.exec c sem d = some (sem', d', l')) :
    B.adds d' + sem' B.empty + (B.holding l').spaces + B.removes d =
      B.adds d + sem B.empty + (B.holding l).spaces + B.removes d' := by
  simpa only [reverse, Holding.items_swap] using B.reverse.items_local hst hx

variable [Fintype ι]

/-- **Where the items are**: every item added was removed, is counted by `full`, or is held. -/
theorem items_balance (hR : P.Retries) (hv : v B.full = 0) {s : Config ι S D L}
    (h : (P.machine v).Reach s) :
    B.removes s.data + s.sem B.full + tally (fun _ l => (B.holding l).items) s.loc =
      B.adds s.data :=
  Program.balance hR (fun sem d => B.removes d + sem B.full) (fun _ d => B.adds d)
    (fun _ l => (B.holding l).items)
    (by
      rw [tally_eq_zero fun i => by rw [B.start i]; rfl, B.adds_start, B.removes_start, hv])
    (fun i l st c sem d sem' d' l' hst hx => B.items_local hst hx)
    (fun sem d d' hd => by
      obtain ⟨h₁, h₂⟩ := B.signal hd
      simp [h₁, h₂]) h

/-- **Where the free places are**: every place is occupied, counted by `empty`, or held. -/
theorem spaces_balance (hR : P.Retries) {s : Config ι S D L} (h : (P.machine v).Reach s) :
    B.adds s.data + s.sem B.empty + tally (fun _ l => (B.holding l).spaces) s.loc =
      v B.empty + B.removes s.data :=
  Program.balance hR (fun sem d => B.adds d + sem B.empty)
    (fun _ d => v B.empty + B.removes d) (fun _ l => (B.holding l).spaces)
    (by
      rw [tally_eq_zero fun i => by rw [B.start i]; rfl, B.adds_start, B.removes_start]
      omega)
    (fun i l st c sem d sem' d' l' hst hx => by
      have := B.spaces_local hst hx
      omega)
    (fun sem d d' hd => by
      obtain ⟨h₁, h₂⟩ := B.signal hd
      simp [h₁, h₂]) h

/-- **Conservation of the capacity**: the two semaphores and the threads that hold something
account for the whole capacity. -/
theorem full_add_empty (hR : P.Retries) (hv : v B.full = 0) {s : Config ι S D L}
    (h : (P.machine v).Reach s) :
    s.sem B.full + s.sem B.empty + tally (fun _ l => (B.holding l).units) s.loc =
      v B.empty := by
  have h₁ := B.items_balance hR hv h
  have h₂ := B.spaces_balance hR h
  have h₃ := tally_add (fun _ l => (B.holding l).items) (fun _ l => (B.holding l).spaces) s.loc
  simp only [Holding.units]
  omega

/-- The buffer never holds more than its capacity. -/
lemma removes_le_adds_le (hR : P.Retries) (hv : v B.full = 0) {s : Config ι S D L}
    (h : (P.machine v).Reach s) :
    B.removes s.data ≤ B.adds s.data ∧ B.adds s.data ≤ B.removes s.data + v B.empty := by
  have h₁ := B.items_balance hR hv h
  have h₂ := B.spaces_balance hR h
  omega

/-- A thread that holds an item finds one in the buffer. -/
lemma removes_lt_adds (hR : P.Retries) (hv : v B.full = 0) {s : Config ι S D L}
    (h : (P.machine v).Reach s) {i : ι} (hi : B.holding (s.loc i) = .item) :
    B.removes s.data < B.adds s.data := by
  have h₁ := B.items_balance hR hv h
  have h₂ : (B.holding (s.loc i)).items ≤ _ := le_tally (fun _ l => (B.holding l).items) s.loc i
  have h₃ : (B.holding (s.loc i)).items = 1 := by rw [hi]; rfl
  omega

/-- A thread that holds a free place finds one in the buffer. -/
lemma adds_lt_capacity (hR : P.Retries) {s : Config ι S D L} (h : (P.machine v).Reach s) {i : ι}
    (hi : B.holding (s.loc i) = .space) : B.adds s.data < B.removes s.data + v B.empty := by
  have h₁ := B.spaces_balance hR h
  have h₂ : (B.holding (s.loc i)).spaces ≤ _ := le_tally (fun _ l => (B.holding l).spaces) s.loc i
  have h₃ : (B.holding (s.loc i)).spaces = 1 := by rw [hi]; rfl
  omega

end BufferProtocol

/-! ## The lock protocol -/

/-- A region protected by a binary semaphore: a wait on it enters, a post leaves, and nothing
else crosses the region's border. The phase of a location is `none` outside. -/
structure LockProtocol (P : Program ι S χ D L) (Φ : Type*) where
  /-- The binary semaphore. -/
  lock : S
  /-- Where inside the region a location is. -/
  phase : L → Option Φ
  start : ∀ i, phase (P.loc₀ i) = none
  wait : ∀ {i l x next intr}, P.code i l = some (.wait x next intr) →
    (x = lock ∧ phase l = none ∧ phase next ≠ none) ∨
    (x ≠ lock ∧ phase l = none ∧ phase next = none)
  post : ∀ {i l x next}, P.code i l = some (.post x next) →
    (x = lock ∧ phase l ≠ none ∧ phase next = none) ∨
    (x ≠ lock ∧ phase l = none ∧ phase next = none)
  act : ∀ {i l f c d d' l'}, P.code i l = some (.act f) → f c d = some (d', l') →
    (phase l = none ↔ phase l' = none)

namespace LockProtocol

variable {P : Program ι S χ D L} {Φ : Type*} (K : LockProtocol P Φ) {v : S → ℕ}

/-- Whether a location is inside the region, as a weight. -/
def inside (l : L) : ℕ := if K.phase l = none then 0 else 1

omit [DecidableEq ι] in
/-- Every statement keeps the account of the lock. -/
lemma inside_local {i : ι} {l l' : L} {st : Stmt S χ D L} {c : χ} {sem sem' : S → ℕ} {d d' : D}
    (hst : P.code i l = some st) (hx : st.exec c sem d = some (sem', d', l')) :
    sem' K.lock + K.inside l' = sem K.lock + K.inside l := by
  rcases Stmt.exec_cases hx with ⟨x, intr, rfl, hpos, rfl, rfl⟩ | ⟨x, rfl, rfl, rfl⟩ |
    ⟨f, rfl, hf, rfl⟩
  · rcases K.wait hst with ⟨rfl, h₁, h₂⟩ | ⟨hne, h₁, h₂⟩
    · simp only [inside, Function.update_self, h₁, h₂, if_true, if_false]
      omega
    · simp [inside, Function.update_of_ne (Ne.symm hne), h₁, h₂]
  · rcases K.post hst with ⟨rfl, h₁, h₂⟩ | ⟨hne, h₁, h₂⟩
    · simp [inside, Function.update_self, h₁, h₂]
    · simp [inside, Function.update_of_ne (Ne.symm hne), h₁, h₂]
  · simp [inside, K.act hst hf]

variable [Fintype ι]

/-- **Conservation of the lock**: the semaphore and the threads inside together make one. -/
theorem balance (hR : P.Retries) (hv : v K.lock = 1) {s : Config ι S D L}
    (h : (P.machine v).Reach s) :
    s.sem K.lock + tally (fun _ l => K.inside l) s.loc = 1 :=
  Program.balance hR (fun sem _ => sem K.lock) (fun _ _ => 1) (fun _ l => K.inside l)
    (by rw [tally_eq_zero fun i => by simp [inside, K.start i], hv])
    (fun i l st c sem d sem' d' l' hst hx => by
      have := K.inside_local hst hx
      omega)
    (fun _ _ _ _ => ⟨rfl, rfl⟩) h

/-- **Mutual exclusion.** -/
theorem exclusive (hR : P.Retries) (hv : v K.lock = 1) {s : Config ι S D L}
    (h : (P.machine v).Reach s) : Program.Exclusive K.phase s.loc := by
  intro i j hi hj
  have hb : tally (fun _ l => K.inside l) s.loc ≤ 1 := by
    have := K.balance hR hv h
    omega
  apply eq_of_tally_le_one hb
  · simp [inside, hi]
  · simp [inside, hj]

/-- The lock is free exactly when nobody is inside. -/
lemma free_iff (hR : P.Retries) (hv : v K.lock = 1) {s : Config ι S D L}
    (h : (P.machine v).Reach s) : 0 < s.sem K.lock ↔ ∀ i, K.phase (s.loc i) = none := by
  have hb := K.balance hR hv h
  constructor
  · intro hpos i
    by_contra hne
    have h₁ : K.inside (s.loc i) ≤ _ := le_tally (fun _ l => K.inside l) s.loc i
    have h₂ : K.inside (s.loc i) = 1 := if_neg hne
    omega
  · intro hall
    rw [tally_eq_zero fun i => by simp [inside, hall i]] at hb
    omega

end LockProtocol

/-! ## Progress -/

section Progress

variable {P : Program ι S χ D L} {Φ : Type*} (B : BufferProtocol P) (K : LockProtocol P Φ)
  {v : S → ℕ}

/-- **Whoever holds a unit is not stuck.** If every semaphore is one of the three, no act blocks
and the threads that have returned hold nothing and are outside the region, then some thread can
move whenever some thread is between its first wait and its last post.

**Proof sketch.** The thread itself can move unless it waits for the lock. If the lock is taken,
the thread inside the region can move, since every wait is outside the region. -/
theorem exists_enabled_of_holding [Fintype ι] [Inhabited χ] (hR : P.Retries)
    (hv : v K.lock = 1) (hsem : ∀ x, x = B.full ∨ x = B.empty ∨ x = K.lock)
    (hact : ∀ i l f d, P.code i l = some (.act f) → ∃ c r, f c d = some r)
    (hret : ∀ i l, P.code i l = none → B.holding l = .nothing ∧ K.phase l = none)
    {s : Config ι S D L} (h : (P.machine v).Reach s) {i : ι}
    (hi : B.holding (s.loc i) ≠ .nothing) : ∃ j, P.Enabled j s := by
  by_contra hno
  have hno : ∀ j, ¬ P.Enabled j s := fun j hj => hno ⟨j, hj⟩
  -- nobody is inside the region, so the lock is free
  have hout : ∀ j, K.phase (s.loc j) = none := fun j => by
    rcases Program.returned_or_waiting (fun f => hact j _ f s.data) (hno j) with
      hc | ⟨x, next, intr, hc, -⟩
    · exact (hret j _ hc).2
    · rcases K.wait hc with ⟨-, hp, -⟩ | ⟨-, hp, -⟩ <;> exact hp
  have hfree := (K.free_iff hR hv h).mpr hout
  rcases Program.returned_or_waiting (fun f => hact i _ f s.data) (hno i) with
    hc | ⟨x, next, intr, hc, hx⟩
  · exact hi (hret i _ hc).1
  · rcases B.wait hc with ⟨-, hn, -⟩ | ⟨-, hn, -⟩ | ⟨hne, hnf, -⟩
    · exact hi hn
    · exact hi hn
    · rcases hsem x with rfl | rfl | rfl
      · exact hnf rfl
      · exact hne rfl
      · omega

omit K in
/-- When every thread holds nothing, the whole capacity is in the two semaphores. -/
lemma BufferProtocol.full_add_empty_of_idle [Fintype ι] (hR : P.Retries) (hv : v B.full = 0)
    {s : Config ι S D L} (h : (P.machine v).Reach s)
    (hidle : ∀ i, B.holding (s.loc i) = .nothing) :
    s.sem B.full + s.sem B.empty = v B.empty := by
  have hb := B.full_add_empty hR hv h
  rwa [tally_eq_zero fun i => by rw [hidle i]; rfl, Nat.add_zero] at hb

end Progress

end PosixIntro
