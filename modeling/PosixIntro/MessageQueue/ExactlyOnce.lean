import PosixIntro.MessageQueue.Family

set_option relaxedAutoImplicit false
set_option autoImplicit false

/-!
# Every message is received at most once and in order

Any number of writers and readers, in C and C++, may use a queue, with `SIGINT` and messages of
others. What has been received from a queue, and what it still holds, is what was sent to it, in
order; only a removal loses messages.

## Main definitions

* `Office.Account` — the account of one queue.
* `ExactlyOnce` — the accounts of all queues, and what the readers know of them.

## Main results

* `exactly_once` — the accounts are exact in every reachable state.
-/

namespace PosixIntro

namespace MessageQueue

variable {ω ρ : Type*}

/-- The messages that the readers ask for. -/
def wanted (q : Queue) : Queue := q.filter Message.isWanted

@[simp] lemma wanted_append (q q' : Queue) : wanted (q ++ q') = wanted q ++ wanted q' :=
  List.filter_append ..

/-- Taking the oldest message that the readers ask for. -/
lemma wanted_of_find {q : Queue} {m : Message} (h : q.find? Message.isWanted = some m) :
    wanted q = m :: wanted (q.eraseP Message.isWanted) := by
  induction q with
  | nil => cases h
  | cons m₀ q ih =>
    rw [List.find?_cons] at h
    cases hm : m₀.isWanted with
    | true =>
      rw [hm] at h
      obtain rfl := Option.some.inj h
      simp [wanted, hm]
    | false =>
      rw [hm] at h
      simpa [wanted, hm] using ih h

namespace Office

/-- The messages that were ever sent to a queue. -/
def messages (o : Office ω ρ) (id : ℕ) : Queue := (o.sent id).map Prod.snd

/-- **The account of a queue**: the messages that the readers ask for were received in order, or are
still in the queue, or were lost when it was removed. -/
def Account (o : Office ω ρ) (id : ℕ) : Prop :=
  ∃ lost, wanted (o.messages id) =
      (o.received id).map Prod.snd ++ wanted ((o.queue id).getD []) ++ lost ∧
    (o.queue id ≠ none → lost = [])

/-- The key leads to a queue, and the identifiers from `next` on are new. -/
structure Valid (o : Office ω ρ) : Prop where
  key : ∀ id, o.key = some id → o.queue id ≠ none
  fresh : ∀ id, o.next ≤ id → o.queue id = none ∧ o.sent id = [] ∧ o.received id = []

variable {o : Office ω ρ} {id id' : ℕ} {q : Option Queue}

/-! ### `create_queue` -/

/-- The identifier that the key leads to is not new. -/
lemma Valid.lt (h : o.Valid) (hq : o.queue id ≠ none) : id < o.next :=
  Nat.lt_of_not_le fun hle => hq (h.fresh id hle).1

/-- What `create_queue` does: there is a queue for the key already, or it makes a new one. -/
lemma createQueue_cases (o : Office ω ρ) :
    (∃ id, o.key = some id ∧ o.createQueue = (o, id)) ∨
      (o.key = none ∧ o.createQueue = ({ o with
        key := some o.next
        next := o.next + 1
        queue := Function.update o.queue o.next (some []) }, o.next)) := by
  unfold createQueue
  cases hk : o.key with
  | some id => exact .inl ⟨id, rfl, rfl⟩
  | none => exact .inr ⟨rfl, rfl⟩

lemma Valid.createQueue (h : o.Valid) : o.createQueue.1.Valid := by
  rcases o.createQueue_cases with ⟨id, -, heq⟩ | ⟨-, heq⟩
  · rw [heq]
    exact h
  · rw [heq]
    refine ⟨fun id hid => ?_, fun id hid => ?_⟩
    · obtain rfl : o.next = id := Option.some.inj hid
      simp
    · have hne : id ≠ o.next := Nat.ne_of_gt hid
      show Function.update o.queue o.next (some []) id = none ∧ _
      rw [Function.update_of_ne hne]
      exact h.fresh id (Nat.le_of_succ_le hid)

/-- The identifier that `create_queue` returns leads to a queue. -/
lemma Valid.queue_createQueue (h : o.Valid) :
    o.createQueue.1.queue o.createQueue.2 ≠ none := by
  rcases o.createQueue_cases with ⟨id, hk, heq⟩ | ⟨-, heq⟩
  · rw [heq]
    exact h.key id hk
  · rw [heq]
    simp

/-- `create_queue` leaves the histories and the old queues alone. -/
lemma queue_createQueue_of_lt (hid : id < o.next) :
    o.createQueue.1.queue id = o.queue id := by
  rcases o.createQueue_cases with ⟨id', hk, heq⟩ | ⟨-, heq⟩
  · rw [heq]
  · rw [heq]
    exact Function.update_of_ne (Nat.ne_of_lt hid) _ _

@[simp] lemma sent_createQueue : o.createQueue.1.sent = o.sent := by
  rcases o.createQueue_cases with ⟨id, -, heq⟩ | ⟨-, heq⟩ <;> rw [heq]

@[simp] lemma received_createQueue : o.createQueue.1.received = o.received := by
  rcases o.createQueue_cases with ⟨id, -, heq⟩ | ⟨-, heq⟩ <;> rw [heq]

lemma next_le_createQueue : o.next ≤ o.createQueue.1.next := by
  rcases o.createQueue_cases with ⟨id, -, heq⟩ | ⟨-, heq⟩
  · exact Nat.le_of_eq (by rw [heq])
  · rw [heq]
    exact Nat.le_succ _

/-- A new queue has an account of its own. -/
lemma Account.createQueue (hv : o.Valid) (h : o.Account id) : o.createQueue.1.Account id := by
  unfold Account messages
  rw [sent_createQueue, received_createQueue]
  rcases Nat.lt_or_ge id o.next with hlt | hge
  · rw [queue_createQueue_of_lt hlt]
    exact h
  · obtain ⟨hq, hs, hr⟩ := hv.fresh id hge
    refine ⟨[], ?_, fun _ => rfl⟩
    rcases o.createQueue_cases with ⟨id', hk, heq⟩ | ⟨-, heq⟩
    · rw [heq, hs, hr, hq]
      rfl
    · rw [heq, hs, hr]
      by_cases hid : id = o.next
      · simp [hid, wanted]
      · simp [Function.update_of_ne hid, hq, wanted]

/-! ### The other calls -/

lemma Valid.sends (h : o.Valid) {x : Sender ω ρ} (hg : Grows (o.queue id) q) :
    (o.sends x id q).Valid := by
  refine ⟨fun id' hid' => ?_, fun id' hid' => ?_⟩
  · have hold := h.key id' hid'
    by_cases heq : id' = id
    · subst heq
      rcases hg with ⟨hnone, -⟩ | ⟨q₀, ms, -, rfl⟩
      · exact absurd hnone hold
      · simp [Office.sends]
    · simpa [Office.sends, Function.update_of_ne heq] using hold
  · obtain ⟨hq, hs, hr⟩ := h.fresh id' hid'
    by_cases heq : id' = id
    · subst heq
      rcases hg with ⟨-, rfl⟩ | ⟨q₀, ms, hsome, -⟩
      · simp [Office.sends, hq, hs, hr]
      · rw [hq] at hsome
        cases hsome
    · simp [Office.sends, Function.update_of_ne heq, hq, hs, hr]

/-- What is sent is put on the account. -/
lemma Account.sends {x : Sender ω ρ} (h : o.Account id') (hg : Grows (o.queue id) q) :
    (o.sends x id q).Account id' := by
  by_cases heq : id' = id
  · subst heq
    obtain ⟨lost, hacc, hlost⟩ := h
    rcases hg with ⟨hnone, rfl⟩ | ⟨q₀, ms, hq, rfl⟩
    · refine ⟨lost, ?_, fun hne => ?_⟩
      · simpa [Office.sends, messages, hnone] using hacc
      · simp [Office.sends] at hne
    · obtain rfl := hlost (by simp [hq])
      refine ⟨[], ?_, fun _ => rfl⟩
      simp only [hq, Option.getD_some, List.append_nil, messages] at hacc
      simp [Office.sends, messages, hq, List.map_map, Function.comp_def, hacc]
  · simpa [Account, Office.sends, messages, Function.update_of_ne heq] using h

lemma Valid.receives (h : o.Valid) {j : ρ} (ht : Takes (o.queue id) q) :
    (o.receives j id q).Valid := by
  refine ⟨fun id' hid' => ?_, fun id' hid' => ?_⟩
  · have hold := h.key id' hid'
    by_cases heq : id' = id
    · subst heq
      rcases ht with rfl | ⟨q₀, m, -, -, rfl⟩
      · simpa [Office.receives] using hold
      · simp [Office.receives]
    · simpa [Office.receives, Function.update_of_ne heq] using hold
  · obtain ⟨hq, hs, hr⟩ := h.fresh id' hid'
    by_cases heq : id' = id
    · subst heq
      rcases ht with rfl | ⟨q₀, m, hsome, -, -⟩
      · simp [Office.receives, hq, hs, hr]
      · rw [hq] at hsome
        cases hsome
    · simp [Office.receives, Function.update_of_ne heq, hq, hs, hr]

/-- What is received moves from the queue to the reader. -/
lemma Account.receives {j : ρ} (h : o.Account id') (ht : Takes (o.queue id) q) :
    (o.receives j id q).Account id' := by
  by_cases heq : id' = id
  · subst heq
    rcases ht with rfl | ⟨q₀, m, hq, hm, rfl⟩
    · simpa [Account, Office.receives, messages] using h
    · obtain ⟨lost, hacc, hlost⟩ := h
      obtain rfl := hlost (by simp [hq])
      refine ⟨[], ?_, fun _ => rfl⟩
      simp only [hq, Option.getD_some, List.append_nil, messages, wanted_of_find hm] at hacc
      simp [Office.receives, messages, hq, taken_eraseP hm, hacc]
  · simpa [Account, Office.receives, messages, Function.update_of_ne heq] using h

lemma Valid.remove (h : o.Valid) : (o.remove id).Valid := by
  refine ⟨fun id' hid' => ?_, fun id' hid' => ?_⟩
  · by_cases hk : o.key = some id
    · simp [Office.remove, hk] at hid'
    · have hkey : o.key = some id' := by simpa [Office.remove, hk] using hid'
      have hne : id' ≠ id := fun heq => hk (heq ▸ hkey)
      simpa [Office.remove, Function.update_of_ne hne] using h.key id' hkey
  · obtain ⟨hq, hs, hr⟩ := h.fresh id' hid'
    by_cases heq : id' = id
    · simp [Office.remove, heq, heq ▸ hs, heq ▸ hr]
    · simp [Office.remove, Function.update_of_ne heq, hq, hs, hr]

/-- What a queue still holds is lost when it is removed. -/
lemma Account.remove (h : o.Account id') : (o.remove id).Account id' := by
  by_cases heq : id' = id
  · subst heq
    obtain ⟨lost, hacc, -⟩ := h
    refine ⟨wanted ((o.queue id').getD []) ++ lost, ?_, fun hne => ?_⟩
    · simpa [Office.remove, messages, wanted] using hacc
    · simp [Office.remove] at hne
  · simpa [Account, Office.remove, messages, Function.update_of_ne heq] using h

end Office

/-! ### What the readers know -/

/-- The queue that a process uses or has used. -/
def Handle.id : Handle → Option ℕ
  | .unopened => none
  | .opened id => some id
  | .closed id => some id

/-- What the reader `j` has received from a queue. -/
def Office.got [DecidableEq ρ] (o : Office ω ρ) (j : ρ) (id : ℕ) : Queue :=
  ((o.received id).filter fun x => x.1 = j).map Prod.snd

/-- A reader has received from no queue but its own, and it has copied what it has received. -/
structure Knows [DecidableEq ρ] (o : Office ω ρ) (j : ρ) (p : Party Reader) : Prop where
  own : ∀ id, p.handle.id = some id →
    p.prog.copied = (o.got j id).map fun m => m.payload.length
  foreign : ∀ id, p.handle.id ≠ some id → o.got j id = []
  unopened : p.handle.id = none → p.prog.copied = []

/-- The accounts of all queues, and what the readers know of them. -/
structure ExactlyOnce [DecidableEq ρ] (s : Family ω ρ) : Prop where
  account : ∀ id, s.office.Account id
  knows : ∀ j, Knows s.office j (s.reader j)

section Readers

variable [DecidableEq ρ] {o o' : Office ω ρ} {j j' : ρ} {p : Party Reader} {id id' : ℕ}
  {q : Option Queue}

/-- What a reader has received after a step of a reader. -/
lemma Office.got_receives : (o.receives j id q).got j' id' =
    o.got j' id' ++ if j' = j ∧ id' = id then taken (o.queue id) q else [] := by
  by_cases hid : id' = id
  · subst hid
    by_cases hj : j' = j
    · subst hj
      simp [got, receives, List.filter_map, Function.comp_def]
    · simp [got, receives, List.filter_map, Function.comp_def, hj, Ne.symm hj]
  · simp [got, receives, hid]

/-- What the readers have received depends on the history alone. -/
lemma Knows.congr (h : Knows o j p) (hr : o'.received = o.received) : Knows o' j p := by
  have hgot : ∀ id, o'.got j id = o.got j id := fun id => by
    rw [Office.got, hr, Office.got]
  exact ⟨fun id hid => by rw [hgot, h.own id hid], fun id hid => by rw [hgot, h.foreign id hid],
    h.unopened⟩

/-- A reader that calls `create_queue`. -/
lemma Knows.openQueue (h : Knows o j p) (hh : p.handle = .unopened) :
    Knows o j ⟨.opened id, p.prog⟩ := by
  have hnone : p.handle.id = none := by rw [hh]; rfl
  have hgot : ∀ id', o.got j id' = [] := fun id' => h.foreign id' (by simp [hnone])
  refine ⟨fun id' _ => ?_, fun id' _ => hgot id', fun hid => by cases hid⟩
  rw [hgot, h.unopened hnone]
  rfl

/-- A step of the reader itself. -/
lemma Knows.receives (h : Knows o j p) (hh : p.handle = .opened id) {r : Reader}
    (hc : r.copied = p.prog.copied ++ (taken (o.queue id) q).map fun m => m.payload.length) :
    Knows (o.receives j id q) j ⟨.opened id, r⟩ := by
  have hown : p.handle.id = some id := by rw [hh]; rfl
  refine ⟨fun id' hid' => ?_, fun id' hid' => ?_, fun hid => by cases hid⟩
  · obtain rfl := Option.some.inj hid'
    rw [Office.got_receives, if_pos ⟨rfl, rfl⟩, List.map_append, ← h.own _ hown, hc]
  · have hne : id' ≠ id := fun heq => hid' (heq ▸ rfl)
    rw [Office.got_receives, if_neg (fun hand => hne hand.2), List.append_nil]
    exact h.foreign id' (by rw [hown]; exact hid')

/-- A step of another reader. -/
lemma Knows.receives_of_ne (h : Knows o j p) (hj : j ≠ j') : Knows (o.receives j' id q) j p := by
  have hgot : ∀ id', (o.receives j' id q).got j id' = o.got j id' := fun id' => by
    rw [Office.got_receives, if_neg (fun hand => hj hand.1), List.append_nil]
  exact ⟨fun id hid => by rw [hgot, h.own id hid], fun id hid => by rw [hgot, h.foreign id hid],
    h.unopened⟩

end Readers

/-! ### Every reachable state -/

/-- `SIGINT` adds to the queue that the handler finds. -/
lemma grows_closeIpc (q : Queue) (msg : MessageBuffer) :
    Grows (some q) (some (closeIpc q msg).1) := by
  obtain ⟨ms, hms⟩ := exists_msgsnd q msg.zeroFirst structSize
  exact .inr ⟨q, ms, rfl, congrArg some hms⟩

/-- The queue that the handler finds is that of `create_queue`. -/
lemma Office.Valid.grows_interrupt {o : Office ω ρ} (h : o.Valid) (msg : MessageBuffer) :
    Grows (o.createQueue.1.queue o.createQueue.2) (some (closeIpc
      ((o.createQueue.1.queue o.createQueue.2).getD []) msg).1) := by
  obtain ⟨q, hq⟩ := Option.ne_none_iff_exists'.mp h.queue_createQueue
  rw [hq]
  exact grows_closeIpc q msg

section Runs

variable [DecidableEq ω] [DecidableEq ρ] {S : Setup ω ρ} {s s' : Family ω ρ} {x : Label ω ρ}

/-- What a step does to the queues: `create_queue`, additions, one message taken or a removal. -/
lemma Setup.Move.office (h : S.Move s x s') (hv : s.office.Valid) :
    s'.office.Valid ∧ ∀ id, s.office.Account id → s'.office.Account id := by
  cases h with
  | openWriter i h => exact ⟨hv.createQueue, fun id hacc => hacc.createQueue hv⟩
  | openReader j h => exact ⟨hv.createQueue, fun id hacc => hacc.createQueue hv⟩
  | runWriter i id q w h hrun =>
    have hg := Writer.grows_of_runOn hrun
    exact ⟨hv.sends hg, fun id' hacc => hacc.sends hg⟩
  | runReader j id q r h hl hrun =>
    have ht := (Reader.takes_of_runOn hrun).1
    exact ⟨hv.receives ht, fun id' hacc => hacc.receives ht⟩
  | interruptWriter i hc hl =>
    have hg := hv.grows_interrupt (s.writer i).prog.msg
    exact ⟨hv.createQueue.sends hg, fun id' hacc => (hacc.createQueue hv).sends hg⟩
  | interruptReader j hc hl =>
    have hg := hv.grows_interrupt (s.reader j).prog.msg
    exact ⟨hv.createQueue.sends hg, fun id' hacc => (hacc.createQueue hv).sends hg⟩
  | remove j id h hl => exact ⟨hv.remove, fun id' hacc => hacc.remove⟩
  | other id m q hq hm =>
    have hg : Grows (s.office.queue id) (some (q ++ [m])) := .inr ⟨q, [m], hq, rfl⟩
    exact ⟨hv.sends hg, fun id' hacc => hacc.sends hg⟩

/-- What a step does to what the readers know. -/
lemma Setup.Move.knows (h : S.Move s x s') (hk : ∀ j, Knows s.office j (s.reader j)) (j : ρ) :
    Knows s'.office j (s'.reader j) := by
  cases h with
  | openWriter i h => exact (hk j).congr Office.received_createQueue
  | runWriter i id q w h hrun => exact (hk j).congr rfl
  | interruptWriter i hc hl => exact (hk j).congr Office.received_createQueue
  | other id m q hq hm => exact (hk j).congr rfl
  | openReader i h =>
    refine Knows.congr ?_ Office.received_createQueue
    by_cases hj : j = i
    · subst hj
      simpa using (hk j).openQueue h
    · simpa [Function.update_of_ne hj] using hk j
  | runReader i id q r h hl hrun =>
    by_cases hj : j = i
    · subst hj
      simpa using (hk j).receives h (Reader.takes_of_runOn hrun).2
    · simpa [Function.update_of_ne hj] using (hk j).receives_of_ne hj
  | remove i id h hl =>
    refine Knows.congr (o := s.office) ?_ rfl
    by_cases hj : j = i
    · subst hj
      have hid : (s.reader j).handle.id = some id := by rw [h]; rfl
      simp only [Function.update_self]
      exact ⟨fun id' hid' => (hk j).own id' (hid.trans hid'),
        fun id' hid' => (hk j).foreign id' (by rw [hid]; exact hid'), fun hid' => by cases hid'⟩
    · simpa [Function.update_of_ne hj] using hk j
  | interruptReader i hc hl =>
    refine Knows.congr (o := s.office) ?_ Office.received_createQueue
    by_cases hj : j = i
    · subst hj
      simp only [Function.update_self]
      exact ⟨(hk j).own, (hk j).foreign, (hk j).unopened⟩
    · simpa [Function.update_of_ne hj] using hk j

/-- The queues of a reachable state. -/
lemma Setup.valid (h : S.machine.Reach s) : s.office.Valid := by
  refine h.invariant (I := fun s => s.office.Valid) ⟨?_, fun id _ => ⟨rfl, rfl, rfl⟩⟩
    fun _ _ _ _ hv _ hstep => ((step_cases hstep).office hv).1
  intro id hid
  cases hid

/-- **Every message is received at most once, by one reader, and in order.** In every reachable state
of any number of writers and readers: the messages that the readers ask for and that were sent to a
queue are those received from it, then those that it holds; if it has been removed, the rest is
lost. A reader has received from no queue but its own. -/
theorem exactly_once (h : S.machine.Reach s) : ExactlyOnce s := by
  refine h.invariant (I := ExactlyOnce) ⟨fun id => ⟨[], rfl, fun _ => rfl⟩,
    fun j => ⟨fun id _ => rfl, fun id _ => rfl, fun _ => rfl⟩⟩ fun s x s' hr ih _ hstep => ?_
  have hmove := Setup.step_cases hstep
  exact ⟨fun id => (hmove.office (Setup.valid hr)).2 id (ih.account id), hmove.knows ih.knows⟩

end Runs

/-- Two C++ readers and no writer. -/
def twoReaders : Setup Empty Bool := ⟨fun _ => .cpp, fun _ => .cpp, fun _ _ => none⟩

/-- Both open the queue, somebody sends `"0"`, and one reader receives it and ends. -/
def oneEnds : List (Label Empty Bool) :=
  [.reader false .run, .reader true .run, .other 0 ⟨1, [charZero]⟩, .reader false .run,
    .reader false .run, .reader false .run, .reader false .run, .reader false .run]

/-- That is a run. -/
lemma reach_of_oneEnds {s : Family Empty Bool}
    (h : twoReaders.machine.exec twoReaders.machine.init oneEnds = some s) :
    twoReaders.machine.Reach s :=
  Machine.reach_of_exec h

/-- The accounts after that. -/
theorem exactly_once_two :
    ∃ s, twoReaders.machine.exec twoReaders.machine.init oneEnds = some s ∧ ExactlyOnce s :=
  ⟨_, rfl, exactly_once (reach_of_oneEnds rfl)⟩

end MessageQueue

end PosixIntro
