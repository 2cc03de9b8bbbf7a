import PosixIntro.MessageQueue.Delivery
import PosixIntro.MessageQueue.Removed

set_option relaxedAutoImplicit false
set_option autoImplicit false

/-!
# The texts of many writers and readers

With C++ writers, readers of either language, no signals and no messages of others, the texts that
are displayed are those that were typed: while a queue exists, each is displayed by one reader, in
the order in which they were sent.

## Main definitions

* `Family.Quiet` — the steps of the programs themselves.
* `Prints`, `Shows` — what a writer has printed is what it sent, and what a reader shows is what it
  received.
* `AllInOrder` — the texts of a family.

## Main results

* `all_in_order` — the texts of every quiet run.
-/

namespace PosixIntro

namespace MessageQueue

/-- A message as the C++ writer sends them. -/
def Message.IsCpp (m : Message) : Prop := m.isWanted ∧ m.payload.length = bufferSize

/-- All messages of a queue are such. -/
def AllCpp (q : Option Queue) : Prop := ∀ q₀, q = some q₀ → ∀ m ∈ q₀, m.IsCpp

/-! ### The programs -/

/-- A statement of a C++ writer: it has printed what it sends, if the queue exists. -/
lemma Writer.runOn_cpp {typed : ℕ → Option (InputLine bufferSize)} {w w' : Writer}
    {q q' : Option Queue} (h : w.runOn .cpp typed q = some (q', w'))
    (ht : w.loc ≠ .start → w.msg.type = 1) :
    w'.msg.type = 1 ∧ w'.loc ≠ .start ∧ ∃ ts, w'.sent = w.sent ++ ts ∧
      (q ≠ none → (appended q q').map Message.text = ts) ∧ ∀ m ∈ appended q q', m.IsCpp := by
  have hrun : ∃ q₀ q₁, Writer.run .cpp typed q₀ w = some (q₁, w') ∧
      (q ≠ none → q = some q₀ ∧ q' = some q₁) ∧ (q = none → q' = none) := by
    cases q with
    | none =>
      obtain ⟨⟨q₁, w₁⟩, hrun, heq⟩ := Option.map_eq_some_iff.mp h
      obtain ⟨rfl, rfl⟩ := Prod.mk.inj heq
      exact ⟨[], q₁, hrun, fun hne => absurd rfl hne, fun _ => rfl⟩
    | some q =>
      obtain ⟨⟨q₁, w₁⟩, hrun, heq⟩ := Option.map_eq_some_iff.mp h
      obtain ⟨rfl, rfl⟩ := Prod.mk.inj heq
      exact ⟨q, q₁, hrun, fun _ => ⟨rfl, rfl⟩, fun hnone => by cases hnone⟩
  obtain ⟨q₀, q₁, hrun, hsome, hnone⟩ := hrun
  have hmove := writer_cases hrun
  have hnothing : q₁ = q₀ → appended q q' = [] := by
    rintro rfl
    by_cases hq : q = none
    · simp [hq]
    · obtain ⟨rfl, rfl⟩ := hsome hq
      simpa using appended_append q₁ []
  generalize w.loc = loc at hmove ht
  cases hmove with
  | start => exact ⟨rfl, by simp, [], by simp, by simp [hnothing rfl], by simp [hnothing rfl]⟩
  | send =>
    have htype : w.msg.type = 1 := ht (by simp)
    refine ⟨htype, by simp, [w.msg.text.text], rfl, fun hq => ?_, ?_⟩
    · obtain ⟨rfl, rfl⟩ := hsome hq
      rw [msgsnd, if_pos (by rw [htype]; decide), appended_append, List.map_singleton]
      exact congrArg (· :: []) (text_message w.msg)
    · by_cases hq : q = none
      · simp [hq]
      · obtain ⟨rfl, rfl⟩ := hsome hq
        rw [msgsnd, if_pos (by rw [htype]; decide), appended_append]
        simp [Message.IsCpp, Message.isWanted, MessageBuffer.message, htype, size]
  | _ =>
    exact ⟨ht (by simp), by simp [entry], [], by simp, by simp [hnothing rfl],
      by simp [hnothing rfl]⟩

/-- A statement of a reader on a queue of such messages: it shows what it takes. -/
lemma Reader.runOn_some {lang : Lang} {r r' : Reader} {q : Queue} {q' : Option Queue}
    (hq : AllCpp (some q)) (h : r.runOn lang (some q) = some (q', r')) :
    r'.shows = r.shows ++ (taken (some q) q').map Message.text := by
  obtain ⟨⟨q₁, r₁⟩, hrun, heq⟩ := Option.map_eq_some_iff.mp h
  obtain ⟨rfl, rfl⟩ := Prod.mk.inj heq
  have hmove := reader_cases hrun
  generalize hloc : r.loc = loc at hmove
  cases hmove with
  | receive m hm hle =>
    have hlen := (hq q rfl m (List.mem_of_find?_eq_some hm)).2
    simp [shows, hloc, taken_eraseP hm, text_receive hlen]
  | tooLong m hm hlt =>
    have hlen := (hq q rfl m (List.mem_of_find?_eq_some hm)).2
    have hsize : bufferSize ≤ size lang := by cases lang <;> decide
    omega
  | _ => simp [shows, hloc]

/-! ### What the programs know of their queues -/

section Knowledge

variable {ω ρ : Type*} [DecidableEq ω] [DecidableEq ρ] {o o' : Office ω ρ}

/-- The texts that the writer `i` has sent to a queue. -/
def Office.textsOf (o : Office ω ρ) (i : ω) (id : ℕ) : List (List UInt8) :=
  ((o.sent id).filter fun x => x.1 = .writer i).map fun x => x.2.text

/-- A writer has printed what it has sent, and more if its queue has been removed. -/
structure Prints (o : Office ω ρ) (i : ω) (p : Party Writer) : Prop where
  type : p.prog.loc ≠ .start → p.prog.msg.type = 1
  unopened : p.handle.id = none → p.prog.sent = []
  old : ∀ id, p.handle.id = some id → id < o.next
  own : ∀ id, p.handle.id = some id →
    o.textsOf i id <+: p.prog.sent ∧ (o.queue id ≠ none → o.textsOf i id = p.prog.sent)
  foreign : ∀ id, p.handle.id ≠ some id → o.textsOf i id = []

/-- A reader has shown what it has received, and repeats the last text if its queue has been
removed. -/
structure Shows (o : Office ω ρ) (j : ρ) (p : Party Reader) : Prop where
  unopened : p.handle.id = none → p.prog.shows = []
  own : ∀ id, p.handle.id = some id → ∃ n, (o.queue id ≠ none → n = 0) ∧
    p.prog.shows = (o.got j id).map Message.text ++ List.replicate n p.prog.msg.text.text

variable {i i' : ω} {j : ρ} {p : Party Writer} {r : Party Reader} {id id' : ℕ} {q : Option Queue}

/-- What a writer has sent after a step of somebody. -/
lemma Office.textsOf_sends {x : Sender ω ρ} : (o.sends x id q).textsOf i id' =
    o.textsOf i id' ++
      if x = .writer i ∧ id' = id then (appended (o.queue id) q).map Message.text else [] := by
  by_cases hid : id' = id
  · subst hid
    by_cases hx : x = .writer i
    · simp [textsOf, sends, hx, List.filter_map, Function.comp_def]
    · simp [textsOf, sends, hx, List.filter_map, Function.comp_def]
  · simp [textsOf, sends, hid]

/-- What a writer knows stays true when it sends nothing. -/
lemma Prints.mono (h : Prints o i p) (htexts : ∀ id, o'.textsOf i id = o.textsOf i id)
    (hn : o.next ≤ o'.next) (hq : ∀ id, id < o.next → o.queue id = none → o'.queue id = none) :
    Prints o' i p := by
  refine ⟨h.type, h.unopened, fun id hid => Nat.lt_of_lt_of_le (h.old id hid) hn,
    fun id hid => ?_, fun id hid => by rw [htexts, h.foreign id hid]⟩
  rw [htexts]
  exact ⟨(h.own id hid).1, fun hne => (h.own id hid).2 fun hnone =>
    hne (hq id (h.old id hid) hnone)⟩

omit [DecidableEq ω] in
/-- What a reader knows stays true when it receives nothing. -/
lemma Shows.mono (h : Shows o j r) (hgot : ∀ id, o'.got j id = o.got j id)
    (hq : ∀ id, r.handle.id = some id → o.queue id = none → o'.queue id = none) :
    Shows o' j r := by
  refine ⟨h.unopened, fun id hid => ?_⟩
  obtain ⟨n, hn, hshows⟩ := h.own id hid
  rw [hgot]
  exact ⟨n, fun hne => hn fun hnone => hne (hq id hid hnone), hshows⟩

/-- A writer that calls `create_queue`. -/
lemma Prints.openQueue (h : Prints o i p) (hh : p.handle = .unopened) (hid : id < o.next) :
    Prints o i ⟨.opened id, p.prog⟩ := by
  have hnone : p.handle.id = none := by rw [hh]; rfl
  have htexts : ∀ id', o.textsOf i id' = [] := fun id' => h.foreign id' (by simp [hnone])
  refine ⟨h.type, fun hid' => (by cases hid'), fun id' hid' => ?_, fun id' _ => ?_,
    fun id' _ => htexts id'⟩
  · obtain rfl := Option.some.inj hid'
    exact hid
  · rw [htexts, h.unopened hnone]
    exact ⟨List.prefix_rfl, fun _ => rfl⟩

omit [DecidableEq ω] in
/-- A reader that calls `create_queue`. -/
lemma Shows.openQueue (h : Shows o j r) (hk : Knows o j r) (hh : r.handle = .unopened) :
    Shows o j ⟨.opened id, r.prog⟩ := by
  have hnone : r.handle.id = none := by rw [hh]; rfl
  refine ⟨fun hid' => (by cases hid'), fun id' _ => ⟨0, fun _ => rfl, ?_⟩⟩
  rw [h.unopened hnone, hk.foreign id' (by simp [hnone])]
  rfl

/-- A step of the writer itself. -/
lemma Prints.sends (h : Prints o i p) (hh : p.handle = .opened id) {w : Writer}
    (hg : Grows (o.queue id) q) (htype : w.msg.type = 1) {ts : List (List UInt8)}
    (hsent : w.sent = p.prog.sent ++ ts)
    (hts : o.queue id ≠ none → (appended (o.queue id) q).map Message.text = ts) :
    Prints (o.sends (.writer i) id q) i ⟨.opened id, w⟩ := by
  have hown : p.handle.id = some id := by rw [hh]; rfl
  refine ⟨fun _ => htype, fun hid' => (by cases hid'), fun id' hid' => ?_, fun id' hid' => ?_,
    fun id' hid' => ?_⟩
  · obtain rfl := Option.some.inj hid'
    exact h.old id hown
  · obtain rfl := Option.some.inj hid'
    obtain ⟨hpre, heq⟩ := h.own id hown
    rw [Office.textsOf_sends, if_pos ⟨rfl, rfl⟩, hsent]
    by_cases hq : o.queue id = none
    · rw [hq, appended_none, List.map_nil, List.append_nil]
      refine ⟨hpre.trans (List.prefix_append _ _), fun hne => absurd ?_ hne⟩
      rcases hg with ⟨-, rfl⟩ | ⟨q₀, ms, hsome, -⟩
      · exact Function.update_self ..
      · rw [hq] at hsome
        cases hsome
    · rw [heq hq, hts hq]
      exact ⟨List.prefix_rfl, fun _ => rfl⟩
  · have hne : id' ≠ id := fun heq => hid' (heq ▸ rfl)
    rw [Office.textsOf_sends, if_neg (fun hand => hne hand.2), List.append_nil]
    exact h.foreign id' (by rw [hown]; exact hid')

omit [DecidableEq ω] in
/-- A step of the reader itself. -/
lemma Shows.receives (h : Shows o j r) (hh : r.handle = .opened id) (hq : AllCpp (o.queue id))
    {lang : Lang} {r' : Reader} (hrun : r.prog.runOn lang (o.queue id) = some (q, r')) :
    Shows (o.receives j id q) j ⟨.opened id, r'⟩ := by
  have hown : r.handle.id = some id := by rw [hh]; rfl
  refine ⟨fun hid' => (by cases hid'), fun id' hid' => ?_⟩
  obtain rfl := Option.some.inj hid'
  obtain ⟨n, hn, hshows⟩ := h.own id hown
  rw [Office.got_receives, if_pos ⟨rfl, rfl⟩]
  cases hqueue : o.queue id with
  | none =>
    rw [hqueue] at hrun
    obtain ⟨rfl, hmsg, n', hshows', -⟩ := Reader.runOn_none hrun
    refine ⟨n + n', fun hne => absurd (Function.update_self ..) hne, ?_⟩
    show r'.shows = _ ++ List.replicate (n + n') r'.msg.text.text
    rw [hshows', hshows, hmsg, taken_self, List.append_nil, List.append_assoc,
      List.replicate_append_replicate]
  | some q₀ =>
    rw [hqueue] at hrun hq
    refine ⟨0, fun _ => rfl, ?_⟩
    obtain rfl := hn (by simp [hqueue])
    show r'.shows = _
    rw [Reader.runOn_some hq hrun, hshows]
    simp

end Knowledge

/-! ### Quiet runs -/

section Runs

variable {ω ρ : Type*} [DecidableEq ω] [DecidableEq ρ] {S : Setup ω ρ} {s s' : Family ω ρ}
  {x : Label ω ρ}

/-- Steps of the programs themselves, without signals and without messages of others. -/
def Family.Quiet (_ : Family ω ρ) : Label ω ρ → Prop
  | .writer _ e => e = .run
  | .reader _ e => e = .run
  | .other _ _ => False

/-- All messages of a queue, and all that were ever sent to it, are those of C++ writers. -/
def Uniform (o : Office ω ρ) : Prop :=
  ∀ id, AllCpp (o.queue id) ∧ ∀ m ∈ o.messages id, m.IsCpp

omit [DecidableEq ω] [DecidableEq ρ] in
/-- A writer adds such messages. -/
lemma Uniform.sends {o : Office ω ρ} (h : Uniform o) {i : Sender ω ρ} {id : ℕ} {q : Option Queue}
    (hg : Grows (o.queue id) q) (hnew : ∀ m ∈ appended (o.queue id) q, m.IsCpp) :
    Uniform (o.sends i id q) := by
  intro id'
  by_cases hid : id' = id
  · subst hid
    refine ⟨?_, fun m hm => ?_⟩
    · show AllCpp (Function.update o.queue id' q id')
      rw [Function.update_self]
      rcases hg with ⟨-, rfl⟩ | ⟨q₀, ms, hq, rfl⟩
      · exact fun _ hq₀ => by cases hq₀
      · rintro _ ⟨⟩ m hm
        rcases List.mem_append.mp hm with hold | hm
        · exact (h id').1 q₀ hq m hold
        · rw [hq, appended_append] at hnew
          exact hnew m hm
    · have hm' : m ∈ o.messages id' ∨ m ∈ appended (o.queue id') q := by
        simpa [Office.sends, Office.messages, List.map_map, Function.comp_def] using hm
      exact hm'.elim ((h id').2 m) (hnew m)
  · simpa [Office.sends, Office.messages, Function.update_of_ne hid] using h id'

omit [DecidableEq ω] [DecidableEq ρ] in
/-- A reader takes them. -/
lemma Uniform.receives {o : Office ω ρ} (h : Uniform o) {j : ρ} {id : ℕ} {q : Option Queue}
    (ht : Takes (o.queue id) q) : Uniform (o.receives j id q) := by
  intro id'
  refine ⟨?_, (h id').2⟩
  by_cases hid : id' = id
  · subst hid
    show AllCpp (Function.update o.queue id' q id')
    rw [Function.update_self]
    rcases ht with rfl | ⟨q₀, m, hq, -, rfl⟩
    · exact (h id').1
    · rintro _ ⟨⟩ m' hm'
      exact (h id').1 q₀ hq m' (List.mem_of_mem_eraseP hm')
  · simpa [Office.receives, Function.update_of_ne hid] using (h id').1

omit [DecidableEq ω] [DecidableEq ρ] in
/-- A new queue is empty. -/
lemma Uniform.createQueue {o : Office ω ρ} (h : Uniform o) : Uniform o.createQueue.1 := by
  rcases o.createQueue_cases with ⟨id, -, heq⟩ | ⟨-, heq⟩
  · rw [heq]
    exact h
  · rw [heq]
    intro id
    refine ⟨?_, (h id).2⟩
    by_cases hid : id = o.next
    · subst hid
      show AllCpp (Function.update o.queue o.next (some []) o.next)
      rw [Function.update_self]
      rintro _ ⟨⟩ m hm
      cases hm
    · simpa [Function.update_of_ne hid] using (h id).1

omit [DecidableEq ω] [DecidableEq ρ] in
/-- A queue that has been removed holds nothing. -/
lemma Uniform.remove {o : Office ω ρ} (h : Uniform o) (id : ℕ) : Uniform (o.remove id) := by
  intro id'
  refine ⟨?_, (h id').2⟩
  by_cases hid : id' = id
  · subst hid
    show AllCpp (Function.update o.queue id' none id')
    rw [Function.update_self]
    exact fun _ hq₀ => by cases hq₀
  · simpa [Office.remove, Function.update_of_ne hid] using (h id').1

/-- The invariant of the quiet runs. -/
structure Orderly (s : Family ω ρ) : Prop where
  uniform : Uniform s.office
  prints : ∀ i, Prints s.office i (s.writer i)
  shows : ∀ j, Shows s.office j (s.reader j)

/-- What a program knows stays true in a step that adds nothing to its history. -/
lemma Orderly.mono (h : Orderly s) (hs : S.machine.Reach s) (hmove : S.Move s x s') :
    (∀ i, (∀ id, s'.office.textsOf i id = s.office.textsOf i id) →
        Prints s'.office i (s.writer i)) ∧
      ∀ j, (∀ id, s'.office.got j id = s.office.got j id) → Shows s'.office j (s.reader j) :=
  ⟨fun i htexts => (h.prints i).mono htexts hmove.next_le fun _ hid hq =>
      hmove.gone (Setup.valid hs) hid hq,
    fun j hgot => (h.shows j).mono hgot fun id hid hq =>
      hmove.gone (Setup.valid hs) ((Setup.handles hs).old j id hid) hq⟩

/-- One step keeps the invariant. -/
lemma Orderly.step (h : Orderly s) (hcpp : ∀ i, S.writer i = .cpp) (hs : S.machine.Reach s)
    (hx : s.Quiet x) (hmove : S.Move s x s') : Orderly s' := by
  obtain ⟨hprints, hshows⟩ := h.mono hs hmove
  have hv := Setup.valid hs
  have htexts : ∀ i id, s.office.createQueue.1.textsOf i id = s.office.textsOf i id :=
    fun i id => by rw [Office.textsOf, Office.sent_createQueue, Office.textsOf]
  have hgot : ∀ j id, s.office.createQueue.1.got j id = s.office.got j id :=
    fun j id => by rw [Office.got, Office.received_createQueue, Office.got]
  cases hmove with
  | openWriter i hh =>
    refine ⟨h.uniform.createQueue, fun i' => ?_, fun j => hshows j (hgot j)⟩
    have hold := hprints i' (htexts i')
    by_cases hi : i' = i
    · subst hi
      simpa using hold.openQueue hh (hv.createQueue.lt hv.queue_createQueue)
    · simpa [Function.update_of_ne hi] using hold
  | openReader j hh =>
    refine ⟨h.uniform.createQueue, fun i => hprints i (htexts i), fun j' => ?_⟩
    have hold := hshows j' (hgot j')
    by_cases hj : j' = j
    · subst hj
      have hknows : Knows s.office.createQueue.1 j' (s.reader j') :=
        ((exactly_once hs).knows j').congr Office.received_createQueue
      simpa using hold.openQueue hknows hh
    · simpa [Function.update_of_ne hj] using hold
  | runWriter i id q w hh hrun =>
    rw [hcpp i] at hrun
    obtain ⟨htype, -, ts, hsent, hts, hnew⟩ := Writer.runOn_cpp hrun (h.prints i).type
    have hg := Writer.grows_of_runOn hrun
    refine ⟨h.uniform.sends hg hnew, fun i' => ?_, fun j => hshows j fun _ => rfl⟩
    by_cases hi : i' = i
    · subst hi
      simpa using (h.prints i').sends hh hg htype hsent hts
    · have hold := hprints i' fun id' => by
        rw [Office.textsOf_sends, if_neg (fun hand => hi (Sender.writer.inj hand.1).symm),
          List.append_nil]
      simpa [Function.update_of_ne hi] using hold
  | runReader j id q r hh hl hrun =>
    refine ⟨h.uniform.receives (Reader.takes_of_runOn hrun).1, fun i => hprints i fun _ => rfl,
      fun j' => ?_⟩
    by_cases hj : j' = j
    · subst hj
      simpa using (h.shows j').receives hh (h.uniform id).1 hrun
    · have hold := hshows j' fun id' => by
        rw [Office.got_receives, if_neg (fun hand => hj hand.1), List.append_nil]
      simpa [Function.update_of_ne hj] using hold
  | remove j id hh hl =>
    refine ⟨h.uniform.remove id, fun i => hprints i fun _ => rfl, fun j' => ?_⟩
    have hold := hshows j' fun _ => rfl
    by_cases hj : j' = j
    · subst hj
      have hid : (s.reader j').handle.id = some id := by rw [hh]; rfl
      simp only [Function.update_self]
      exact ⟨fun hid' => (by cases hid'), fun id' hid' => hold.own id' (hid.trans hid')⟩
    · simpa [Function.update_of_ne hj] using hold
  | interruptWriter i hc hl => cases hx
  | interruptReader j hc hl => cases hx
  | other => exact hx.elim

/-- **The texts of a family.** A queue that exists holds what was sent to it and not received, in
order; a writer has printed what it has sent; and a reader shows what it has received. Texts that
are printed or shown beyond that belong to a queue that has been removed. -/
structure AllInOrder (s : Family ω ρ) : Prop where
  received : ∀ id, (s.office.received id).map Prod.snd <+: s.office.messages id
  queued : ∀ id q, s.office.queue id = some q →
    s.office.messages id = (s.office.received id).map Prod.snd ++ q
  printed : ∀ i id, (s.writer i).handle.id = some id →
    s.office.textsOf i id <+: (s.writer i).prog.sent ∧
      (s.office.queue id ≠ none → s.office.textsOf i id = (s.writer i).prog.sent)
  shown : ∀ j id, (s.reader j).handle.id = some id → ∃ n, (s.office.queue id ≠ none → n = 0) ∧
    (s.reader j).prog.shows = (s.office.got j id).map Message.text ++
      List.replicate n (s.reader j).prog.msg.text.text

/-- The invariant of a quiet run. -/
lemma orderly (hcpp : ∀ i, S.writer i = .cpp) (h : S.machine.ReachIf Family.Quiet s) :
    Orderly s := by
  refine h.invariant (I := Orderly) ⟨?_, fun i => ?_, fun j => ?_⟩
    fun s x s' hr ih hq hstep => ih.step hcpp hr.reach hq (Setup.step_cases hstep)
  · exact fun id => ⟨fun _ hq => (by cases hq), fun m hm => (by cases hm)⟩
  · exact ⟨fun hne => absurd rfl hne, fun _ => rfl, fun _ hid => (by cases hid),
      fun _ hid => (by cases hid), fun _ _ => rfl⟩
  · exact ⟨fun _ => rfl, fun _ hid => (by cases hid)⟩

omit [DecidableEq ω] [DecidableEq ρ] in
/-- Readers ask for all messages of C++ writers. -/
lemma wanted_eq_self {q : Queue} (h : ∀ m ∈ q, m.IsCpp) : wanted q = q :=
  List.filter_eq_self.mpr fun m hm => (h m hm).1

/-- **All texts in order.** In every quiet run of any number of C++ writers and of readers of either
language: while a queue exists, every text that a writer has printed is shown by exactly one reader,
or still queued, and none overtakes another. -/
theorem all_in_order (hcpp : ∀ i, S.writer i = .cpp) (h : S.machine.ReachIf Family.Quiet s) :
    AllInOrder s := by
  have horderly := orderly hcpp h
  have haccount : ∀ id, ∃ lost, s.office.messages id =
      (s.office.received id).map Prod.snd ++ (s.office.queue id).getD [] ++ lost ∧
        (s.office.queue id ≠ none → lost = []) := by
    intro id
    obtain ⟨lost, hacc, hlost⟩ := (exactly_once h.reach).account id
    have hqueue : wanted ((s.office.queue id).getD []) = (s.office.queue id).getD [] := by
      refine wanted_eq_self fun m hm => ?_
      cases hq : s.office.queue id with
      | none =>
        rw [hq] at hm
        cases hm
      | some q =>
        rw [hq] at hm
        exact (horderly.uniform id).1 q hq m hm
    rw [wanted_eq_self (horderly.uniform id).2, hqueue] at hacc
    exact ⟨lost, hacc, hlost⟩
  refine ⟨fun id => ?_, fun id q hq => ?_, fun i => (horderly.prints i).own,
    fun j => (horderly.shows j).own⟩
  · obtain ⟨lost, hacc, -⟩ := haccount id
    rw [hacc, List.append_assoc]
    exact List.prefix_append _ _
  · obtain ⟨lost, hacc, hlost⟩ := haccount id
    rw [hacc, hlost (by simp [hq]), hq, List.append_nil]
    rfl

end Runs

/-- A C++ writer, to which `hey` is typed again and again, and two C readers. -/
def greeting : Setup Unit Bool :=
  ⟨fun _ => .cpp, fun _ => .c, fun _ _ => some ⟨[104, 101, 121, 10], by decide, by decide⟩⟩

/-- The writer sends the first text, and one reader displays it. -/
def firstText : List (Label Unit Bool) :=
  List.replicate 5 (.writer () .run) ++ List.replicate 4 (.reader true .run)

/-- The texts after that. -/
theorem all_in_order_greeting :
    ∃ s, greeting.machine.exec greeting.machine.init firstText = some s ∧ AllInOrder s := by
  have hquiet : ∀ x ∈ firstText, ∀ s : Family Unit Bool, s.Quiet x := by
    intro x hx s
    rcases List.mem_append.mp hx with hx | hx
    · rw [List.eq_of_mem_replicate hx]
      rfl
    · rw [List.eq_of_mem_replicate hx]
      rfl
  refine ⟨_, rfl, ?_⟩
  exact all_in_order (S := greeting) (fun _ => rfl)
    (Machine.ReachIf.exec .init firstText hquiet rfl)

end MessageQueue

end PosixIntro
