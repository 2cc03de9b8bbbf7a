import PosixIntro.ControlTower.Model

set_option relaxedAutoImplicit false
set_option autoImplicit false

/-!
# Landings under every schedule

The runway is used by one airplane at a time: what the airplanes write in their sections are whole
landings, one after the other, in all programs of `lab04` and `lab06`. The programs differ in where
a request can stand.

## Main definitions

* `LandInOrder` — the airplanes have landed in an order, or are about to.

## Main results

* `landings` — in C and Rust, an airplane lands after its request, and no landing is interrupted by
  another landing.
* `whole_lines` — in `cc_lab04.cc` the whole output consists of whole requests and whole landings.
* `requested_first`, `farewell_last` — in `cc_lab06.cc` an airplane lands after all requests up to
  its own, and the main thread takes its leave after all landings.
* `tower_ends` — every run ends with all threads returned.
-/

namespace PosixIntro

namespace ControlTower

variable {k : Guard} {v : Version} {s : State}

/-- The guarded actions of `h` are the landings of the airplanes in the order `order`, where only the
last one can be incomplete. -/
structure LandInOrder (v : Version) (h : List (Event Thread String)) (order : List (Fin NO_TH)) :
    Prop where
  nodup : order.Nodup
  upper : critical h <+: flat (order.map fun n => (some n, landing (airplaneId n) v))
  lower : flat (order.dropLast.map fun n => (some n, landing (airplaneId n) v)) <+: critical h

/-- The only section of an airplane that writes its request without the lock. -/
lemma blocks_one (hkv : ¬ (k = .mutex ∧ v = .cpp)) (n : Fin NO_TH) :
    blocks (script k v (some n)) = [landing (airplaneId n) v] := by
  rw [blocks_airplanes, if_neg hkv]

/-- Only the airplanes have sections. -/
lemma exists_some {i : Thread} (h : blocks (script k v i) ≠ []) : ∃ n, some n = i := by
  cases i with
  | none => exact absurd (blocks_main k v) h
  | some n => exact ⟨n, rfl⟩

/-- **One landing at a time**, in every program whose airplanes take the lock once. When all threads
have returned, every airplane has landed. -/
lemma exists_landInOrder (hkv : ¬ (k = .mutex ∧ v = .cpp)) (h : (team k v).machine.Reach s) :
    (∃ order, LandInOrder v s.data.history order) ∧
      ((∀ i, s.loc i = .gone) → ∃ order : List (Fin NO_TH), order.Nodup ∧ (∀ n, n ∈ order) ∧
        critical s.data.history = flat (order.map fun n => (some n, landing (airplaneId n) v))) := by
  refine ⟨?_, fun hgone => ?_⟩
  · obtain ⟨order, hle, hge, hsec⟩ := ForkJoin.exists_order h
    have hpre : ∀ i, sectionsOf i order <+: blocks (script k v i) := fun i => ⟨_, hsec i⟩
    obtain ⟨ns, hnodup, rfl⟩ := exists_nodup hpre (blocks_one hkv) fun _ => exists_some
    rw [← List.map_dropLast] at hge
    exact ⟨ns, hnodup, hle, hge⟩
  · obtain ⟨-, order, hcrit, hsec⟩ := ForkJoin.exists_order_of_gone h hgone
    have hpre : ∀ i, sectionsOf i order <+: blocks (script k v i) := fun i =>
      ⟨[], by rw [List.append_nil]; exact hsec i⟩
    obtain ⟨ns, hnodup, rfl⟩ := exists_nodup hpre (blocks_one hkv) fun _ => exists_some
    exact ⟨ns, hnodup, mem_of_sectionsOf_eq hsec (blocks_one hkv) (Option.some_injective _), hcrit⟩

/-! ### C and Rust -/

/-- What an airplane does in C and Rust. -/
lemma acts_airplanes (hv : v ≠ .cpp) (n : Fin NO_TH) : acts (script k v (some n)) =
    (request (airplaneId n) v).map (false, ·) ++ (landing (airplaneId n) v).map (true, ·) := by
  cases v with
  | cpp => exact absurd rfl hv
  | c => cases k <;> rfl
  | rust => cases k <;> rfl

/-- **Landings in C and Rust.** In every reachable state, whatever the schedule, the landings are
those of different airplanes, one after the other. Every airplane writes its request before it
lands. When all threads have returned, every airplane has landed. -/
theorem landings (hv : v ≠ .cpp) (h : (team k v).machine.Reach s) :
    (∃ order, LandInOrder v s.data.history order) ∧
      (∀ n, trace (some n) s.data.history <+: (request (airplaneId n) v).map (false, ·) ++
        (landing (airplaneId n) v).map (true, ·)) ∧
      ((∀ i, s.loc i = .gone) → ∃ order : List (Fin NO_TH), order.Nodup ∧ (∀ n, n ∈ order) ∧
        critical s.data.history =
          flat (order.map fun n => (some n, landing (airplaneId n) v))) := by
  obtain ⟨horder, hgone⟩ := exists_landInOrder (fun hkv => hv hkv.2) h
  refine ⟨horder, fun n => ?_, hgone⟩
  rw [← acts_airplanes (k := k) hv]
  exact ⟨_, ForkJoin.program_order h (some n)⟩

/-- The airplanes of `c_lab04.c` can all land. -/
theorem landings_returned : ∃ s, (team .mutex .c).machine.Reach s ∧
    ∃ order : List (Fin NO_TH), order.Nodup ∧ (∀ n, n ∈ order) ∧
      critical s.data.history = flat (order.map fun n => (some n, landing (airplaneId n) .c)) := by
  obtain ⟨s, -, hs, hgone⟩ := ForkJoin.exists_end (forked .mutex .c) .init
  exact ⟨s, hs, (landings (k := .mutex) (v := .c) (by decide) hs).2.2 hgone⟩

/-! ### `cc_lab04.cc` -/

/-- The two sections of an airplane in `cc_lab04.cc`. -/
def part (x : Fin NO_TH × Bool) : List String :=
  if x.2 then landing (airplaneId x.1) .cpp else request (airplaneId x.1) .cpp

/-- A landing is no request. -/
lemma part_injective (n : Fin NO_TH) : Function.Injective fun b => part (n, b) := by
  intro b b' h
  have hlen := congrArg List.length h
  cases b <;> cases b' <;> first | rfl | simp [part, request, landing] at hlen

/-- The threads of `cc_lab04.cc` write in sections only. -/
lemma acts_guarded (i : Thread) : ∀ x ∈ acts (script .mutex .cpp i), x.1 = true := by
  cases i with
  | none => simp [script, main, addAirplanes, waitThreads, farewell, acts, List.finRange, NO_TH]
  | some n => simp [script, airplanes, acts, or_imp, forall_and]

/-- The sections of `cc_lab04.cc` are requests and landings, of each airplane at most one of each. -/
lemma exists_parts {order : List (Thread × List String)}
    (h : ∀ i, sectionsOf i order <+: blocks (script .mutex .cpp i)) :
    ∃ ps : List (Fin NO_TH × Bool), order = ps.map (fun x => (some x.1, part x)) ∧
      ∀ n, ps.filter (fun x => x.1 = n) <+: [(n, false), (n, true)] := by
  have hmem : ∀ x ∈ order, ∃ p : Fin NO_TH × Bool, (some p.1, part p) = x := by
    rintro ⟨i, body⟩ hx
    have hb := mem_of_sectionsOf h hx
    cases i with
    | none => simp [blocks_main] at hb
    | some n =>
      rcases (by simpa [blocks_airplanes] using hb : body = request (airplaneId n) .cpp ∨
        body = landing (airplaneId n) .cpp) with rfl | rfl
      · exact ⟨(n, false), rfl⟩
      · exact ⟨(n, true), rfl⟩
  obtain ⟨ps, hps⟩ := exists_indices hmem
  refine ⟨ps, hps, fun n => ?_⟩
  have hfilter : ps.filter (fun x => x.1 = n) =
      ((ps.filter fun x => x.1 = n).map Prod.snd).map (n, ·) := by
    rw [List.map_map]
    refine (List.map_id _).symm.trans (List.map_congr_left fun x hx => ?_)
    obtain ⟨-, hx⟩ := List.mem_filter.mp hx
    exact Prod.ext (by simpa using hx) rfl
  have hn : ((ps.filter fun x => x.1 = n).map Prod.snd).map (fun b => part (n, b)) <+:
      [false, true].map fun b => part (n, b) := by
    have hsec : sectionsOf (some n) order = (ps.filter fun x => x.1 = n).map part := by
      rw [hps, sectionsOf, List.filter_map, List.map_map]
      simp [Function.comp_def]
    have hmap : ((ps.filter fun x => x.1 = n).map Prod.snd).map (fun b => part (n, b)) =
        (ps.filter fun x => x.1 = n).map part := by
      rw [← Function.comp_def part, ← List.map_map, ← hfilter]
    rw [hmap, ← hsec]
    exact h (some n)
  obtain ⟨bs, hbs, hmap⟩ := List.prefix_map_iff.mp hn
  rw [hfilter, (part_injective n).list_map hmap]
  exact hbs.map (n, ·)

/-- An airplane has one request and one landing at most. -/
lemma nodup_of_parts {ps : List (Fin NO_TH × Bool)}
    (h : ∀ n, ps.filter (fun x => x.1 = n) <+: [(n, false), (n, true)]) : ps.Nodup := by
  rw [List.nodup_iff_count_le_one]
  rintro ⟨n, b⟩
  have hcount : ps.count (n, b) = (ps.filter fun x => x.1 = n).count (n, b) := by
    rw [List.count_filter]
    simp
  rw [hcount]
  refine (h n).sublist.count_le _ |>.trans ?_
  cases b <;> simp

/-- An airplane lands after its request. -/
lemma request_of_landing {ps : List (Fin NO_TH × Bool)}
    (h : ∀ n, ps.filter (fun x => x.1 = n) <+: [(n, false), (n, true)]) {n : Fin NO_TH}
    (hn : (n, true) ∈ ps) : (n, false) ∈ ps := by
  have hmem : (n, true) ∈ ps.filter fun x => x.1 = n := List.mem_filter.mpr ⟨hn, by simp⟩
  suffices (n, false) ∈ ps.filter fun x => x.1 = n from (List.mem_filter.mp this).1
  obtain ⟨t, ht⟩ := h n
  match hl : ps.filter (fun x => x.1 = n) with
  | [] => simp [hl] at hmem
  | x :: _ =>
    rw [hl] at ht
    obtain rfl : x = (n, false) := (List.cons.inj ht).1
    rw [hl]
    exact List.mem_cons_self

/-- **Whole lines.** The whole output of `cc_lab04.cc` consists of requests and landings, one after
the other, where only the last one can be incomplete: no line is torn apart, although a line is
written in pieces, and no request stands inside a landing. Every airplane lands after its request.
When all threads have returned, every airplane has asked and landed. -/
theorem whole_lines (h : (team .mutex .cpp).machine.Reach s) :
    (∃ ps : List (Fin NO_TH × Bool), ps.Nodup ∧ s.data.data <+: ps.flatMap part ∧
      ps.dropLast.flatMap part <+: s.data.data ∧
      ∀ qs n, qs <+: ps → (n, true) ∈ qs → (n, false) ∈ qs) ∧
    ((∀ i, s.loc i = .gone) → ∃ ps : List (Fin NO_TH × Bool), ps.Nodup ∧ (∀ x, x ∈ ps) ∧
      s.data.data = ps.flatMap part) := by
  refine ⟨?_, fun hgone => ?_⟩
  · obtain ⟨order, hle, hge, hsec⟩ := writers_serial acts_guarded h
    obtain ⟨ps, rfl, hps⟩ := exists_parts fun i => ⟨_, hsec i⟩
    refine ⟨ps, nodup_of_parts hps, ?_, ?_, fun qs n hqs => ?_⟩
    · rwa [List.flatMap_map] at hle
    · rwa [← List.map_dropLast, List.flatMap_map] at hge
    · exact request_of_landing fun m => (hqs.filter _).trans (hps m)
  · obtain ⟨order, hout, hsec⟩ := writers_serial_of_gone acts_guarded h hgone
    obtain ⟨ps, rfl, hps⟩ := exists_parts fun i => ⟨[], by rw [hsec i, List.append_nil]⟩
    refine ⟨ps, nodup_of_parts hps, ?_, by rw [hout, List.flatMap_map]⟩
    rintro ⟨n, b⟩
    have hlen := congrArg List.length (hsec (some n))
    have hfilter : (ps.filter fun x => x.1 = n) = [(n, false), (n, true)] := by
      refine (hps n).eq_of_length ?_
      simpa [blocks_airplanes, sectionsOf, List.filter_map, Function.comp_def] using hlen
    have hmem : (n, b) ∈ ps.filter fun x => x.1 = n := by
      rw [hfilter]
      cases b <;> simp
    exact (List.mem_filter.mp hmem).1

/-- The airplanes of `cc_lab04.cc` can all ask and land. -/
theorem whole_lines_returned : ∃ s, (team .mutex .cpp).machine.Reach s ∧
    ∃ ps : List (Fin NO_TH × Bool), ps.Nodup ∧ (∀ x, x ∈ ps) ∧ s.data.data = ps.flatMap part := by
  obtain ⟨s, -, hs, hgone⟩ := ForkJoin.exists_end (forked .mutex .cpp) .init
  exact ⟨s, hs, (whole_lines hs).2 hgone⟩

/-! ### `cc_lab06.cc` -/

/-- What the main thread of `cc_lab06.cc` has done before it creates airplane `n`. -/
def before (n : Fin NO_TH) : List (Part Thread String) :=
  ((List.finRange NO_TH).take n).flatMap (fun m =>
    (request (airplaneId m) .cpp).map .free ++ [.spawn (some m)]) ++
      (request (airplaneId n) .cpp).map .free

/-- What the main thread of `cc_lab06.cc` does after that. -/
def behind (n : Fin NO_TH) : List (Part Thread String) :=
  ((List.finRange NO_TH).drop (n + 1)).flatMap (fun m =>
    (request (airplaneId m) .cpp).map .free ++ [.spawn (some m)]) ++
      (waitThreads ++ (farewell .semaphore .cpp).map .free)

/-- The airplanes before airplane `n`, itself, and those after it. -/
lemma finRange_split (n : Fin NO_TH) : List.finRange NO_TH =
    (List.finRange NO_TH).take n ++ n :: (List.finRange NO_TH).drop (n + 1) := by
  conv_lhs => rw [← List.take_append_drop n.val (List.finRange NO_TH)]
  rw [List.drop_eq_getElem_cons (by simp), List.getElem_finRange]
  rfl

/-- The creation of airplane `n` in the code of the main thread. -/
lemma main_eq (n : Fin NO_TH) :
    script .semaphore .cpp none = before n ++ .spawn (some n) :: behind n ∧
      .spawn (some n) ∉ before n := by
  constructor
  · rw [script, main, addAirplanes, before, behind]
    conv_lhs => rw [finRange_split n]
    simp
  · intro hmem
    obtain ⟨m, hm, hnm⟩ : ∃ m ∈ (List.finRange NO_TH).take n, m = n := by
      simpa [before] using hmem
    obtain ⟨i, hi, hget⟩ := List.mem_take_iff_getElem.mp hm
    rw [List.getElem_finRange, hnm] at hget
    have hval := congrArg Fin.val hget
    simp only [Fin.val_cast] at hval
    omega

/-- What the main thread has written when it creates airplane `n`. -/
lemma acts_before (n : Fin NO_TH) : (acts (before n)).map Prod.snd =
    ((List.finRange NO_TH).take (n + 1)).flatMap fun m => request (airplaneId m) .cpp := by
  have hacts : ∀ ns : List (Fin NO_TH), (acts (ns.flatMap (fun m =>
      (request (airplaneId m) .cpp).map .free ++ [.spawn (some m)]) : List (Part Thread String))).map
        Prod.snd = ns.flatMap fun m => request (airplaneId m) .cpp := by
    intro ns
    induction ns with
    | nil => rfl
    | cons m ns ih =>
      rw [List.flatMap_cons, ForkJoin.acts_append, ForkJoin.acts_append, ForkJoin.acts_map_free,
        List.map_append, List.map_append, ForkJoin.map_snd_free, ih, List.flatMap_cons]
      simp [acts]
  have hfree : (acts ((request (airplaneId n) .cpp).map .free : List (Part Thread String))).map
      Prod.snd = request (airplaneId n) .cpp := by
    rw [ForkJoin.acts_map_free, ForkJoin.map_snd_free]
  rw [before, ForkJoin.acts_append, List.map_append, hacts, hfree, List.take_succ_eq_append_getElem
    (by simp), List.flatMap_append, List.getElem_finRange]
  simp

/-- The parts before the first occurrence of a part. -/
lemma prefix_of_eq {ps qs as bs : List (Part Thread String)} {p : Part Thread String}
    (h : as ++ p :: bs = ps ++ p :: qs) (hp : p ∉ as) : as <+: ps := by
  rcases List.append_eq_append_iff.mp h with ⟨c, rfl, -⟩ | ⟨c, rfl, hc⟩
  · exact List.prefix_append _ _
  · rcases c with _ | ⟨q, c⟩
    · simp
    · obtain ⟨rfl, -⟩ := List.cons.inj hc
      simp at hp

/-- **Requests come first.** When airplane `n` writes anything, the main thread has written the
requests of all airplanes up to `n`. -/
lemma requested_first (h : (team .semaphore .cpp).machine.Reach s)
    {pre post : List (Event Thread String)} {e : Event Thread String}
    (he : s.data.history = pre ++ e :: post) {n : Fin NO_TH} (hn : e.thread = some n) :
    (((List.finRange NO_TH).take (n + 1)).flatMap fun m => request (airplaneId m) .cpp) <+:
      (trace none pre).map Prod.snd := by
  obtain ⟨p₁, p₂, hmain, hpre⟩ := ForkJoin.spawned_first (forked .semaphore .cpp)
    (blocks_main .semaphore .cpp) h he (by rw [hn]; exact Option.some_ne_none n)
  rw [hn] at hmain
  obtain ⟨hbefore, hnot⟩ := main_eq n
  obtain ⟨c, rfl⟩ := prefix_of_eq (hbefore.symm.trans hmain) hnot
  rw [← acts_before]
  rw [ForkJoin.acts_append] at hpre
  exact ((List.prefix_append _ _).trans hpre).map _

/-- **The main thread takes its leave last.** When the main thread writes anything after the
requests, every airplane has landed. -/
lemma farewell_last (h : (team .semaphore .cpp).machine.Reach s)
    {pre post : List (Event Thread String)} {e : Event Thread String}
    (he : s.data.history = pre ++ e :: post) (hn : e.thread = none)
    (hlen : ((List.finRange NO_TH).flatMap fun m => request (airplaneId m) .cpp).length ≤
      (trace none pre).length) (n : Fin NO_TH) :
    trace (some n) pre = (landing (airplaneId n) .cpp).map (true, ·) := by
  have hmain : script .semaphore .cpp none = (addAirplanes .semaphore .cpp ++
      (((List.finRange NO_TH).take n).map some).map .join) ++ .join (some n) ::
        ((((List.finRange NO_TH).drop (n + 1)).map some).map .join ++
          (farewell .semaphore .cpp).map .free) := by
    rw [script, main, waitThreads]
    conv_lhs => rw [finRange_split n]
    simp
  have hacts := ForkJoin.joined_before (blocks_main .semaphore .cpp) h he hn hmain (by
    rw [ForkJoin.acts_append, ForkJoin.acts_map_join, List.append_nil]
    exact hlen)
  rw [hacts]
  simp [team, writers, script, airplanes, acts]

/-- **The output of `cc_lab06.cc`.** In every reachable state, whatever the schedule, the landings
are those of different airplanes, one after the other; an airplane lands after the requests of all
airplanes up to its own; and what the main thread writes after the requests it writes when every
airplane has landed. -/
theorem main_first_and_last (h : (team .semaphore .cpp).machine.Reach s) :
    (∃ order, LandInOrder .cpp s.data.history order) ∧
      ∀ pre e post, s.data.history = pre ++ e :: post →
        (∀ n : Fin NO_TH, e.thread = some n →
          (((List.finRange NO_TH).take (n + 1)).flatMap fun m => request (airplaneId m) .cpp) <+:
            (trace none pre).map Prod.snd) ∧
        (e.thread = none →
          ((List.finRange NO_TH).flatMap fun m => request (airplaneId m) .cpp).length ≤
            (trace none pre).length →
          ∀ n : Fin NO_TH,
            trace (some n) pre = (landing (airplaneId n) .cpp).map (true, ·)) := by
  refine ⟨(exists_landInOrder (by simp) h).1, fun pre e post he => ⟨fun n hn => ?_,
    fun hn hlen n => ?_⟩⟩
  · exact requested_first h he hn
  · exact farewell_last h he hn hlen n

/-- The first airplane of `cc_lab06.cc` has got permission: the main thread has written its request. -/
theorem main_first_and_last_granted : ∃ s pre e, (team .semaphore .cpp).machine.Reach s ∧
    s.data.history = pre ++ [e] ∧ e.thread = some 0 ∧
      (((List.finRange NO_TH).take 1).flatMap fun m => request (airplaneId m) .cpp) <+:
        (trace none pre).map Prod.snd := by
  obtain ⟨s, hs, hpre, he⟩ : ∃ s, (team .semaphore .cpp).machine.exec
      (team .semaphore .cpp).machine.init [.run none (), .run none (), .run none (), .run none (),
        .run none (), .run none (), .run (some 0) (), .run (some 0) (), .run (some 0) ()] = some s ∧
      s.data.history = s.data.history.take 4 ++
        [⟨some 0, true, "Control tower => Airplane "⟩] ∧
      (some 0 : Thread) = some 0 := ⟨_, rfl, rfl, rfl⟩
  have hr := Machine.reach_of_exec hs
  exact ⟨s, _, _, hr, hpre, he, ((main_first_and_last hr).2 _ _ [] hpre).1 0 he⟩

/-! ### The end of a run -/

/-- **Every run ends with all threads returned.** -/
theorem tower_ends {tr : List (State × Label Thread Unit)} (h : (team k v).machine.Path tr s) :
    tr.countP ForkJoin.isRun ≤ ForkJoin.left (team k v).machine.init ∧
      (tr.countP ForkJoin.isRun = ForkJoin.left (team k v).machine.init ↔ ∀ i, s.loc i = .gone) ∧
      ((∃ i, s.loc i ≠ .gone) → ∃ i s', (team k v).machine.step s (.run i ()) = some s') :=
  ForkJoin.run_ends (forked k v) h

/-- In `c_lab06.c` the first airplane has been granted the runway, the wait of the second one has
been interrupted, and some thread can go on. -/
theorem tower_ends_interrupted : ∃ (tr : List (State × Label Thread Unit)) (s : State),
    (team .semaphore .c).machine.Path tr s ∧ s.sem () = 0 ∧
      (∃ x ∈ tr, x.2 = .eintr (some 1)) ∧
      tr.countP ForkJoin.isRun ≤ ForkJoin.left (team .semaphore .c).machine.init ∧
      ∃ i s', (team .semaphore .c).machine.step s (.run i ()) = some s' := by
  have hrun : ∃ s, (team .semaphore .c).machine.exec (team .semaphore .c).machine.init
      (List.replicate 3 (.run none ()) ++ List.replicate 3 (.run (some 0) ()) ++
        List.replicate 2 (.run (some 1) ()) ++ [.eintr (some 1)]) = some s ∧ s.sem () = 0 ∧
      s.loc none ≠ .gone := ⟨_, rfl, rfl, by simp [team]⟩
  obtain ⟨s, hexec, hsem, hne⟩ := hrun
  obtain ⟨tr, hp, hlabels⟩ := Machine.exists_path_of_exec hexec
  obtain ⟨hle, -, hcan⟩ := tower_ends hp
  refine ⟨tr, s, hp, hsem, ?_, hle, hcan ⟨none, hne⟩⟩
  have hmem : (.eintr (some 1) : Label Thread Unit) ∈ tr.map Prod.snd := by
    rw [hlabels]
    simp
  obtain ⟨x, hx, heq⟩ := List.mem_map.mp hmem
  exact ⟨x, hx, heq⟩

end ControlTower

end PosixIntro
