import PosixIntro.Concurrency.Machine

set_option relaxedAutoImplicit false
set_option autoImplicit false

/-!
# Two processes over shared state

Two processes with local states of their own move in turn over a state that they share. The
environment may change the shared state as well.

## Main definitions

* `Duo`, `Duo.State`, `Duo.machine` — two processes, their joint states and their interleavings.

## Main results

* `Duo.step_cases` — every step is a step of one of the three.
* `Duo.invariant` — the invariant rule, process by process.
-/

namespace PosixIntro

/-- Two processes: how each of them and the environment moves, and where they start. A label of
type `α`, `β` or `ε` resolves the choices that are not the program's own. -/
structure Duo (σ A B α β ε : Type*) where
  /-- The shared state at the start. -/
  shared₀ : σ
  /-- The local state of the left process at the start. -/
  left₀ : A
  /-- The local state of the right process at the start. -/
  right₀ : B
  /-- A step of the left process; `none` when it blocks. -/
  left : α → σ → A → Option (σ × A)
  /-- A step of the right process; `none` when it blocks. -/
  right : β → σ → B → Option (σ × B)
  /-- A step of the environment. -/
  env : ε → σ → Option σ

/-- A joint state. -/
@[ext]
structure Duo.State (σ A B : Type*) where
  /-- The shared state. -/
  shared : σ
  /-- The left process. -/
  left : A
  /-- The right process. -/
  right : B

/-- Who moves. -/
inductive Duo.Label (α β ε : Type*) where
  | left (a : α)
  | right (b : β)
  | env (e : ε)

namespace Duo

variable {σ A B α β ε : Type*} (P : Duo σ A B α β ε)

/-- The interleavings of two processes. -/
def machine : Machine (State σ A B) (Label α β ε) where
  init := ⟨P.shared₀, P.left₀, P.right₀⟩
  step s
    | .left a => (P.left a s.shared s.left).map fun r => ⟨r.1, r.2, s.right⟩
    | .right b => (P.right b s.shared s.right).map fun r => ⟨r.1, s.left, r.2⟩
    | .env e => (P.env e s.shared).map fun d => ⟨d, s.left, s.right⟩

variable {P}

/-! ### Single steps -/

/-- A step of the left process. -/
lemma step_left {s : State σ A B} {a : α} {d : σ} {l : A}
    (h : P.left a s.shared s.left = some (d, l)) :
    P.machine.step s (.left a) = some ⟨d, l, s.right⟩ := by
  simp [machine, h]

/-- A step of the right process. -/
lemma step_right {s : State σ A B} {b : β} {d : σ} {r : B}
    (h : P.right b s.shared s.right = some (d, r)) :
    P.machine.step s (.right b) = some ⟨d, s.left, r⟩ := by
  simp [machine, h]

/-- What a step of the left process does. -/
lemma of_step_left {s s' : State σ A B} {a : α} (h : P.machine.step s (.left a) = some s') :
    ∃ d l, P.left a s.shared s.left = some (d, l) ∧ s' = ⟨d, l, s.right⟩ := by
  obtain ⟨⟨d, l⟩, hl, rfl⟩ := Option.map_eq_some_iff.mp h
  exact ⟨d, l, hl, rfl⟩

/-- What a step of the right process does. -/
lemma of_step_right {s s' : State σ A B} {b : β} (h : P.machine.step s (.right b) = some s') :
    ∃ d r, P.right b s.shared s.right = some (d, r) ∧ s' = ⟨d, s.left, r⟩ := by
  obtain ⟨⟨d, r⟩, hr, rfl⟩ := Option.map_eq_some_iff.mp h
  exact ⟨d, r, hr, rfl⟩

/-- Everything one step can do. -/
theorem step_cases {s s' : State σ A B} {x : Label α β ε} (h : P.machine.step s x = some s') :
    (∃ a d l, x = .left a ∧ P.left a s.shared s.left = some (d, l) ∧ s' = ⟨d, l, s.right⟩) ∨
      (∃ b d r, x = .right b ∧ P.right b s.shared s.right = some (d, r) ∧
        s' = ⟨d, s.left, r⟩) ∨
      (∃ e d, x = .env e ∧ P.env e s.shared = some d ∧ s' = ⟨d, s.left, s.right⟩) := by
  cases x with
  | left a =>
    obtain ⟨d, l, hl, rfl⟩ := of_step_left h
    exact .inl ⟨a, d, l, rfl, hl, rfl⟩
  | right b =>
    obtain ⟨d, r, hr, rfl⟩ := of_step_right h
    exact .inr (.inl ⟨b, d, r, rfl, hr, rfl⟩)
  | env e =>
    obtain ⟨d, he, rfl⟩ := Option.map_eq_some_iff.mp h
    exact .inr (.inr ⟨e, d, rfl, he, rfl⟩)

/-- **The invariant rule, process by process.** A property that holds at the start and is kept by
every admitted step of either process and of the environment holds in every state reached by
admitted steps. -/
theorem invariant {ok : State σ A B → Label α β ε → Prop} {I : σ → A → B → Prop}
    (h₀ : I P.shared₀ P.left₀ P.right₀)
    (hleft : ∀ d l r a d' l', P.machine.ReachIf ok ⟨d, l, r⟩ → ok ⟨d, l, r⟩ (.left a) →
      I d l r → P.left a d l = some (d', l') → I d' l' r)
    (hright : ∀ d l r b d' r', P.machine.ReachIf ok ⟨d, l, r⟩ → ok ⟨d, l, r⟩ (.right b) →
      I d l r → P.right b d r = some (d', r') → I d' l r')
    (henv : ∀ d l r e d', P.machine.ReachIf ok ⟨d, l, r⟩ → ok ⟨d, l, r⟩ (.env e) →
      I d l r → P.env e d = some d' → I d' l r)
    {s : State σ A B} (h : P.machine.ReachIf ok s) : I s.shared s.left s.right := by
  refine h.invariant (I := fun s => I s.shared s.left s.right) h₀ fun s x s' hr ih hok hs => ?_
  rcases step_cases hs with ⟨a, d, l, rfl, hl, rfl⟩ | ⟨b, d, r, rfl, hb, rfl⟩ |
    ⟨e, d, rfl, he, rfl⟩
  · exact hleft _ _ _ _ _ _ hr hok ih hl
  · exact hright _ _ _ _ _ _ hr hok ih hb
  · exact henv _ _ _ _ _ hr hok ih he

end Duo

end PosixIntro
