import FlowGraph.Event
import FlowGraph.Fault

/-!
# Outcomes

How a computation that may end in a fault is reasoned about. Most faults are brought about by the
caller. Two of them would be flaws of the graph itself, and `Meets` excludes them on the way to a
property of the result.
-/

namespace FlowGraph

set_option autoImplicit false

variable {ε α β : Type}

theorem bind_eq_ok_iff {x : Except ε α} {g : α → Except ε β} {b : β} :
    (x >>= g) = .ok b ↔ ∃ a, x = .ok a ∧ g a = .ok b := by
  cases x with
  | ok a =>
    constructor
    · intro h
      exact ⟨a, rfl, h⟩
    · rintro ⟨a', ha, h⟩
      cases ha
      exact h
  | error e =>
    constructor
    · intro h
      cases h
    · rintro ⟨a, ha, _⟩
      cases ha

theorem ok_bind (a : α) (g : α → Except ε β) : (Except.ok a >>= g) = g a := rfl

theorem eq_ok_of_toOption {x : Except ε α} {a : α} (h : x.toOption = some a) : x = .ok a := by
  cases x with
  | ok b => exact congrArg Except.ok (Option.some.inj h)
  | error e => cases h

theorem eq_error_of_map {x : Except ε α} {g : α → β} {e : ε} (h : x.map g = .error e) :
    x = .error e := by
  cases x with
  | ok a => cases h
  | error e' => exact congrArg Except.error (Except.error.inj h)

section steps

variable {σ : Type} {x : EStateM ε σ α} {g : α → EStateM ε σ β} {s s' t : σ} {a : α} {b : β}

theorem step_bind_of_ok (h : x s = .ok a t) : (x >>= g) s = g a t := by
  change EStateM.bind x g s = _
  rw [EStateM.bind, h]

theorem step_bind_of_error {e : ε} (h : x s = .error e t) : (x >>= g) s = .error e t := by
  change EStateM.bind x g s = _
  rw [EStateM.bind, h]

theorem step_bind_congr (h : x s = x t) : (x >>= g) s = (x >>= g) t := by
  change EStateM.bind x g s = EStateM.bind x g t
  rw [EStateM.bind, EStateM.bind, h]

theorem step_bind_ok_iff :
    (x >>= g) s = .ok b s' ↔ ∃ a t, x s = .ok a t ∧ g a t = .ok b s' := by
  cases hx : x s with
  | ok a t =>
    rw [step_bind_of_ok hx]
    constructor
    · intro h
      exact ⟨a, t, rfl, h⟩
    · rintro ⟨a', t', ha, h⟩
      cases ha
      exact h
  | error e t =>
    rw [step_bind_of_error hx]
    constructor
    · intro h
      cases h
    · rintro ⟨a', t', ha, _⟩
      cases ha

end steps

namespace Logged

@[simp] theorem outcome_lift (x : Except ε α) : (liftM x : Logged ε α).outcome = x := rfl

@[simp] theorem outcome_report (e : Event) : (report e : Logged ε Unit).outcome = .ok () := rfl

theorem outcome_bind (x : Logged ε α) (g : α → Logged ε β) :
    (x >>= g).outcome = x.outcome >>= fun a => (g a).outcome := by
  change (Logged.bind x g).outcome = _
  unfold Logged.bind
  cases x.outcome with
  | ok a => rfl
  | error e => rfl

theorem lift_ok_bind (a : α) (g : α → Logged ε β) :
    ((liftM (Except.ok a : Except ε α) : Logged ε α) >>= g) = g a := rfl

theorem bind_of_ok {x : Logged ε α} {a : α} {log : List Event} (h : x = ⟨.ok a, log⟩)
    (g : α → Logged ε β) : (x >>= g) = ⟨(g a).outcome, log ++ (g a).log⟩ := by
  rw [h]
  rfl

end Logged

/-- The faults that would show a flaw of the graph and not of its use. -/
def Fault.isInternal : Fault → Bool
  | asymmetricEdge _ _ | remainingPredecessors | malformedInstruction _ => true
  | deadBlock _ | deletedInstruction _ | remainingSuccessors => false

/-- The computation has a result with `P`, or ends in a fault of the caller. -/
def Meets (P : α → Prop) : Except Fault α → Prop
  | .ok a => P a
  | .error e => e.isInternal = false

namespace Meets

variable {P Q : α → Prop} {R : β → Prop} {x : Except Fault α}

theorem bind {g : α → Except Fault β} (hx : Meets P x) (hg : ∀ a, P a → Meets R (g a)) :
    Meets R (x >>= g) := by
  cases x with
  | ok a => exact hg a hx
  | error e => exact hx

theorem mono (hx : Meets P x) (h : ∀ a, P a → Q a) : Meets Q x := by
  cases x with
  | ok a => exact h a hx
  | error e => exact hx

theorem of_ok {a : α} (hx : Meets P x) (h : x = .ok a) : P a := by
  subst h
  exact hx

theorem not_internal {e : Fault} (hx : Meets P x) (h : x = .error e) : e.isInternal = false := by
  subst h
  exact hx

end Meets

end FlowGraph
