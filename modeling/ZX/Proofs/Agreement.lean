import Mathlib
import ZX.Proofs.Outcome

/-!
# Computations that agree

`Agrees x y P` says that two computations are one and that its result, if there is one, has `P`. When
two versions of a program differ in an operation on which they agree for all operands with an
invariant, they agree as a whole: the invariant is carried along as in `Ends`. Two runs that agree
write the same journal.
-/
namespace ZX

def Agrees {ε α : Type} (x y : Except ε α) (P : α → Prop) : Prop := x = y ∧ Ends y P fun _ => True

namespace Agrees

variable {ε α β : Type} {x y : Except ε α} {P : α → Prop}

theorem of_ends (h : Ends x P fun _ => True) : Agrees x x P := ⟨rfl, h⟩

theorem of_pure {a : α} (h : P a) : Agrees (pure a : Except ε α) (pure a) P :=
  of_ends (Ends.pure_iff.mpr h)

theorem of_throw (e : ε) : Agrees (throw e : Except ε α) (throw e) P :=
  of_ends (Ends.throw_iff.mpr trivial)

theorem bind {k k' : α → Except ε β} {Q : β → Prop} (h : Agrees x y P)
    (hk : ∀ a, P a → Agrees (k a) (k' a) Q) : Agrees (x >>= k) (y >>= k') Q := by
  obtain ⟨rfl, hends⟩ := h
  refine ⟨?_, hends.bind fun a ha => (hk a ha).2⟩
  cases x with
  | ok a => exact (hk a (Ends.ok_iff.mp hends)).1
  | error e => rfl

/-- A step that both versions share. -/
theorem bind_result {k k' : α → Except ε β} {Q : β → Prop}
    (hk : ∀ a, x = .ok a → Agrees (k a) (k' a) Q) : Agrees (x >>= k) (x >>= k') Q :=
  (of_ends (Ends.result x)).bind hk

theorem foldlM_mem {step step' : β → α → Except ε β} {I : β → Prop} {xs : List α}
    (hstep : ∀ a ∈ xs, ∀ b, I b → Agrees (step b a) (step' b a) I) {b : β} (h : I b) :
    Agrees (xs.foldlM step b) (xs.foldlM step' b) I := by
  induction xs generalizing b with
  | nil => exact of_pure h
  | cons a xs ih =>
      rw [List.foldlM_cons, List.foldlM_cons]
      exact (hstep a List.mem_cons_self b h).bind fun c hc =>
        ih (fun a' ha' => hstep a' (List.mem_cons_of_mem a ha')) hc

end Agrees

namespace Run

def Agrees {ε α : Type} (x y : Run ε α) (P : α → Prop) : Prop :=
  x = y ∧ Ends y.outcome P fun _ => True

namespace Agrees

variable {ε α β : Type} {x y : Run ε α} {P : α → Prop}

theorem of_ends (h : Ends x.outcome P fun _ => True) : Agrees x x P := ⟨rfl, h⟩

theorem bind {k k' : α → Run ε β} {Q : β → Prop} (h : Agrees x y P)
    (hk : ∀ a, P a → Agrees (k a) (k' a) Q) : Agrees (x >>= k) (y >>= k') Q := by
  obtain ⟨rfl, hends⟩ := h
  refine ⟨?_, Ends.run_bind hends fun a ha => (hk a ha).2⟩
  show Run.bind x k = Run.bind x k'
  unfold Run.bind
  cases hx : x.outcome with
  | ok a => simp only [(hk a (hends.of_eq_ok hx)).1]
  | error e => rfl

/-- A step that both versions share. -/
theorem bind_result {k k' : α → Run ε β} {Q : β → Prop}
    (hk : ∀ a, x.outcome = .ok a → Agrees (k a) (k' a) Q) : Agrees (x >>= k) (x >>= k') Q :=
  (of_ends (Ends.result x.outcome)).bind hk

theorem lift {x y : Except ε α} (h : ZX.Agrees x y P) :
    Agrees (liftM x : Run ε α) (liftM y) P := ⟨congrArg _ h.1, h.2⟩

/-- A stage without failures of its own as a stage of an extraction. -/
theorem lift_run {x y : Run Fault α} (h : Agrees x y P) :
    Agrees (liftM x : Extraction α) (liftM y) P := ⟨congrArg _ h.1, h.2.mapError⟩

end Agrees

end Run

end ZX
