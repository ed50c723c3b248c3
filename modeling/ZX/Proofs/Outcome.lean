import Mathlib
import ZX.Extraction.Failure

/-!
# How computations end

`Ends x P E` says that a computation ends in a result with `P` or in an error with `E`. It is proved
from the inside out: one statement for each operation, and a rule for sequences and one for loops.
A loop over a list keeps an invariant that may speak of the elements still to come.

The outcome of a run with a journal is an ordinary computation, so the same rules serve both.
-/
namespace ZX

def Ends {ε α : Type} (x : Except ε α) (P : α → Prop) (E : ε → Prop) : Prop :=
  (∀ a, x = .ok a → P a) ∧ ∀ e, x = .error e → E e

namespace Ends

variable {ε ε' α β : Type} {x : Except ε α} {P P' : α → Prop} {E E' : ε → Prop}

@[simp] theorem ok_iff {a : α} : Ends (.ok a) P E ↔ P a := by simp [Ends]

@[simp] theorem error_iff {e : ε} : Ends (.error e) P E ↔ E e := by simp [Ends]

@[simp] theorem pure_iff {a : α} : Ends (pure a) P E ↔ P a := ok_iff

@[simp] theorem throw_iff {e : ε} : Ends (throw e) P E ↔ E e := error_iff

theorem mono (h : Ends x P E) (hp : ∀ a, P a → P' a) (he : ∀ e, E e → E' e) : Ends x P' E' :=
  ⟨fun a ha => hp a (h.1 a ha), fun e hx => he e (h.2 e hx)⟩

theorem imp (h : Ends x P E) (hp : ∀ a, P a → P' a) : Ends x P' E := h.mono hp fun _ he => he

theorem of_eq_ok {a : α} (h : Ends x P E) (hx : x = .ok a) : P a := h.1 a hx

theorem forget (h : Ends x P E) : Ends x P fun _ => True := h.mono (fun _ ha => ha) fun _ _ => trivial

/-- Where errors do not matter, a computation is known by its result. -/
theorem result (x : Except ε α) : Ends x (fun a => x = .ok a) fun _ => True :=
  ⟨fun _ ha => ha, fun _ _ => trivial⟩

/-- A computation that cannot fail has a result. -/
theorem exists_ok (h : Ends x P fun _ => False) : ∃ a, x = .ok a ∧ P a := by
  cases x with
  | ok a => exact ⟨a, rfl, ok_iff.mp h⟩
  | error e => exact (error_iff.mp h).elim

theorem of_exists_ok (h : ∃ a, x = .ok a ∧ P a) : Ends x P E := by
  obtain ⟨a, rfl, ha⟩ := h
  exact ok_iff.mpr ha

/-- With a single admissible error there are two ways to end. -/
theorem ok_or_error {e : ε} (h : Ends x P (· = e)) : (∃ a, x = .ok a ∧ P a) ∨ x = .error e := by
  cases x with
  | ok a => exact .inl ⟨a, rfl, ok_iff.mp h⟩
  | error e' =>
    have he := h.2 e' rfl
    exact .inr (congrArg Except.error he)

/-- A computation of which one statement excludes the errors that another one admits has a result. -/
theorem exists_ok_of_not (h : Ends x P E) (h' : Ends x P' fun e => ¬E e) :
    ∃ a, x = .ok a ∧ P a ∧ P' a := by
  cases x with
  | ok a => exact ⟨a, rfl, ok_iff.mp h, ok_iff.mp h'⟩
  | error e => exact absurd (h.2 e rfl) (h'.2 e rfl)

theorem and (h : Ends x P E) (h' : Ends x P' E) : Ends x (fun a => P a ∧ P' a) E :=
  ⟨fun a ha => ⟨h.1 a ha, h'.1 a ha⟩, h.2⟩

/-- The result is that of the computation itself. -/
theorem with_result (h : Ends x P E) : Ends x (fun a => x = .ok a ∧ P a) E :=
  ⟨fun a ha => ⟨ha, h.1 a ha⟩, h.2⟩

theorem bind {k : α → Except ε β} {Q : β → Prop} (h : Ends x P E)
    (hk : ∀ a, P a → Ends (k a) Q E) : Ends (x >>= k) Q E := by
  cases x with
  | ok a => exact hk a (ok_iff.mp h)
  | error e => exact error_iff.mpr (error_iff.mp h)

theorem map {f : α → β} {Q : β → Prop} (h : Ends x (fun a => Q (f a)) E) :
    Ends (x.map f) Q E := by
  cases x with
  | ok a =>
    have hq := ok_iff.mp h
    exact ok_iff.mpr hq
  | error e => exact error_iff.mpr (error_iff.mp h)

theorem mapError {f : ε → ε'} {E' : ε' → Prop} (h : Ends x P fun e => E' (f e)) :
    Ends (x.mapError f) P E' := by
  cases x with
  | ok a => exact ok_iff.mpr (ok_iff.mp h)
  | error e =>
    have he := error_iff.mp h
    exact error_iff.mpr he

/-- The invariant speaks of the elements that are still to come and of the state. -/
theorem foldlM {step : β → α → Except ε β} {I : List α → β → Prop}
    (hstep : ∀ a rest b, I (a :: rest) b → Ends (step b a) (I rest) E) :
    ∀ (xs : List α) (b : β), I xs b → Ends (xs.foldlM step b) (I []) E
  | [], _, h => ok_iff.mpr h
  | a :: xs, b, h => by
      rw [List.foldlM_cons]
      exact (hstep a xs b h).bind fun c hc => foldlM hstep xs c hc

/-- The invariant speaks of the elements that are done and of the state. -/
theorem foldlM_done {f : β → α → Except ε β} {I : List α → β → Prop} {l : List α}
    (hstep : ∀ done a rest b, l = done ++ a :: rest → I done b →
      Ends (f b a) (I (done ++ [a])) E) {b : β} (h : I [] b) :
    Ends (l.foldlM f b) (I l) E := by
  refine (foldlM (I := fun rest b => ∃ done, l = done ++ rest ∧ I done b) ?_ l b
    ⟨[], rfl, h⟩).imp ?_
  · rintro a rest b ⟨done, hxs, hb⟩
    exact (hstep done a rest b hxs hb).imp fun c hc => ⟨done ++ [a], by simp [hxs], hc⟩
  · rintro c ⟨done, hxs, hc⟩
    rw [List.append_nil] at hxs
    exact hxs ▸ hc

/-- An invariant of the state alone, with the elements known to come from the list. -/
theorem foldlM_mem {step : β → α → Except ε β} {I : β → Prop} {xs : List α}
    (hstep : ∀ a ∈ xs, ∀ b, I b → Ends (step b a) I E) {b : β} (h : I b) :
    Ends (xs.foldlM step b) I E := by
  refine (foldlM (I := fun rest b => (∀ a ∈ rest, a ∈ xs) ∧ I b) ?_ xs b ⟨fun _ ha => ha, h⟩).imp
    fun _ hb => hb.2
  intro a rest b hb
  exact (hstep a (hb.1 a (by simp)) b hb.2).imp fun c hc =>
    ⟨fun u hu => hb.1 u (by simp [hu]), hc⟩

end Ends

theorem mapError_eq_ok {ε ε' α : Type} {f : ε → ε'} {x : Except ε α} {a : α} :
    x.mapError f = .ok a ↔ x = .ok a := by
  cases x <;> simp [Except.mapError]

/-- A result that passes a test is a result. -/
theorem exists_ok_of_any {ε α : Type} {x : Except ε α} {p : α → Bool}
    (h : x.toOption.any p = true) : ∃ a, x = .ok a ∧ p a = true := by
  cases x with
  | ok a => exact ⟨a, rfl, h⟩
  | error e => cases h

theorem mapM_eq_ok {ε α β : Type} {f : α → Except ε β} {f' : α → β} {l : List α}
    (h : ∀ a ∈ l, f a = .ok (f' a)) :
    l.mapM f = .ok (l.map f') := by
  induction l with
  | nil => rfl
  | cons a l ih =>
      rw [List.mapM_cons, h a List.mem_cons_self, ih fun b hb => h b (List.mem_cons_of_mem a hb)]
      rfl

theorem filterAuxM_eq_ok {ε α : Type} {p : α → Except ε Bool} {p' : α → Bool} {l : List α}
    (h : ∀ a ∈ l, p a = .ok (p' a)) (acc : List α) :
    l.filterAuxM p acc = .ok ((l.filter p').reverse ++ acc) := by
  induction l generalizing acc with
  | nil => rfl
  | cons a l ih =>
      rw [List.filterAuxM, h a List.mem_cons_self]
      refine (ih (fun b hb => h b (List.mem_cons_of_mem a hb)) _).trans ?_
      cases hp : p' a <;> simp [hp]

theorem filterM_eq_ok {ε α : Type} {p : α → Except ε Bool} {p' : α → Bool} {l : List α}
    (h : ∀ a ∈ l, p a = .ok (p' a)) : l.filterM p = .ok (l.filter p') := by
  rw [List.filterM, filterAuxM_eq_ok h]
  simp [bind, Except.bind, pure, Except.pure]

/-- A list is checked for repetitions by dropping them. -/
theorem eraseDups_of_nodup {l : List ℕ} (h : l.Nodup) : l.eraseDups = l := by
  induction l with
  | nil => rfl
  | cons a l ih =>
      obtain ⟨ha, hl⟩ := List.nodup_cons.mp h
      have hfilter : l.filter (fun b => !b == a) = l := by
        refine List.filter_eq_self.mpr fun b hb => ?_
        have hne : b ≠ a := fun heq => ha (heq ▸ hb)
        simp [hne]
      rw [List.eraseDups_cons, hfilter, ih hl]

namespace Run

variable {ε α β : Type}

theorem outcome_foldlM (step : β → α → Run ε β) (xs : List α) (b : β) :
    (xs.foldlM step b).outcome = xs.foldlM (fun b a => (step b a).outcome) b := by
  induction xs generalizing b with
  | nil => rfl
  | cons a xs ih =>
      simp only [List.foldlM_cons, outcome_bind]
      cases (step b a).outcome with
      | ok c => exact ih c
      | error e => rfl

/-- A result of a sequence is a result of its second part, run on a result of the first. -/
theorem exists_of_bind_eq_ok {x : Run ε α} {f : α → Run ε β} {b : β}
    (h : (x >>= f).outcome = .ok b) : ∃ a, x.outcome = .ok a ∧ (f a).outcome = .ok b := by
  rw [outcome_bind] at h
  cases hx : x.outcome with
  | ok a =>
      rw [hx] at h
      exact ⟨a, rfl, h⟩
  | error e =>
      rw [hx] at h
      cases h

theorem exists_of_ite_eq_ok {c : Prop} [Decidable c] {x y : Run ε α} {f : α → Run ε β} {b : β}
    (h : (if c then x >>= f else y >>= f).outcome = .ok b) :
    ∃ a, (if c then x else y).outcome = .ok a ∧ (f a).outcome = .ok b := by
  by_cases hc : c
  · rw [if_pos hc] at h ⊢
    exact exists_of_bind_eq_ok h
  · rw [if_neg hc] at h ⊢
    exact exists_of_bind_eq_ok h

end Run

theorem Ends.run_bind {ε α β : Type} {x : Run ε α} {f : α → Run ε β} {P : α → Prop} {Q : β → Prop}
    {E : ε → Prop} (h : Ends x.outcome P E) (hf : ∀ a, P a → Ends (f a).outcome Q E) :
    Ends (x >>= f).outcome Q E := by
  rw [Run.outcome_bind]
  exact h.bind hf

/-- A choice between two computations with a common continuation. -/
theorem Ends.run_ite {ε α β : Type} {c : Prop} [Decidable c] {x y : Run ε α} {f : α → Run ε β}
    {P : α → Prop} {Q : β → Prop} {E : ε → Prop} (h : Ends (if c then x else y).outcome P E)
    (hf : ∀ a, P a → Ends (f a).outcome Q E) :
    Ends (if c then x >>= f else y >>= f).outcome Q E := by
  by_cases hc : c
  · rw [if_pos hc] at h ⊢
    exact Ends.run_bind h hf
  · rw [if_neg hc] at h ⊢
    exact Ends.run_bind h hf

/-- Writing to the journal does not influence the outcome. -/
theorem Ends.run_emit {ε β : Type} {l : Level} {text : String} {f : Unit → Run ε β} {Q : β → Prop}
    {E : ε → Prop} (h : Ends (f ()).outcome Q E) : Ends (Run.emit l text >>= f).outcome Q E :=
  Ends.run_bind (P := fun _ => True) (Ends.ok_iff.mpr trivial) fun _ _ => h

@[simp] theorem outcome_lift_except {α : Type} (x : Except Fault α) :
    (liftM x : Extraction α).outcome = x.mapError .fault := rfl

@[simp] theorem outcome_lift_run {α : Type} (x : Run Fault α) :
    (liftM x : Extraction α).outcome = x.outcome.mapError .fault := rfl

end ZX
