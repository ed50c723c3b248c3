import Mathlib
import ZX.Proofs.Outcome
import ZX.Rule.Basic

/-!
# Fixed points of rules

A rule whose every batch lowers its measure reaches a fixed point within the number of batches that
it is granted. What a batch keeps, and what it relates, the whole run keeps and relates.
-/
namespace ZX.Rule

variable {τ μ : Type} {r : Rule τ μ} {P : τ → Prop} {R : τ → τ → Prop} {E : Fault → Prop}

/-- A batch keeps `P`, stands in the relation `R` and lowers the measure. -/
structure Progress (r : Rule τ μ) (P : τ → Prop) (R : τ → τ → Prop) (E : Fault → Prop) : Prop where
  places : ∀ x, P x → Ends (r.places x) (fun _ => True) E
  act : ∀ x found, P x → r.places x = .ok found → found ≠ [] →
    Ends (r.act x found) (fun y => P y ∧ R x y ∧ r.measure y < r.measure x) E

/-- What the end of a run has in common with its start `x`. -/
structure Settled (r : Rule τ μ) (P : τ → Prop) (R : τ → τ → Prop) (x : τ) (result : Bool × τ) :
    Prop where
  keeps : P result.2
  related : R x result.2
  no_place : r.places result.2 = .ok []
  measure_le : r.measure result.2 ≤ r.measure x
  measure_lt : result.1 = true → r.measure result.2 < r.measure x

theorem once_ends (h : r.Progress P R E) {x : τ} (hx : P x) :
    Ends (r.once x).outcome
      (fun o => o.elim (r.places x = .ok []) fun y => P y ∧ R x y ∧ r.measure y < r.measure x)
      E := by
  unfold once
  refine Ends.run_bind (P := fun found => r.places x = .ok found) ?_ fun found hp => ?_
  · rw [Run.outcome_liftM]
    exact ⟨fun found hp => hp, (h.places x hx).2⟩
  · cases found with
    | nil => exact Ends.ok_iff.mpr hp
    | cons m ms =>
        exact Ends.run_emit (Ends.run_bind (h.act x (m :: ms) hx hp (List.cons_ne_nil m ms))
          fun y hy => Ends.ok_iff.mpr hy)

theorem batches_settled (h : r.Progress P R E) (hrefl : ∀ x, R x x)
    (htrans : ∀ x y z, R x y → R y z → R x z) :
    ∀ (n : ℕ) (x : τ), P x → r.measure x < n → Ends (r.batches n x).outcome (r.Settled P R x) E
  | 0, _, _, hn => absurd hn (Nat.not_lt_zero _)
  | n + 1, x, hx, hn => by
      unfold batches
      refine Ends.run_bind (once_ends h hx) fun o ho => ?_
      cases o with
      | none =>
          refine Ends.ok_iff.mpr ⟨hx, hrefl x, ho, Nat.le_refl _, fun hc => ?_⟩
          exact absurd hc Bool.false_ne_true
      | some y =>
          obtain ⟨hy, hxy, hlt⟩ := ho
          refine Ends.run_bind (batches_settled h hrefl htrans n y hy (by omega)) fun z hz => ?_
          have hlt' := Nat.lt_of_le_of_lt hz.measure_le hlt
          exact Ends.ok_iff.mpr ⟨hz.keeps, htrans _ _ _ hxy hz.related, hz.no_place, hlt'.le,
            fun _ => hlt'⟩

theorem fixedPoint_settled (h : r.Progress P R E) (hrefl : ∀ x, R x x)
    (htrans : ∀ x y z, R x y → R y z → R x z) {x : τ} (hx : P x) :
    Ends (r.fixedPoint x).outcome (r.Settled P R x) E :=
  batches_settled h hrefl htrans _ x hx (Nat.lt_succ_self _)

/-! ## Batches of steps -/

section Steps

variable {Q : μ → Prop} {test : τ → μ → Bool} {step : τ → μ → Except Fault τ} {x : τ}

/-- Where the test holds at one of the places `Q`, the step keeps `P`, stands in the relation `R` and
lowers the measure. -/
def Advances (r : Rule τ μ) (P : τ → Prop) (R : τ → τ → Prop) (E : Fault → Prop) (Q : μ → Prop)
    (test : τ → μ → Bool) (step : τ → μ → Except Fault τ) : Prop :=
  ∀ x m, P x → Q m → test x m = true →
    Ends (step x m) (fun y => P y ∧ R x y ∧ r.measure y < r.measure x) E

variable (hstep : r.Advances P R E Q test step) (hrefl : ∀ x, R x x)
  (htrans : ∀ x y z, R x y → R y z → R x z)
include hstep hrefl htrans

/-- A batch tries its places one after the other and passes over those that are not valid any
more. -/
theorem Advances.batch (found : List μ) (hfound : ∀ m ∈ found, Q m) (hx : P x) :
    Ends (found.foldlM (fun x m => if test x m then step x m else pure x) x)
      (fun y => P y ∧ R x y ∧ r.measure y ≤ r.measure x) E := by
  refine Ends.foldlM_mem (I := fun y => P y ∧ R x y ∧ r.measure y ≤ r.measure x) ?_
    ⟨hx, hrefl x, Nat.le_refl _⟩
  rintro m hm y ⟨hy, hxy, hle⟩
  by_cases ht : test y m = true
  · rw [if_pos ht]
    exact (hstep y m hy (hfound m hm) ht).imp fun z hz =>
      ⟨hz.1, htrans x y z hxy hz.2.1, hz.2.2.le.trans hle⟩
  · rw [if_neg ht]
    exact Ends.pure_iff.mpr ⟨hy, hxy, hle⟩

/-- The first place of a batch is valid, so the batch lowers the measure. -/
theorem Advances.progress
    (hplaces : ∀ x, ∃ found, r.places x = .ok found ∧ ∀ m ∈ found, Q m ∧ test x m = true)
    (hact : ∀ x found, r.act x found =
      found.foldlM (fun x m => if test x m then step x m else pure x) x) :
    r.Progress P R E where
  places x _ := by
    obtain ⟨found, hfound, -⟩ := hplaces x
    rw [hfound]
    exact Ends.ok_iff.mpr trivial
  act x found hx hfound hne := by
    obtain ⟨found', hfound', hvalid⟩ := hplaces x
    obtain rfl : found' = found := Except.ok.inj (hfound'.symm.trans hfound)
    rw [hact]
    cases found' with
    | nil => exact absurd rfl hne
    | cons m ms =>
        obtain ⟨hm, ht⟩ := hvalid m List.mem_cons_self
        rw [List.foldlM_cons, if_pos ht]
        refine (hstep x m hx hm ht).bind fun y hy => ?_
        have hrest : ∀ m' ∈ ms, Q m' := fun m' hm' => (hvalid m' (List.mem_cons_of_mem m hm')).1
        exact (hstep.batch hrefl htrans ms hrest hy.1).imp fun z hz =>
          ⟨hz.1, htrans x y z hy.2.1 hz.2.1, hz.2.2.trans_lt hy.2.2⟩

end Steps

/-! ## Runs that change nothing -/

theorem once_eq_none {x : τ} : (r.once x).outcome = .ok none ↔ r.places x = .ok [] := by
  unfold once
  rw [Run.outcome_bind, Run.outcome_liftM]
  cases r.places x with
  | error e => simp [Except.bind]
  | ok found =>
      cases found with
      | nil => simp [Except.bind]
      | cons m ms =>
          simp only [Except.bind, Run.outcome_bind, Run.outcome_emit, Run.outcome_liftM,
            Run.outcome_pure, Except.ok.injEq, reduceCtorEq, iff_false]
          cases r.act x (m :: ms) <;> simp

/-- A run reports no change exactly when there was no place at its start. -/
theorem fixedPoint_eq_false {x y : τ} :
    (r.fixedPoint x).outcome = .ok (false, y) ↔ y = x ∧ r.places x = .ok [] := by
  rw [fixedPoint, batches, Run.outcome_bind, ← once_eq_none]
  cases (r.once x).outcome with
  | error e => simp [Except.bind]
  | ok o =>
      cases o with
      | none => simp [Except.bind, eq_comm]
      | some z =>
          simp only [Except.bind, Run.outcome_bind, Run.outcome_pure, Except.ok.injEq, reduceCtorEq,
            and_false, iff_false]
          cases (r.batches (r.measure x) z).outcome <;> simp

/-- Where a run ends there is no place left. -/
theorem batches_no_place {n : ℕ} {x y : τ} {b : Bool} (h : (r.batches n x).outcome = .ok (b, y)) :
    r.places y = .ok [] := by
  induction n generalizing x b with
  | zero => cases h
  | succ n ih =>
      obtain ⟨o, ho, h⟩ := Run.exists_of_bind_eq_ok h
      cases o with
      | none =>
          cases h
          exact once_eq_none.mp ho
      | some z =>
          obtain ⟨⟨b', y'⟩, hrest, h⟩ := Run.exists_of_bind_eq_ok h
          cases h
          exact ih hrest

/-! ## Relations between the ends of a run -/

theorem once_related (hact : ∀ x found, Ends (r.act x found) (R x) fun _ => True) (x : τ) :
    Ends (r.once x).outcome (fun o => ∀ y, o = some y → R x y) fun _ => True := by
  unfold once
  refine Ends.run_bind (P := fun _ => True) ⟨fun _ _ => trivial, fun _ _ => trivial⟩ ?_
  intro found _
  cases found with
  | nil => exact Ends.ok_iff.mpr fun y hy => by cases hy
  | cons m ms =>
      refine Ends.run_emit (Ends.run_bind (hact x (m :: ms)) fun y hy => Ends.ok_iff.mpr ?_)
      intro z hz
      cases hz
      exact hy

/-- What holds across every batch holds across a whole run. -/
theorem batches_related (hact : ∀ x found, Ends (r.act x found) (R x) fun _ => True)
    (hrefl : ∀ x, R x x) (htrans : ∀ x y z, R x y → R y z → R x z) (n : ℕ) (x : τ) :
    Ends (r.batches n x).outcome (fun result => R x result.2) fun _ => True := by
  induction n generalizing x with
  | zero => exact Ends.throw_iff.mpr trivial
  | succ n ih =>
      unfold batches
      refine Ends.run_bind (once_related hact x) fun o ho => ?_
      cases o with
      | none => exact Ends.ok_iff.mpr (hrefl x)
      | some y =>
          refine Ends.run_bind (ih y) fun result hresult => Ends.ok_iff.mpr ?_
          exact htrans x y result.2 (ho y rfl) hresult

end ZX.Rule
