import Mathlib
import ZX.Proofs.Denominator.Rules

/-!
# Room for the arithmetic of a rule

A rule computes on words in two places: it adds to phases, and it adds to the exponent of the scalar.
`Roomy S k g` says that there is room for both. All phases have `S`, a property that the additions to
come keep, and the exponent may still move by `k`. Every operation needs a certain room and leaves
the rest. Nothing else in a rule computes on words, so a rule with enough room does not overflow.
-/
namespace ZX

/-- Adding `q` to a phase with `S` does not overflow and leads to a phase with `S`. -/
def Phase.Takes (S : Phase → Prop) (q : Phase) : Prop := ∀ p, S p → ∃ r, p.add q = .ok r ∧ S r

/-- A multiple of half a turn can be added to any phase with a denominator below `2 ^ 62`. -/
theorem Phase.takes_of_isPauli {q : Phase} (hq : q.isPauli = true) :
    Takes (fun p => p.den < 2 ^ 62) q := by
  have hden : q.den = 1 := by
    rw [isPauli, isZero, isOne, Bool.or_eq_true, decide_eq_true_eq, decide_eq_true_eq] at hq
    rcases hq with rfl | rfl <;> rfl
  intro p hp
  have hpos : 0 < p.den := p.halfTurns.den_pos
  obtain ⟨r, hr, hdvd⟩ := add_of_dvd hpos hp dvd_rfl (hden ▸ one_dvd p.den)
  exact ⟨r, hr, (Nat.le_of_dvd hpos hdvd).trans_lt hp⟩

/-- A phase over `D` can be added to any phase over `D`, if `D` is below `2 ^ 62`. -/
theorem Phase.takes_of_dvd {D : ℕ} (hD : 0 < D) (hlt : D < 2 ^ 62) {q : Phase} (hq : q.den ∣ D) :
    Takes (fun p => p.den ∣ D) q := fun _ hp => add_of_dvd hD hlt hp hq

/-- A multiple of an eighth of a turn can be added to any phase that shares a denominator below
`2 ^ 62` with the eighths. -/
theorem Phase.takes_of_dvd_four {q : Phase} (hq : q.den ∣ 4) :
    Takes (fun p => p.den.lcm 4 < 2 ^ 62) q := by
  intro p hp
  have hpos : 0 < p.den.lcm 4 := Nat.lcm_pos p.halfTurns.den_pos (by decide)
  obtain ⟨r, hr, hdvd⟩ := add_of_dvd hpos hp (Nat.dvd_lcm_left _ _)
    (hq.trans (Nat.dvd_lcm_right p.den 4))
  have hle : r.den.lcm 4 ≤ p.den.lcm 4 :=
    Nat.le_of_dvd hpos (Nat.lcm_dvd hdvd (Nat.dvd_lcm_right p.den 4))
  exact ⟨r, hr, hle.trans_lt hp⟩

theorem Phase.neg_takes {p : Phase} (hp : p.isProperClifford = true) :
    Ends p.neg (Takes fun p => p.den.lcm 4 < 2 ^ 62) (· ≠ .overflow) := by
  have hneg : p.neg.toOption.any (·.den ∣ 4) = true := by
    rw [isProperClifford, Bool.or_eq_true, decide_eq_true_eq, decide_eq_true_eq] at hp
    rcases hp with rfl | rfl <;> decide +kernel
  obtain ⟨r, hr, hdvd⟩ := exists_ok_of_any hneg
  exact Ends.of_exists_ok ⟨r, hr, takes_of_dvd_four (of_decide_eq_true hdvd)⟩

theorem Phase.ofFraction_takes {p : Phase} (hp : p.isProperClifford = true) :
    Ends (ofFraction p.num 4) (Takes fun p => p.den.lcm 4 < 2 ^ 62) (· ≠ .overflow) := by
  have hfraction : (ofFraction p.num 4).toOption.any (·.den ∣ 4) = true := by
    rw [isProperClifford, Bool.or_eq_true, decide_eq_true_eq, decide_eq_true_eq] at hp
    rcases hp with rfl | rfl <;> decide +kernel
  obtain ⟨f, hf, hdvd⟩ := exists_ok_of_any hfraction
  exact Ends.of_exists_ok ⟨f, hf, takes_of_dvd_four (of_decide_eq_true hdvd)⟩

theorem int32_of_abs_lt {n : ℤ} (h : |n| < 2 ^ 31) : int32 n = .ok n := by
  obtain ⟨hlow, hhigh⟩ := abs_lt.mp h
  exact int32_eq_ok.mpr ⟨⟨by omega, hhigh⟩, rfl⟩

namespace Diagram

variable {S : Phase → Prop} {g g' : Diagram} {k m : ℕ} {q : Phase}

/-! ## Operations that need room -/

structure Roomy (S : Phase → Prop) (k : ℕ) (g : Diagram) : Prop where
  phases : g.PhasesIn S
  pow : |g.scalar.sqrt2Pow| + k < 2 ^ 31

namespace Roomy

theorem mono (h : g.Roomy S k) (hm : m ≤ k) : g.Roomy S m := ⟨h.phases, by have := h.pow; omega⟩

theorem addToPhase (h : g.Roomy S k) (hq : q.Takes S) (v : ℕ) :
    Ends (g.addToPhase v q) (Roomy S k) (· ≠ .overflow) := by
  refine (data_ne_overflow g v).bind fun d hd => ?_
  obtain ⟨r, hr, hS⟩ := hq d.phase (h.phases.vertex v d (data_eq_ok.mp hd))
  rw [Phase.Arithmetic.words_add, hr]
  exact Ends.ok_iff.mpr ⟨h.phases.setData hd hS, h.pow⟩

theorem addToPhases (h : g.Roomy S k) (hq : q.Takes S) (ns : List ℕ) :
    Ends (ns.foldlM (fun g w => g.addToPhase w q) g) (Roomy S k) (· ≠ .overflow) :=
  Ends.foldlM_mem (fun w _ _ h => h.addToPhase hq w) h

theorem mulPhase (h : g.Roomy S k) (hq : q.Takes S) :
    Ends (g.mulPhase q) (Roomy S k) (· ≠ .overflow) := by
  obtain ⟨r, hr, hS⟩ := hq _ h.phases.scalar
  unfold Diagram.mulPhase Scalar.mulPhase
  rw [Phase.Arithmetic.words_add, hr]
  exact Ends.ok_iff.mpr ⟨⟨h.phases.vertex, hS⟩, h.pow⟩

theorem mulSqrt2Pow {j : ℤ} (h : g.Roomy S (k + m)) (hj : |j| ≤ m) :
    Ends (g.mulSqrt2Pow j) (Roomy S k) (· ≠ .overflow) := by
  have hpow := h.pow
  have habs := abs_add_le g.scalar.sqrt2Pow j
  unfold Diagram.mulSqrt2Pow Scalar.mulSqrt2Pow
  rw [int32_of_abs_lt (by omega)]
  exact Ends.ok_iff.mpr ⟨⟨h.phases.vertex, h.phases.scalar⟩, by dsimp only; omega⟩

/-- There is room for half a turn and for two powers of the root of two. -/
theorem not_strained (h : g.Roomy S (k + 2)) (hone : Phase.one.Takes S) (s : ℕ) : ¬g.Strained s := by
  have hpow : ∀ j : ℤ, 0 ≤ j → j ≤ 2 →
      int32 (g.scalar.sqrt2Pow - j) = .ok (g.scalar.sqrt2Pow - j) := by
    intro j hj hj'
    have hroom := h.pow
    have habs := abs_sub g.scalar.sqrt2Pow j
    rw [abs_of_nonneg hj] at habs
    push_cast at hroom
    exact int32_of_abs_lt (by omega)
  rintro (⟨p, hp, hover⟩ | hover | hover)
  · obtain ⟨d, hd, rfl⟩ := phase?_eq_some.mp hp
    obtain ⟨r, hr, -⟩ := hone d.phase (h.phases.vertex s d hd)
    cases hr.symm.trans hover
  · cases (hpow 1 (by decide) (by decide)).symm.trans hover
  · cases (hpow 2 (by decide) (by decide)).symm.trans hover

/-- One more edge moves the exponent by two at most. -/
theorem connect (h : g.Roomy S (k + 2)) (hone : Phase.one.Takes S) (s t : ℕ) (e : EdgeKind) :
    Ends (g.connect s t e) (Roomy S k) (· ≠ .overflow) := by
  refine (connect_absorbed g s t e).mono (fun g' h' => ⟨⟨fun v d' hd' => ?_, ?_⟩, ?_⟩)
    fun f hf hover => h.not_strained hone s (hf hover)
  · by_cases hv : v = s
    · subst hv
      obtain ⟨d, hd, hsame | hmoved⟩ := h'.phase_step d' hd'
      · exact hsame ▸ h.phases.vertex v d hd
      · obtain ⟨r, hr, hS⟩ := hone d.phase (h.phases.vertex v d hd)
        rwa [← Except.ok.inj (hr.symm.trans hmoved)]
    · exact h.phases.vertex v d' ((h'.data?_eq v hv).symm.trans hd')
  · exact h'.scalarPhase_eq ▸ h.phases.scalar
  · have hpow := h.pow
    have hle := h'.pow_le
    have hge := h'.le_pow
    push_cast at hpow
    rw [← lt_sub_iff_add_lt, abs_lt] at hpow ⊢
    omega

theorem removeVertex (h : g.Roomy S k) (v : ℕ) :
    Ends (g.removeVertex v) (Roomy S k) (· ≠ .overflow) :=
  (removeVertex_cleared g v).imp fun _ h' =>
    ⟨h.phases.of_inherits h'.inherits, h'.scalar_eq ▸ h.pow⟩

/-! ## Fusion -/

/-- Moving the edges of a spider needs twice as much room as it has edges. -/
theorem fuse {v₀ v₁ : ℕ} {links : List Link} (h : g.Roomy S (k + 2 * links.length))
    (hlinks : g.links v₁ = .ok links) (hone : Phase.one.Takes S) (htakes : ∀ q, S q → q.Takes S) :
    Ends (g.fuse v₀ v₁) (Roomy S k) (· ≠ .overflow) := by
  unfold Diagram.fuse
  rw [hlinks]
  refine Ends.bind (P := Roomy S k) ?_ fun g₁ h₁ => ?_
  · refine Ends.foldlM (I := fun rest g => Roomy S (k + 2 * rest.length) g) ?_ links g h
    rintro ⟨u, e⟩ rest g' h'
    have hroom : g'.Roomy S (k + 2 * rest.length + 2) := h'.mono (by rw [List.length_cons]; omega)
    change Ends (if u = v₀ then pure g' else g'.connect v₀ u e) _ _
    split
    · exact Ends.pure_iff.mpr (hroom.mono (by omega))
    · exact hroom.connect hone v₀ u e
  · refine (phase_ne_overflow g₁ v₁).bind fun p hp => ?_
    exact (h₁.addToPhase (htakes p (h₁.phases.of_phase hp)) v₀).bind fun _ h₂ => h₂.removeVertex v₁

/-- Fusion needs no more than a common denominator and room for the exponent. -/
theorem fuse_of_dvd {D v₁ : ℕ} (hD : 0 < D) (hlt : D < 2 ^ 62)
    (h : g.Roomy (·.den ∣ D) (k + 2 * (g.linksAt v₁).length)) (hv₁ : g.contains v₁ = true) (v₀ : ℕ) :
    Ends (g.fuse v₀ v₁) (Roomy (·.den ∣ D) k) (· ≠ .overflow) :=
  h.fuse (links_of_contains hv₁) (Phase.takes_of_dvd hD hlt (one_dvd D)) fun _ hq =>
    Phase.takes_of_dvd hD hlt hq

/-! ## Local complementation -/

theorem completeGraph {vs : List ℕ} (h : g.Roomy S (k + vs.length ^ 2)) (hone : Phase.one.Takes S)
    (hq : q.Takes S) : Ends (completeGraph q vs g) (Roomy S k) (· ≠ .overflow) := by
  induction vs generalizing g with
  | nil => exact Ends.pure_iff.mpr h
  | cons v vs ih =>
      unfold Diagram.completeGraph
      refine (h.addToPhase hq v).bind fun g₁ h₁ => ?_
      refine Ends.bind (P := Roomy S (k + vs.length ^ 2)) ?_ fun g₂ h₂ => ih h₂
      refine Ends.foldlM (I := fun rest g => Roomy S (k + vs.length ^ 2 + 2 * rest.length) g) ?_ vs g₁
        (h₁.mono (by rw [List.length_cons]; nlinarith))
      intro w rest g' h'
      exact (h'.mono (by rw [List.length_cons]; omega) :
        g'.Roomy S (k + vs.length ^ 2 + 2 * rest.length + 2)).connect hone v w .hadamard

/-- The factor of a spider is no larger than the square of its degree, up to two. -/
theorem abs_complementPow_le (x : ℕ) : |((x : ℤ) - 1) * (x - 2)| ≤ ((x ^ 2 + 2 : ℕ) : ℤ) := by
  rw [abs_le]
  push_cast
  constructor <;> nlinarith

/-- The clique on the neighbours and the factor of the spider need at most twice the square of the
degree. -/
theorem localComplement {v : ℕ} {p : Phase} {ns : List ℕ} (h : g.Roomy S (2 * ns.length ^ 2 + 2))
    (hns : g.neighbours v = .ok ns) (hp : g.phase v = .ok p) (hone : Phase.one.Takes S)
    (hneg : Ends p.neg (Phase.Takes S) (· ≠ .overflow))
    (hfraction : Ends (Phase.ofFraction p.num 4) (Phase.Takes S) (· ≠ .overflow)) :
    Ends (g.localComplement v) (fun _ => True) (· ≠ .overflow) := by
  have hfactor := abs_complementPow_le ns.length
  have hroom : g.Roomy S (0 + (ns.length ^ 2 + 2) + ns.length ^ 2) := h.mono (by omega)
  unfold Diagram.localComplement
  rw [hp, hns]
  refine hneg.bind fun r hr => ?_
  refine (hroom.completeGraph hone hr).bind fun g₁ h₁ => ?_
  refine (h₁.removeVertex v).bind fun g₂ h₂ => ?_
  have hpow := h₂.pow
  dsimp only
  rw [int32_of_abs_lt (by have := abs_nonneg g₂.scalar.sqrt2Pow; omega)]
  refine (h₂.mulSqrt2Pow ?_).bind fun g₃ h₃ => ?_
  · obtain ⟨hlow, hhigh⟩ := abs_le.mp hfactor
    exact abs_le.mpr (by omega)
  · exact hfraction.bind fun f hf => (h₃.mulPhase hf).imp fun _ _ => trivial

/-! ## Pivoting -/

theorem bipartiteRow {ns : List ℕ} {n v₀ v₁ : ℕ} (h : g.Roomy S (k + 2 * ns.length))
    (hone : Phase.one.Takes S) :
    Ends (ns.foldlM (fun g w =>
      if n ≠ v₁ ∧ w ≠ v₀ then g.connect n w .hadamard else return g) g)
      (Roomy S k) (· ≠ .overflow) := by
  refine Ends.foldlM (I := fun rest g => Roomy S (k + 2 * rest.length) g) ?_ ns g h
  intro w rest g' h'
  have hroom : g'.Roomy S (k + 2 * rest.length + 2) := h'.mono (by rw [List.length_cons]; omega)
  split
  · exact hroom.connect hone n w .hadamard
  · exact Ends.pure_iff.mpr (hroom.mono (by omega))

theorem completeBipartite {ns₀ ns₁ : List ℕ} {v₀ v₁ : ℕ}
    (h : g.Roomy S (k + 2 * ns₁.length * ns₀.length)) (hone : Phase.one.Takes S)
    (hq : q.Takes S) :
    Ends (completeBipartite v₀ v₁ q ns₀ ns₁ g) (Roomy S k) (· ≠ .overflow) := by
  unfold Diagram.completeBipartite
  refine Ends.foldlM (I := fun rest g => Roomy S (k + 2 * ns₁.length * rest.length) g) ?_ ns₀ g h
  intro n rest g' h'
  have hroom : g'.Roomy S (k + 2 * ns₁.length * rest.length + 2 * ns₁.length) :=
    h'.mono (by rw [List.length_cons, Nat.mul_succ]; omega)
  exact (hroom.addToPhase hq n).bind fun _ h'' => h''.bipartiteRow hone

/-- The factor of two spiders is no larger than the product of their degrees. -/
theorem abs_pivotPow_le {a b : ℕ} (ha : 0 < a) (hb : 0 < b) :
    |((a : ℤ) - 2) * ((b : ℤ) - 2)| ≤ ((a * b : ℕ) : ℤ) := by
  have hbound : ∀ {c : ℕ}, 0 < c → |(c : ℤ) - 2| ≤ c := fun hc => abs_le.mpr (by omega)
  rw [abs_mul, Nat.cast_mul]
  exact mul_le_mul (hbound ha) (hbound hb) (abs_nonneg _) (Nat.cast_nonneg a)

/-- The new edges and the two spiders need at most three times the product of the degrees. -/
theorem pivot {v₀ v₁ : ℕ} {ns₀ ns₁ : List ℕ} (h : g.Roomy S (3 * (ns₀.length * ns₁.length)))
    (hns₀ : g.neighbours v₀ = .ok ns₀) (hns₁ : g.neighbours v₁ = .ok ns₁)
    (hpos₀ : 0 < ns₀.length) (hpos₁ : 0 < ns₁.length) (hone : Phase.one.Takes S)
    (hphase : ∀ v ∈ [v₀, v₁], ∀ p, g.phase v = .ok p → p.Takes S) :
    Ends (g.pivot v₀ v₁) (fun _ => True) (· ≠ .overflow) := by
  have hfactor := abs_pivotPow_le hpos₀ hpos₁
  have hroom : g.Roomy S (0 + ns₀.length * ns₁.length + 2 * ns₁.length * ns₀.length) :=
    h.mono (by rw [mul_assoc, mul_comm ns₁.length]; omega)
  unfold Diagram.pivot
  refine (phase_ne_overflow g v₀).bind fun p₀ hp₀ => ?_
  refine (phase_ne_overflow g v₁).bind fun p₁ hp₁ => ?_
  have htakes₀ := hphase v₀ (by simp) p₀ hp₀
  have htakes₁ := hphase v₁ (by simp) p₁ hp₁
  rw [hns₀, hns₁]
  refine (hroom.completeBipartite hone htakes₁).bind fun g₁ h₁ => ?_
  refine (h₁.addToPhases htakes₀ ns₁).bind fun g₂ h₂ => ?_
  refine (h₂.removeVertex v₀).bind fun g₃ h₃ => ?_
  refine (h₃.removeVertex v₁).bind fun g₄ h₄ => ?_
  have hpow := h₄.pow
  rw [int32_of_abs_lt (by have := abs_nonneg g₄.scalar.sqrt2Pow; omega)]
  refine (h₄.mulSqrt2Pow hfactor).bind fun g₅ h₅ => ?_
  split
  · exact (h₅.mulPhase hone).imp fun _ _ => trivial
  · exact Ends.pure_iff.mpr trivial

end Roomy

end Diagram

end ZX
