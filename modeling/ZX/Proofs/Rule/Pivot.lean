import Mathlib
import ZX.Proofs.Rule.LocalComplement
import ZX.Rule.Pivot

/-!
# Soundness of pivoting

Two adjacent interior spiders with Pauli phases contribute a sign: the product of the parities on
their two sides, each parity counting the neighbours with bit 1 and the phase of the spider. The
product expands into one Hadamard edge for each pair of neighbours, one phase for each neighbour and
a global sign.
-/
namespace ZX

open Finset Function

attribute [local instance] atLeastTwo_two in
/-- The sign of the product of two parities, given by their signs. -/
noncomputable def pairing (x y : ℂ) : ℂ := (1 + x + y - x * y) / 2

def IsSign (x : ℂ) : Prop := x = 1 ∨ x = -1

theorem signs_isSign (vs : List ℕ) (a : ℕ → Bool) : IsSign (signs vs a) :=
  mul_self_eq_one_iff.mp (signs_mul_self vs a)

theorem Phase.isSign_unit {p : Phase} (h : p.isPauli = true) : IsSign p.unit := by
  rw [Phase.isPauli, Phase.isZero, Phase.isOne, Bool.or_eq_true, decide_eq_true_eq,
    decide_eq_true_eq] at h
  rcases h with rfl | rfl
  · exact .inl Phase.unit_zero
  · exact .inr Phase.unit_one

/-- Two half turns give a sign, and nothing else does. -/
theorem Phase.pairing_unit {p q : Phase} (hp : p.isPauli = true) (hq : q.isPauli = true) :
    pairing p.unit q.unit = if !p.isZero && !q.isZero then -1 else 1 := by
  have hvalue : ∀ p : Phase, p.isPauli = true → p.unit = if p.isZero then 1 else -1 := by
    intro p hp
    rw [isPauli, Bool.or_eq_true] at hp
    by_cases hz : p.isZero = true
    · rw [if_pos hz, of_decide_eq_true hz, unit_zero]
    · rw [if_neg hz, of_decide_eq_true (hp.resolve_left hz), unit_one]
  rw [hvalue p hp, hvalue q hq]
  cases p.isZero <;> cases q.isZero <;> norm_num [pairing]

/-- The pairing is multiplicative on both sides. -/
theorem pairing_mul {x y s t : ℂ} (hx : IsSign x) (hy : IsSign y) (hs : IsSign s) (ht : IsSign t) :
    pairing (x * s) (y * t) = pairing s t * pairing s y * pairing t x * pairing x y := by
  rcases hx with rfl | rfl <;> rcases hy with rfl | rfl <;> rcases hs with rfl | rfl <;>
    rcases ht with rfl | rfl <;> norm_num [pairing]

theorem prod_spin_sign {x : ℂ} (hx : IsSign x) (vs : List ℕ) (a : ℕ → Bool) :
    (vs.map fun w => spin x (a w)).prod = pairing (signs vs a) x := by
  rcases hx with rfl | rfl
  · have hone : (vs.map fun w => spin 1 (a w)) = vs.map fun _ => 1 :=
      List.map_congr_left fun w _ => spin_one _
    rw [hone, pairing, List.map_const', List.prod_replicate, one_pow]
    ring
  · rw [pairing]
    change signs vs a = _
    ring

/-- The two bits of the pivot, summed out. -/
theorem sum_hadamard_pair {x y : ℂ} (r : ℂ) :
    (∑ b : Bool, ∑ c : Bool, spin x b * spin y c * EdgeKind.hadamard.factor b c * r) =
      2 * pairing x y * ((√2 : ℝ) : ℂ)⁻¹ * r := by
  simp only [Fintype.sum_bool, spin_true, spin_false, EdgeKind.factor,
    Bool.and_false, Bool.and_true, if_true, Bool.false_eq_true, if_false, pairing, div_eq_mul_inv]
  ring

theorem sqrt2_zpow_pivot (n m : ℕ) :
    (((√2 : ℝ) : ℂ)⁻¹ ^ m) ^ n * ((√2 : ℝ) : ℂ) ^ ((((n + 1 : ℕ) : ℤ) - 2) * ((m + 1 : ℕ) - 2)) =
      2 * ((√2 : ℝ) : ℂ)⁻¹ * (((√2 : ℝ) : ℂ)⁻¹ ^ n * ((√2 : ℝ) : ℂ)⁻¹ ^ m) := by
  have h2 : ((√2 : ℝ) : ℂ) ≠ 0 := Scalar.sqrt2_ne_zero
  have htwo : (2 : ℂ) = ((√2 : ℝ) : ℂ) ^ (2 : ℤ) := by
    rw [zpow_ofNat, pow_two, Scalar.sqrt2_mul_self]
  rw [htwo, ← zpow_neg_one, ← pow_mul, ← zpow_natCast, ← zpow_natCast, ← zpow_natCast, ← zpow_mul,
    ← zpow_mul, ← zpow_mul, ← zpow_add₀ h2, ← zpow_add₀ h2, ← zpow_add₀ h2, ← zpow_add₀ h2]
  congr 1
  push_cast
  ring

theorem prod_map_ite {α : Type} (l : List α) (P : α → Prop) [DecidablePred P] (f : α → ℂ) :
    (l.map fun x => if P x then f x else 1).prod = ((l.filter (P ·)).map f).prod := by
  induction l with
  | nil => rfl
  | cons x l ih =>
      rw [List.map_cons, List.prod_cons, ih, List.filter_cons]
      by_cases hx : P x <;> simp [hx]

namespace Diagram

variable {g : Diagram} {v₀ v₁ : ℕ} {V : Finset ℕ}

theorem pivotable_iff : g.pivotable v₀ v₁ = true ↔
    (g.kind? v₀ = some .z ∧ g.kind? v₁ = some .z ∧ g.edgeKind? v₀ v₁ = some .hadamard) ∧
    (∃ p, g.phase? v₀ = some p ∧ p.isPauli = true) ∧
    (∃ p, g.phase? v₁ = some p ∧ p.isPauli = true) ∧
    (∀ l ∈ g.linksAt v₀, l.2 = .hadamard ∧ g.kind? l.1 = some .z) ∧
    ∀ l ∈ g.linksAt v₁, l.2 = .hadamard ∧ g.kind? l.1 = some .z := by
  unfold pivotable
  cases h₀ : g.vertex? v₀ with
  | none => simp [kind?, data?, h₀]
  | some x =>
      cases h₁ : g.vertex? v₁ with
      | none => simp [kind?, data?, h₁]
      | some y => simp [kind?, phase?, data?, linksAt, h₀, h₁, interior_iff, and_assoc]

/-- What the edges and phases of one neighbour of the first spider contribute. -/
theorem bipartiteRow_absorbs {n : ℕ} {p : Phase} {ns₁ : List ℕ} (hg : g.Consistent)
    (hn : g.kind? n = some .z) (hns₁ : ∀ w ∈ ns₁, g.kind? w = some .z)
    (hnV : n ∈ V ↔ n ≠ v₁) (hV : ∀ w ∈ ns₁, w ∈ V ↔ w ≠ v₀) :
    Ends (do
        let g ← g.addToPhase n p
        ns₁.foldlM (fun g w =>
          if n ≠ v₁ ∧ w ≠ v₀ then g.connect n w .hadamard else return g) g)
      (fun g' => Absorbs V g (fun a => if n ∈ V then spin p.unit (a n) *
          ((ns₁.filter (· ∈ V)).map fun w => EdgeKind.hadamard.factor (a n) (a w)).prod else 1) g' ∧
        KeepsEnds g g')
      (· = .overflow) := by
  refine (addToPhase_absorbs hg hn (by decide) p V).bind fun g₁ h₁ => ?_
  obtain ⟨h₁, -, hedges₁⟩ := h₁
  have hends₁ : KeepsEnds g g₁ := fun b _ t => hedges₁ b t
  refine (foldlM_absorbs (V := V) (fun w a =>
    if n ≠ v₁ ∧ w ≠ v₀ then EdgeKind.hadamard.factor (a n) (a w) else 1) ns₁ h₁.consistent ?_).imp
    fun g₂ h₂ => ⟨(h₁.trans h₂.1).congr fun a => ?_, hends₁.trans h₁.kind?_eq h₂.2⟩
  · intro w hw g' h'
    by_cases hP : n ≠ v₁ ∧ w ≠ v₀
    · rw [if_pos hP]
      refine (connect_hadamard_absorbs h'.consistent ((h'.kind?_eq n).trans ((h₁.kind?_eq n).trans hn))
        ((h'.kind?_eq w).trans ((h₁.kind?_eq w).trans (hns₁ w hw))) (hnV.mpr hP.1)
        ((hV w hw).mpr hP.2)).imp fun g'' h'' => ⟨h''.1.congr fun a => ?_, h''.2⟩
      rw [if_pos hP]
    · rw [if_neg hP]
      refine Ends.pure_iff.mpr ⟨(Absorbs.refl h'.consistent).congr fun a => ?_, fun _ _ _ => rfl⟩
      rw [if_neg hP]
  · by_cases hn₁ : n = v₁
    · subst hn₁
      have hnV' : n ∉ V := fun hc => hnV.mp hc rfl
      simp [hnV']
    · rw [if_pos (hnV.mpr hn₁), if_pos (hnV.mpr hn₁), prod_map_ite]
      congr 3
      refine List.filter_congr fun w hw => ?_
      simp [hn₁, hV w hw]

theorem completeBipartite_absorbs {p : Phase} {ns₀ ns₁ : List ℕ} (hg : g.Consistent)
    (hns₀ : ∀ w ∈ ns₀, g.kind? w = some .z ∧ (w ∈ V ↔ w ≠ v₁))
    (hns₁ : ∀ w ∈ ns₁, g.kind? w = some .z ∧ (w ∈ V ↔ w ≠ v₀)) :
    Ends (completeBipartite v₀ v₁ p ns₀ ns₁ g)
      (fun g' => Absorbs V g (fun a => ((ns₀.filter (· ∈ V)).map fun n => spin p.unit (a n) *
          ((ns₁.filter (· ∈ V)).map fun w => EdgeKind.hadamard.factor (a n) (a w)).prod).prod) g' ∧
        KeepsEnds g g')
      (· = .overflow) := by
  unfold completeBipartite
  refine (foldlM_absorbs (V := V) (fun n a => if n ∈ V then spin p.unit (a n) *
    ((ns₁.filter (· ∈ V)).map fun w => EdgeKind.hadamard.factor (a n) (a w)).prod else 1) ns₀ hg
    fun n hn g₁ h₁ => ?_).imp fun g' h' => ⟨h'.1.congr fun a => prod_map_ite _ _ _, h'.2⟩
  exact bipartiteRow_absorbs h₁.consistent ((h₁.kind?_eq n).trans (hns₀ n hn).1)
    (fun w hw => (h₁.kind?_eq w).trans (hns₁ w hw).1) (hns₀ n hn).2 fun w hw => (hns₁ w hw).2

theorem addToPhases_absorbs {p : Phase} {ns : List ℕ} (hg : g.Consistent)
    (hns : ∀ w ∈ ns, g.kind? w = some .z) :
    Ends (ns.foldlM (fun g w => g.addToPhase w p) g)
      (fun g' => Absorbs V g (fun a => ((ns.filter (· ∈ V)).map fun w => spin p.unit (a w)).prod) g' ∧
        KeepsEnds g g')
      (· = .overflow) := by
  refine (foldlM_absorbs (V := V) (fun w a => if w ∈ V then spin p.unit (a w) else 1) ns hg
    fun w hw g₁ h₁ => ?_).imp fun g' h' => ⟨h'.1.congr fun a => prod_map_ite _ _ _, h'.2⟩
  exact (addToPhase_absorbs h₁.consistent ((h₁.kind?_eq w).trans (hns w hw)) (by decide) p V).imp
    fun g₂ h₂ => ⟨h₂.1, fun b _ t => h₂.2.2 b t⟩

/-- The global sign of the two phases. -/
theorem pivotSign_absorbs {p₀ p₁ : Phase} (hg : g.Consistent) (hp₀ : p₀.isPauli = true)
    (hp₁ : p₁.isPauli = true) :
    Ends (if !p₀.isZero && !p₁.isZero then g.mulPhase Phase.one else return g)
      (fun g' => Absorbs V g (fun _ => pairing p₀.unit p₁.unit) g' ∧
        g'.scalar.value = pairing p₀.unit p₁.unit * g.scalar.value ∧
        ∀ s t, g'.edgeKind? s t = g.edgeKind? s t)
      (· = .overflow) := by
  have hpairing := Phase.pairing_unit hp₀ hp₁
  split
  · rename_i h
    rw [if_pos h, ← Phase.unit_one] at hpairing
    rw [hpairing]
    exact (mulPhase_absorbs hg Phase.one V).imp fun g' h' => ⟨h'.1, h'.2.1, h'.2.2.2⟩
  · rename_i h
    rw [if_neg h] at hpairing
    rw [hpairing]
    exact Ends.pure_iff.mpr ⟨.refl hg, (one_mul _).symm, fun _ _ => rfl⟩

theorem bucketPair_of_pivotable {a : ℕ → Bool} {p₀ p₁ : Phase} (hg : g.Consistent)
    (hz₀ : g.kind? v₀ = some .z) (hz₁ : g.kind? v₁ = some .z)
    (he : g.edgeKind? v₀ v₁ = some .hadamard) (hp₀ : g.phase? v₀ = some p₀)
    (hp₁ : g.phase? v₁ = some p₁) (hs₀ : IsSign p₀.unit) (hs₁ : IsSign p₁.unit)
    (hl₀ : ∀ l ∈ g.linksAt v₀, l.2 = .hadamard ∧ g.kind? l.1 = some .z)
    (hl₁ : ∀ l ∈ g.linksAt v₁, l.2 = .hadamard ∧ g.kind? l.1 = some .z)
    {N₀ N₁ : List ℕ} (hN₀ : ((g.linksAt v₀).map Prod.fst).filter (· ∈ V) = N₀)
    (hN₁ : ((g.linksAt v₁).map Prod.fst).filter (· ∈ V) = N₁) :
    g.bucketPair V v₀ v₁ a =
      (N₀.map fun n => spin p₁.unit (a n) *
          (N₁.map fun w => EdgeKind.hadamard.factor (a n) (a w)).prod).prod *
        (N₁.map fun w => spin p₀.unit (a w)).prod *
        (((√2 : ℝ) : ℂ) ^ ((((N₀.length + 1 : ℕ) : ℤ) - 2) * ((N₁.length + 1 : ℕ) - 2)) *
          pairing p₀.unit p₁.unit) := by
  set x := ((√2 : ℝ) : ℂ)⁻¹
  set s₀ := signs N₀ a
  set s₁ := signs N₁ a
  have hwire : g.wire? v₀ v₁ = some .hadamard := by
    rw [wire?, he, Option.map_some, tinted_of_z hz₀ hz₁]
  have hturn₀ : g.turn v₀ = p₀.unit := turn_of_phase? (by simp [hz₀]) hp₀
  have hturn₁ : g.turn v₁ = p₁.unit := turn_of_phase? (by simp [hz₁]) hp₁
  have hleft : g.bucketPair V v₀ v₁ a =
      2 * pairing (p₀.unit * s₀) (p₁.unit * s₁) * x * (x ^ N₀.length * x ^ N₁.length) := by
    rw [← sum_hadamard_pair, bucketPair, hturn₀, hturn₁, hwire]
    refine sum_congr rfl fun b _ => sum_congr rfl fun c _ => ?_
    rw [around_of_interior hg hz₀ hl₀, around_of_interior hg hz₁ hl₁, hN₀, hN₁, prod_hadamard,
      prod_hadamard, spin_mul, spin_mul, linkFactor_some]
    ring
  have hright : (N₀.map fun n => spin p₁.unit (a n) *
      (N₁.map fun w => EdgeKind.hadamard.factor (a n) (a w)).prod).prod =
      pairing s₀ p₁.unit * ((x ^ N₁.length) ^ N₀.length * pairing s₀ s₁) := by
    simp only [prod_hadamard]
    rw [List.prod_map_mul, List.prod_map_mul, prod_spin_sign hs₁, prod_spin_sign (signs_isSign N₁ a),
      List.map_const', List.prod_replicate]
  rw [hleft, hright, prod_spin_sign hs₀,
    pairing_mul hs₀ hs₁ (signs_isSign N₀ a) (signs_isSign N₁ a)]
  linear_combination (-(pairing s₀ s₁ * pairing s₀ p₁.unit * pairing s₁ p₀.unit *
    pairing p₀.unit p₁.unit)) * sqrt2_zpow_pivot N₀.length N₁.length

/-- The neighbours of one pivot vertex other than the second. -/
theorem length_filter_neighbours {v w : ℕ} (hg : g.Consistent) {e : EdgeKind}
    (he : g.edgeKind? v w = some e)
    (hV : ∀ u ∈ (g.linksAt v).map Prod.fst, u ∈ V ↔ u ≠ w) :
    (((g.linksAt v).map Prod.fst).filter (· ∈ V)).length + 1 = (g.linksAt v).length := by
  have hmem : w ∈ (g.linksAt v).map Prod.fst := hg.key_iff.mpr ⟨e, he⟩
  have hfilter : ((g.linksAt v).map Prod.fst).filter (· ∈ V) =
      ((g.linksAt v).map Prod.fst).erase w := by
    rw [(hg.nodup v).erase_eq_filter]
    refine List.filter_congr fun u hu => ?_
    rw [Bool.eq_iff_iff, decide_eq_true_eq, bne_iff_ne]
    exact hV u hu
  rw [hfilter, List.length_erase_add_one hmem, List.length_map]

/-- Pivoting joins the neighbours, removes the two spiders and multiplies the scalar. The diagram with
the new edges and phases, before the spiders go, is `g₁`. -/
theorem pivot_contracts {p₀ p₁ : Phase} (hg : g.Consistent) (hp : g.pivotable v₀ v₁ = true)
    (hp₀ : g.phase? v₀ = some p₀) (hp₁ : g.phase? v₁ = some p₁) :
    Ends (g.pivot v₀ v₁)
      (fun g' => ∃ g₀ g₁ g₂, completeBipartite v₀ v₁ p₁ ((g.linksAt v₀).map Prod.fst)
          ((g.linksAt v₁).map Prod.fst) g = .ok g₀ ∧
        ((g.linksAt v₁).map Prod.fst).foldlM (fun g w => g.addToPhase w p₀) g₀ = .ok g₁ ∧
        Contracts ((g.support.erase v₀).erase v₁) g g₁ g₂ g' ∧ Rewrites g g' ∧
        g'.scalar.value = pairing p₀.unit p₁.unit * (((√2 : ℝ) : ℂ) ^
          ((((g.linksAt v₀).length : ℤ) - 2) * ((g.linksAt v₁).length - 2)) * g₁.scalar.value))
      (· = .overflow) := by
  obtain ⟨⟨hz₀, hz₁, he⟩, ⟨_, hp₀', hpauli₀⟩, ⟨_, hp₁', hpauli₁⟩, hl₀, hl₁⟩ := pivotable_iff.mp hp
  cases hp₀.symm.trans hp₀'
  cases hp₁.symm.trans hp₁'
  have hne := hg.ne_of_edgeKind? he
  have hc₀ := contains_of_kind? hz₀
  have hc₁ := contains_of_kind? hz₁
  have hs₀ : v₀ ∈ g.spiders := mem_spiders.mpr ⟨hc₀, by simp [hz₀]⟩
  have hs₁ : v₁ ∈ g.spiders := mem_spiders.mpr ⟨hc₁, by simp [hz₁]⟩
  set V := (g.support.erase v₀).erase v₁ with hV
  have hmemV : ∀ u, u ∈ V ↔ u ≠ v₁ ∧ u ≠ v₀ ∧ g.contains u := by
    intro u
    rw [hV, mem_erase, mem_erase, mem_support]
  have hns₀ : ∀ u ∈ (g.linksAt v₀).map Prod.fst, g.kind? u = some .z ∧ (u ∈ V ↔ u ≠ v₁) := by
    intro u hu
    obtain ⟨⟨u, f⟩, hl, rfl⟩ := List.mem_map.mp hu
    refine ⟨(hl₀ _ hl).2, ?_⟩
    rw [hmemV]
    exact ⟨fun h => h.1, fun h => ⟨h, hg.ne hl, hg.contains_right hl⟩⟩
  have hns₁ : ∀ u ∈ (g.linksAt v₁).map Prod.fst, g.kind? u = some .z ∧ (u ∈ V ↔ u ≠ v₀) := by
    intro u hu
    obtain ⟨⟨u, f⟩, hl, rfl⟩ := List.mem_map.mp hu
    refine ⟨(hl₁ _ hl).2, ?_⟩
    rw [hmemV]
    exact ⟨fun h => h.2.1, fun h => ⟨hg.ne hl, h, hg.contains_right hl⟩⟩
  unfold pivot
  rw [phase_of_phase? hp₀, phase_of_phase? hp₁, neighbours_of_contains hc₀,
    neighbours_of_contains hc₁]
  refine (completeBipartite_absorbs (V := V) (p := p₁) hg hns₀ hns₁).with_result.bind
    fun g₀ h₀ => ?_
  obtain ⟨hjoin₀, h₀, hends₀⟩ := h₀
  refine (addToPhases_absorbs (V := V) (p := p₀) h₀.consistent fun w hw =>
    (h₀.kind?_eq w).trans (hns₁ w hw).1).with_result.bind fun g₁ h₁ => ?_
  obtain ⟨hjoin₁, h₁, hends₁⟩ := h₁
  have h₀₁ := h₀.trans h₁
  obtain ⟨g₂, hg₂, h₂⟩ := removeVertex_removed (v := v₀) h₁.consistent
    (by rw [h₀₁.contains_eq]; exact hc₀)
  obtain ⟨g₃, hg₃, h₃⟩ := removeVertex_removed (v := v₁) h₂.consistent
    (by rw [h₂.contains_eq, h₀₁.contains_eq]; simp [hne.symm, hc₁])
  have hrestricts : Restricts V g₁ g₃ := by
    have hsupport : g₁.support = g.support := by
      ext w
      rw [mem_support, mem_support, h₀₁.contains_eq]
    have hfirst := h₂.restricts h₁.consistent
    have hsecond := h₃.restricts h₂.consistent
    rw [hfirst.support_eq] at hsecond
    rw [hV, ← hsupport]
    exact hfirst.trans hsecond (erase_subset _ _)
  simp only [hg₂, hg₃, bind, Except.bind]
  refine (Scalar.int32_ends _).bind fun m hm => ?_
  refine (mulSqrt2Pow_absorbs h₃.consistent m V).bind fun g₄ h₄ => ?_
  obtain ⟨h₄, hvalue₄, -, hedges₄⟩ := h₄
  refine (pivotSign_absorbs (V := V) h₄.consistent hpauli₀ hpauli₁).imp fun g₅ h₅ => ?_
  obtain ⟨h₅, hvalue₅, hedges₅⟩ := h₅
  have h₄₅ := h₄.trans h₅
  have hcontracts : Contracts V g g₁ g₃ g₅ := by
    refine ⟨h₀₁.toRecast, hends₀.trans h₀.kind?_eq hends₁, hrestricts, h₄₅.toRecast, fun s t => ?_⟩
    rw [hedges₅, hedges₄]
  refine ⟨g₀, g₁, g₃, hjoin₀, hjoin₁, hcontracts, ?_, ?_⟩
  · refine rewrites_of_sumsTo ((erase_subset _ _).trans (erase_subset _ _)) h₀₁ hrestricts h₄₅
      (sumsTo_erase_pair hg hs₀ hs₁ hne) fun a => ?_
    rw [bucketPair_of_pivotable hg hz₀ hz₁ he hp₀ hp₁ (Phase.isSign_unit hpauli₀)
      (Phase.isSign_unit hpauli₁) hl₀ hl₁ rfl rfl, hm, List.length_map, List.length_map,
      length_filter_neighbours hg he fun u hu => (hns₀ u hu).2,
      length_filter_neighbours hg ((hg.edgeKind?_comm _ _).trans he) fun u hu => (hns₁ u hu).2]
  · rw [hvalue₅, hvalue₄, hm, hrestricts.scalar_eq, List.length_map, List.length_map]

/-- Pivoting keeps the map and the boundary and removes two vertices. -/
theorem pivot_ends (hg : g.WellFormed) (hp : g.pivotable v₀ v₁ = true) :
    Ends (g.pivot v₀ v₁)
      (fun g' => g'.WellFormed ∧ Rewrites g g' ∧ g'.vertexCount < g.vertexCount)
      (· = .overflow) := by
  have hcons := hg.toConsistent
  obtain ⟨⟨hz₀, hz₁, -⟩, ⟨p₀, hp₀, -⟩, ⟨p₁, hp₁, -⟩, hl₀, hl₁⟩ := pivotable_iff.mp hp
  refine (pivot_contracts hcons hp hp₀ hp₁).imp fun g' h => ?_
  obtain ⟨g₀, g₁, g₂, -, -, hcontracts, hrewrites, -⟩ := h
  refine ⟨hcontracts.wellFormed hg fun u hu huV => ?_, hrewrites, ?_⟩
  · by_cases hu₀ : u = v₀
    · exact hu₀ ▸ ⟨hz₀, fun l hl => (hl₀ l hl).2⟩
    · obtain rfl : u = v₁ := by
        by_contra hu₁
        exact huV (mem_erase.mpr ⟨hu₁, mem_erase.mpr ⟨hu₀, mem_support.mpr hu⟩⟩)
      exact ⟨hz₁, fun l hl => (hl₁ l hl).2⟩
  · rw [hcontracts.vertexCount_eq, hcons.vertexCount_eq]
    exact (card_erase_le).trans_lt (card_erase_lt_of_mem (mem_support.mpr (contains_of_kind? hz₀)))

end Diagram

end ZX
