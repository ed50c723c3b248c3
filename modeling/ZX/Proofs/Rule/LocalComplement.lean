import Mathlib
import ZX.Proofs.Rewriting
import ZX.Rule.LocalComplement

/-!
# Soundness of local complementation

An interior spider with a quarter turn contributes `1 ± i (-1)^m`, where `m` counts the neighbours
with bit 1. The same number comes from a clique of Hadamard edges on the neighbours with an opposite
quarter turn on each of them.
-/
namespace ZX

open Finset Function

/-- The sign of the number of listed vertices with bit 1. -/
def signs (vs : List ℕ) (a : ℕ → Bool) : ℂ := (vs.map fun w => spin (-1) (a w)).prod

@[simp] theorem signs_nil (a : ℕ → Bool) : signs [] a = 1 := rfl

@[simp] theorem signs_cons (v : ℕ) (vs : List ℕ) (a : ℕ → Bool) :
    signs (v :: vs) a = spin (-1) (a v) * signs vs a := by
  simp [signs]

theorem signs_mul_self (vs : List ℕ) (a : ℕ → Bool) : signs vs a * signs vs a = 1 := by
  induction vs with
  | nil => simp
  | cons v vs ih =>
      rw [signs_cons, mul_mul_mul_comm, ih, mul_one]
      cases a v <;> simp

/-- Hadamard edges from a vertex with bit `b` to the listed vertices. -/
theorem prod_hadamard (vs : List ℕ) (a : ℕ → Bool) (b : Bool) :
    (vs.map fun w => EdgeKind.hadamard.factor b (a w)).prod =
      ((√2 : ℝ) : ℂ)⁻¹ ^ vs.length * spin (signs vs a) b := by
  induction vs with
  | nil => simp
  | cons v vs ih =>
      rw [List.map_cons, List.prod_cons, ih, List.length_cons, pow_succ, signs_cons, spin_mul]
      cases b <;> cases a v <;> simp [EdgeKind.factor, div_eq_mul_inv] <;> ring

/-- The factor of a clique of Hadamard edges with a weight on each of its vertices. -/
noncomputable def clique (c : ℂ) : List ℕ → (ℕ → Bool) → ℂ
  | [], _ => 1
  | v :: vs, a => spin c (a v) * (vs.map fun w => EdgeKind.hadamard.factor (a v) (a w)).prod *
      clique c vs a

/-- The clique has one edge for each pair of its vertices. -/
theorem clique_mul {u : ℂ} (hu : u * u = -1) (vs : List ℕ) (a : ℕ → Bool) :
    clique u⁻¹ vs a * (1 + u) * ((√2 : ℝ) : ℂ) ^ vs.length.choose 2 = 1 + u * signs vs a := by
  have hinv : u⁻¹ = -u := inv_eq_of_mul_eq_one_right (by rw [mul_neg, hu, neg_neg])
  have h2 : ((√2 : ℝ) : ℂ) ≠ 0 := Scalar.sqrt2_ne_zero
  induction vs with
  | nil => simp [clique]
  | cons v vs ih =>
      have hcancel : ((√2 : ℝ) : ℂ)⁻¹ ^ vs.length * ((√2 : ℝ) : ℂ) ^ vs.length = 1 := by
        rw [← mul_pow, inv_mul_cancel₀ h2, one_pow]
      have hsq := signs_mul_self vs a
      rw [List.length_cons, Nat.choose_succ_succ' vs.length 1, Nat.choose_one_right, pow_add,
        signs_cons, clique, prod_hadamard]
      calc spin u⁻¹ (a v) * (((√2 : ℝ) : ℂ)⁻¹ ^ vs.length * spin (signs vs a) (a v)) *
            clique u⁻¹ vs a * (1 + u) *
            (((√2 : ℝ) : ℂ) ^ vs.length * ((√2 : ℝ) : ℂ) ^ vs.length.choose 2)
          = spin u⁻¹ (a v) * spin (signs vs a) (a v) *
              (((√2 : ℝ) : ℂ)⁻¹ ^ vs.length * ((√2 : ℝ) : ℂ) ^ vs.length) *
              (clique u⁻¹ vs a * (1 + u) * ((√2 : ℝ) : ℂ) ^ vs.length.choose 2) := by ring
        _ = spin u⁻¹ (a v) * spin (signs vs a) (a v) * (1 + u * signs vs a) := by
            rw [hcancel, ih, mul_one]
        _ = 1 + u * (spin (-1) (a v) * signs vs a) := by
            cases a v
            · simp
            · rw [spin_true, spin_true, spin_true, hinv]
              linear_combination (-u * u) * hsq - hu

/-- Moving the scalar of the rule to the other side. -/
theorem sqrt2_zpow_mul (n : ℕ) :
    ((√2 : ℝ) : ℂ) ^ (((n : ℤ) - 1) * (n - 2) / 2) * ((√2 : ℝ) : ℂ) ^ n =
      ((√2 : ℝ) : ℂ) * ((√2 : ℝ) : ℂ) ^ n.choose 2 := by
  have h2 : ((√2 : ℝ) : ℂ) ≠ 0 := Scalar.sqrt2_ne_zero
  have hchoose : (n.choose 2 : ℤ) * 2 = n * (n - 1) := by
    have := Nat.choose_two_right n
    have heven : n * (n - 1) / 2 * 2 = n * (n - 1) := Nat.div_mul_cancel (Nat.even_mul_pred_self n).two_dvd
    rw [← this] at heven
    rcases n with _ | n
    · simp
    · push_cast [Nat.add_sub_cancel] at heven ⊢
      have : ((n + 1).choose 2 * 2 : ℤ) = (n + 1) * n := by exact_mod_cast heven
      linarith
  have hexp : ((n : ℤ) - 1) * (n - 2) / 2 = n.choose 2 - n + 1 := by
    have : ((n : ℤ) - 1) * (n - 2) = (n.choose 2 - n + 1) * 2 := by linarith
    rw [this, Int.mul_ediv_cancel _ two_ne_zero]
  rw [hexp, ← zpow_natCast, ← zpow_natCast, ← zpow_add₀ h2, ← zpow_one_add₀ h2]
  congr 1
  ring

theorem Phase.ofFraction_ends (n : ℤ) {d : ℤ} (hd : d ≠ 0) :
    Ends (Phase.ofFraction n d) (fun q => q.SameAngle (Rat.divInt n d)) (· = .overflow) := by
  unfold Phase.ofFraction
  exact (Ratio.make_ends hd).bind fun r hr => hr ▸ Phase.ofRat_ends r

/-- A quarter of the numerator is half of a quarter turn. -/
theorem Phase.divInt_num_four {p : Phase} (hp : p.isProperClifford = true) :
    Rat.divInt p.num 4 = p.halfTurns / 2 := by
  rw [isProperClifford, Bool.or_eq_true, decide_eq_true_eq, decide_eq_true_eq] at hp
  rcases hp with rfl | rfl <;> decide +kernel

theorem one_add_I : 1 + Complex.I = (√2 : ℝ) * Complex.exp (Real.pi / 4 * Complex.I) := by
  have hcos : Complex.cos (Real.pi / 4) = (√2 : ℝ) / 2 := by
    exact_mod_cast congrArg Complex.ofReal Real.cos_pi_div_four
  have hsin : Complex.sin (Real.pi / 4) = (√2 : ℝ) / 2 := by
    exact_mod_cast congrArg Complex.ofReal Real.sin_pi_div_four
  rw [Complex.exp_mul_I, hcos, hsin]
  linear_combination (-(1 + Complex.I) / 2) * Scalar.sqrt2_mul_self

/-- Half of a quarter turn has the length that turns `1 + u` into a phase. -/
theorem one_add_unit_of_isProperClifford {p q : Phase} (hp : p.isProperClifford = true)
    (hq : q.SameAngle (Rat.divInt p.num 4)) :
    1 + p.unit = ((√2 : ℝ) : ℂ) * q.unit ∧ p.unit * p.unit = -1 := by
  rw [Phase.isProperClifford, Bool.or_eq_true, decide_eq_true_eq, decide_eq_true_eq] at hp
  rcases hp with rfl | rfl
  · have hnum : Phase.quarter.num = 1 := by decide
    rw [Phase.unit_of_sameAngle hq, Phase.unit_quarter, one_add_I, hnum]
    refine ⟨?_, Complex.I_mul_I⟩
    congr 2
    push_cast [Rat.divInt_eq_div]
    ring
  · have hnum : Phase.negQuarter.num = -1 := by decide
    have hconj : 1 + -Complex.I = (√2 : ℝ) * Complex.exp (-(Real.pi / 4) * Complex.I) := by
      have := congrArg (starRingEnd ℂ) one_add_I
      rw [map_add, map_one, Complex.conj_I, map_mul, Complex.conj_ofReal, ← Complex.exp_conj,
        map_mul, Complex.conj_I, map_div₀, Complex.conj_ofReal] at this
      rw [this, map_ofNat]
      congr 2
      ring
    rw [Phase.unit_of_sameAngle hq, Phase.unit_negQuarter, hconj, hnum]
    refine ⟨?_, by rw [neg_mul_neg, Complex.I_mul_I]⟩
    congr 2
    push_cast [Rat.divInt_eq_div]
    ring

namespace Diagram

variable {g : Diagram} {v : ℕ}

theorem interior_iff {x : Vertex} : g.interior x = true ↔
    ∀ l ∈ x.links, l.2 = .hadamard ∧ g.kind? l.1 = some .z := by
  unfold interior kind? data?
  rw [List.all_eq_true]
  refine forall₂_congr fun l _ => ?_
  cases hl : g.vertex? l.1 with
  | none => simp [hl]
  | some y => simp [hl]

theorem complementable_iff : g.complementable v = true ↔ g.kind? v = some .z ∧
    (∃ p, g.phase? v = some p ∧ p.isProperClifford = true) ∧
    ∀ l ∈ g.linksAt v, l.2 = .hadamard ∧ g.kind? l.1 = some .z := by
  unfold complementable
  cases hv : g.vertex? v with
  | none => simp [kind?, data?, hv]
  | some x => simp [kind?, phase?, data?, linksAt, hv, interior_iff, and_assoc]

/-- The two ends of a green edge do not change its kind. -/
theorem tinted_of_z {s t : ℕ} (hs : g.kind? s = some .z) (ht : g.kind? t = some .z) (e : EdgeKind) :
    g.tinted s t e = e := by
  simp [tinted, isRed, hs, ht]

/-- The edges of the boundary stay as they are. -/
def KeepsEnds (g g' : Diagram) : Prop :=
  ∀ b, g.kind? b = some .boundary → ∀ t, g'.edgeKind? b t = g.edgeKind? b t

theorem KeepsEnds.trans {g g' g'' : Diagram} (h : KeepsEnds g g') (hkind : ∀ v, g'.kind? v = g.kind? v)
    (h' : KeepsEnds g' g'') : KeepsEnds g g'' := fun b hb t =>
  (h' b ((hkind b).trans hb) t).trans (h b hb t)

theorem keepsEnds_of_edgeKind? {g g' : Diagram} {s t : ℕ}
    (h : ∀ a b, ¬IsPair s t a b → g'.edgeKind? a b = g.edgeKind? a b)
    (hs : g.kind? s ≠ some .boundary) (ht : g.kind? t ≠ some .boundary) : KeepsEnds g g' := by
  intro b hb u
  refine h b u ?_
  rintro (⟨rfl, -⟩ | ⟨rfl, -⟩)
  · exact hs hb
  · exact ht hb

/-- Along a fold the factors of the steps multiply. -/
theorem foldlM_absorbs {α : Type} {V : Finset ℕ} {step : Diagram → α → Except Fault Diagram}
    (f : α → (ℕ → Bool) → ℂ) (xs : List α) (hg : g.Consistent)
    (hstep : ∀ x ∈ xs, ∀ g₁, Recast g g₁ →
      Ends (step g₁ x) (fun g₂ => Absorbs V g₁ (f x) g₂ ∧ KeepsEnds g₁ g₂) (· = .overflow)) :
    Ends (xs.foldlM step g)
      (fun g' => Absorbs V g (fun a => (xs.map fun x => f x a).prod) g' ∧ KeepsEnds g g')
      (· = .overflow) := by
  refine Ends.foldlM_done (I := fun done g' =>
    Absorbs V g (fun a => (done.map fun x => f x a).prod) g' ∧ KeepsEnds g g') ?_
    ⟨.refl hg, fun _ _ _ => rfl⟩
  rintro done x rest g₁ hsplit ⟨h₁, hends₁⟩
  refine (hstep x (by simp [hsplit]) g₁ h₁.toRecast).imp fun g₂ h₂ =>
    ⟨(h₁.trans h₂.1).congr fun a => ?_, hends₁.trans h₁.kind?_eq h₂.2⟩
  rw [List.map_append, List.prod_append]
  simp

/-- A Hadamard edge between green spiders. -/
theorem connect_hadamard_absorbs {V : Finset ℕ} {w : ℕ} (hg : g.Consistent)
    (hv : g.kind? v = some .z) (hw : g.kind? w = some .z) (hvV : v ∈ V) (hwV : w ∈ V) :
    Ends (g.connect v w .hadamard)
      (fun g' => Absorbs V g (fun a => EdgeKind.hadamard.factor (a v) (a w)) g' ∧ KeepsEnds g g')
      (· = .overflow) := by
  refine (connect_absorbs hg hv (by decide) hw (by decide) hvV hwV .hadamard).imp fun g' h' =>
    ⟨h'.1.congr fun a => ?_, keepsEnds_of_edgeKind? h'.2 (by simp [hv]) (by simp [hw])⟩
  rw [tinted_of_z hv hw]

theorem completeGraph_absorbs {V : Finset ℕ} (p : Phase) (vs : List ℕ) (hg : g.Consistent)
    (hvs : ∀ v ∈ vs, g.kind? v = some .z ∧ v ∈ V) :
    Ends (completeGraph p vs g)
      (fun g' => Absorbs V g (clique p.unit vs) g' ∧ KeepsEnds g g') (· = .overflow) := by
  induction vs generalizing g with
  | nil => exact Ends.pure_iff.mpr ⟨.refl hg, fun _ _ _ => rfl⟩
  | cons v vs ih =>
      obtain ⟨hv, hvV⟩ := hvs v List.mem_cons_self
      unfold completeGraph
      refine (addToPhase_absorbs hg hv (by decide) p V).bind fun g₁ h₁ => ?_
      obtain ⟨h₁, -, hedges₁⟩ := h₁
      have hvs₁ : ∀ w ∈ vs, g₁.kind? w = some .z ∧ w ∈ V := fun w hw =>
        ⟨(h₁.kind?_eq w).trans (hvs w (List.mem_cons_of_mem v hw)).1,
          (hvs w (List.mem_cons_of_mem v hw)).2⟩
      refine (foldlM_absorbs (fun w a => EdgeKind.hadamard.factor (a v) (a w)) vs h₁.consistent
        fun w hw g' h' => connect_hadamard_absorbs h'.consistent
          ((h'.kind?_eq v).trans ((h₁.kind?_eq v).trans hv))
          ((h'.kind?_eq w).trans (hvs₁ w hw).1) hvV (hvs₁ w hw).2).bind fun g₂ h₂ => ?_
      obtain ⟨h₂, hends₂⟩ := h₂
      refine (ih h₂.consistent fun w hw => ⟨(h₂.kind?_eq w).trans (hvs₁ w hw).1, (hvs₁ w hw).2⟩).imp
        fun g₃ h₃ => ⟨((h₁.trans h₂).trans h₃.1).congr fun a => ?_, ?_⟩
      · rw [if_pos hvV, clique]
      · have hends₁ : KeepsEnds g g₁ := fun b _ t => hedges₁ b t
        exact (hends₁.trans h₁.kind?_eq hends₂).trans (h₁.trans h₂).kind?_eq h₃.2

theorem HangsOn.restrict {g₁ g₂ : Diagram} {V : Finset ℕ} {b t : ℕ} {e : EdgeKind}
    (h : g.HangsOn b t e) (hb : g.kind? b = some .boundary) (hends : KeepsEnds g g₁)
    (h₂ : Restricts V g₁ g₂) (hbV : b ∈ V) (htV : t ∈ V) : g₂.HangsOn b t e := by
  intro u
  rw [h₂.edgeKind?_eq_ite hbV, hends b hb, h u]
  by_cases hu : u = t
  · rw [if_pos (hu ▸ htV)]
  · rw [if_neg hu, ite_self]

/-- `g'` comes from `g` in three steps. Phases and edges away from the boundary change, which gives
`g₁`; the vertices outside of `V` go, which leaves `g₂`; the scalar changes. -/
structure Contracts (V : Finset ℕ) (g g₁ g₂ g' : Diagram) : Prop where
  joined : Recast g g₁
  keepsEnds : KeepsEnds g g₁
  restricts : Restricts V g₁ g₂
  scaled : Recast g₂ g'
  edgeKind?_eq : ∀ s t, g'.edgeKind? s t = g₂.edgeKind? s t

namespace Contracts

variable {V : Finset ℕ} {g₁ g₂ g' : Diagram}

theorem support_eq (h : Contracts V g g₁ g₂ g') : g'.support = V := by
  rw [← h.restricts.support_eq]
  ext v
  rw [mem_support, mem_support, h.scaled.contains_eq]

theorem vertexCount_eq (h : Contracts V g g₁ g₂ g') : g'.vertexCount = V.card := by
  rw [h.scaled.consistent.vertexCount_eq, h.support_eq]

/-- Green spiders with green neighbours can go without a trace at the boundary. -/
theorem wellFormed (h : Contracts V g g₁ g₂ g') (hg : g.WellFormed)
    (hV : ∀ v, g.contains v = true → v ∉ V →
      g.kind? v = some .z ∧ ∀ l ∈ g.linksAt v, g.kind? l.1 = some .z) : g'.WellFormed := by
  have hboundary : ∀ b, g.kind? b = some .boundary → b ∈ V := by
    intro b hb
    by_contra hbV
    have hz := (hV b (contains_of_kind? hb) hbV).1
    simp [hb] at hz
  refine hg.of_restricts h.joined h.restricts h.scaled hboundary fun b t e hb hbt => ?_
  have hcons := hg.toConsistent
  have hedge : g.edgeKind? b t = some e := by rw [hbt, if_pos rfl]
  have htV : t ∈ V := by
    by_contra htV
    have hz := (hV t (hcons.contains_far hedge) htV).2 _ (hcons.symm (hcons.edgeKind?_iff.mp hedge))
    simp [hb] at hz
  refine ⟨t, e, fun u => ?_⟩
  rw [h.edgeKind?_eq]
  exact hbt.restrict hb h.keepsEnds h.restricts (hboundary b hb) htV u

end Contracts

/-- The links of an interior spider are Hadamard edges between green spiders. -/
theorem around_of_interior {V : Finset ℕ} {a : ℕ → Bool} (hg : g.Consistent)
    (hz : g.kind? v = some .z)
    (hlinks : ∀ l ∈ g.linksAt v, l.2 = .hadamard ∧ g.kind? l.1 = some .z) (b : Bool) :
    g.around V v b a =
      ((((g.linksAt v).map Prod.fst).filter (· ∈ V)).map fun w =>
        EdgeKind.hadamard.factor b (a w)).prod := by
  rw [around_eq_prod_links hg, List.filter_map, List.map_map]
  congr 1
  refine List.map_congr_left fun l hl => ?_
  obtain ⟨he, hk⟩ := hlinks l (List.mem_of_mem_filter hl)
  rw [tinted_of_z hz hk, he]
  rfl

theorem bucket_of_complementable {a : ℕ → Bool} {p q r : Phase} (hg : g.Consistent)
    (hz : g.kind? v = some .z) (hp : g.phase? v = some p) (hc : p.isProperClifford = true)
    (hlinks : ∀ l ∈ g.linksAt v, l.2 = .hadamard ∧ g.kind? l.1 = some .z)
    (hq : q.SameAngle (Rat.divInt p.num 4)) (hr : r.unit = p.unit⁻¹) :
    g.bucket (g.support.erase v) v a = clique r.unit ((g.linksAt v).map Prod.fst) a *
      (((√2 : ℝ) : ℂ) ^ ((((g.linksAt v).length : ℤ) - 1) * ((g.linksAt v).length - 2) / 2) *
        q.unit) := by
  set ns := (g.linksAt v).map Prod.fst with hns
  have h2 : ((√2 : ℝ) : ℂ) ≠ 0 := Scalar.sqrt2_ne_zero
  have hlen : (g.linksAt v).length = ns.length := by rw [hns, List.length_map]
  have hV : ns.filter (· ∈ g.support.erase v) = ns := by
    rw [List.filter_eq_self]
    intro w hw
    obtain ⟨⟨w, e⟩, hl, rfl⟩ := List.mem_map.mp hw
    exact decide_eq_true (mem_erase.mpr ⟨hg.ne hl, mem_support.mpr (hg.contains_right hl)⟩)
  have hturn : g.turn v = p.unit := turn_of_phase? (by simp [hz]) hp
  obtain ⟨hone, hsq⟩ := one_add_unit_of_isProperClifford hc hq
  have hclique := clique_mul hsq ns a
  have hscalar := sqrt2_zpow_mul ns.length
  have hcancel : ((√2 : ℝ) : ℂ)⁻¹ ^ ns.length * ((√2 : ℝ) : ℂ) ^ ns.length = 1 := by
    rw [← mul_pow, inv_mul_cancel₀ h2, one_pow]
  rw [bucket, around_of_interior hg hz hlinks, around_of_interior hg hz hlinks, ← hns, hV,
    prod_hadamard, prod_hadamard, hturn, hr, hlen, spin_false, spin_true]
  set x := ((√2 : ℝ) : ℂ)⁻¹ ^ ns.length
  set y := ((√2 : ℝ) : ℂ) ^ ns.length
  set E := ((√2 : ℝ) : ℂ) ^ (((ns.length : ℤ) - 1) * (ns.length - 2) / 2)
  calc x * 1 + p.unit * (x * signs ns a) = x * (1 + p.unit * signs ns a) := by ring
    _ = x * (clique p.unit⁻¹ ns a * (((√2 : ℝ) : ℂ) * ((√2 : ℝ) : ℂ) ^ ns.length.choose 2) *
          q.unit) := by
        rw [← hclique, hone]
        ring
    _ = clique p.unit⁻¹ ns a * (E * q.unit) * (x * y) := by
        rw [← hscalar]
        ring
    _ = clique p.unit⁻¹ ns a * (E * q.unit) := by rw [hcancel, mul_one]

/-- Local complementation at a vertex of any consistent diagram removes just this vertex and keeps
the map. -/
theorem localComplement_contracts (hg : g.Consistent) (hc : g.complementable v = true) :
    Ends (g.localComplement v)
      (fun g' => Rewrites g g' ∧ ∃ joined rest, Contracts (g.support.erase v) g joined rest g')
      (· = .overflow) := by
  obtain ⟨hz, ⟨p, hp, hproper⟩, hlinks⟩ := complementable_iff.mp hc
  have hcontains := contains_of_kind? hz
  have hspider : v ∈ g.spiders := mem_spiders.mpr ⟨hcontains, by simp [hz]⟩
  set V := g.support.erase v
  have hns : ∀ w ∈ (g.linksAt v).map Prod.fst, g.kind? w = some .z ∧ w ∈ V := by
    intro w hw
    obtain ⟨⟨w, e⟩, hl, rfl⟩ := List.mem_map.mp hw
    exact ⟨(hlinks _ hl).2, mem_erase.mpr ⟨hg.ne hl, mem_support.mpr (hg.contains_right hl)⟩⟩
  unfold localComplement
  rw [phase_of_phase? hp, neighbours_of_contains hcontains]
  refine (Phase.neg_ends p).bind fun r hr => ?_
  refine (completeGraph_absorbs r _ hg hns).bind fun g₁ h₁ => ?_
  obtain ⟨h₁, hends₁⟩ := h₁
  obtain ⟨g₂, hg₂, h₂⟩ := removeVertex_removed (v := v) h₁.consistent
    (by rw [h₁.contains_eq]; exact hcontains)
  have hrestricts : Restricts V g₁ g₂ := by
    have hsupport : g₁.support = g.support := by
      ext w
      rw [mem_support, mem_support, h₁.contains_eq]
    have := h₂.restricts h₁.consistent
    rwa [hsupport] at this
  simp only [hg₂]
  refine (Scalar.int32_ends _).bind fun m hm => ?_
  refine (mulSqrt2Pow_absorbs h₂.consistent (m / 2) V).bind fun g₃ h₃ => ?_
  refine (Phase.ofFraction_ends p.num (d := 4) (by decide)).bind fun q hq => ?_
  refine (mulPhase_absorbs h₃.1.consistent q V).imp fun g₄ h₄ => ?_
  have h₃₄ := h₃.1.trans h₄.1
  constructor
  · refine rewrites_of_sumsTo (erase_subset _ _) h₁ hrestricts h₃₄ (sumsTo_erase hg hspider)
      fun a => ?_
    rw [bucket_of_complementable hg hz hp hproper hlinks hq hr, hm, List.length_map]
  · refine ⟨g₁, g₂, h₁.toRecast, hends₁, hrestricts, h₃₄.toRecast, fun s t => ?_⟩
    rw [h₄.2.2.2, h₃.2.2.2]

/-- Local complementation keeps the map and the boundary and removes one vertex. -/
theorem localComplement_ends (hg : g.WellFormed) (hc : g.complementable v = true) :
    Ends (g.localComplement v)
      (fun g' => g'.WellFormed ∧ Rewrites g g' ∧ g'.vertexCount < g.vertexCount)
      (· = .overflow) := by
  obtain ⟨hz, -, hlinks⟩ := complementable_iff.mp hc
  refine (localComplement_contracts hg.toConsistent hc).imp fun g' h => ?_
  obtain ⟨hrewrites, joined, rest, hcontracts⟩ := h
  refine ⟨hcontracts.wellFormed hg fun u hu huV => ?_, hrewrites, ?_⟩
  · obtain rfl : u = v := by
      by_contra hne
      exact huV (mem_erase.mpr ⟨hne, mem_support.mpr hu⟩)
    exact ⟨hz, fun l hl => (hlinks l hl).2⟩
  · rw [hcontracts.vertexCount_eq, hg.vertexCount_eq]
    exact card_erase_lt_of_mem (mem_support.mpr (contains_of_kind? hz))

end Diagram

end ZX
