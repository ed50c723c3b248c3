import Mathlib
import ZX.Diagram.Connect
import ZX.Proofs.Meaning

/-!
# Changes that multiply the summand

The elementary changes of a diagram multiply its summand by a factor: an edge by its entry, a phase
by a weight of one spider, the scalar by a number. `Absorbs V g extra g'` says that `g'` is `g` with
the factor `extra` on the vertices of `V`, whatever weights the spiders have. Such factors multiply
along a run, and `connect` absorbs the entry of the edge that it adds.
-/
namespace ZX.Diagram

open Finset Function

variable {g g' g'' : Diagram} {s t u v : ℕ} {e : EdgeKind} {V : Finset ℕ} {ω : ℕ → ℂ}
  {a : ℕ → Bool}

/-- The parts of a diagram that no change of edges, phases or scalar touches. -/
structure Recast (g g' : Diagram) : Prop where
  consistent : g'.Consistent
  kind?_eq : ∀ v, g'.kind? v = g.kind? v
  phase?_eq : ∀ v, g.kind? v = some .boundary → g'.phase? v = g.phase? v
  inputs_eq : g'.inputs = g.inputs
  outputs_eq : g'.outputs = g.outputs
  vertexCount_eq : g'.vertexCount = g.vertexCount

theorem contains_eq_kind?_isSome : g.contains v = (g.kind? v).isSome := by
  rw [contains_eq_data?_isSome, kind?, Option.isSome_map]

namespace Recast

theorem refl (h : g.Consistent) : Recast g g := ⟨h, fun _ => rfl, fun _ _ => rfl, rfl, rfl, rfl⟩

theorem trans (h : Recast g g') (h' : Recast g' g'') : Recast g g'' where
  consistent := h'.consistent
  kind?_eq v := (h'.kind?_eq v).trans (h.kind?_eq v)
  phase?_eq v hv := (h'.phase?_eq v ((h.kind?_eq v).trans hv)).trans (h.phase?_eq v hv)
  inputs_eq := h'.inputs_eq.trans h.inputs_eq
  outputs_eq := h'.outputs_eq.trans h.outputs_eq
  vertexCount_eq := h'.vertexCount_eq.trans h.vertexCount_eq

theorem contains_eq (h : Recast g g') (v : ℕ) : g'.contains v = g.contains v := by
  rw [contains_eq_kind?_isSome, h.kind?_eq, contains_eq_kind?_isSome]

theorem tinted_eq (h : Recast g g') (s t : ℕ) : g'.tinted s t = g.tinted s t := by
  unfold tinted isRed
  rw [h.kind?_eq, h.kind?_eq]

theorem mem_spiders (h : Recast g g') : v ∈ g'.spiders ↔ v ∈ g.spiders := by
  rw [Diagram.mem_spiders, Diagram.mem_spiders, h.contains_eq, h.kind?_eq]

end Recast

/-- `g'` is `g` with one more factor on the vertices of `V`. -/
structure Absorbs (V : Finset ℕ) (g : Diagram) (extra : (ℕ → Bool) → ℂ) (g' : Diagram) : Prop
    extends Recast g g' where
  mass_eq : ∃ μ : ℕ → ℂ, (∀ v, μ v ≠ 0) ∧ (∀ v ∈ V, g'.turn v = μ v * g.turn v) ∧
    ∀ ω a, g'.mass V (fun v => μ v * ω v) a = g.mass V ω a * extra a

namespace Absorbs

variable {f f' : (ℕ → Bool) → ℂ}

theorem refl (h : g.Consistent) : Absorbs V g (fun _ => 1) g where
  toRecast := .refl h
  mass_eq := ⟨fun _ => 1, fun _ => one_ne_zero, fun _ _ => (one_mul _).symm, fun ω a => by simp⟩

theorem trans (h : Absorbs V g f g') (h' : Absorbs V g' f' g'') :
    Absorbs V g (fun a => f a * f' a) g'' where
  toRecast := h.toRecast.trans h'.toRecast
  mass_eq := by
    obtain ⟨μ, hμ, hturn, hmass⟩ := h.mass_eq
    obtain ⟨μ', hμ', hturn', hmass'⟩ := h'.mass_eq
    refine ⟨fun v => μ' v * μ v, fun v => mul_ne_zero (hμ' v) (hμ v), ?_, ?_⟩
    · intro v hv
      rw [hturn' v hv, hturn v hv, mul_assoc]
    · intro ω a
      simp only [mul_assoc]
      rw [hmass', hmass, mul_assoc]

theorem congr (h : Absorbs V g f g') (hf : ∀ a, f a = f' a) : Absorbs V g f' g' := by
  have : f = f' := funext hf
  exact this ▸ h

end Absorbs

/-! ## Weights and scalar -/

theorem mass_mul_weight (hv : v ∈ V) (c : ℂ) :
    g.mass V (fun u => (if u = v then c else 1) * ω u) a = g.mass V ω a * spin c (a v) := by
  have hprod : ∏ u ∈ V, spin ((if u = v then c else 1) * ω u) (a u) =
      (∏ u ∈ V, spin (ω u) (a u)) * spin c (a v) := by
    simp only [spin_mul]
    rw [prod_mul_distrib, mul_comm]
    congr 1
    rw [prod_eq_single v]
    · rw [if_pos rfl]
    · intro u _ hu
      rw [if_neg hu, spin_one]
    · exact fun h => absurd hv h
  rw [mass, mass, hprod]
  ring

theorem mass_mul_scalar {c : ℂ} (hs : g'.scalar.value = c * g.scalar.value)
    (hwire : ∀ s t, g'.wire? s t = g.wire? s t) : g'.mass V ω a = g.mass V ω a * c := by
  simp only [mass, hs, hwire]
  ring

theorem kind?_setData {d d' : VertexData} (hd : g.data? v = some d) (hk : d'.kind = d.kind) :
    (g.setData v d').kind? u = g.kind? u := by
  rw [kind?, kind?, data?_setData d' (contains_of_data? hd)]
  split
  · rename_i hu
    subst hu
    simp [hd, hk]
  · rfl

theorem phase?_setData {d : VertexData} (d' : VertexData) (hd : g.data? v = some d) :
    (g.setData v d').phase? u = if u = v then some d'.phase else g.phase? u := by
  rw [phase?, data?_setData d' (contains_of_data? hd)]
  split <;> rfl

theorem turn_setData {d d' : VertexData} (hd : g.data? v = some d) (hk : d'.kind = d.kind)
    (hs : d.kind ≠ .boundary) :
    (g.setData v d').turn u = if u = v then d'.phase.unit else g.turn u := by
  rw [turn, turn, kind?_setData hd hk, phase?_setData d' hd]
  split
  · rename_i hu
    split
    · rename_i huv
      subst huv
      simp [kind?, hd, hs] at hu
    · rfl
  · split <;> rfl

theorem wire?_setData {d d' : VertexData} (hd : g.data? v = some d) (hk : d'.kind = d.kind) :
    (g.setData v d').wire? s t = g.wire? s t := by
  unfold wire? tinted isRed
  rw [kind?_setData hd hk, kind?_setData hd hk, edgeKind?_setData]

theorem addToPhase_absorbs (h : g.Consistent) {k : VertexKind} (hk : g.kind? v = some k)
    (hb : k ≠ .boundary) (p : Phase) (V : Finset ℕ) :
    Ends (g.addToPhase v p)
      (fun g' => Absorbs V g (fun a => if v ∈ V then spin p.unit (a v) else 1) g' ∧
        (∀ u, u ≠ v → g'.phase? u = g.phase? u) ∧ ∀ s t, g'.edgeKind? s t = g.edgeKind? s t)
      (· = .overflow) := by
  obtain ⟨d, hd, rfl⟩ := kind?_eq_some.mp hk
  rw [addToPhase_eq hd]
  refine Ends.map ((Phase.add_ends d.phase p).imp fun q hq => ?_)
  set d' : VertexData := { d with phase := q }
  have hkind : d'.kind = d.kind := rfl
  have hwire : ∀ s t, (g.setData v d').wire? s t = g.wire? s t :=
    fun s t => wire?_setData hd hkind
  have hturn : g.turn v = d.phase.unit :=
    turn_of_phase? (by simp [kind?, hd, hb]) (by simp [phase?, hd])
  refine ⟨⟨⟨h.setData d', fun u => kind?_setData hd hkind, ?_, rfl, rfl, rfl⟩, ?_⟩, ?_, ?_⟩
  · intro u hu
    rw [phase?_setData d' hd, if_neg]
    rintro rfl
    simp [kind?, hd, hb] at hu
  · refine ⟨fun u => if u = v then p.unit else 1, ?_, ?_, ?_⟩
    · intro u
      dsimp only
      split
      · exact p.unit_ne_zero
      · exact one_ne_zero
    · intro u _
      rw [turn_setData hd hkind hb]
      by_cases hu : u = v
      · simp only [hu, hturn]
        exact hq.trans (mul_comm _ _)
      · simp only [if_neg hu, one_mul]
    · intro ω a
      split
      · rename_i hv
        rw [← mass_mul_weight hv]
        exact mass_congr rfl (fun s _ t _ => hwire s t) (fun _ _ => rfl) fun _ _ => rfl
      · rename_i hv
        rw [mul_one]
        refine mass_congr rfl (fun s _ t _ => hwire s t) (fun u hu => ?_) fun _ _ => rfl
        have huv : u ≠ v := fun hc => hv (hc ▸ hu)
        simp only [if_neg huv, one_mul]
  · intro u hu
    rw [phase?_setData d' hd, if_neg hu]
  · intro s t
    exact edgeKind?_setData d'

/-- Only the scalar changes. -/
theorem absorbs_scalar (h : g.Consistent) {r : Scalar} {c : ℂ}
    (hr : r.value = c * g.scalar.value) (V : Finset ℕ) :
    Absorbs V g (fun _ => c) { g with scalar := r } where
  consistent := h.congr (fun _ => rfl) (fun _ => rfl) rfl rfl rfl rfl
  kind?_eq _ := rfl
  phase?_eq _ _ := rfl
  inputs_eq := rfl
  outputs_eq := rfl
  vertexCount_eq := rfl
  mass_eq := ⟨fun _ => 1, fun _ => one_ne_zero, fun _ _ => (one_mul _).symm, fun ω a => by
    simp only [one_mul]
    exact mass_mul_scalar hr fun _ _ => rfl⟩

theorem mulSqrt2Pow_absorbs (h : g.Consistent) (k : ℤ) (V : Finset ℕ) :
    Ends (g.mulSqrt2Pow k)
      (fun g' => Absorbs V g (fun _ => (√2 : ℂ) ^ k) g' ∧
        g'.scalar.value = (√2 : ℂ) ^ k * g.scalar.value ∧ (∀ u, g'.phase? u = g.phase? u) ∧
        ∀ s t, g'.edgeKind? s t = g.edgeKind? s t)
      (· = .overflow) := by
  unfold mulSqrt2Pow
  refine (Scalar.mulSqrt2Pow_ends g.scalar k).bind fun r hr => Ends.pure_iff.mpr ?_
  exact ⟨absorbs_scalar h hr.1 V, hr.1, fun _ => rfl, fun _ _ => rfl⟩

theorem mulPhase_absorbs (h : g.Consistent) (p : Phase) (V : Finset ℕ) :
    Ends (g.mulPhase p)
      (fun g' => Absorbs V g (fun _ => p.unit) g' ∧ g'.scalar.value = p.unit * g.scalar.value ∧
        (∀ u, g'.phase? u = g.phase? u) ∧ ∀ s t, g'.edgeKind? s t = g.edgeKind? s t)
      (· = .overflow) := by
  unfold mulPhase
  refine (Scalar.mulPhase_ends g.scalar p).bind fun r hr => Ends.pure_iff.mpr ?_
  exact ⟨absorbs_scalar h hr V, hr, fun _ => rfl, fun _ _ => rfl⟩

/-! ## Edges -/

theorem EdgeSet.recast {o : Option EdgeKind} (h : EdgeSet g s t o g') : Recast g g' where
  consistent := h.consistent
  kind?_eq v := by rw [kind?, h.data?_eq, kind?]
  phase?_eq v _ := by rw [phase?, h.data?_eq, phase?]
  inputs_eq := h.inputs_eq
  outputs_eq := h.outputs_eq
  vertexCount_eq := h.vertexCount_eq

theorem EdgeSet.phase?_eq {o : Option EdgeKind} (h : EdgeSet g s t o g') (v : ℕ) :
    g'.phase? v = g.phase? v := by
  rw [phase?, h.data?_eq, phase?]

theorem EdgeSet.turn_eq {o : Option EdgeKind} (h : EdgeSet g s t o g') (v : ℕ) :
    g'.turn v = g.turn v := by
  rw [turn, turn, h.recast.kind?_eq, h.phase?_eq]

theorem EdgeSet.wire?_eq {o : Option EdgeKind} (h : EdgeSet g s t o g') (a b : ℕ) :
    g'.wire? a b = if IsPair s t a b then o.map (g.tinted a b) else g.wire? a b := by
  rw [wire?, h.edgeKind?_eq, h.recast.tinted_eq]
  split <;> rfl

/-- Two diagrams that differ only in the wires between two sets of vertices have summands that differ
only in the factors of these wires. -/
theorem exists_mass_eq {R C : Finset ℕ} (hg : g.Consistent) (hg' : g'.Consistent) (hR : R ⊆ V)
    (hC : C ⊆ V) (hRC : Disjoint R C) (hscalar : g'.scalar.value = g.scalar.value)
    (hwire : ∀ s t, ¬(s ∈ R ∧ t ∈ C) → ¬(s ∈ C ∧ t ∈ R) → g'.wire? s t = g.wire? s t) (ω : ℕ → ℂ)
    (a : ℕ → Bool) :
    ∃ X, g.mass V ω a = X * ∏ r ∈ R, ∏ c ∈ C, linkFactor (g.wire? r c) (a r) (a c) ∧
      g'.mass V ω a = X * ∏ r ∈ R, ∏ c ∈ C, linkFactor (g'.wire? r c) (a r) (a c) := by
  obtain ⟨X, hX⟩ := exists_pairs_eq (fun s t => linkFactor (g.wire? s t) (a s) (a t)) hR hC hRC
  have hnew := hX (fun s t => linkFactor (g'.wire? s t) (a s) (a t))
    (hg'.linkFactor_wire?_comm a) fun s _ t _ h1 h2 => by rw [hwire s t h1 h2]
  refine ⟨g.scalar.value * (∏ v ∈ V, spin (ω v) (a v)) * X, ?_, ?_⟩
  · rw [mass, hX _ (hg.linkFactor_wire?_comm a) fun _ _ _ _ _ _ => rfl]
    ring
  · rw [mass, hnew, hscalar]
    ring

/-- Setting an edge exchanges one factor of the summand. -/
theorem EdgeSet.exists_mass_eq {o : Option EdgeKind} (h : EdgeSet g s t o g') (hg : g.Consistent)
    (hs : s ∈ V) (ht : t ∈ V) (hst : s ≠ t) (ω : ℕ → ℂ) (a : ℕ → Bool) :
    ∃ R, g.mass V ω a = R * linkFactor (g.wire? s t) (a s) (a t) ∧
      g'.mass V ω a = R * linkFactor (o.map (g.tinted s t)) (a s) (a t) := by
  have hwire : g'.wire? s t = o.map (g.tinted s t) := by rw [h.wire?_eq, if_pos (isPair_self s t)]
  obtain ⟨X, hX, hX'⟩ := Diagram.exists_mass_eq (R := {s}) (C := {t}) hg h.consistent
    (singleton_subset_iff.mpr hs) (singleton_subset_iff.mpr ht) (disjoint_singleton.mpr hst)
    (by rw [h.scalar_eq]) (fun p q h1 h2 => by
      rw [h.wire?_eq, if_neg]
      simp only [mem_singleton] at h1 h2
      unfold IsPair
      tauto) ω a
  simp only [prod_singleton] at hX hX'
  rw [hwire] at hX'
  exact ⟨X, hX, hX'⟩

theorem EdgeSet.absorbs {o : Option EdgeKind} {c : (ℕ → Bool) → ℂ} (h : EdgeSet g s t o g')
    (hg : g.Consistent) (hs : s ∈ V) (ht : t ∈ V) (hst : s ≠ t)
    (hc : ∀ a, linkFactor (o.map (g.tinted s t)) (a s) (a t) =
      linkFactor (g.wire? s t) (a s) (a t) * c a) : Absorbs V g c g' where
  toRecast := h.recast
  mass_eq := by
    refine ⟨fun _ => 1, fun _ => one_ne_zero, fun v _ => (h.turn_eq v).trans (one_mul _).symm, ?_⟩
    intro ω a
    obtain ⟨R, hR, hR'⟩ := h.exists_mass_eq hg hs ht hst ω a
    simp only [one_mul]
    rw [hR, hR', hc]
    ring

/-! ## Adding one more edge -/

theorem factor_hadamard_self (x : Bool) :
    EdgeKind.hadamard.factor x x = spin (-1) x * (√2 : ℂ) ^ (-1 : ℤ) := by
  cases x <;> simp [EdgeKind.factor, div_eq_mul_inv]

theorem absorbHadamard_absorbs (h : g.Consistent) {k : VertexKind} (hk : g.kind? s = some k)
    (hb : k ≠ .boundary) (hs : s ∈ V) :
    Ends (g.absorbHadamard s)
      (fun g' => Absorbs V g (fun a => EdgeKind.hadamard.factor (a s) (a s)) g' ∧
        ∀ a b, g'.edgeKind? a b = g.edgeKind? a b)
      (· = .overflow) := by
  unfold absorbHadamard
  refine (addToPhase_absorbs h hk hb Phase.one V).bind fun g₁ h₁ => ?_
  obtain ⟨h₁, -, hedge₁⟩ := h₁
  refine (mulSqrt2Pow_absorbs h₁.consistent (-1) V).imp fun g₂ h₂ => ?_
  obtain ⟨h₂, -, -, hedge₂⟩ := h₂
  refine ⟨(h₁.trans h₂).congr fun a => ?_, fun a b => ?_⟩
  · rw [if_pos hs, Phase.unit_one, factor_hadamard_self]
  · rw [hedge₂, hedge₁]

theorem cancelEdge_absorbs (h : g.Consistent) (he : g.edgeKind? s t = some e) (hs : s ∈ V)
    (ht : t ∈ V) (hw : g.tinted s t e = .hadamard) :
    Ends (g.cancelEdge s t)
      (fun g' => Absorbs V g (fun a => EdgeKind.hadamard.factor (a s) (a t)) g' ∧
        ∀ a b, ¬IsPair s t a b → g'.edgeKind? a b = g.edgeKind? a b)
      (· = .overflow) := by
  unfold cancelEdge
  obtain ⟨g₁, hg₁, h₁⟩ := removeEdge_edgeSet h he
  have hst := h.ne_of_edgeKind? he
  have hwire : g.wire? s t = some .hadamard := by rw [wire?, he, Option.map_some, hw]
  have hinv : ∀ x y : Bool, EdgeKind.hadamard.factor x y * EdgeKind.hadamard.factor x y *
      ((√2 : ℝ) : ℂ) ^ 2 = 1 := by
    intro x y
    have h2 := Scalar.sqrt2_ne_zero
    cases x <;> cases y <;> simp [EdgeKind.factor] <;> field_simp
  rw [hg₁]
  refine (mulSqrt2Pow_absorbs h₁.consistent (-2) V).imp fun g₂ h₂ => ?_
  obtain ⟨h₂, -, -, hedge₂⟩ := h₂
  have hremove : Absorbs V g
      (fun a => EdgeKind.hadamard.factor (a s) (a t) * ((√2 : ℝ) : ℂ) ^ 2) g₁ :=
    h₁.absorbs h hs ht hst fun a => by
      rw [hwire, linkFactor_some, ← mul_assoc, hinv]
      rfl
  refine ⟨(hremove.trans h₂).congr fun a => ?_, fun a b hab => ?_⟩
  · have h2 := Scalar.sqrt2_ne_zero
    rw [mul_assoc, zpow_neg, ← zpow_natCast, Nat.cast_ofNat, mul_inv_cancel₀, mul_one]
    exact zpow_ne_zero _ h2
  · rw [hedge₂, h₁.edgeKind?_eq, if_neg hab]

theorem factor_hadamard_ne_zero (x y : Bool) : EdgeKind.hadamard.factor x y ≠ 0 := by
  cases x <;> cases y <;> simp [EdgeKind.factor]

/-- A plain edge identifies its ends. -/
theorem factor_plain_mul (x y : Bool) :
    EdgeKind.plain.factor x y * EdgeKind.hadamard.factor x x =
      EdgeKind.plain.factor x y * EdgeKind.hadamard.factor x y := by
  cases x <;> cases y <;> simp [EdgeKind.factor]

theorem EdgeSet.same (h : g.Consistent) (s t : ℕ) : EdgeSet g s t (g.edgeKind? s t) g where
  consistent := h
  data?_eq _ := rfl
  edgeKind?_eq a b := by
    split
    · rename_i hab
      rcases hab with ⟨rfl, rfl⟩ | ⟨rfl, rfl⟩
      · rfl
      · exact h.edgeKind?_comm _ _
    · rfl
  linksAt_eq _ _ _ := rfl
  inputs_eq := rfl
  outputs_eq := rfl
  scalar_eq := rfl
  vertexCount_eq := rfl

/-- The factor may use what the edge between `s` and `t` says about their bits. -/
theorem Absorbs.congr_wire {f f' : (ℕ → Bool) → ℂ} (h : Absorbs V g f g') (hg : g.Consistent)
    (hs : s ∈ V) (ht : t ∈ V) (hst : s ≠ t)
    (hf : ∀ a, linkFactor (g.wire? s t) (a s) (a t) * f a =
      linkFactor (g.wire? s t) (a s) (a t) * f' a) : Absorbs V g f' g' where
  toRecast := h.toRecast
  mass_eq := by
    obtain ⟨μ, hμ, hturn, hmass⟩ := h.mass_eq
    refine ⟨μ, hμ, hturn, fun ω a => ?_⟩
    obtain ⟨R, hR, -⟩ := (EdgeSet.same hg s t).exists_mass_eq hg hs ht hst ω a
    rw [hmass, hR, mul_assoc, mul_assoc, hf]

theorem tinted_of_ne {e f : EdgeKind} (h : g.tinted s t e = .plain) (hf : f ≠ e) :
    g.tinted s t f = .hadamard := by
  unfold tinted at h ⊢
  revert h
  cases g.isRed s <;> cases g.isRed t <;> cases e <;> cases f <;> simp_all [EdgeKind.flip]

theorem mergeEdge_absorbs (h : g.Consistent) {present : EdgeKind} {k : VertexKind}
    (hk : g.kind? s = some k) (hb : k ≠ .boundary) (he : g.edgeKind? s t = some present)
    (hs : s ∈ V) (ht : t ∈ V) (new strong : EdgeKind) (hstrong : g.tinted s t strong = .plain) :
    Ends (g.mergeEdge s t strong present new)
      (fun g' => Absorbs V g (fun a => (g.tinted s t new).factor (a s) (a t)) g' ∧
        ∀ a b, ¬IsPair s t a b → g'.edgeKind? a b = g.edgeKind? a b)
      (· = .overflow) := by
  have hst := h.ne_of_edgeKind? he
  have hwire : g.wire? s t = some (g.tinted s t present) := by rw [wire?, he, Option.map_some]
  unfold mergeEdge
  by_cases hp : present = strong
  · rw [if_pos hp]
    subst hp
    by_cases hn : new = present
    · rw [if_pos hn, Ends.pure_iff]
      refine ⟨(EdgeSet.same h s t).absorbs h hs ht hst fun a => ?_, fun _ _ _ => rfl⟩
      rw [hwire, he, Option.map_some, hn, hstrong]
      cases a s <;> cases a t <;> simp [EdgeKind.factor]
    · rw [if_neg hn]
      refine (absorbHadamard_absorbs h hk hb hs).imp fun g' hg' => ⟨?_, fun a b _ => hg'.2 a b⟩
      refine hg'.1.congr_wire h hs ht hst fun a => ?_
      rw [hwire, hstrong, tinted_of_ne hstrong hn]
      exact factor_plain_mul _ _
  · rw [if_neg hp]
    have hweak := tinted_of_ne hstrong hp
    by_cases hn : new = strong
    · rw [if_pos hn]
      obtain ⟨g₁, hg₁, h₁⟩ := setEdgeKind_edgeSet h he strong
      have hset : Absorbs V g (fun a => EdgeKind.plain.factor (a s) (a t) /
          EdgeKind.hadamard.factor (a s) (a t)) g₁ :=
        h₁.absorbs h hs ht hst fun a => by
          rw [hwire, hweak, Option.map_some, hstrong, linkFactor_some, linkFactor_some,
            mul_div_cancel₀ _ (factor_hadamard_ne_zero _ _)]
      rw [hg₁]
      have hk₁ : g₁.kind? s = some k := (h₁.recast.kind?_eq s).trans hk
      refine (absorbHadamard_absorbs h₁.consistent hk₁ hb hs).imp fun g' hg' => ?_
      refine ⟨(hset.trans hg'.1).congr fun a => ?_, fun a b hab => ?_⟩
      · rw [hn, hstrong, div_mul_eq_mul_div, factor_plain_mul,
          mul_div_cancel_right₀ _ (factor_hadamard_ne_zero _ _)]
      · rw [hg'.2, h₁.edgeKind?_eq, if_neg hab]
    · rw [if_neg hn, tinted_of_ne hstrong hn]
      exact cancelEdge_absorbs h he hs ht hweak

/-- Without an edge between its ends, `connect` just adds one. -/
theorem connect_of_none (h : g.Consistent) (hst : s ≠ t) (hs : g.contains s) (ht : g.contains t)
    (hnone : g.edgeKind? s t = none) (e : EdgeKind) :
    ∃ g', g.connect s t e = .ok g' ∧ EdgeSet g s t (some e) g' := by
  obtain ⟨k, hk⟩ := exists_kind? hs
  obtain ⟨g', hg', hset⟩ := addEdge_edgeSet h hst hs ht hnone e
  refine ⟨g', ?_, hset⟩
  unfold connect
  rw [kind_of_kind? hk]
  change (if s = t then _ else _) = _
  rw [if_neg hst, hnone]
  exact hg'

theorem EdgeSet.absorbs_new (hset : EdgeSet g s t (some e) g') (h : g.Consistent) (hs : s ∈ V)
    (ht : t ∈ V) (hst : s ≠ t) (hnone : g.edgeKind? s t = none) :
    Absorbs V g (fun a => (g.tinted s t e).factor (a s) (a t)) g' :=
  hset.absorbs h hs ht hst fun a => by
    rw [wire?, hnone, Option.map_none, linkFactor_none, one_mul, Option.map_some, linkFactor_some]

/-- Between spiders, `connect` absorbs the entry of its edge, a loop included. -/
theorem connect_absorbs (h : g.Consistent) {k l : VertexKind} (hk : g.kind? s = some k)
    (hkb : k ≠ .boundary) (hl : g.kind? t = some l) (hlb : l ≠ .boundary) (hs : s ∈ V)
    (ht : t ∈ V) (e : EdgeKind) :
    Ends (g.connect s t e)
      (fun g' => Absorbs V g (fun a => (g.tinted s t e).factor (a s) (a t)) g' ∧
        ∀ a b, ¬IsPair s t a b → g'.edgeKind? a b = g.edgeKind? a b)
      (· = .overflow) := by
  have hred : ∀ v c, g.kind? v = some c → g.isRed v = decide (c = .x) := by
    intro v c hv
    simp [isRed, hv]
  unfold connect
  rw [kind_of_kind? hk]
  change Ends (if s = t then _ else _) _ _
  by_cases hst : s = t
  · subst hst
    rw [if_pos rfl]
    have hloop : g.tinted s s e = e := EdgeKind.tint_tint _ _
    rw [hloop]
    have hhad := (absorbHadamard_absorbs h hk hkb hs).imp fun g' h' =>
      And.intro h'.1 fun a b (_ : ¬IsPair s s a b) => h'.2 a b
    have hsame : Absorbs V g (fun a => EdgeKind.plain.factor (a s) (a s)) g :=
      (Absorbs.refl h).congr fun a => by simp [EdgeKind.factor]
    have hplain := And.intro hsame fun a b (_ : ¬IsPair s s a b) => rfl (a := g.edgeKind? a b)
    cases k with
    | boundary => exact absurd rfl hkb
    | z =>
        cases e with
        | plain => exact Ends.pure_iff.mpr hplain
        | hadamard => exact hhad
    | x =>
        cases e with
        | plain => exact Ends.pure_iff.mpr hplain
        | hadamard => exact hhad
  · rw [if_neg hst]
    cases he : g.edgeKind? s t with
    | none =>
        obtain ⟨g', hg', hset⟩ :=
          addEdge_edgeSet h hst (contains_of_kind? hk) (contains_of_kind? hl) he e
        simp only [hg', Ends.ok_iff]
        refine ⟨hset.absorbs_new h hs ht hst he, fun a b hab => ?_⟩
        rw [hset.edgeKind?_eq, if_neg hab]
    | some present =>
        simp only [kind_of_kind? hl]
        have hmerge := mergeEdge_absorbs h hk hkb he hs ht e
        have htint : ∀ f, g.tinted s t f = (f.tint (decide (k = .x))).tint (decide (l = .x)) := by
          intro f
          rw [tinted, hred s k hk, hred t l hl]
        simp only [htint] at hmerge ⊢
        cases k with
        | boundary => exact absurd rfl hkb
        | z =>
            cases l with
            | boundary => exact absurd rfl hlb
            | z => exact hmerge .plain rfl
            | x => exact hmerge .hadamard rfl
        | x =>
            cases l with
            | boundary => exact absurd rfl hlb
            | z => exact hmerge .hadamard rfl
            | x => exact hmerge .plain rfl

end ZX.Diagram
