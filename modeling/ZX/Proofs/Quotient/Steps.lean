import Mathlib
import ZX.Proofs.Quotient.Basic

/-!
# Fusing tied spiders leads to the quotient

A step that fuses two tied spiders moves Hadamard edges about and may lose some, so the classes are
followed through the sets that are closed under ties. Every step keeps these sets, the charge of
each of them, which is the sum of its angles and its inner Hadamard edges, and the parity between
two of them. Where nothing is tied any more, every class has shrunk to its least member, and the
charges and parities can be read off: whatever the order of the steps, they end in the quotient.
-/
namespace ZX.LabelledGraph

open Finset EdgeKind Relation

variable {G G' : LabelledGraph} {V K L : Finset ℕ} {a b t u v w v₀ v₁ : ℕ} {e : EdgeKind}

/-! ## Steps -/

/-- Simple graphs on the vertices `V` that have no red spiders and whose boundaries have at most one
edge each. -/
structure Simple (V : Finset ℕ) (G : LabelledGraph) : Prop where
  mem : ∀ {v d}, G.data v = some d → v ∈ V
  green : ∀ v, G.kind? v ≠ some .x
  edge_self : ∀ v, G.edge s(v, v) = none
  edge_gone : ∀ {v}, G.data v = none → ∀ u, G.edge s(v, u) = none
  hangs : ∀ {b}, G.kind? b = some .boundary → ∀ {t t' e e'}, G.edge s(b, t) = some e →
    G.edge s(b, t') = some e' → t = t'

theorem Simple.mem_of_edge (h : G.Simple V) (he : G.edge s(a, b) = some e) : b ∈ V := by
  cases hb : G.data b with
  | none =>
      rw [Sym2.eq_swap, h.edge_gone hb] at he
      cases he
  | some d => exact h.mem hb

theorem Simple.ne_of_edge (h : G.Simple V) (he : G.edge s(a, b) = some e) : a ≠ b := by
  rintro rfl
  rw [h.edge_self] at he
  cases he

theorem Simple.mem_of_tied (h : G.Simple V) (hab : G.Tied a b) : b ∈ V := h.mem_of_edge hab.edge_eq

/-- The cost of the edges that a fusion brings together. -/
def fusionCost (G : LabelledGraph) (V : Finset ℕ) (v₀ v₁ : ℕ) : ℕ :=
  ∑ u ∈ V \ {v₀, v₁}, cost (G.edge s(v₀, u)) (G.edge s(v₁, u))

/-- The spider `v₁` is fused into a smaller one. -/
structure Fuses (V : Finset ℕ) (v₀ v₁ : ℕ) (G G' : LabelledGraph) : Prop where
  simple : G.Simple V
  simple' : G'.Simple V
  lt : v₀ < v₁
  tied : G.Tied v₀ v₁
  data_eq : ∀ u, u ≠ v₀ → u ≠ v₁ → G'.data u = G.data u
  data_first : ∀ d, G.data v₀ = some d → ∃ p, G'.data v₀ = some { d with phase := p } ∧
    p.angle = d.phase.angle + G.angle v₁ + G.fusionCost V v₀ v₁ • halfTurn
  data_gone : G'.data v₁ = none
  edge_first : ∀ u, u ≠ v₀ → u ≠ v₁ →
    G'.edge s(v₀, u) = merge (G.edge s(v₀, u)) (G.edge s(v₁, u))
  edge_eq : ∀ pair, v₀ ∉ pair → v₁ ∉ pair → G'.edge pair = G.edge pair
  inputs_eq : G'.inputs = G.inputs
  outputs_eq : G'.outputs = G.outputs
  scalarPhase_eq : G'.scalar.phase = G.scalar.phase
  sqrt2Pow_eq : G'.scalar.sqrt2Pow = G.scalar.sqrt2Pow - G.fusionCost V v₀ v₁

namespace Fuses

theorem ne (h : Fuses V v₀ v₁ G G') : v₀ ≠ v₁ := h.lt.ne

theorem exists_first (h : Fuses V v₀ v₁ G G') :
    ∃ d p, G.data v₀ = some d ∧ G'.data v₀ = some { d with phase := p } ∧
      p.angle = d.phase.angle + G.angle v₁ + G.fusionCost V v₀ v₁ • halfTurn := by
  obtain ⟨d, hd, -⟩ := Option.map_eq_some_iff.mp h.tied.left
  obtain ⟨p, hp, hangle⟩ := h.data_first d hd
  exact ⟨d, p, hd, hp, hangle⟩

/-- A vertex that is left has all its data but the phase. -/
theorem exists_data (h : Fuses V v₀ v₁ G G') {d : VertexData} (hd : G'.data v = some d) :
    ∃ d₀, G.data v = some d₀ ∧ d = { d₀ with phase := d.phase } := by
  by_cases hv₁ : v = v₁
  · rw [hv₁, h.data_gone] at hd
    cases hd
  · by_cases hv₀ : v = v₀
    · subst hv₀
      obtain ⟨d₀, p, hd₀, hp, -⟩ := h.exists_first
      cases hp.symm.trans hd
      exact ⟨d₀, hd₀, rfl⟩
    · rw [h.data_eq v hv₀ hv₁] at hd
      exact ⟨d, hd, rfl⟩

theorem edge_eq_of_ne (h : Fuses V v₀ v₁ G G') (ha₀ : a ≠ v₀) (ha₁ : a ≠ v₁) (hb₀ : b ≠ v₀)
    (hb₁ : b ≠ v₁) : G'.edge s(a, b) = G.edge s(a, b) :=
  h.edge_eq _ (by simp [ha₀.symm, hb₀.symm]) (by simp [ha₁.symm, hb₁.symm])

theorem kind?_eq (h : Fuses V v₀ v₁ G G') (hu : u ≠ v₁) : G'.kind? u = G.kind? u := by
  unfold kind?
  by_cases hu₀ : u = v₀
  · obtain ⟨d, p, hd, hp, -⟩ := h.exists_first
    rw [hu₀, hp, hd]
    rfl
  · rw [h.data_eq u hu₀ hu]

theorem ne_of_kind? {k : VertexKind} (h : Fuses V v₀ v₁ G G') (hu : G'.kind? u = some k) :
    u ≠ v₁ := by
  rintro rfl
  rw [kind?, h.data_gone] at hu
  cases hu

/-- Vertices of other kinds take no part in a step. -/
theorem ne_of_boundary (h : Fuses V v₀ v₁ G G') (hb : G.kind? b = some .boundary) :
    b ≠ v₀ ∧ b ≠ v₁ := by
  constructor
  · rintro rfl
    cases hb.symm.trans h.tied.left
  · rintro rfl
    cases hb.symm.trans h.tied.right

/-! ### Closed sets -/

theorem tied_iff (h : Fuses V v₀ v₁ G G') (ha₀ : a ≠ v₀) (ha₁ : a ≠ v₁) (hb₀ : b ≠ v₀)
    (hb₁ : b ≠ v₁) : G'.Tied a b ↔ G.Tied a b := by
  rw [tied_def, tied_def, h.edge_eq_of_ne ha₀ ha₁ hb₀ hb₁, h.kind?_eq ha₁, h.kind?_eq hb₁]

/-- The spider that stays takes over the ties of the other one. -/
theorem tied_first_iff (h : Fuses V v₀ v₁ G G') (hu₀ : u ≠ v₀) (hu₁ : u ≠ v₁) :
    G'.Tied v₀ u ↔ G.Tied v₀ u ∨ G.Tied v₁ u := by
  simp only [tied_def, h.edge_first u hu₀ hu₁, merge_eq_plain_iff, h.kind?_eq h.ne,
    h.kind?_eq hu₁, h.tied.left, h.tied.right, true_and, or_and_right]

theorem closed (h : Fuses V v₀ v₁ G G') (hK : G.Closed K) : G'.Closed K := by
  have hfirst : ∀ {u}, G'.Tied v₀ u → (v₀ ∈ K ↔ u ∈ K) := by
    intro u hu
    have hu₀ : u ≠ v₀ := (h.simple'.ne_of_edge hu.edge_eq).symm
    rcases (h.tied_first_iff hu₀ (h.ne_of_kind? hu.right)).mp hu with hu | hu
    · exact hK.mem_iff hu
    · exact (hK.mem_iff h.tied).trans (hK.mem_iff hu)
  intro a b hab ha
  by_cases ha₀ : a = v₀
  · exact (hfirst (ha₀ ▸ hab)).mp (ha₀ ▸ ha)
  · by_cases hb₀ : b = v₀
    · exact hb₀ ▸ (hfirst (hb₀ ▸ hab.symm)).mpr ha
    · have ha₁ := h.ne_of_kind? hab.left
      have hb₁ := h.ne_of_kind? hab.right
      exact hK a b ((h.tied_iff ha₀ ha₁ hb₀ hb₁).mp hab) ha

/-- A closed set after a step comes from one before it: the spider that goes is in it together with
the one that stays. -/
theorem exists_closed (h : Fuses V v₀ v₁ G G') (hK : G'.Closed K) :
    ∃ L, G.Closed L ∧ ∀ v, v ≠ v₁ → (v ∈ L ↔ v ∈ K) := by
  classical
  refine ⟨if v₀ ∈ K then insert v₁ K else K.erase v₁, ?_, fun v hv => by split <;> simp [hv]⟩
  have hmem : ∀ v, v ∈ (if v₀ ∈ K then insert v₁ K else K.erase v₁) ↔
      if v = v₁ then v₀ ∈ K else v ∈ K := by
    intro v
    by_cases hv : v = v₁ <;> split <;> simp_all
  have htied : ∀ {v u}, v = v₀ ∨ v = v₁ → u ≠ v₀ → u ≠ v₁ → G.Tied v u → (v₀ ∈ K ↔ u ∈ K) := by
    intro v u hv hu₀ hu₁ hvu
    refine hK.mem_iff ((h.tied_first_iff hu₀ hu₁).mpr ?_)
    rcases hv with rfl | rfl
    · exact .inl hvu
    · exact .inr hvu
  intro a b hab ha
  rw [hmem] at ha ⊢
  by_cases ha' : a = v₀ ∨ a = v₁
  · have hfirst : v₀ ∈ K := by
      rcases ha' with rfl | rfl
      · rwa [if_neg h.ne] at ha
      · rwa [if_pos rfl] at ha
    by_cases hb₁ : b = v₁
    · rwa [if_pos hb₁]
    · rw [if_neg hb₁]
      by_cases hb₀ : b = v₀
      · rwa [hb₀]
      · exact (htied ha' hb₀ hb₁ hab).mp hfirst
  · obtain ⟨ha₀, ha₁⟩ := not_or.mp ha'
    rw [if_neg ha₁] at ha
    by_cases hb' : b = v₀ ∨ b = v₁
    · have hfirst : v₀ ∈ K := (htied hb' ha₀ ha₁ hab.symm).mpr ha
      rcases hb' with rfl | rfl
      · rwa [if_neg h.ne]
      · rwa [if_pos rfl]
    · obtain ⟨hb₀, hb₁⟩ := not_or.mp hb'
      rw [if_neg hb₁]
      exact hK a b ((h.tied_iff ha₀ ha₁ hb₀ hb₁).mpr hab) ha

/-- Where a spider has gone, a smaller one of the same closed set is left. -/
theorem exists_le (h : Fuses V v₀ v₁ G G') (hK : G.Closed K) (hv : v ∈ K)
    (hdata : G.data v ≠ none) : ∃ w ∈ K, w ≤ v ∧ G'.data w ≠ none := by
  by_cases hv₁ : v = v₁
  · subst hv₁
    obtain ⟨d, p, -, hp, -⟩ := h.exists_first
    exact ⟨v₀, (hK.mem_iff h.tied).mpr hv, h.lt.le, by simp [hp]⟩
  · refine ⟨v, hv, le_rfl, ?_⟩
    by_cases hv₀ : v = v₀
    · obtain ⟨d, p, -, hp, -⟩ := h.exists_first
      simp [hv₀, hp]
    · rwa [h.data_eq v hv₀ hv₁]

/-! ### Hadamard edges -/

/-- An edge that leaves a closed set is not plain, so two of them cancel or stay apart. -/
theorem even_cost (h : Fuses V v₀ v₁ G G') (hK : G.Closed K) (hv₀ : v₀ ∈ K) (hu : u ∉ K) :
    Even (cost (G.edge s(v₀, u)) (G.edge s(v₁, u))) := by
  have hv₁ : v₁ ∈ K := (hK.mem_iff h.tied).mp hv₀
  have hplain : ∀ {v}, v ∈ K → G.kind? v = some .z → G.kind? u = some .z →
      G.edge s(v, u) ≠ some .plain := fun hv hz hu' he => hu (hK _ _ ⟨he, hz, hu'⟩ hv)
  cases hdata : G.data u with
  | none => simp [Sym2.eq_swap (a := v₀), h.simple.edge_gone hdata]
  | some d =>
      have hkind : G.kind? u = some d.kind := congrArg (Option.map VertexData.kind) hdata
      cases hk : d.kind with
      | boundary =>
          rw [hk] at hkind
          cases he₀ : G.edge s(v₀, u) with
          | none => simp
          | some e =>
              cases he₁ : G.edge s(v₁, u) with
              | none => simp
              | some e' =>
                  rw [Sym2.eq_swap] at he₀ he₁
                  exact absurd (h.simple.hangs hkind he₀ he₁) h.ne
      | x => exact absurd (hkind.trans (congrArg some hk)) (h.simple.green u)
      | z =>
          rw [hk] at hkind
          have he₀ := hplain hv₀ h.tied.left hkind
          have he₁ := hplain hv₁ h.tied.right hkind
          generalize G.edge s(v₀, u) = o₀ at he₀
          generalize G.edge s(v₁, u) = o₁ at he₁
          rcases o₀ with _ | _ | _ <;> rcases o₁ with _ | _ | _ <;>
            simp_all [cost, tally, merge]

theorem edge_none (h : Fuses V v₀ v₁ G G') (u : ℕ) : G'.edge s(v₁, u) = none :=
  h.simple'.edge_gone h.data_gone u

/-- A set with both spiders and the rest of it. -/
theorem insert_insert_sdiff (hv₀ : v₀ ∈ K) (hv₁ : v₁ ∈ K) :
    insert v₀ (insert v₁ (K \ {v₀, v₁})) = K := by
  ext u
  simp only [mem_insert, mem_sdiff, mem_singleton]
  by_cases h₀ : u = v₀
  · simp [h₀, hv₀]
  · by_cases h₁ : u = v₁ <;> simp [h₀, h₁, hv₁]

/-- The Hadamard edges inside a set with both spiders that are lost are those that the step pays
for. -/
theorem edgesIn_add_cost (h : Fuses V v₀ v₁ G G') (hv₀ : v₀ ∈ K) (hv₁ : v₁ ∈ K) :
    G'.edgesIn .hadamard K + ∑ u ∈ K \ {v₀, v₁}, cost (G.edge s(v₀, u)) (G.edge s(v₁, u)) =
      G.edgesIn .hadamard K := by
  have hne := h.ne
  set R := K \ {v₀, v₁} with hR
  have hmem₀ : v₀ ∉ insert v₁ R := by simp [hR, hne]
  have hmem₁ : v₁ ∉ R := by simp [hR]
  have hrest : ∀ {u}, u ∈ R → u ≠ v₀ ∧ u ≠ v₁ := by simp [hR]
  -- Either graph: the edges of the first spider, those of the second and the rest.
  have hsplit : ∀ H : LabelledGraph, H.Simple V → tally (H.edge s(v₀, v₁)) = 0 →
      H.edgesIn .hadamard K = ∑ u ∈ R, tally (H.edge s(v₀, u)) + ∑ u ∈ R, tally (H.edge s(v₁, u)) +
        H.edgesIn .hadamard R := by
    intro H hH hedge
    have h₀ : H.edgesIn .hadamard (insert v₀ (insert v₁ R)) =
        ∑ u ∈ insert v₁ R, tally (H.edge s(v₀, u)) + H.edgesIn .hadamard (insert v₁ R) :=
      edgesIn_insert hmem₀ (hH.edge_self v₀)
    have h₁ : H.edgesIn .hadamard (insert v₁ R) =
        ∑ u ∈ R, tally (H.edge s(v₁, u)) + H.edgesIn .hadamard R :=
      edgesIn_insert hmem₁ (hH.edge_self v₁)
    rw [← insert_insert_sdiff hv₀ hv₁, ← hR, h₀, h₁, sum_insert hmem₁, hedge, zero_add, add_assoc]
  have hnew : ∑ u ∈ R, tally (G'.edge s(v₀, u)) +
      ∑ u ∈ R, cost (G.edge s(v₀, u)) (G.edge s(v₁, u)) =
      ∑ u ∈ R, tally (G.edge s(v₀, u)) + ∑ u ∈ R, tally (G.edge s(v₁, u)) := by
    rw [← sum_add_distrib, ← sum_add_distrib]
    refine sum_congr rfl fun u hu => ?_
    rw [h.edge_first u (hrest hu).1 (hrest hu).2, tally_merge_add_cost]
  have hgone : ∑ u ∈ R, tally (G'.edge s(v₁, u)) = 0 :=
    sum_eq_zero fun u _ => by rw [h.edge_none, tally_none]
  have hsame : G'.edgesIn .hadamard R = G.edgesIn .hadamard R := edgesIn_congr fun a ha b hb =>
    h.edge_eq_of_ne (hrest ha).1 (hrest ha).2 (hrest hb).1 (hrest hb).2
  have hplain : tally (G.edge s(v₀, v₁)) = 0 := by rw [h.tied.edge_eq]; rfl
  have hcut : tally (G'.edge s(v₀, v₁)) = 0 := by rw [Sym2.eq_swap, h.edge_none, tally_none]
  rw [hsplit G' h.simple' hcut, hsplit G h.simple hplain, hgone, hsame]
  omega

theorem sum_angle (h : Fuses V v₀ v₁ G G') (hv₀ : v₀ ∈ K) (hv₁ : v₁ ∈ K) :
    ∑ u ∈ K, G'.angle u = ∑ u ∈ K, G.angle u + G.fusionCost V v₀ v₁ • halfTurn := by
  have hne := h.ne
  obtain ⟨d, p, hd, hp, hangle⟩ := h.exists_first
  have hfirst : G'.angle v₀ = G.angle v₀ + G.angle v₁ + G.fusionCost V v₀ v₁ • halfTurn := by
    simpa [angle, hp, hd] using hangle
  have hgone : G'.angle v₁ = 0 := by simp [angle, h.data_gone]
  have hrest : ∑ u ∈ K \ {v₀, v₁}, G'.angle u = ∑ u ∈ K \ {v₀, v₁}, G.angle u := by
    refine sum_congr rfl fun u hu => ?_
    obtain ⟨hu₀, hu₁⟩ : u ≠ v₀ ∧ u ≠ v₁ := by simpa using (mem_sdiff.mp hu).2
    rw [angle, h.data_eq u hu₀ hu₁, angle]
  rw [← insert_insert_sdiff hv₀ hv₁, sum_insert (by simp [hne]), sum_insert (by simp),
    sum_insert (by simp [hne]), sum_insert (by simp), hfirst, hgone, hrest]
  abel

/-- A step keeps the charge of every closed set. What the spider that stays is charged for edges out
of the set is a number of whole turns. -/
theorem charge_eq (h : Fuses V v₀ v₁ G G') (hK : G.Closed K) (hKV : K ⊆ V) :
    G'.charge K = G.charge K := by
  by_cases hv₀ : v₀ ∈ K
  · have hv₁ : v₁ ∈ K := (hK.mem_iff h.tied).mp hv₀
    set inner := ∑ u ∈ K \ {v₀, v₁}, cost (G.edge s(v₀, u)) (G.edge s(v₁, u)) with hinner
    set outer := ∑ u ∈ V \ K, cost (G.edge s(v₀, u)) (G.edge s(v₁, u))
    have hsplit : G.fusionCost V v₀ v₁ = inner + outer := by
      have hdisjoint : Disjoint (K \ {v₀, v₁}) (V \ K) :=
        disjoint_left.mpr fun u hu hu' => (mem_sdiff.mp hu').2 (mem_sdiff.mp hu).1
      have hunion : V \ {v₀, v₁} = (K \ {v₀, v₁}) ∪ (V \ K) := by
        ext u
        have hsub := @hKV u
        simp only [mem_union, mem_sdiff, mem_insert, mem_singleton]
        grind
      rw [fusionCost, hunion, sum_union hdisjoint]
    have hwhole : outer • halfTurn = 0 := nsmul_halfTurn_of_even
      (even_sum _ fun u hu => h.even_cost hK hv₀ (mem_sdiff.mp hu).2)
    rw [charge, charge, h.sum_angle hv₀ hv₁, hsplit, ← h.edgesIn_add_cost hv₀ hv₁, ← hinner,
      add_smul, add_smul, hwhole]
    abel
  · have hv₁ : v₁ ∉ K := fun hv => hv₀ ((hK.mem_iff h.tied).mpr hv)
    have hne : ∀ {u}, u ∈ K → u ≠ v₀ ∧ u ≠ v₁ := fun hu =>
      ⟨ne_of_mem_of_not_mem hu hv₀, ne_of_mem_of_not_mem hu hv₁⟩
    have hangles : ∑ u ∈ K, G'.angle u = ∑ u ∈ K, G.angle u := sum_congr rfl fun u hu => by
      rw [angle, h.data_eq u (hne hu).1 (hne hu).2, angle]
    have hedges : G'.edgesIn .hadamard K = G.edgesIn .hadamard K := edgesIn_congr fun a ha b hb =>
      h.edge_eq_of_ne (hne ha).1 (hne ha).2 (hne hb).1 (hne hb).2
    rw [charge, charge, hangles, hedges]

/-- Between a set with both spiders and a disjoint one, the Hadamard edges that are lost are those
that the step pays for. -/
theorem edgesBetween_add_cost (h : Fuses V v₀ v₁ G G') (hv₀ : v₀ ∈ K) (hv₁ : v₁ ∈ K)
    (hKL : Disjoint K L) :
    G'.edgesBetween .hadamard K L + ∑ u ∈ L, cost (G.edge s(v₀, u)) (G.edge s(v₁, u)) =
      G.edgesBetween .hadamard K L := by
  have hne := h.ne
  have hL : ∀ {u}, u ∈ L → u ≠ v₀ ∧ u ≠ v₁ := fun hu =>
    ⟨ne_of_mem_of_not_mem hu (disjoint_left.mp hKL hv₀),
      ne_of_mem_of_not_mem hu (disjoint_left.mp hKL hv₁)⟩
  have hgone : ∑ u ∈ L, tally (G'.edge s(v₁, u)) = 0 :=
    sum_eq_zero fun u _ => by rw [h.edge_none, tally_none]
  have hrest : ∑ a ∈ K \ {v₀, v₁}, ∑ b ∈ L, tally (G'.edge s(a, b)) =
      ∑ a ∈ K \ {v₀, v₁}, ∑ b ∈ L, tally (G.edge s(a, b)) := by
    refine sum_congr rfl fun a ha => sum_congr rfl fun b hb => ?_
    obtain ⟨ha₀, ha₁⟩ : a ≠ v₀ ∧ a ≠ v₁ := by simpa using (mem_sdiff.mp ha).2
    rw [h.edge_eq_of_ne ha₀ ha₁ (hL hb).1 (hL hb).2]
  have hnew : ∑ u ∈ L, tally (G'.edge s(v₀, u)) +
      ∑ u ∈ L, cost (G.edge s(v₀, u)) (G.edge s(v₁, u)) =
      ∑ u ∈ L, tally (G.edge s(v₀, u)) + ∑ u ∈ L, tally (G.edge s(v₁, u)) := by
    rw [← sum_add_distrib, ← sum_add_distrib]
    refine sum_congr rfl fun u hu => ?_
    rw [h.edge_first u (hL hu).1 (hL hu).2, tally_merge_add_cost]
  rw [edgesBetween_eq_sum, edgesBetween_eq_sum, ← insert_insert_sdiff hv₀ hv₁,
    sum_insert (by simp [hne]), sum_insert (by simp), sum_insert (by simp [hne]),
    sum_insert (by simp), hgone, hrest]
  omega

/-- A step keeps the parity of the number of Hadamard edges between disjoint closed sets. -/
theorem odd_edgesBetween_iff (h : Fuses V v₀ v₁ G G') (hK : G.Closed K) (hL : G.Closed L)
    (hKL : Disjoint K L) :
    Odd (G'.edgesBetween .hadamard K L) ↔ Odd (G.edgesBetween .hadamard K L) := by
  -- The case of a set with both spiders, on either side.
  have hinside : ∀ {K L : Finset ℕ}, G.Closed K → Disjoint K L → v₀ ∈ K →
      (Odd (G'.edgesBetween .hadamard K L) ↔ Odd (G.edgesBetween .hadamard K L)) := by
    intro K L hK hKL hv₀
    have hv₁ : v₁ ∈ K := (hK.mem_iff h.tied).mp hv₀
    have heven : Even (∑ u ∈ L, cost (G.edge s(v₀, u)) (G.edge s(v₁, u))) :=
      even_sum _ fun u hu => h.even_cost hK hv₀ (disjoint_right.mp hKL hu)
    rw [← h.edgesBetween_add_cost hv₀ hv₁ hKL, Nat.odd_add]
    exact (iff_true_right heven).symm
  by_cases hv₀K : v₀ ∈ K
  · exact hinside hK hKL hv₀K
  · by_cases hv₀L : v₀ ∈ L
    · rw [edgesBetween_comm, edgesBetween_comm G]
      exact hinside hL hKL.symm hv₀L
    · have hne : ∀ {M : Finset ℕ}, G.Closed M → v₀ ∉ M → ∀ {u}, u ∈ M → u ≠ v₀ ∧ u ≠ v₁ :=
        fun hM hv₀ _ hu => ⟨ne_of_mem_of_not_mem hu hv₀,
          ne_of_mem_of_not_mem hu fun hv₁ => hv₀ ((hM.mem_iff h.tied).mpr hv₁)⟩
      rw [edgesBetween_eq_sum, edgesBetween_eq_sum]
      refine iff_of_eq (congrArg Odd (sum_congr rfl fun a ha => sum_congr rfl fun b hb => ?_))
      rw [h.edge_eq_of_ne (hne hK hv₀K ha).1 (hne hK hv₀K ha).2 (hne hL hv₀L hb).1
        (hne hL hv₀L hb).2]

/-! ### Boundaries -/

theorem edge_boundary_iff (h : Fuses V v₀ v₁ G G') (hK : G.Closed K)
    (hb : G.kind? b = some .boundary) :
    (∃ t ∈ K, G'.edge s(b, t) = some e) ↔ ∃ t ∈ K, G.edge s(b, t) = some e := by
  obtain ⟨hb₀, hb₁⟩ := h.ne_of_boundary hb
  have hfirst : G'.edge s(b, v₀) = merge (G.edge s(b, v₀)) (G.edge s(b, v₁)) := by
    rw [Sym2.eq_swap, h.edge_first b hb₀ hb₁, Sym2.eq_swap, Sym2.eq_swap (a := v₁)]
  have hsecond : G'.edge s(b, v₁) = none := by rw [Sym2.eq_swap, h.edge_none]
  have hv₁ := hK.mem_iff h.tied
  constructor
  · rintro ⟨t, ht, he⟩
    by_cases ht₁ : t = v₁
    · rw [ht₁, hsecond] at he
      cases he
    · by_cases ht₀ : t = v₀
      · subst ht₀
        rw [hfirst] at he
        cases he₀ : G.edge s(b, t) with
        | none =>
            rw [he₀, none_merge] at he
            exact ⟨v₁, hv₁.mp ht, he⟩
        | some e₀ =>
            -- the boundary hangs on the first spider, so the other has no edge to it
            have he₁ : G.edge s(b, v₁) = none := by
              by_contra hsome
              obtain ⟨e₁, he₁⟩ := Option.ne_none_iff_exists'.mp hsome
              exact h.ne (h.simple.hangs hb he₀ he₁)
            rw [he₁, merge_none] at he
            exact ⟨t, ht, he⟩
      · rw [h.edge_eq_of_ne hb₀ hb₁ ht₀ ht₁] at he
        exact ⟨t, ht, he⟩
  · rintro ⟨t, ht, he⟩
    have hother : ∀ t', t' ≠ t → G.edge s(b, t') = none := by
      intro t' hne
      by_contra hsome
      obtain ⟨e', he'⟩ := Option.ne_none_iff_exists'.mp hsome
      exact hne (h.simple.hangs hb he' he)
    by_cases ht₁ : t = v₁
    · subst ht₁
      refine ⟨v₀, hv₁.mpr ht, ?_⟩
      rw [hfirst, hother v₀ h.ne, none_merge, he]
    · by_cases ht₀ : t = v₀
      · subst ht₀
        refine ⟨t, ht, ?_⟩
        rw [hfirst, hother v₁ h.ne.symm, merge_none, he]
      · refine ⟨t, ht, ?_⟩
        rw [h.edge_eq_of_ne hb₀ hb₁ ht₀ ht₁, he]

theorem data_boundary (h : Fuses V v₀ v₁ G G') (hb : G.kind? b ≠ some .z) :
    G'.data b = G.data b := by
  refine h.data_eq b ?_ ?_
  · rintro rfl
    exact hb h.tied.left
  · rintro rfl
    exact hb h.tied.right

end Fuses

/-! ## Runs -/

/-- Any number of steps, in any order. -/
def Reaches (V : Finset ℕ) : LabelledGraph → LabelledGraph → Prop :=
  ReflTransGen fun G G' => ∃ v₀ v₁, Fuses V v₀ v₁ G G'

namespace Reaches

/-- What no step changes, as long as an invariant of the run holds, no run changes. -/
theorem eq_of_invariant {α : Type} (f : LabelledGraph → α) {I : LabelledGraph → Prop}
    (hI : ∀ {G'}, Reaches V G G' → I G')
    (hstep : ∀ {G₁ G₂ v₀ v₁}, I G₁ → Fuses V v₀ v₁ G₁ G₂ → f G₂ = f G₁) (h : Reaches V G G') :
    f G' = f G := by
  induction h with
  | refl => rfl
  | tail hrun hlast ih =>
      obtain ⟨v₀, v₁, hlast⟩ := hlast
      exact (hstep (hI hrun) hlast).trans ih

/-- What no step changes no run changes. -/
theorem eq_of_step {α : Type} (f : LabelledGraph → α)
    (hstep : ∀ {G G' v₀ v₁}, Fuses V v₀ v₁ G G' → f G' = f G) (h : Reaches V G G') :
    f G' = f G :=
  h.eq_of_invariant f (I := fun _ => True) (fun _ => trivial) fun _ hfuse => hstep hfuse

theorem closed (h : Reaches V G G') (hK : G.Closed K) : G'.Closed K := by
  induction h with
  | refl => exact hK
  | tail _ hlast ih =>
      obtain ⟨v₀, v₁, hlast⟩ := hlast
      exact hlast.closed ih

theorem charge_eq (h : Reaches V G G') (hK : G.Closed K) (hKV : K ⊆ V) :
    G'.charge K = G.charge K :=
  h.eq_of_invariant (charge · K) (fun hrun => closed hrun hK) fun hclosed hfuse =>
    hfuse.charge_eq hclosed hKV

theorem odd_edgesBetween_iff (h : Reaches V G G') (hK : G.Closed K) (hL : G.Closed L)
    (hKL : Disjoint K L) :
    Odd (G'.edgesBetween .hadamard K L) ↔ Odd (G.edgesBetween .hadamard K L) :=
  iff_of_eq <| h.eq_of_invariant (fun G => Odd (G.edgesBetween .hadamard K L))
    (fun hrun => And.intro (closed hrun hK) (closed hrun hL)) fun hclosed hfuse =>
      propext (hfuse.odd_edgesBetween_iff hclosed.1 hclosed.2 hKL)

theorem data_boundary (h : Reaches V G G') (hb : G.kind? b ≠ some .z) : G'.data b = G.data b := by
  induction h with
  | refl => rfl
  | tail _ hlast ih =>
      obtain ⟨v₀, v₁, hlast⟩ := hlast
      refine (hlast.data_boundary ?_).trans ih
      rwa [kind?, ih]

theorem kind?_boundary (h : Reaches V G G') (hb : G.kind? b = some .boundary) :
    G'.kind? b = some .boundary := by
  rw [kind?, h.data_boundary (by simp [hb])]
  exact hb

theorem edge_boundary_iff (h : Reaches V G G') (hK : G.Closed K) (hb : G.kind? b = some .boundary) :
    (∃ t ∈ K, G'.edge s(b, t) = some e) ↔ ∃ t ∈ K, G.edge s(b, t) = some e :=
  iff_of_eq <| h.eq_of_invariant (fun G => ∃ t ∈ K, G.edge s(b, t) = some e)
    (fun hrun => And.intro (closed hrun hK) (kind?_boundary hrun hb)) fun hinv hfuse =>
      propext (hfuse.edge_boundary_iff hinv.1 hinv.2)

theorem edge_wire (h : Reaches V G G') (hb : G.kind? b = some .boundary)
    (ht : G.kind? t = some .boundary) : G'.edge s(b, t) = G.edge s(b, t) := by
  refine h.eq_of_invariant (fun G => G.edge s(b, t))
    (fun hrun => And.intro (kind?_boundary hrun hb) (kind?_boundary hrun ht)) fun hinv hfuse => ?_
  obtain ⟨hb₀, hb₁⟩ := hfuse.ne_of_boundary hinv.1
  obtain ⟨ht₀, ht₁⟩ := hfuse.ne_of_boundary hinv.2
  exact hfuse.edge_eq_of_ne hb₀ hb₁ ht₀ ht₁

theorem exists_data (h : Reaches V G G') {d : VertexData} (hd : G'.data v = some d) :
    ∃ d₀, G.data v = some d₀ ∧ d = { d₀ with phase := d.phase } := by
  induction h generalizing d with
  | refl => exact ⟨d, hd, rfl⟩
  | tail _ hlast ih =>
      obtain ⟨v₀, v₁, hlast⟩ := hlast
      obtain ⟨d₁, hd₁, heq₁⟩ := hlast.exists_data hd
      obtain ⟨d₀, hd₀, heq₀⟩ := ih hd₁
      exact ⟨d₀, hd₀, by rw [heq₁, heq₀]⟩

theorem exists_le (h : Reaches V G G') (hK : G.Closed K) (hv : v ∈ K) (hdata : G.data v ≠ none) :
    ∃ w ∈ K, w ≤ v ∧ G'.data w ≠ none := by
  induction h with
  | refl => exact ⟨v, hv, le_rfl, hdata⟩
  | tail hrun hlast ih =>
      obtain ⟨v₀, v₁, hlast⟩ := hlast
      obtain ⟨w, hw, hwv, hwdata⟩ := ih
      obtain ⟨u, hu, huw, hudata⟩ := hlast.exists_le (closed hrun hK) hw hwdata
      exact ⟨u, hu, huw.trans hwv, hudata⟩

/-- A closed set at the end comes from one at the start, with the same vertices among those that are
left. -/
theorem exists_closed (h : Reaches V G G') (hK : G'.Closed K) :
    ∃ L, G.Closed L ∧ ∀ v, G'.data v ≠ none → (v ∈ L ↔ v ∈ K) := by
  induction h generalizing K with
  | refl => exact ⟨K, hK, fun _ _ => Iff.rfl⟩
  | tail hrun hlast ih =>
      obtain ⟨v₀, v₁, hlast⟩ := hlast
      obtain ⟨M, hM, hMK⟩ := hlast.exists_closed hK
      obtain ⟨L, hL, hLM⟩ := ih hM
      refine ⟨L, hL, fun v hv => ?_⟩
      have hv₁ : v ≠ v₁ := by
        rintro rfl
        exact hv hlast.data_gone
      obtain ⟨d, hd⟩ := Option.ne_none_iff_exists'.mp hv
      obtain ⟨d₁, hd₁, -⟩ := hlast.exists_data hd
      exact (hLM v (by simp [hd₁])).trans (hMK v hv₁)

theorem sqrt2Pow_eq (h : Reaches V G G') : G.scalar.sqrt2Pow - G'.scalar.sqrt2Pow =
    G.edgesIn .hadamard V - G'.edgesIn .hadamard V := by
  have hdiff : G'.scalar.sqrt2Pow - G'.edgesIn .hadamard V =
      G.scalar.sqrt2Pow - G.edgesIn .hadamard V := by
    refine h.eq_of_step (fun G => G.scalar.sqrt2Pow - (G.edgesIn .hadamard V : ℤ)) fun hstep => ?_
    have hedges := hstep.edgesIn_add_cost (hstep.simple.mem_of_tied hstep.tied.symm)
      (hstep.simple.mem_of_tied hstep.tied)
    rw [hstep.sqrt2Pow_eq, ← hedges, fusionCost]
    push_cast
    ring
  linarith

/-! ### Where nothing is tied any more -/

section Settled

variable (h : Reaches V G G') (hG : G.Simple V) (hG' : G'.Simple V) (hend : ∀ a b, ¬G'.Tied a b)

include h hend in
/-- Of each class one vertex is left. -/
theorem eq_of_mem_cluster (hv : G'.data v ≠ none) (hu : G'.data u ≠ none)
    (huv : u ∈ G.cluster V v) : u = v := by
  have hclosed : G'.Closed {v} := fun a b hab => absurd hab (hend a b)
  obtain ⟨L, hL, hmem⟩ := h.exists_closed hclosed
  have hvL : v ∈ L := (hmem v hv).mpr (mem_singleton_self v)
  exact mem_singleton.mp ((hmem u hu).mp (hL.cluster_subset hvL huv))

include h hend in
theorem data_of_mem_cluster (hv : G'.data v ≠ none) (hu : u ∈ G.cluster V v) (huv : u ≠ v) :
    G'.data u = none := by
  by_contra hu'
  exact huv (h.eq_of_mem_cluster hend hv hu' hu)

include h hG hend in
/-- The vertex that is left is the least of its class. -/
theorem data_ne_none_iff (hv : G.data v ≠ none) : G'.data v ≠ none ↔ G.Leads V v := by
  have hvV : v ∈ V := by
    obtain ⟨d, hd⟩ := Option.ne_none_iff_exists'.mp hv
    exact hG.mem hd
  have hclosed := cluster_closed (fun _ _ => hG.mem_of_tied) v
  constructor
  · intro hv' u hu
    obtain rfl | huv := eq_or_ne u v
    · exact le_rfl
    · obtain ⟨w, hw, hwu, hw'⟩ := h.exists_le hclosed hu (LabelledGraph.data_of_mem_cluster hv hu)
      rwa [h.eq_of_mem_cluster hend hv' hw' hw] at hwu
  · intro hleads
    obtain ⟨w, hw, hwv, hw'⟩ := h.exists_le hclosed (mem_cluster_self hvV) hv
    rwa [le_antisymm hwv (hleads w hw)] at hw'

include h hG hG' hend in
/-- The charge of a class is the angle of the vertex that is left. -/
theorem angle_eq (hv : G'.data v ≠ none) : G'.angle v = G.charge (G.cluster V v) := by
  have hvV : v ∈ V := by
    obtain ⟨d, hd⟩ := Option.ne_none_iff_exists'.mp hv
    exact hG'.mem hd
  have hgone := fun u => h.data_of_mem_cluster hend (u := u) hv
  have hangles : ∑ u ∈ G.cluster V v, G'.angle u = G'.angle v :=
    sum_eq_single_of_mem v (mem_cluster_self hvV) fun u hu huv => by
      rw [angle, hgone u hu huv]
      rfl
  have hedges : G'.edgesIn .hadamard (G.cluster V v) = 0 := by
    rw [edgesIn, card_eq_zero, filter_eq_empty_iff]
    intro pair
    induction pair using Sym2.ind with
    | _ a b =>
        intro hpair
        obtain ⟨ha, hb⟩ := mk_mem_sym2_iff.mp hpair
        have hnone : G'.edge s(a, b) = none := by
          by_cases hav : a = v
          · by_cases hbv : b = v
            · rw [hav, hbv, hG'.edge_self]
            · rw [Sym2.eq_swap, hG'.edge_gone (hgone b hb hbv)]
          · exact hG'.edge_gone (hgone a ha hav) b
        simp [hnone]
  rw [← h.charge_eq (cluster_closed (fun _ _ => hG.mem_of_tied) v) (cluster_subset G V v), charge,
    hangles, hedges, zero_smul, add_zero]

include h hG hG' hend in
/-- Between two classes, the parity of the edges is the edge between the two vertices left. -/
theorem edge_spiders (hv : G'.kind? v = some .z) (hw : G'.kind? w = some .z) (hvw : v ≠ w) :
    G'.edge s(v, w) =
      if Odd (G.edgesBetween .hadamard (G.cluster V v) (G.cluster V w)) then some .hadamard
      else none := by
  obtain ⟨dv, hdv, -⟩ := Option.map_eq_some_iff.mp hv
  obtain ⟨dw, hdw, -⟩ := Option.map_eq_some_iff.mp hw
  have hv' : G'.data v ≠ none := by simp [hdv]
  have hw' : G'.data w ≠ none := by simp [hdw]
  have hdisjoint : Disjoint (G.cluster V v) (G.cluster V w) := by
    refine disjoint_left.mpr fun u hu hu' => hvw ?_
    have hreach : ReflTransGen G.Tied w v := (mem_cluster.mp hu').2.trans
      (ReflTransGen.stdSymm.symm _ _ (mem_cluster.mp hu).2)
    exact h.eq_of_mem_cluster hend hw' hv' (mem_cluster.mpr ⟨hG'.mem hdv, hreach⟩)
  have hone : G'.edgesBetween .hadamard (G.cluster V v) (G.cluster V w) =
      tally (G'.edge s(v, w)) := by
    rw [edgesBetween_eq_sum, sum_eq_single_of_mem v (mem_cluster_self (hG'.mem hdv)),
      sum_eq_single_of_mem w (mem_cluster_self (hG'.mem hdw))]
    · intro b hb hbw
      rw [Sym2.eq_swap, hG'.edge_gone (h.data_of_mem_cluster hend hw' hb hbw), tally_none]
    · intro a ha hav
      refine sum_eq_zero fun b _ => ?_
      rw [hG'.edge_gone (h.data_of_mem_cluster hend hv' ha hav), tally_none]
  have hclosed := cluster_closed (G := G) (fun _ _ => hG.mem_of_tied)
  rw [← if_congr (h.odd_edgesBetween_iff (hclosed v) (hclosed w) hdisjoint) rfl rfl, hone]
  have hplain : G'.edge s(v, w) ≠ some .plain := fun he => hend v w ⟨he, hv, hw⟩
  rcases he : G'.edge s(v, w) with _ | _ | _
  · rfl
  · exact absurd he hplain
  · rfl

include h hG hG' hend in
theorem edge_boundary (hb : G.kind? b = some .boundary) (hw : G'.kind? w = some .z) :
    G'.edge s(b, w) = some e ↔ ∃ t ∈ G.cluster V w, G.edge s(b, t) = some e := by
  obtain ⟨d, hd, -⟩ := Option.map_eq_some_iff.mp hw
  rw [← h.edge_boundary_iff (cluster_closed (fun _ _ => hG.mem_of_tied) w) hb]
  constructor
  · exact fun he => ⟨w, mem_cluster_self (hG'.mem hd), he⟩
  · rintro ⟨t, ht, he⟩
    have ht' : G'.data t ≠ none := fun hnone => by
      rw [Sym2.eq_swap, hG'.edge_gone hnone] at he
      cases he
    rwa [h.eq_of_mem_cluster hend (by simp [hd]) ht' ht] at he

include h hG hG' hend in
/-- Steps in any order end in the quotient. -/
theorem quotient : Quotient V G G' where
  data_spider v d hd _ hleads := by
    have hv := (h.data_ne_none_iff hG hend (by simp [hd])).mpr hleads
    obtain ⟨d', hd'⟩ := Option.ne_none_iff_exists'.mp hv
    obtain ⟨d₀, hd₀, heq⟩ := h.exists_data hd'
    cases hd₀.symm.trans hd
    refine ⟨d'.phase, heq ▸ hd', ?_⟩
    have hangle := h.angle_eq hG hG' hend hv
    rwa [angle, hd'] at hangle
  data_gone v hv hleads := by
    obtain ⟨d, hd, -⟩ := Option.map_eq_some_iff.mp hv
    by_contra hv'
    exact hleads ((h.data_ne_none_iff hG hend (by simp [hd])).mp hv')
  data_boundary _ hb := h.data_boundary hb
  edge_spiders _ _ hv hw hvw := h.edge_spiders hG hG' hend hv hw hvw
  edge_boundary _ _ hb hw _ := h.edge_boundary hG hG' hend hb hw
  edge_wire _ _ hb hc := h.edge_wire hb hc
  edge_self := hG'.edge_self
  edge_gone _ u hv := hG'.edge_gone hv u
  inputs_eq := h.eq_of_step inputs Fuses.inputs_eq
  outputs_eq := h.eq_of_step outputs Fuses.outputs_eq
  scalarPhase_eq := h.eq_of_step (fun G => G.scalar.phase) Fuses.scalarPhase_eq
  sqrt2Pow_eq := h.sqrt2Pow_eq

end Settled

end Reaches

end ZX.LabelledGraph
