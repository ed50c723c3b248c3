import Mathlib
import ZX.Proofs.Meaning

/-!
# Generalised flow

The vertices of a diagram that are neither outputs nor isolated form an open graph, whose last layer
are the spiders next to the outputs. A generalised flow gives every other vertex a set of later
vertices, not among the inputs, that meets the neighbourhoods of this vertex and of later vertices
only in an odd number of places.

A vertex of a set is freed if the spiders outside of the set have a subset with an odd number of
neighbours at this member of the set and at no other one. Freeing vertices one after the other until
none is left is the same as having a flow. In terms of linear algebra, the unit vector of a freed
vertex is in the span of the neighbourhoods.
-/
namespace ZX.Diagram

open Finset

variable {g : Diagram} {U K : Finset ℕ} {u v : ℕ}

/-- The spiders without edges. -/
def isolated (g : Diagram) : Finset ℕ := g.spiders.filter fun v => g.linksAt v = []

/-- The vertices that are neither outputs nor isolated spiders. -/
def core (g : Diagram) : Finset ℕ := g.support.filter fun v => v ∉ g.outputs ∧ v ∉ g.isolated

/-- The spiders next to an output. -/
def fringe (g : Diagram) : Finset ℕ :=
  g.spiders.filter fun v => ∃ o ∈ g.outputs, g.connected o v = true

/-- The vertex has an odd number of neighbours in the set. -/
def IsOdd (g : Diagram) (K : Finset ℕ) (v : ℕ) : Prop :=
  Odd (K.filter fun u => g.connected v u = true).card

instance (g : Diagram) (K : Finset ℕ) (v : ℕ) : Decidable (g.IsOdd K v) :=
  inferInstanceAs (Decidable (Odd _))

/-- There is a generalised flow on the core: `f w` corrects `w`, and `lt w u` says that `u` comes
later. -/
def HasFlow (g : Diagram) : Prop :=
  ∃ (f : ℕ → Finset ℕ) (lt : ℕ → ℕ → Prop), IsStrictOrder ℕ lt ∧
    ∀ w ∈ g.core \ g.fringe, f w ⊆ g.core \ g.inputs.toFinset ∧ g.IsOdd (f w) w ∧
      (∀ u ∈ f w, lt w u) ∧ ∀ u ∈ g.core, g.IsOdd (f w) u → u ≠ w → lt w u

/-- Some spiders outside of `U` have an odd number of neighbours at `u` and an even number at every
other member of `U`. -/
def Frees (g : Diagram) (U : Finset ℕ) (u : ℕ) : Prop :=
  u ∈ U ∧ ∃ K ⊆ g.spiders \ U, ∀ t ∈ U, g.IsOdd K t ↔ t = u

/-- One vertex of the set is freed and leaves it. -/
def FreesOne (g : Diagram) (U U' : Finset ℕ) : Prop := ∃ u, g.Frees U u ∧ U' = U.erase u

theorem IsOdd.congr {K' : Finset ℕ} (h : ∀ u, g.connected v u = true → (u ∈ K ↔ u ∈ K')) :
    g.IsOdd K v ↔ g.IsOdd K' v := by
  have heq : K.filter (fun u => g.connected v u = true) =
      K'.filter fun u => g.connected v u = true := by
    ext u
    simp only [mem_filter]
    exact and_congr_left fun hu => h u hu
  rw [IsOdd, IsOdd, heq]

/-- Isolated spiders can be left out of a correction set. -/
theorem isOdd_inter_core (hg : g.WellFormed) (hK : K ⊆ g.spiders) :
    g.IsOdd (K ∩ g.core) v ↔ g.IsOdd K v := by
  refine IsOdd.congr fun u hu => ?_
  rw [mem_inter, and_iff_left_iff_imp]
  intro huK
  obtain ⟨hcont, hkind⟩ := mem_spiders.mp (hK huK)
  refine mem_filter.mpr ⟨mem_support.mpr hcont, fun hout => ?_, fun hiso => ?_⟩
  · exact hkind (hg.kind?_output hout)
  · rw [connected, hg.toConsistent.edgeKind?_comm, edgeKind?_eq_lookup, (mem_filter.mp hiso).2] at hu
    cases hu

/-! ## Freeing all vertices gives a flow -/

/-- A flow on the part of `U₀` that has left `U`, ranked by the time of leaving. -/
structure PartialFlow (g : Diagram) (U₀ U : Finset ℕ) (f : ℕ → Finset ℕ) (rank : ℕ → ℕ) : Prop where
  rank_le : ∀ v ∉ U, rank v ≤ U₀.card - U.card
  subset : ∀ w ∈ U₀ \ U, f w ⊆ g.spiders ∩ g.core
  odd : ∀ w ∈ U₀ \ U, g.IsOdd (f w) w
  later : ∀ w ∈ U₀ \ U, ∀ u ∈ f w, u ∉ U ∧ rank u < rank w
  odd_later : ∀ w ∈ U₀ \ U, ∀ u, g.IsOdd (f w) u → u ≠ w → u ∉ U ∧ rank u < rank w

theorem PartialFlow.step (hg : g.WellFormed) {U₀ : Finset ℕ} {f : ℕ → Finset ℕ} {rank : ℕ → ℕ}
    (h : PartialFlow g U₀ U f rank) (hU : U ⊆ U₀) (hu : g.Frees U u) :
    ∃ f' rank', PartialFlow g U₀ (U.erase u) f' rank' := by
  obtain ⟨huU, K, hK, hodd⟩ := hu
  have hKs : K ⊆ g.spiders := hK.trans sdiff_subset
  have hKU : ∀ t ∈ K, t ∉ U := fun t ht => (mem_sdiff.mp (hK ht)).2
  have hcard := card_le_card hU
  have hpos : 0 < U.card := card_pos.mpr ⟨u, huU⟩
  have hcore : ∀ t, g.IsOdd (K ∩ g.core) t ↔ g.IsOdd K t := fun t => isOdd_inter_core hg hKs
  set last := U₀.card - U.card + 1
  -- Whatever left before `u` keeps its rank, which is smaller than the new one.
  have hrank : ∀ t ∉ U, Function.update rank u last t = rank t ∧ rank t < last := by
    intro t ht
    have htu : t ≠ u := fun hc => ht (hc ▸ huU)
    have := h.rank_le t ht
    exact ⟨Function.update_of_ne htu _ _, by omega⟩
  have hcases : ∀ w ∈ U₀ \ U.erase u, w = u ∨ w ≠ u ∧ w ∈ U₀ \ U := by
    intro w hw
    rw [mem_sdiff, mem_erase, not_and_or, not_not] at hw
    rw [mem_sdiff]
    tauto
  refine ⟨Function.update f u (K ∩ g.core), Function.update rank u last, ?_, ?_, ?_, ?_, ?_⟩
  · intro v hv
    rw [card_erase_of_mem huU]
    by_cases hvu : v = u
    · rw [hvu, Function.update_self]
      omega
    · have hvU : v ∉ U := fun hc => hv (mem_erase.mpr ⟨hvu, hc⟩)
      have := h.rank_le v hvU
      rw [(hrank v hvU).1]
      omega
  · intro w hw
    obtain rfl | ⟨hwu, hw⟩ := hcases w hw
    · rw [Function.update_self]
      exact inter_subset_inter_right hKs
    · rw [Function.update_of_ne hwu]
      exact h.subset w hw
  · intro w hw
    obtain rfl | ⟨hwu, hw⟩ := hcases w hw
    · rw [Function.update_self, hcore]
      exact (hodd w huU).mpr rfl
    · rw [Function.update_of_ne hwu]
      exact h.odd w hw
  · intro w hw t ht
    obtain rfl | ⟨hwu, hw⟩ := hcases w hw
    · rw [Function.update_self] at ht
      have htU := hKU t (mem_inter.mp ht).1
      rw [(hrank t htU).1, Function.update_self]
      exact ⟨fun hc => htU (mem_of_mem_erase hc), (hrank t htU).2⟩
    · rw [Function.update_of_ne hwu] at ht
      obtain ⟨htU, hlt⟩ := h.later w hw t ht
      rw [(hrank t htU).1, Function.update_of_ne hwu]
      exact ⟨fun hc => htU (mem_of_mem_erase hc), hlt⟩
  · intro w hw t ht htw
    obtain rfl | ⟨hwu, hw⟩ := hcases w hw
    · rw [Function.update_self, hcore] at ht
      have htU : t ∉ U := fun hc => htw ((hodd t hc).mp ht)
      rw [(hrank t htU).1, Function.update_self]
      exact ⟨fun hc => htU (mem_of_mem_erase hc), (hrank t htU).2⟩
    · rw [Function.update_of_ne hwu] at ht
      obtain ⟨htU, hlt⟩ := h.odd_later w hw t ht htw
      rw [(hrank t htU).1, Function.update_of_ne hwu]
      exact ⟨fun hc => htU (mem_of_mem_erase hc), hlt⟩

theorem exists_partialFlow (hg : g.WellFormed) {U₀ : Finset ℕ}
    (h : Relation.ReflTransGen g.FreesOne U₀ U) :
    U ⊆ U₀ ∧ ∃ f rank, PartialFlow g U₀ U f rank := by
  induction h with
  | refl =>
      refine ⟨Subset.rfl, fun _ => ∅, fun _ => 0, fun _ _ => Nat.zero_le _, ?_, ?_, ?_, ?_⟩
      all_goals
        intro w hw
        simp at hw
  | tail _ hstep ih =>
      obtain ⟨hU, f, rank, hflow⟩ := ih
      obtain ⟨u, hu, rfl⟩ := hstep
      exact ⟨(erase_subset _ _).trans hU, hflow.step hg hU hu⟩

/-- If all vertices of the core that are not next to an output can be freed one after the other,
then there is a flow. -/
theorem hasFlow_of_frees (hg : g.WellFormed)
    (h : Relation.ReflTransGen g.FreesOne (g.core \ g.fringe) ∅) : g.HasFlow := by
  obtain ⟨-, f, rank, hflow⟩ := exists_partialFlow hg h
  refine ⟨f, fun w u => rank u < rank w, ?_, fun w hw => ⟨fun t ht => ?_, ?_, ?_, ?_⟩⟩
  · exact { irrefl := fun a => lt_irrefl _, trans := fun a b c hab hbc => hbc.trans hab }
  · obtain ⟨hspider, hcore⟩ := mem_inter.mp (hflow.subset w (by simpa using hw) ht)
    refine mem_sdiff.mpr ⟨hcore, fun hin => ?_⟩
    exact (mem_spiders.mp hspider).2 (hg.kind?_input (List.mem_toFinset.mp hin))
  · exact hflow.odd w (by simpa using hw)
  · exact fun u hu => (hflow.later w (by simpa using hw) u hu).2
  · exact fun u _ hu huw => (hflow.odd_later w (by simpa using hw) u hu huw).2

/-- With a flow every set of vertices that are not next to an output has a member that can be freed:
a latest one. -/
theorem HasFlow.exists_frees (hg : g.WellFormed) (h : g.HasFlow) (hU : U ⊆ g.core \ g.fringe)
    (hne : U.Nonempty) : ∃ u, g.Frees U u := by
  obtain ⟨f, lt, hlt, hflow⟩ := h
  obtain ⟨w, hw, hlast⟩ : ∃ w ∈ U, ∀ t ∈ U, ¬lt w t := by
    obtain ⟨u, hu⟩ := hne
    have hwf : (U : Set ℕ).WellFoundedOn (Function.swap lt) := U.wellFoundedOn
    obtain ⟨⟨w, hw⟩, -, hmin⟩ := WellFounded.has_min hwf Set.univ ⟨⟨u, hu⟩, trivial⟩
    exact ⟨w, hw, fun t ht => hmin ⟨t, ht⟩ trivial⟩
  obtain ⟨hsub, hodd, hlater, hoddLater⟩ := hflow w (hU hw)
  refine ⟨w, hw, f w, fun t ht => ?_, fun t ht => ⟨fun htodd => ?_, fun htw => htw ▸ hodd⟩⟩
  · obtain ⟨hcore, hin⟩ := mem_sdiff.mp (hsub ht)
    obtain ⟨hcont, hout, -⟩ := mem_filter.mp hcore
    refine mem_sdiff.mpr ⟨mem_spiders.mpr ⟨mem_support.mp hcont, fun hkind => ?_⟩,
      fun hc => hlast t hc (hlater t ht)⟩
    obtain hends | hends := List.mem_append.mp (hg.mem_ends.mpr hkind)
    · exact hin (List.mem_toFinset.mpr hends)
    · exact hout hends
  · by_contra htw
    exact hlast t ht (hoddLater t (mem_sdiff.mp (hU ht)).1 htodd htw)

/-! ## Neighbourhoods as vectors -/

/-- The neighbourhood of a vertex inside a set. -/
def row (g : Diagram) (U : Finset ℕ) (v : ℕ) : ℕ → ZMod 2 :=
  fun t => if t ∈ U ∧ g.connected v t = true then 1 else 0

theorem row_congr {D : Diagram} (h : ∀ t ∈ U, D.edgeKind? v t = g.edgeKind? v t) :
    D.row U v = g.row U v := by
  funext t
  by_cases ht : t ∈ U
  · rw [row, row, connected, connected, h t ht]
  · simp [row, ht]

/-- The span of some neighbourhoods. -/
def rowSpan (g : Diagram) (U X : Finset ℕ) : Submodule (ZMod 2) (ℕ → ZMod 2) :=
  Submodule.span (ZMod 2) (g.row U '' X)

theorem row_mem_rowSpan {X : Finset ℕ} (hv : v ∈ X) : g.row U v ∈ g.rowSpan U X :=
  Submodule.subset_span ⟨v, hv, rfl⟩

/-- What is zero in all neighbourhoods is zero in their span. -/
theorem rowSpan_apply_eq_zero {X : Finset ℕ} {y : ℕ → ZMod 2} {t : ℕ}
    (h : ∀ v ∈ X, g.row U v t = 0) (hy : y ∈ g.rowSpan U X) : y t = 0 := by
  refine Submodule.span_induction (p := fun y _ => y t = 0) ?_ rfl ?_ ?_ hy
  · intro y hy
    obtain ⟨v, hv, rfl⟩ := hy
    exact h v hv
  · intro a b _ _ ha hb
    simp [ha, hb]
  · intro c a _ ha
    simp [ha]

/-- The span is not zero at the neighbours, and only there. -/
theorem exists_mem_rowSpan_ne_zero {X : Finset ℕ} {t : ℕ} :
    (∃ y ∈ g.rowSpan U X, y t ≠ 0) ↔ t ∈ U ∧ ∃ v ∈ X, g.connected v t = true := by
  constructor
  · intro h
    obtain ⟨y, hy, hyt⟩ := h
    by_contra hnone
    refine hyt (rowSpan_apply_eq_zero (fun v hv => if_neg fun hc => hnone ?_) hy)
    exact ⟨hc.1, v, hv, hc.2⟩
  · rintro ⟨ht, v, hv, hconn⟩
    refine ⟨g.row U v, row_mem_rowSpan hv, ?_⟩
    rw [row, if_pos ⟨ht, hconn⟩]
    exact one_ne_zero

/-- Over two elements a span consists of partial sums. -/
theorem mem_rowSpan_iff {X : Finset ℕ} {y : ℕ → ZMod 2} :
    y ∈ g.rowSpan U X ↔ ∃ K ⊆ X, ∑ x ∈ K, g.row U x = y := by
  rw [rowSpan, Submodule.mem_span_image_finset_iff_exists_fun']
  constructor
  · intro h
    obtain ⟨c, rfl⟩ := h
    refine ⟨X.filter (c · = 1), filter_subset _ _, ?_⟩
    rw [sum_filter]
    refine sum_congr rfl fun x _ => ?_
    obtain hc | hc : c x = 0 ∨ c x = 1 := by
      generalize c x = a
      revert a
      decide
    · simp [hc]
    · simp [hc]
  · intro h
    obtain ⟨K, hK, rfl⟩ := h
    refine ⟨fun x => if x ∈ K then 1 else 0, ?_⟩
    simp only [ite_smul, one_smul, zero_smul]
    rw [sum_ite_mem, inter_eq_right.mpr hK]

theorem natCast_card_neighbours (g : Diagram) (K : Finset ℕ) (t : ℕ) :
    ((K.filter fun u => g.connected t u = true).card : ZMod 2) =
      if g.IsOdd K t then 1 else 0 := by
  by_cases hodd : g.IsOdd K t
  · rw [if_pos hodd]
    exact ZMod.natCast_eq_one_iff_odd.mpr hodd
  · rw [if_neg hodd]
    exact ZMod.natCast_eq_zero_iff_even.mpr (Nat.not_odd_iff_even.mp hodd)

theorem sum_row_apply (hg : g.Consistent) (t : ℕ) :
    (∑ x ∈ K, g.row U x) t = if t ∈ U ∧ g.IsOdd K t then 1 else 0 := by
  have hcomm : ∀ x, g.connected x t = g.connected t x := fun x => by
    rw [connected, connected, hg.edgeKind?_comm]
  by_cases ht : t ∈ U
  · simp only [Finset.sum_apply, row, ht, true_and, hcomm]
    rw [sum_boole, natCast_card_neighbours]
  · simp [Finset.sum_apply, row, ht]

/-- A vertex is freed if its unit vector is in the span of the neighbourhoods of the spiders outside
of the set. -/
theorem frees_iff (hg : g.Consistent) :
    g.Frees U u ↔ u ∈ U ∧ Pi.single u 1 ∈ g.rowSpan U (g.spiders \ U) := by
  rw [Frees, and_congr_right_iff]
  intro hu
  rw [mem_rowSpan_iff]
  refine exists_congr fun K => and_congr_right fun _ => ?_
  constructor
  · intro h
    funext t
    rw [sum_row_apply hg]
    by_cases htu : t = u
    · subst htu
      rw [if_pos ⟨hu, (h t hu).mpr rfl⟩, Pi.single_eq_same]
    · rw [if_neg fun hc => htu ((h t hc.1).mp hc.2), Pi.single_eq_of_ne htu]
  · intro h t ht
    have heq := congrFun h t
    rw [sum_row_apply hg] at heq
    constructor
    · intro hodd
      by_contra htu
      rw [if_pos ⟨ht, hodd⟩, Pi.single_eq_of_ne htu] at heq
      exact one_ne_zero heq
    · intro htu
      subst htu
      by_contra hodd
      rw [if_neg fun hc => hodd hc.2, Pi.single_eq_same] at heq
      exact zero_ne_one heq

/-! ## Shrinking the set -/

/-- The restriction of a vector to a set. -/
def mask (U : Finset ℕ) : (ℕ → ZMod 2) →ₗ[ZMod 2] (ℕ → ZMod 2) where
  toFun y t := if t ∈ U then y t else 0
  map_add' y z := by
    funext t
    by_cases ht : t ∈ U <;> simp [ht]
  map_smul' c y := by
    funext t
    by_cases ht : t ∈ U <;> simp [ht]

theorem mask_row {U' : Finset ℕ} (hU : U' ⊆ U) (v : ℕ) : mask U' (g.row U v) = g.row U' v := by
  funext t
  by_cases ht : t ∈ U'
  · simp [mask, row, ht, hU ht]
  · simp [mask, row, ht]

theorem mask_rowSpan_le {U' X : Finset ℕ} (hU : U' ⊆ U) {y : ℕ → ZMod 2}
    (hy : y ∈ g.rowSpan U X) : mask U' y ∈ g.rowSpan U' X := by
  have hmap : mask U' y ∈ (g.rowSpan U X).map (mask U') := Submodule.mem_map_of_mem hy
  rw [rowSpan, Submodule.map_span, Set.image_image] at hmap
  simp only [mask_row hU] at hmap
  exact hmap

/-- Two diagrams whose neighbourhoods span the same space still do so on a smaller set, if what
joins the families has the same neighbourhood in both and what leaves them is zero there. -/
theorem rowSpan_eq_step {D D' : Diagram} {U' X X' Y Y' : Finset ℕ}
    (hspan : D.rowSpan U X = g.rowSpan U Y) (hU : U' ⊆ U) (hY : Y ⊆ Y')
    (hX' : ∀ v ∈ X', (v ∈ X ∧ D'.row U' v = D.row U' v) ∨ (v ∈ Y' ∧ D'.row U' v = g.row U' v))
    (hX : ∀ v ∈ X, D.row U' v = 0 ∨ (v ∈ X' ∧ D'.row U' v = D.row U' v))
    (hY' : ∀ v ∈ Y', v ∈ Y ∨ (v ∈ X' ∧ D'.row U' v = g.row U' v)) :
    D'.rowSpan U' X' = g.rowSpan U' Y' := by
  have hold : ∀ {y}, y ∈ D.rowSpan U' X → y ∈ D'.rowSpan U' X' := by
    intro y hy
    refine Submodule.span_induction (p := fun y _ => y ∈ D'.rowSpan U' X') ?_ ?_ ?_ ?_ hy
    · intro y hy
      obtain ⟨v, hv, rfl⟩ := hy
      obtain hzero | ⟨hv', heq⟩ := hX v hv
      · rw [hzero]
        exact Submodule.zero_mem _
      · rw [← heq]
        exact row_mem_rowSpan hv'
    · exact Submodule.zero_mem _
    · exact fun _ _ _ _ => Submodule.add_mem _
    · exact fun c _ _ => Submodule.smul_mem _ c
  apply le_antisymm
  · refine Submodule.span_le.mpr ?_
    intro y hy
    obtain ⟨v, hv, rfl⟩ := hy
    obtain ⟨hvX, heq⟩ | ⟨hvY, heq⟩ := hX' v hv
    · have hmem := mask_rowSpan_le hU (hspan ▸ row_mem_rowSpan hvX)
      rw [mask_row hU] at hmem
      rw [heq]
      exact Submodule.span_mono (Set.image_mono hY) hmem
    · rw [heq]
      exact row_mem_rowSpan hvY
  · refine Submodule.span_le.mpr ?_
    intro y hy
    obtain ⟨v, hv, rfl⟩ := hy
    obtain hvY | ⟨hvX, heq⟩ := hY' v hv
    · have hmem := mask_rowSpan_le hU (hspan.symm ▸ row_mem_rowSpan hvY)
      rw [mask_row hU] at hmem
      exact hold hmem
    · rw [← heq]
      exact row_mem_rowSpan hvX

end ZX.Diagram
