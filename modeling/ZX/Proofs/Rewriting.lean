import Mathlib
import ZX.Proofs.Absorption

/-!
# Rewriting

`Rewrites g g'` says that `g'` denotes the map of `g`. It is stated for all weights of the spiders
that `g'` keeps, so that it carries every property that holds for all weights over to `g'`. A rule
that removes spiders is shown by summing these out: what they contribute, as a function of the bits
around them, has to be the factor that the rest of the rule adds.
-/
namespace ZX.Diagram

open Finset Function

variable {g g' g'' : Diagram} {s t u v : ℕ} {e : EdgeKind} {V : Finset ℕ} {ω ω' : ℕ → ℂ}
  {a β : ℕ → Bool}

theorem total_congr (h : ∀ v ∈ g.support, ω' v = ω v) : g.total ω' β = g.total ω β :=
  sumOver_congr fun _ _ => mass_congr rfl (fun _ _ _ _ => rfl) h fun _ _ => rfl

/-- The same map on fewer spiders, for all weights of those that stay. -/
structure Rewrites (g g' : Diagram) : Prop where
  inputs_eq : g'.inputs = g.inputs
  outputs_eq : g'.outputs = g.outputs
  support_subset : g'.support ⊆ g.support
  spiders_subset : g'.spiders ⊆ g.spiders
  red : ∀ v, g'.kind? v = some .x → g.kind? v = some .x
  total_eq : ∃ μ : ℕ → ℂ, (∀ v, μ v ≠ 0) ∧ (∀ v ∈ g'.support, g'.turn v = μ v * g.turn v) ∧
    ∀ ω, (∀ v ∈ g.support, v ∉ g'.spiders → ω v = g.turn v) →
      ∀ β, g.total ω β = g'.total (fun v => μ v * ω v) β

namespace Rewrites

theorem refl (g : Diagram) : Rewrites g g where
  inputs_eq := rfl
  outputs_eq := rfl
  support_subset := Subset.refl _
  spiders_subset := Subset.refl _
  red _ hv := hv
  total_eq := ⟨fun _ => 1, fun _ => one_ne_zero, fun _ _ => (one_mul _).symm, fun ω _ β => by
    simp only [one_mul]⟩

theorem vertexCount_le (h : Rewrites g g') (hg : g.Consistent) (hg' : g'.Consistent) :
    g'.vertexCount ≤ g.vertexCount := by
  rw [hg.vertexCount_eq, hg'.vertexCount_eq]
  exact card_le_card h.support_subset

theorem trans (h : Rewrites g g') (h' : Rewrites g' g'') : Rewrites g g'' where
  inputs_eq := h'.inputs_eq.trans h.inputs_eq
  outputs_eq := h'.outputs_eq.trans h.outputs_eq
  support_subset := h'.support_subset.trans h.support_subset
  spiders_subset := h'.spiders_subset.trans h.spiders_subset
  red v hv := h.red v (h'.red v hv)
  total_eq := by
    obtain ⟨μ, hμ, hturn, htotal⟩ := h.total_eq
    obtain ⟨μ', hμ', hturn', htotal'⟩ := h'.total_eq
    refine ⟨fun v => μ' v * μ v, fun v => mul_ne_zero (hμ' v) (hμ v), ?_, ?_⟩
    · intro v hv
      rw [hturn' v hv, hturn v (h'.support_subset hv), mul_assoc]
    · intro ω hω β
      rw [htotal ω fun v hv hn => hω v hv fun hc => hn (h'.spiders_subset hc), htotal']
      · simp only [mul_assoc]
      · intro v hv hn
        rw [hturn v hv, hω v (h.support_subset hv) hn]

theorem total_turn_eq (h : Rewrites g g') (β : ℕ → Bool) :
    g'.total g'.turn β = g.total g.turn β := by
  obtain ⟨μ, -, hturn, htotal⟩ := h.total_eq
  rw [htotal g.turn fun _ _ _ => rfl]
  exact total_congr hturn

theorem amplitude_eq (h : Rewrites g g') (x y : ℕ → Bool) : g'.amplitude x y = g.amplitude x y := by
  have hends : g'.ends x y = g.ends x y := by
    unfold ends
    rw [h.inputs_eq, h.outputs_eq]
  rw [amplitude, amplitude, hends, h.total_turn_eq]

end Rewrites

/-! ## Leaving vertices out -/

/-- `g'` is `g` without the vertices outside `V`. -/
structure Restricts (V : Finset ℕ) (g g' : Diagram) : Prop where
  consistent : g'.Consistent
  support_eq : g'.support = V
  data?_eq : ∀ v ∈ V, g'.data? v = g.data? v
  edgeKind?_eq : ∀ s ∈ V, ∀ t ∈ V, g'.edgeKind? s t = g.edgeKind? s t
  inputs_eq : g'.inputs = g.inputs
  outputs_eq : g'.outputs = g.outputs
  scalar_eq : g'.scalar = g.scalar

theorem Removed.edgeKind?_eq (h : Removed g v g') (hg : g.Consistent) (hs : s ≠ v) (ht : t ≠ v) :
    g'.edgeKind? s t = g.edgeKind? s t := by
  ext e
  rw [h.consistent.edgeKind?_iff, hg.edgeKind?_iff, h.linksAt_eq, if_neg hs,
    mem_eraseLink (hg.nodup s)]
  exact ⟨fun hm => hm.1, fun hm => ⟨hm, ht⟩⟩

theorem Removed.contains_eq (h : Removed g v g') (u : ℕ) :
    g'.contains u = (decide (u ≠ v) && g.contains u) := by
  rw [contains_eq_data?_isSome, h.data?_eq, contains_eq_data?_isSome]
  by_cases hu : u = v <;> simp [hu]

theorem Removed.edgeKind?_eq_ite (h : Removed g v g') (hg : g.Consistent) (hs : s ≠ v) :
    g'.edgeKind? s t = if t = v then none else g.edgeKind? s t := by
  by_cases ht : t = v
  · rw [if_pos ht, Option.eq_none_iff_forall_ne_some]
    intro e he
    have hfar := h.consistent.contains_far he
    simp [h.contains_eq, ht] at hfar
  · rw [if_neg ht, h.edgeKind?_eq hg hs ht]

theorem Removed.restricts (h : Removed g v g') (hg : g.Consistent) :
    Restricts (g.support.erase v) g g' where
  consistent := h.consistent
  support_eq := by
    ext u
    rw [mem_support, h.contains_eq, mem_erase, mem_support, Bool.and_eq_true, decide_eq_true_eq]
  data?_eq u hu := by rw [h.data?_eq, if_neg (ne_of_mem_erase hu)]
  edgeKind?_eq s hs t ht := h.edgeKind?_eq hg (ne_of_mem_erase hs) (ne_of_mem_erase ht)
  inputs_eq := h.inputs_eq
  outputs_eq := h.outputs_eq
  scalar_eq := h.scalar_eq

namespace Restricts

theorem trans {W : Finset ℕ} (h : Restricts V g g') (h' : Restricts W g' g'') (hW : W ⊆ V) :
    Restricts W g g'' where
  consistent := h'.consistent
  support_eq := h'.support_eq
  data?_eq v hv := (h'.data?_eq v hv).trans (h.data?_eq v (hW hv))
  edgeKind?_eq s hs t ht := (h'.edgeKind?_eq s hs t ht).trans (h.edgeKind?_eq s (hW hs) t (hW ht))
  inputs_eq := h'.inputs_eq.trans h.inputs_eq
  outputs_eq := h'.outputs_eq.trans h.outputs_eq
  scalar_eq := h'.scalar_eq.trans h.scalar_eq

theorem kind?_eq (h : Restricts V g g') (hv : v ∈ V) : g'.kind? v = g.kind? v := by
  rw [kind?, h.data?_eq v hv, kind?]

theorem phase?_eq (h : Restricts V g g') (hv : v ∈ V) : g'.phase? v = g.phase? v := by
  rw [phase?, h.data?_eq v hv, phase?]

theorem turn_eq (h : Restricts V g g') (hv : v ∈ V) : g'.turn v = g.turn v := by
  rw [turn, turn, h.kind?_eq hv, h.phase?_eq hv]

theorem tinted_eq (h : Restricts V g g') (hs : s ∈ V) (ht : t ∈ V) :
    g'.tinted s t = g.tinted s t := by
  unfold tinted isRed
  rw [h.kind?_eq hs, h.kind?_eq ht]

theorem edgeKind?_eq_ite (h : Restricts V g g') (hs : s ∈ V) :
    g'.edgeKind? s t = if t ∈ V then g.edgeKind? s t else none := by
  split
  · rename_i ht
    exact h.edgeKind?_eq s hs t ht
  · rename_i ht
    rw [Option.eq_none_iff_forall_ne_some]
    intro e he
    exact ht (h.support_eq ▸ mem_support.mpr (h.consistent.contains_far he))

theorem mass_eq (h : Restricts V g g') (ω : ℕ → ℂ) (a : ℕ → Bool) :
    g'.mass V ω a = g.mass V ω a := by
  refine mass_congr (by rw [h.scalar_eq]) (fun s hs t ht => ?_) (fun _ _ => rfl) fun _ _ => rfl
  rw [wire?, wire?, h.edgeKind?_eq s hs t ht, h.tinted_eq hs ht]

end Restricts

/-- Summing out the vertices outside `V` gives the factor `L` on those in `V`, as long as the
summed vertices have their own weights. -/
def SumsTo (g : Diagram) (V : Finset ℕ) (L : (ℕ → Bool) → ℂ) : Prop :=
  ∀ ω, (∀ v ∈ g.support, v ∉ V → ω v = g.turn v) → ∀ β,
    g.total ω β = sumOver (g.spiders ∩ V) (fun a => g.mass V ω a * L a) β

/-- A change on `V`, the removal of all else, and another change: together they rewrite `g` if
their factors are what the removed vertices contribute. -/
theorem rewrites_of_sumsTo {g₁ g₂ g₃ : Diagram} {f f' L : (ℕ → Bool) → ℂ} (hV : V ⊆ g.support)
    (h₁ : Absorbs V g f g₁) (h₂ : Restricts V g₁ g₂) (h₃ : Absorbs V g₂ f' g₃)
    (hL : g.SumsTo V L) (hf : ∀ a, L a = f a * f' a) : Rewrites g g₃ := by
  have hkind : ∀ v ∈ V, g₃.kind? v = g.kind? v := fun v hv =>
    (h₃.kind?_eq v).trans ((h₂.kind?_eq hv).trans (h₁.kind?_eq v))
  have hsupport : g₃.support = V := by
    rw [← h₂.support_eq]
    ext v
    rw [mem_support, mem_support, h₃.contains_eq]
  have hspiders : g₃.spiders = g.spiders ∩ V := by
    rw [spiders, spiders, hsupport]
    ext v
    rw [mem_inter, mem_filter, mem_filter]
    constructor
    · rintro ⟨hv, hk⟩
      exact ⟨⟨hV hv, hkind v hv ▸ hk⟩, hv⟩
    · rintro ⟨⟨-, hk⟩, hv⟩
      exact ⟨hv, (hkind v hv).symm ▸ hk⟩
  obtain ⟨μ, hμ, hturn, hmass⟩ := h₁.mass_eq
  obtain ⟨μ', hμ', hturn', hmass'⟩ := h₃.mass_eq
  refine ⟨?_, ?_, ?_, ?_, ?_, fun v => μ' v * μ v, fun v => mul_ne_zero (hμ' v) (hμ v), ?_, ?_⟩
  · rw [h₃.inputs_eq, h₂.inputs_eq, h₁.inputs_eq]
  · rw [h₃.outputs_eq, h₂.outputs_eq, h₁.outputs_eq]
  · rw [hsupport]
    exact hV
  · rw [hspiders]
    exact inter_subset_left
  · intro v hv
    rwa [hkind v (hsupport ▸ mem_support.mpr (contains_of_kind? hv))] at hv
  · intro v hv
    rw [hsupport] at hv
    rw [hturn' v hv, h₂.turn_eq hv, hturn v hv, mul_assoc]
  · intro ω hω β
    have hout : ∀ v ∈ g.support, v ∉ V → ω v = g.turn v := fun v hv hn =>
      hω v hv fun hc => hn (mem_inter.mp (hspiders ▸ hc)).2
    rw [hL ω hout β, total, hspiders, hsupport]
    refine sumOver_congr fun a _ => ?_
    simp only [mul_assoc]
    rw [hmass', h₂.mass_eq, hmass, hf, mul_assoc]

/-! ## Summing out -/

/-- The factors between a vertex with bit `b` and the vertices in `V`. -/
noncomputable def around (g : Diagram) (V : Finset ℕ) (v : ℕ) (b : Bool) (a : ℕ → Bool) : ℂ :=
  ∏ u ∈ V, linkFactor (g.wire? v u) b (a u)

theorem around_eq_prod_links (h : g.Consistent) (b : Bool) :
    g.around V v b a =
      (((g.linksAt v).filter (·.1 ∈ V)).map fun l => (g.tinted v l.1 l.2).factor b (a l.1)).prod := by
  set ls := (g.linksAt v).filter (·.1 ∈ V) with hls
  have hnodup : (ls.map Prod.fst).Nodup := (h.nodup v).sublist (List.filter_sublist.map _)
  have hmem : ∀ u, u ∈ (ls.map Prod.fst).toFinset ↔ u ∈ V ∧ ∃ e, g.edgeKind? v u = some e := by
    intro u
    simp only [hls, List.mem_toFinset, List.mem_map, List.mem_filter, decide_eq_true_eq]
    constructor
    · rintro ⟨⟨w, e⟩, ⟨hl, hV⟩, rfl⟩
      exact ⟨hV, e, h.edgeKind?_iff.mpr hl⟩
    · rintro ⟨hV, e, he⟩
      exact ⟨(u, e), ⟨h.edgeKind?_iff.mp he, hV⟩, rfl⟩
  have hsub : (ls.map Prod.fst).toFinset ⊆ V := fun u hu => ((hmem u).mp hu).1
  rw [around, ← prod_subset hsub, List.prod_toFinset _ hnodup, List.map_map]
  · congr 1
    refine List.map_congr_left fun l hl => ?_
    obtain ⟨w, e⟩ := l
    have he := h.edgeKind?_iff.mpr (List.mem_of_mem_filter hl)
    simp [wire?, he]
  · intro u hu hn
    have hnone : g.edgeKind? v u = none := by
      rw [Option.eq_none_iff_forall_ne_some]
      exact fun e he => hn ((hmem u).mpr ⟨hu, e, he⟩)
    rw [wire?, hnone, Option.map_none, linkFactor_none]

theorem around_congr {a' : ℕ → Bool} (h : ∀ u ∈ V, a' u = a u) (b : Bool) :
    g.around V v b a' = g.around V v b a :=
  prod_congr rfl fun u hu => by rw [h u hu]

theorem around_of_single {w : ℕ} (hw : w ∈ V)
    (h : ∀ u ∈ V, g.edgeKind? v u = if u = w then some e else none) (b : Bool) :
    g.around V v b a = (g.tinted v w e).factor b (a w) := by
  rw [around, prod_eq_single_of_mem w hw]
  · rw [wire?, h w hw, if_pos rfl]
    rfl
  · intro u hu huw
    rw [wire?, h u hu, if_neg huw]
    rfl

theorem update_eq_of_mem (hv : v ∉ V) (b : Bool) : ∀ u ∈ V, update a v b u = a u :=
  fun _ hu => update_of_ne (ne_of_mem_of_not_mem hu hv) _ _

theorem mass_insert_update (h : g.Consistent) (hv : v ∉ V) (b : Bool) :
    g.mass (insert v V) ω (update a v b) = spin (ω v) b * g.around V v b a * g.mass V ω a := by
  rw [h.mass_insert hv, update_self]
  congr 1
  · congr 1
    exact around_congr (update_eq_of_mem hv b) b
  · exact mass_congr rfl (fun _ _ _ _ => rfl) (fun _ _ => rfl) (update_eq_of_mem hv b)

/-- What one vertex contributes. -/
noncomputable def bucket (g : Diagram) (V : Finset ℕ) (v : ℕ) (a : ℕ → Bool) : ℂ :=
  g.around V v false a + g.turn v * g.around V v true a

theorem sumsTo_erase (h : g.Consistent) (hv : v ∈ g.spiders) :
    g.SumsTo (g.support.erase v) (g.bucket (g.support.erase v) v) := by
  intro ω hω β
  have hsup : v ∈ g.support := spiders_subset g hv
  have hspiders : g.spiders ∩ g.support.erase v = g.spiders.erase v := by
    ext u
    rw [mem_inter, mem_erase, mem_erase]
    exact ⟨fun hu => ⟨hu.2.1, hu.1⟩, fun hu => ⟨hu.2, hu.1, spiders_subset g hu.2⟩⟩
  rw [total, ← insert_erase hv, sumOver_insert (notMem_erase v _), insert_erase hv, hspiders]
  refine sumOver_congr fun a _ => ?_
  have hmass : ∀ b, g.mass g.support ω (update a v b) =
      spin (ω v) b * g.around (g.support.erase v) v b a * g.mass (g.support.erase v) ω a := by
    intro b
    rw [← mass_insert_update h (notMem_erase v g.support) b, insert_erase hsup]
  rw [hmass, hmass, hω v hsup (notMem_erase v _), spin_false, spin_true, bucket]
  ring

/-- What two vertices contribute together. -/
noncomputable def bucketPair (g : Diagram) (V : Finset ℕ) (v w : ℕ) (a : ℕ → Bool) : ℂ :=
  ∑ b : Bool, ∑ c : Bool, spin (g.turn v) b * spin (g.turn w) c * linkFactor (g.wire? v w) b c *
    (g.around V v b a * g.around V w c a)

theorem sumsTo_erase_pair {w : ℕ} (h : g.Consistent) (hv : v ∈ g.spiders) (hw : w ∈ g.spiders)
    (hvw : v ≠ w) :
    g.SumsTo ((g.support.erase v).erase w) (g.bucketPair ((g.support.erase v).erase w) v w) := by
  intro ω hω β
  set V := (g.support.erase v).erase w with hV
  have hwS : w ∈ g.spiders.erase v := mem_erase.mpr ⟨hvw.symm, hw⟩
  have hwV : w ∉ V := notMem_erase w _
  have hvV : v ∉ insert w V := by
    rw [mem_insert, hV, mem_erase, mem_erase]
    rintro (hc | ⟨-, hc, -⟩)
    · exact hvw hc
    · exact hc rfl
  have hsup : insert v (insert w V) = g.support := by
    rw [hV, insert_erase (mem_erase.mpr ⟨hvw.symm, spiders_subset g hw⟩),
      insert_erase (spiders_subset g hv)]
  have hspiders : g.spiders ∩ V = (g.spiders.erase v).erase w := by
    ext u
    simp only [hV, mem_inter, mem_erase]
    exact ⟨fun hu => ⟨hu.2.1, hu.2.2.1, hu.1⟩, fun hu => ⟨hu.2.2, hu.1, hu.2.1, spiders_subset g hu.2.2⟩⟩
  have hmass : ∀ a b c, g.mass g.support ω (update (update a w c) v b) =
      spin (ω v) b * spin (ω w) c * linkFactor (g.wire? v w) b c *
        (g.around V v b a * g.around V w c a) * g.mass V ω a := by
    intro a b c
    have haround : g.around (insert w V) v b (update a w c) =
        linkFactor (g.wire? v w) b c * g.around V v b a := by
      rw [around, prod_insert hwV, update_self]
      congr 1
      exact around_congr (update_eq_of_mem hwV c) b
    rw [← hsup, mass_insert_update h hvV, mass_insert_update h hwV, haround]
    ring
  rw [total, ← insert_erase hv, sumOver_insert (notMem_erase v _), ← insert_erase hwS,
    sumOver_insert (notMem_erase w _), insert_erase hwS, insert_erase hv, hspiders]
  refine sumOver_congr fun a _ => ?_
  rw [hmass, hmass, hmass, hmass, hω v (spiders_subset g hv) fun hc => hvV (mem_insert_of_mem hc),
    hω w (spiders_subset g hw) hwV, bucketPair, Fintype.sum_bool, Fintype.sum_bool,
    Fintype.sum_bool]
  ring

/-! ## Keeping the boundary in order -/

/-- The one edge of `b` goes to `t`. -/
def HangsOn (g : Diagram) (b t : ℕ) (e : EdgeKind) : Prop :=
  ∀ u, g.edgeKind? b u = if u = t then some e else none

theorem Consistent.hangsOn_iff (h : g.Consistent) {b : ℕ} :
    g.HangsOn b t e ↔ g.linksAt b = [(t, e)] := by
  constructor
  · intro hb
    have hmem : ∀ u f, (u, f) ∈ g.linksAt b ↔ u = t ∧ f = e := by
      intro u f
      rw [← h.edgeKind?_iff, hb u]
      by_cases hu : u = t <;> simp [hu, eq_comm]
    have hkeys := h.nodup b
    rcases hl : g.linksAt b with _ | ⟨⟨u, f⟩, _ | ⟨⟨w, k⟩, rest⟩⟩
    · have := (hmem t e).mpr ⟨rfl, rfl⟩
      simp [hl] at this
    · obtain ⟨rfl, rfl⟩ := (hmem u f).mp (by simp [hl])
      rfl
    · obtain ⟨rfl, -⟩ := (hmem u f).mp (by simp [hl])
      obtain ⟨rfl, -⟩ := (hmem w k).mp (by simp [hl])
      simp [hl] at hkeys
  · intro hl u
    ext f
    rw [h.edgeKind?_iff, hl, List.mem_singleton, Prod.mk.injEq]
    by_cases hu : u = t <;> simp [hu, eq_comm]

/-- The diagram has no loops and no parallel edges, and every boundary vertex has one edge. Which
vertices the inputs and outputs list does not matter. -/
structure Fringed (g : Diagram) : Prop extends g.Consistent where
  boundary_degree : ∀ {v}, g.kind? v = some .boundary → (g.linksAt v).length = 1

theorem fringed_iff : g.Fringed ↔ g.Consistent ∧
    ∀ v < g.slots.size, g.kind? v = some .boundary → (g.linksAt v).length = 1 := by
  constructor
  · intro h
    exact ⟨h.toConsistent, fun v _ hv => h.boundary_degree hv⟩
  · rintro ⟨hcons, hdegree⟩
    exact ⟨hcons, fun {v} hv => hdegree v (lt_size_of_contains (contains_of_kind? hv)) hv⟩

instance (g : Diagram) : Decidable g.Fringed := decidable_of_iff _ fringed_iff.symm

theorem WellFormed.fringed (h : g.WellFormed) : g.Fringed := ⟨h.toConsistent, h.boundary_degree⟩

theorem Fringed.exists_hangsOn (h : g.Fringed) {b : ℕ} (hb : g.kind? b = some .boundary) :
    ∃ t e, g.HangsOn b t e := by
  obtain ⟨⟨t, e⟩, hl⟩ := List.length_eq_one_iff.mp (h.boundary_degree hb)
  exact ⟨t, e, h.toConsistent.hangsOn_iff.mpr hl⟩

theorem WellFormed.exists_hangsOn (h : g.WellFormed) {b : ℕ} (hb : g.kind? b = some .boundary) :
    ∃ t e, g.HangsOn b t e := h.fringed.exists_hangsOn hb

/-- A boundary has no other edge than its own. -/
theorem HangsOn.eq_of_edgeKind? {b : ℕ} {f : EdgeKind} (h : g.HangsOn b t e)
    (hu : g.edgeKind? b u = some f) : u = t ∧ f = e := by
  rw [h u] at hu
  by_cases hut : u = t
  · rw [if_pos hut, Option.some_inj] at hu
    exact ⟨hut, hu.symm⟩
  · rw [if_neg hut] at hu
    exact absurd hu (by simp)

/-- A change that keeps the inputs, the outputs and the boundary vertices with their phases gives a
well-formed diagram if every boundary ends up with one edge. -/
theorem WellFormed.transport (h : g.WellFormed) (hg' : g'.Consistent)
    (hinputs : g'.inputs = g.inputs) (houtputs : g'.outputs = g.outputs)
    (hkind : ∀ v, g'.kind? v = some .boundary ↔ g.kind? v = some .boundary)
    (hphase : ∀ v, g.kind? v = some .boundary → g'.phase? v = g.phase? v)
    (hdeg : ∀ b t e, g.kind? b = some .boundary → g.HangsOn b t e → ∃ t e, g'.HangsOn b t e) :
    g'.WellFormed where
  toConsistent := hg'
  mem_ends := by
    intro v
    rw [hinputs, houtputs, hkind]
    exact h.mem_ends
  nodup_ends := by
    rw [hinputs, houtputs]
    exact h.nodup_ends
  boundary_phase := by
    intro v hv
    have hg := (hkind v).mp hv
    rw [hphase v hg]
    exact h.boundary_phase hg
  boundary_degree := by
    intro v hv
    have hg := (hkind v).mp hv
    obtain ⟨t, e, hte⟩ := h.exists_hangsOn hg
    obtain ⟨t', e', hte'⟩ := hdeg v t e hg hte
    rw [hg'.hangsOn_iff.mp hte']
    rfl

/-- A change, the removal of spiders and another change leave no new boundary. -/
theorem boundary_of_restricts {g₁ g₂ g₃ : Diagram} (h₁ : Recast g g₁) (h₂ : Restricts V g₁ g₂)
    (h₃ : Recast g₂ g₃) (hv : g₃.kind? v = some .boundary) : g.kind? v = some .boundary := by
  rw [h₃.kind?_eq] at hv
  have hmem : v ∈ V := h₂.support_eq ▸ mem_support.mpr (contains_of_kind? hv)
  rwa [h₂.kind?_eq hmem, h₁.kind?_eq] at hv

/-- They keep one edge at every boundary if every boundary ends up with one. -/
theorem Fringed.of_restricts {g₁ g₂ g₃ : Diagram} (h : g.Fringed) (h₁ : Recast g g₁)
    (h₂ : Restricts V g₁ g₂) (h₃ : Recast g₂ g₃)
    (hdeg : ∀ b t e, g.kind? b = some .boundary → g.HangsOn b t e → ∃ t e, g₃.HangsOn b t e) :
    g₃.Fringed := by
  refine ⟨h₃.consistent, fun {b} hb => ?_⟩
  have hboundary := boundary_of_restricts h₁ h₂ h₃ hb
  obtain ⟨t, e, hbt⟩ := h.exists_hangsOn hboundary
  obtain ⟨t', e', hbt'⟩ := hdeg b t e hboundary hbt
  rw [h₃.consistent.hangsOn_iff.mp hbt']
  rfl

/-- They keep a well-formed diagram well-formed if moreover all boundaries stay. -/
theorem WellFormed.of_restricts {g₁ g₂ g₃ : Diagram} (h : g.WellFormed) (h₁ : Recast g g₁)
    (h₂ : Restricts V g₁ g₂) (h₃ : Recast g₂ g₃)
    (hV : ∀ v, g.kind? v = some .boundary → v ∈ V)
    (hdeg : ∀ b t e, g.kind? b = some .boundary → g.HangsOn b t e → ∃ t e, g₃.HangsOn b t e) :
    g₃.WellFormed := by
  have hkind : ∀ v, g₃.kind? v = some .boundary ↔ g.kind? v = some .boundary := by
    refine fun v => ⟨boundary_of_restricts h₁ h₂ h₃, fun hv => ?_⟩
    rwa [h₃.kind?_eq, h₂.kind?_eq (hV v hv), h₁.kind?_eq]
  refine h.transport h₃.consistent (h₃.inputs_eq.trans (h₂.inputs_eq.trans h₁.inputs_eq))
    (h₃.outputs_eq.trans (h₂.outputs_eq.trans h₁.outputs_eq)) hkind (fun v hg => ?_) hdeg
  have hv := (hkind v).mpr hg
  rw [h₃.kind?_eq] at hv
  rw [h₃.phase?_eq v hv, h₂.phase?_eq (hV v hg), h₁.phase?_eq v hg]

end ZX.Diagram
