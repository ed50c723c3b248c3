import Mathlib
import ZX.Proofs.Extraction.Frontier
import ZX.Proofs.Rigidity.Flipping

/-!
# Taut diagrams have a flow

In a taut diagram with as many inputs as outputs, the neighbourhoods of the vertices away from the
outputs are linearly independent, and there are at least as many of them as spiders. So every output
has a spider of its own, and the matrix of these neighbourhoods has an inverse. Its rows correct the
vertices. If they could not be ordered, some spiders would correct each other in a circle, and the
columns of these spiders would add up to a set that a taut diagram does not have.
-/
namespace ZX

open Finset

/-! ## Matrices and circles -/

/-- A matrix over a field that is injective and has no fewer columns than rows has an inverse. -/
theorem exists_inverse {F : Type} [Field F] {R C : Finset ℕ} {m : ℕ → ℕ → F}
    (hcard : R.card ≤ C.card)
    (hinj : ∀ y : ℕ → F, (∀ r ∈ R, ∑ c ∈ C, m r c * y c = 0) → ∀ c ∈ C, y c = 0) :
    C.card = R.card ∧ ∃ n : ℕ → ℕ → F,
      (∀ r ∈ R, ∀ r' ∈ R, ∑ c ∈ C, m r c * n c r' = if r = r' then 1 else 0) ∧
      ∀ c ∈ C, ∀ c' ∈ C, ∑ r ∈ R, n c r * m r c' = if c = c' then 1 else 0 := by
  let M : Matrix R C F := Matrix.of fun r c => m r c
  have hsum : ∀ (y : C → F) (y' : ℕ → F), (∀ c : C, y' c = y c) → ∀ r : R,
      M.mulVec y r = ∑ c ∈ C, m r c * y' c := by
    intro y y' hy r
    rw [← sum_coe_sort C]
    exact sum_congr rfl fun c _ => by rw [hy]; rfl
  have hinjM : Function.Injective M.mulVecLin := by
    rw [injective_iff_map_eq_zero]
    intro y hy
    let y' : ℕ → F := fun c => if h : c ∈ C then y ⟨c, h⟩ else 0
    have hext : ∀ c : C, y' c = y c := fun c => dif_pos c.2
    have hzero : ∀ r ∈ R, ∑ c ∈ C, m r c * y' c = 0 := by
      intro r hr
      rw [← hsum y y' hext ⟨r, hr⟩]
      exact congrFun hy ⟨r, hr⟩
    funext c
    rw [← hext]
    exact hinj y' hzero c c.2
  have hrank : C.card ≤ R.card := by
    have h := LinearMap.finrank_le_finrank_of_injective hinjM
    rwa [Module.finrank_fintype_fun_eq_card, Module.finrank_fintype_fun_eq_card, Fintype.card_coe,
      Fintype.card_coe] at h
  have heq : C.card = R.card := le_antisymm hrank hcard
  let L : (C → F) ≃ₗ[F] (R → F) := M.mulVecLin.linearEquivOfInjective hinjM (by simp [heq])
  let N : Matrix C R F := Matrix.of fun c r => L.symm (Pi.single r 1) c
  have hMN : M * N = 1 := by
    ext r r'
    have happly : M.mulVec (L.symm (Pi.single r' 1)) = Pi.single r' 1 :=
      L.apply_symm_apply (Pi.single r' 1)
    rw [Matrix.one_apply, show (M * N) r r' = M.mulVec (L.symm (Pi.single r' 1)) r from rfl, happly,
      Pi.single_apply]
  have hNM : N * M = 1 :=
    (Matrix.mul_eq_one_comm_of_equiv (Fintype.equivOfCardEq (by simp [heq]))).mp hMN
  refine ⟨heq, fun c r => if h : c ∈ C ∧ r ∈ R then N ⟨c, h.1⟩ ⟨r, h.2⟩ else 0, ?_, ?_⟩
  · intro r hr r' hr'
    have hentry := congrFun (congrFun hMN ⟨r, hr⟩) ⟨r', hr'⟩
    rw [Matrix.one_apply, Matrix.mul_apply] at hentry
    simp only [Subtype.mk.injEq] at hentry
    rw [← hentry, ← sum_coe_sort C]
    exact sum_congr rfl fun c _ => congrArg (m r c * ·) (dif_pos ⟨c.2, hr'⟩)
  · intro c hc c' hc'
    have hentry := congrFun (congrFun hNM ⟨c, hc⟩) ⟨c', hc'⟩
    rw [Matrix.one_apply, Matrix.mul_apply] at hentry
    simp only [Subtype.mk.injEq] at hentry
    rw [← hentry, ← sum_coe_sort R]
    exact sum_congr rfl fun r _ => congrArg (· * m r c') (dif_pos ⟨hc, r.2⟩)

/-- If every member of a set has a successor in it, then a smallest such set is a circle. -/
theorem exists_circle {T : Finset ℕ} {f : ℕ → Finset ℕ} (hne : T.Nonempty)
    (h : ∀ w ∈ T, (f w ∩ T).Nonempty) :
    ∃ X ⊆ T, X.Nonempty ∧ ∀ w ∈ X, ∃ u, f w ∩ X = {u} := by
  obtain ⟨X, hX⟩ := Finset.exists_minimal (s := T.powerset.filter fun X =>
    X.Nonempty ∧ ∀ w ∈ X, (f w ∩ X).Nonempty) ⟨T, by simpa [hne] using h⟩
  obtain ⟨hsub, hXne, hsucc⟩ : X ⊆ T ∧ X.Nonempty ∧ ∀ w ∈ X, (f w ∩ X).Nonempty := by
    simpa using hX.prop
  -- a choice of successors stays in the set, so by minimality it is onto
  have himage : ∀ s : ℕ → ℕ, (∀ w ∈ X, s w ∈ f w ∩ X) → X.image s = X := by
    intro s hs
    have hinto : X.image s ⊆ X := image_subset_iff.mpr fun w hw => (mem_inter.mp (hs w hw)).2
    refine hinto.antisymm (hX.le_of_le ?_ hinto)
    refine mem_filter.mpr ⟨mem_powerset.mpr (hinto.trans hsub), hXne.image s, ?_⟩
    intro v hv
    obtain ⟨w, hw, rfl⟩ := mem_image.mp hv
    have hw' := (mem_inter.mp (hs w hw)).2
    exact ⟨s (s w), mem_inter.mpr ⟨(mem_inter.mp (hs _ hw')).1, mem_image_of_mem s hw'⟩⟩
  choose! s hs using hsucc
  have hinjs : Set.InjOn s X := card_image_iff.mp (congrArg card (himage s hs))
  refine ⟨X, hsub, hXne, fun w hw => ⟨s w, ?_⟩⟩
  rw [eq_singleton_iff_unique_mem]
  refine ⟨hs w hw, fun u hu => ?_⟩
  have hother := himage (Function.update s w u) fun v hv => by
    by_cases hvw : v = w
    · rw [hvw, Function.update_self]
      exact hu
    · rw [Function.update_of_ne hvw]
      exact hs v hv
  obtain ⟨v, hv, hvs⟩ := mem_image.mp (hother.symm ▸ (mem_inter.mp (hs w hw)).2 :
    s w ∈ X.image (Function.update s w u))
  by_cases hvw : v = w
  · rwa [hvw, Function.update_self] at hvs
  · rw [Function.update_of_ne hvw] at hvs
    exact absurd (hinjs hv hw hvs) hvw

namespace Diagram

variable {g : Diagram} {U : Finset ℕ}

/-! ## Counting the spiders next to outputs -/

/-- Every spider next to an output gets an output of its own. -/
theorem exists_fringe_output (hg : g.WellFormed) : ∃ s : ℕ → ℕ, Set.InjOn s g.fringe ∧
    ∀ v ∈ g.fringe, s v ∈ g.outputs ∧ g.connected (s v) v = true := by
  have hex : ∀ v ∈ g.fringe, ∃ o, o ∈ g.outputs ∧ g.connected o v = true := fun v hv =>
    (mem_filter.mp hv).2
  choose! s hs using hex
  refine ⟨s, fun u hu v hv huv => ?_, hs⟩
  obtain ⟨t, e, hhang⟩ := hg.exists_hangsOn (hg.kind?_output (hs v hv).1)
  obtain ⟨f, hf⟩ := Option.isSome_iff_exists.mp (huv ▸ (hs u hu).2)
  obtain ⟨f', hf'⟩ := Option.isSome_iff_exists.mp (hs v hv).2
  exact (hhang.eq_of_edgeKind? hf).1.trans (hhang.eq_of_edgeKind? hf').1.symm

theorem card_fringe_le (hg : g.WellFormed) : g.fringe.card ≤ g.outputs.length := by
  obtain ⟨s, hinj, hs⟩ := exists_fringe_output hg
  calc g.fringe.card = (g.fringe.image s).card := (card_image_of_injOn hinj).symm
    _ ≤ g.outputs.toFinset.card := card_le_card fun o ho => by
        obtain ⟨v, hv, rfl⟩ := mem_image.mp ho
        exact List.mem_toFinset.mpr (hs v hv).1
    _ ≤ g.outputs.length := List.toFinset_card_le _

/-- If there are as many spiders next to outputs as outputs, then every output has one of its own. -/
theorem Normal.not_clashes (hg : g.Normal) (hcard : g.outputs.length ≤ g.fringe.card) :
    ¬g.Clashes := by
  obtain ⟨s, hinj, hs⟩ := exists_fringe_output hg.toWellFormed
  have himage : g.fringe.image s = g.outputs.toFinset := by
    refine eq_of_subset_of_card_le (fun o ho => ?_) ?_
    · obtain ⟨v, hv, rfl⟩ := mem_image.mp ho
      exact List.mem_toFinset.mpr (hs v hv).1
    · rw [card_image_of_injOn hinj]
      exact (List.toFinset_card_le _).trans hcard
  have hown : ∀ o ∈ g.outputs, ∀ v e, g.HangsOn o v e → v ∈ g.fringe ∧ s v = o := by
    intro o ho v e hhang
    obtain ⟨u, hu, rfl⟩ := mem_image.mp (himage ▸ List.mem_toFinset.mpr ho :
      o ∈ g.fringe.image s)
    obtain ⟨f, hf⟩ := Option.isSome_iff_exists.mp (hs u hu).2
    obtain ⟨rfl, -⟩ := hhang.eq_of_edgeKind? hf
    exact ⟨hu, rfl⟩
  rintro ⟨o, ho, v, e, hhang, hclash⟩
  obtain ⟨hv, hvo⟩ := hown o ho v e hhang
  rcases hclash with hz | ⟨o', ho', hne, e', hhang'⟩
  · exact hz (hg.kind?_spider (mem_filter.mp hv).1)
  · exact hne ((hown o' ho' v e' hhang').2.symm.trans hvo)

theorem card_upstream (hg : g.WellFormed) :
    g.upstream.card + g.fringe.card = g.spiders.card + g.inputs.length := by
  have hdisj : Disjoint (g.spiders \ g.fringe) g.inputs.toFinset :=
    disjoint_left.mpr fun v hv hin => (mem_spiders.mp (mem_sdiff.mp hv).1).2
      (hg.kind?_input (List.mem_toFinset.mp hin))
  have hfringe : (g.spiders \ g.fringe).card + g.fringe.card = g.spiders.card :=
    card_sdiff_add_card_eq_card (filter_subset _ _)
  have hinputs : g.inputs.toFinset.card = g.inputs.length :=
    List.toFinset_card_of_nodup (List.nodup_append.mp hg.nodup_ends).1
  rw [upstream, card_union_of_disjoint hdisj, hinputs]
  omega

/-! ## The matrix of neighbourhoods -/

theorem eq_zero_of_ne_one : ∀ {a : ZMod 2}, a ≠ 1 → a = 0 := by
  decide

/-- The entry of the adjacency matrix. -/
def adjacent (g : Diagram) (u v : ℕ) : ZMod 2 := if g.connected u v = true then 1 else 0

/-- A combination of columns says which vertices have an odd number of neighbours. -/
theorem sum_adjacent (X : Finset ℕ) (y : ℕ → ZMod 2) (t : ℕ) :
    ∑ v ∈ X, g.adjacent t v * y v = if g.IsOdd (X.filter (y · = 1)) t then 1 else 0 := by
  have hterm : ∀ v, g.adjacent t v * y v =
      if y v = 1 ∧ g.connected t v = true then 1 else 0 := by
    intro v
    rw [adjacent]
    by_cases hy : y v = 1
    · simp [hy]
    · rw [eq_zero_of_ne_one hy]
      simp
  rw [sum_congr rfl fun v _ => hterm v, sum_boole, ← filter_filter, natCast_card_neighbours]

namespace Taut

/-- An isolated spider is even everywhere. -/
theorem isolated_eq (h : g.Taut) (hg : g.Consistent) : g.isolated = ∅ := by
  refine eq_empty_iff_forall_notMem.mpr fun v hv => ?_
  obtain ⟨hvs, hnone⟩ := (mem_isolated hg).mp hv
  have hapart : ∀ u, g.connected u v = false := fun u => by
    rw [connected, hg.edgeKind?_comm, hnone]
    rfl
  have hup : {v} ⊆ g.upstream := by
    refine singleton_subset_iff.mpr (mem_union_left _ (mem_sdiff.mpr ⟨hvs, fun hf => ?_⟩))
    obtain ⟨o, -, ho⟩ := (mem_filter.mp hf).2
    rw [hapart] at ho
    cases ho
  refine singleton_ne_empty v (h {v} hup fun u _ hodd => ?_)
  rw [IsOdd, filter_singleton, hapart] at hodd
  simp at hodd

/-- The neighbourhoods of the vertices away from the outputs are independent, and they are as many
as the spiders. -/
theorem exists_correction (h : g.Taut) (hg : g.WellFormed)
    (hk : g.inputs.length = g.outputs.length) :
    g.upstream.card = g.spiders.card ∧ ∃ n : ℕ → ℕ → ZMod 2,
      (∀ u ∈ g.spiders, ∀ v ∈ g.spiders,
        ∑ w ∈ g.upstream, g.adjacent u w * n w v = if u = v then 1 else 0) ∧
      ∀ w ∈ g.upstream, ∀ t ∈ g.upstream,
        ∑ v ∈ g.spiders, n w v * g.adjacent v t = if w = t then 1 else 0 := by
  refine exists_inverse ?_ fun y hy w hw => ?_
  · have hcard := card_upstream hg
    have hle := card_fringe_le hg
    omega
  · have hempty : g.upstream.filter (y · = 1) = ∅ := by
      refine h _ (filter_subset _ _) fun u hu hodd => ?_
      have hzero := hy u (mem_sdiff.mp hu).1
      rw [sum_adjacent, if_pos hodd] at hzero
      exact one_ne_zero hzero
    exact eq_zero_of_ne_one (filter_eq_empty_iff.mp hempty hw)

theorem not_clashes (h : g.Taut) (hg : g.Normal) (hk : g.inputs.length = g.outputs.length) :
    ¬g.Clashes := by
  have hcard := (h.exists_correction hg.toWellFormed hk).1
  have hup := card_upstream hg.toWellFormed
  exact hg.not_clashes (by omega)

/-- No spiders correct each other an odd number of times. -/
theorem not_circle (h : g.Taut) {n : ℕ → ℕ → ZMod 2} {X : Finset ℕ}
    (hn : ∀ u ∈ g.spiders, ∀ v ∈ g.spiders,
      ∑ w ∈ g.upstream, g.adjacent u w * n w v = if u = v then 1 else 0)
    (hX : X ⊆ g.spiders) (hup : X ⊆ g.upstream) (hcircle : ∀ w ∈ X, ∑ v ∈ X, n w v = 1) :
    X = ∅ := by
  let y : ℕ → ZMod 2 := fun w => ∑ v ∈ X, n w v
  have hsum : ∀ u ∈ g.spiders,
      ∑ w ∈ g.upstream, g.adjacent u w * y w = if u ∈ X then 1 else 0 := by
    intro u hu
    calc ∑ w ∈ g.upstream, g.adjacent u w * y w
        = ∑ v ∈ X, ∑ w ∈ g.upstream, g.adjacent u w * n w v := by
          rw [sum_comm]
          exact sum_congr rfl fun w _ => mul_sum _ _ _
      _ = ∑ v ∈ X, if u = v then 1 else 0 := sum_congr rfl fun v hv => hn u hu v (hX hv)
      _ = if u ∈ X then 1 else 0 := sum_ite_eq X u _
  have hempty : g.upstream.filter (y · = 1) = ∅ := by
    refine h _ (filter_subset _ _) fun u hu hodd => ?_
    obtain ⟨hus, hodd'⟩ := mem_sdiff.mp hu
    have huX : u ∉ X := fun hc => hodd' (mem_filter.mpr ⟨hup hc, hcircle u hc⟩)
    have hzero := hsum u hus
    rw [sum_adjacent, if_pos hodd, if_neg huX] at hzero
    exact one_ne_zero hzero
  exact eq_empty_iff_forall_notMem.mpr fun x hx =>
    filter_eq_empty_iff.mp hempty (hup hx) (hcircle x hx)

/-- Every set of vertices away from the outputs has a member that can be freed. -/
theorem exists_frees (h : g.Taut) (hg : g.WellFormed) (hk : g.inputs.length = g.outputs.length)
    (hU : U ⊆ g.upstream) (hne : U.Nonempty) : ∃ u, g.Frees U u := by
  obtain ⟨-, n, hright, hleft⟩ := h.exists_correction hg hk
  let f : ℕ → Finset ℕ := fun w => g.spiders.filter (n w · = 1)
  have hodd : ∀ w ∈ U, ∀ t ∈ U, g.IsOdd (f w) t ↔ t = w := by
    intro w hw t ht
    have hsum := hleft w (hU hw) t (hU ht)
    have hcomm : ∀ v ∈ g.spiders, n w v * g.adjacent v t = g.adjacent t v * n w v := fun v _ => by
      rw [mul_comm, adjacent, adjacent, connected, connected, hg.toConsistent.edgeKind?_comm]
    rw [sum_congr rfl hcomm, sum_adjacent] at hsum
    by_cases hwt : w = t
    · rw [if_pos hwt] at hsum
      exact iff_of_true (by_contra fun hc => zero_ne_one ((if_neg hc).symm.trans hsum)) hwt.symm
    · rw [if_neg hwt] at hsum
      exact iff_of_false (fun hc => one_ne_zero ((if_pos hc).symm.trans hsum)) (Ne.symm hwt)
  by_contra hnone
  have hinter : ∀ w ∈ U, (f w ∩ (U ∩ g.spiders)).Nonempty := by
    intro w hw
    by_contra hempty
    refine hnone ⟨w, hw, f w, fun v hv => ?_, hodd w hw⟩
    have hvs := (mem_filter.mp hv).1
    exact mem_sdiff.mpr ⟨hvs, fun hvU =>
      hempty ⟨v, mem_inter.mpr ⟨hv, mem_inter.mpr ⟨hvU, hvs⟩⟩⟩⟩
  obtain ⟨w, hw⟩ := hne
  obtain ⟨X, hX, hXne, hcircle⟩ := exists_circle ((hinter w hw).mono inter_subset_right)
    fun w hw => hinter w (mem_inter.mp hw).1
  have hXs : X ⊆ g.spiders := hX.trans inter_subset_right
  refine hXne.ne_empty (h.not_circle hright hXs ((hX.trans inter_subset_left).trans hU) ?_)
  intro w hw
  obtain ⟨u, hu⟩ := hcircle w hw
  have hmem : ∀ v, v ∈ f w ∩ X ↔ v = u := fun v => by rw [hu, mem_singleton]
  have huX := mem_inter.mp ((hmem u).mpr rfl)
  rw [sum_eq_single_of_mem u huX.2 fun v hv hvu => eq_zero_of_ne_one fun hc => ?_]
  · exact (mem_filter.mp huX.1).2
  · exact hvu ((hmem v).mp (mem_inter.mpr ⟨mem_filter.mpr ⟨hXs hv, hc⟩, hv⟩))

theorem reaches_empty (h : g.Taut) (hg : g.WellFormed) (hk : g.inputs.length = g.outputs.length)
    (hU : U ⊆ g.upstream) : Relation.ReflTransGen g.FreesOne U ∅ := by
  induction U using Finset.strongInduction with
  | H U ih =>
    rcases U.eq_empty_or_nonempty with rfl | hne
    · exact .refl
    · obtain ⟨u, hu⟩ := h.exists_frees hg hk hU hne
      exact .head ⟨u, hu, rfl⟩ (ih _ (erase_ssubset hu.1) ((erase_subset _ _).trans hU))

/-- Every vertex of a taut diagram can be freed, one after the other. -/
theorem hasFlow (h : g.Taut) (hg : g.WellFormed) (hk : g.inputs.length = g.outputs.length) :
    g.HasFlow := by
  refine hasFlow_of_frees hg (h.reaches_empty hg hk fun v hv => ?_)
  obtain ⟨hcore, hfringe⟩ := mem_sdiff.mp hv
  obtain ⟨hsup, hout, -⟩ := mem_filter.mp hcore
  by_cases hvk : g.kind? v = some .boundary
  · refine mem_union_right _ (List.mem_toFinset.mpr ?_)
    exact (List.mem_append.mp (hg.mem_ends.mpr hvk)).resolve_right hout
  · exact mem_union_left _ (mem_sdiff.mpr ⟨mem_spiders.mpr ⟨mem_support.mp hsup, hvk⟩, hfringe⟩)

end Taut

end Diagram

end ZX
