import Mathlib
import ZX.Proofs.Quotient.Steps
import ZX.Proofs.Rule.Headroom
import ZX.Proofs.Simplification

/-!
# Fusing all spiders gives the quotient

Every fusion in a green diagram is a step towards the quotient of its labelled graph: the rule lists
each edge at its smaller end, so the larger spider goes. The batches, their order and the places
that have become invalid only decide in which order the steps are made. Where no place is left
nothing is tied, so the end of the run is the quotient, and it depends on the labelled graph alone.
-/
namespace ZX

open Finset EdgeKind

namespace LabelledGraph

variable {G G₁ G₂ : LabelledGraph} {V S : Finset ℕ} {links : List Link} {v v₀ v₁ : ℕ}

theorem spent_eq_sum (hnodup : (links.map Prod.fst).Nodup) (hS : ∀ l ∈ links, l.1 ∈ S) :
    G.spent v links = ∑ u ∈ S, cost (G.edge s(v, u)) (links.lookup u) := by
  have hkeys : (links.map Prod.fst).toFinset ⊆ S := by
    intro u hu
    obtain ⟨l, hl, rfl⟩ := List.mem_map.mp (List.mem_toFinset.mp hu)
    exact hS l hl
  rw [← sum_subset hkeys fun u _ hu => ?_, List.sum_toFinset _ hnodup, List.map_map, spent]
  · refine congrArg List.sum (List.map_congr_left fun l hl => ?_)
    rw [Function.comp_apply, (Diagram.lookup_eq_some_iff hnodup).mpr hl]
  · rw [Diagram.lookup_eq_none (mt List.mem_toFinset.mpr hu), cost_none]

/-- The links of `v₁` move to `v₀`, which then turns by the angle of `v₁`, and `v₁` goes. -/
theorem Joins.fuses (hG : G.Simple V) (hG' : (G₂.remove v₁).Simple V) (hlt : v₀ < v₁)
    (htied : G.Tied v₀ v₁) (hnodup : (links.map Prod.fst).Nodup)
    (hlinks : ∀ u, links.lookup u = if u = v₀ then none else G.edge s(v₁, u))
    (h₁ : G.Joins v₀ links G₁) (h₂ : G₁.Adjusts (Pi.single v₀ (G.angle v₁)) 0 G₂)
    (hedge₂ : G₂.edge = G₁.edge) : Fuses V v₀ v₁ G (G₂.remove v₁) := by
  have hspent : G.spent v₀ links = G.fusionCost V v₀ v₁ := by
    rw [spent_eq_sum (S := V \ {v₀, v₁}) hnodup fun l hl => ?_, fusionCost]
    · refine sum_congr rfl fun u hu => ?_
      obtain ⟨hu₀, -⟩ : u ≠ v₀ ∧ u ≠ v₁ := by simpa using (mem_sdiff.mp hu).2
      rw [hlinks, if_neg hu₀]
    · have hlookup := (Diagram.lookup_eq_some_iff hnodup).mpr hl
      rw [hlinks] at hlookup
      split_ifs at hlookup with hl₀
      simp [hl₀, (hG.ne_of_edge hlookup).symm, hG.mem_of_edge hlookup]
  have hedge : ∀ pair, v₁ ∉ pair → (G₂.remove v₁).edge pair = G₁.edge pair := fun pair hv₁ =>
    (if_neg hv₁).trans (congrFun hedge₂ pair)
  refine ⟨hG, hG', hlt, htied, fun u hu₀ hu₁ => ?_, fun d hd => ?_, ?_, fun u hu₀ hu₁ => ?_,
    fun pair hv₀ hv₁ => ?_, ?_, ?_, ?_, ?_⟩
  · rw [data_remove, if_neg hu₁, h₂.data_eq (Pi.single_eq_of_ne hu₀ _),
      h₁.data_eq (Pi.single_eq_of_ne hu₀ _)]
  · obtain ⟨p₁, hp₁, hangle₁⟩ := h₁.data_some hd
    obtain ⟨p₂, hp₂, hangle₂⟩ := h₂.data_some hp₁
    refine ⟨p₂, by rw [data_remove, if_neg hlt.ne, hp₂], ?_⟩
    rw [hangle₂, hangle₁, Pi.single_eq_same, Pi.single_eq_same, hspent]
    abel
  · rw [data_remove, if_pos rfl]
  · rw [hedge _ (by simp [hlt.ne', hu₁.symm]), h₁.near, hlinks, if_neg hu₀]
  · rw [hedge pair hv₁, h₁.far pair hv₀]
  · exact h₂.inputs_eq.trans h₁.inputs_eq
  · exact h₂.outputs_eq.trans h₁.outputs_eq
  · exact h₂.scalarPhase_eq.trans h₁.scalarPhase_eq
  · exact h₂.sqrt2Pow_eq.trans (by rw [h₁.sqrt2Pow_eq, hspent, Nat.cast_zero, sub_zero])

end LabelledGraph

namespace Diagram

variable {g g' : Diagram} {V : Finset ℕ} {D v v₀ v₁ : ℕ}

/-- A well-formed diagram on the vertices `V` without red spiders. -/
structure GreenOn (V : Finset ℕ) (g : Diagram) : Prop extends g.WellFormed where
  green : ∀ v, g.kind? v ≠ some .x
  support_subset : g.support ⊆ V

theorem GreenOn.simple (hg : g.GreenOn V) : g.view.Simple V where
  mem hv := hg.support_subset (mem_support.mpr (contains_of_data? hv))
  green := hg.green
  edge_self v := (hg.toConsistent.view_edge v v).trans (hg.toConsistent.edgeKind?_self v)
  edge_gone {v} hv u := by
    rw [hg.toConsistent.view_edge]
    by_contra hsome
    obtain ⟨e, he⟩ := Option.ne_none_iff_exists'.mp hsome
    obtain ⟨d, hd⟩ := contains_iff_data?.mp (hg.toConsistent.contains_left he)
    cases hv.symm.trans hd
  hangs {b} hb {t t' e e'} he he' := by
    obtain ⟨w, f, hw⟩ := hg.exists_hangsOn hb
    rw [hg.toConsistent.view_edge] at he he'
    exact (hw.eq_of_edgeKind? he).1.trans (hw.eq_of_edgeKind? he').1.symm

theorem view_tied_iff (hg : g.Consistent) : g.view.Tied v₀ v₁ ↔
    g.edgeKind? v₀ v₁ = some .plain ∧ g.kind? v₀ = some .z ∧ g.kind? v₁ = some .z :=
  LabelledGraph.tied_def.trans (by rw [hg.view_edge, view_kind?, view_kind?])

theorem GreenOn.tied_of_fusible (hg : g.GreenOn V) (hf : g.fusible v₀ v₁ = true) :
    g.view.Tied v₀ v₁ := by
  obtain ⟨-, he, k, hk, hk₀, hk₁⟩ := fusible_iff.mp hf
  cases k with
  | boundary => exact absurd rfl hk
  | z => exact (view_tied_iff hg.toConsistent).mpr ⟨he, hk₀, hk₁⟩
  | x => exact absurd hk₀ (hg.green v₀)

/-- The links of the second spider move to the first. -/
theorem GreenOn.moved_joins (hg : g.GreenOn V) (htied : g.view.Tied v₀ v₁) :
    Ends ((g.linksAt v₁).foldlM
        (fun g (u, e) => if u = v₀ then return g else g.connect v₀ u e) g)
      (fun g' => g'.Consistent ∧
        g.view.Joins v₀ ((g.linksAt v₁).filter (·.1 ≠ v₀)) g'.view)
      (· = .overflow) := by
  have hcons := hg.toConsistent
  have hjoins := connect_joins ((g.linksAt v₁).filter (·.1 ≠ v₀)) hcons htied.left
    ((hcons.nodup v₁).sublist (List.filter_sublist.map Prod.fst)) (by simp) fun l hl => ?_
  · rw [List.foldlM_filter] at hjoins
    convert hjoins using 4 with g' l
    simp [ite_not]
  · obtain ⟨hmem, hl₀⟩ := List.mem_filter.mp hl
    obtain ⟨k, hk⟩ := exists_kind? (hcons.contains_right hmem)
    refine ⟨contains_of_kind? hk, ?_⟩
    cases k with
    | boundary =>
        -- a boundary hangs on the second spider, so it has no edge to the first
        refine .inr (Option.eq_none_iff_forall_ne_some.mpr fun e he => ?_)
        have hsecond := hcons.edgeKind?_iff.mpr (hcons.symm hmem)
        rw [hcons.edgeKind?_comm, ← hcons.view_edge] at he
        rw [← hcons.view_edge] at hsecond
        exact hg.simple.ne_of_edge htied.edge_eq (hg.simple.hangs hk he hsecond)
    | z => exact .inl hk
    | x => exact absurd hk (hg.green l.1)

theorem GreenOn.fuses_of_simple (hg : g.GreenOn V) (htied : g.view.Tied v₀ v₁) (hlt : v₀ < v₁) :
    Ends (g.fuse v₀ v₁) (fun g' => g'.view.Simple V → g.view.Fuses V v₀ v₁ g'.view)
      (· = .overflow) := by
  have hcons := hg.toConsistent
  have hv₁ : g.contains v₁ = true := contains_of_kind? htied.right
  obtain ⟨d, hd⟩ := contains_iff_data?.mp hv₁
  have hangle : g.view.angle v₁ = d.phase.angle := by
    rw [LabelledGraph.angle, show g.view.data v₁ = some d from hd]
    rfl
  unfold fuse
  rw [links_of_contains hv₁]
  refine (hg.moved_joins htied).bind fun g₁ h₁ => ?_
  obtain ⟨hg₁, h₁⟩ := h₁
  have hd₁ : g₁.data? v₁ = some d := (h₁.data_eq (Pi.single_eq_of_ne hlt.ne' _)).trans hd
  have hv₀ : g₁.contains v₀ = true := contains_of_kind? ((h₁.kind?_eq v₀).trans htied.left)
  rw [phase_of_data? hd₁]
  refine (addToPhase_adjusts hg₁ hv₀ d.phase).bind fun g₂ h₂ => ?_
  obtain ⟨hg₂, h₂, hedge₂⟩ := h₂
  have hv₁' : g₂.contains v₁ = true :=
    contains_of_kind? ((h₂.kind?_eq v₁).trans ((h₁.kind?_eq v₁).trans htied.right))
  obtain ⟨g₃, hg₃, h₃⟩ := removeVertex_removed hg₂ hv₁'
  rw [hg₃, Ends.ok_iff, h₃.view_eq hg₂]
  intro hsimple
  refine h₁.fuses hg.simple hsimple hlt htied
    ((hcons.nodup v₁).sublist (List.filter_sublist.map Prod.fst)) (fun u => ?_) (hangle ▸ h₂) hedge₂
  rw [hcons.view_edge, edgeKind?_eq_lookup, lookup_filter_ne]

/-- A fusion is a step towards the quotient. -/
theorem GreenOn.fuse (hg : g.GreenOn V) (hf : g.fusible v₀ v₁ = true) (hlt : v₀ < v₁) :
    Ends (g.fuse v₀ v₁) (fun g' => g'.GreenOn V ∧ g.view.Fuses V v₀ v₁ g'.view ∧
      g'.vertexCount < g.vertexCount) (· = .overflow) := by
  have hwf := hg.toWellFormed
  have hfuses := hg.fuses_of_simple (hg.tied_of_fusible hf) hlt
  refine ((fuse_rewrites hwf.fringed hf).and ((fuse_ends hwf hf).and hfuses)).imp fun g' h => ?_
  obtain ⟨⟨-, hrewrites, hsupport, hwell⟩, ⟨-, -, hcount⟩, hfuses⟩ := h
  have hg' : g'.GreenOn V := ⟨hwell hwf, fun v hv => hg.green v (hrewrites.red v hv),
    hsupport ▸ (erase_subset _ _).trans hg.support_subset⟩
  exact ⟨hg', hfuses hg'.simple, hcount⟩

/-! ## Room -/

/-- The phases have a common denominator `D`, and the exponent of the scalar has room for all
Hadamard edges and for the links of any one vertex. -/
structure Ample (D : ℕ) (V : Finset ℕ) (g : Diagram) : Prop where
  phases : g.PhasesIn (·.den ∣ D)
  pow : |g.scalar.sqrt2Pow| + g.view.edgesIn .hadamard V + 2 * g.vertexCount < 2 ^ 31

theorem Consistent.length_linksAt_le (hg : g.Consistent) (v : ℕ) :
    (g.linksAt v).length ≤ g.vertexCount := by
  rw [hg.vertexCount_eq, ← List.length_map Prod.fst, ← List.toFinset_card_of_nodup (hg.nodup v)]
  refine card_le_card fun u hu => ?_
  obtain ⟨l, hl, rfl⟩ := List.mem_map.mp (List.mem_toFinset.mp hu)
  exact mem_support.mpr (hg.contains_right hl)

/-- With room a fusion does not overflow, and leaves room. -/
theorem Ample.fuse (h : g.Ample D V) (hD : 0 < D) (hlt : D < 2 ^ 62) (hg : g.GreenOn V)
    (hf : g.fusible v₀ v₁ = true) (hv : v₀ < v₁) :
    Ends (g.fuse v₀ v₁) (fun g' => g'.GreenOn V ∧ g'.Ample D V ∧
      g.view.Fuses V v₀ v₁ g'.view ∧ g'.vertexCount < g.vertexCount) fun _ => False := by
  have hlength := hg.toConsistent.length_linksAt_le v₁
  have hroomy : g.Roomy (·.den ∣ D) (0 + 2 * (g.linksAt v₁).length) :=
    ⟨h.phases, by have := h.pow; push_cast; omega⟩
  have hspares := hroomy.fuse_of_dvd hD hlt (contains_of_kind? (hg.tied_of_fusible hf).right) v₀
  obtain ⟨g', hok, ⟨hg', hfuses, hcount⟩, hroomy'⟩ := (hg.fuse hf hv).exists_ok_of_not hspares
  refine Ends.of_exists_ok ⟨g', hok, hg', ⟨hroomy'.phases, ?_⟩, hfuses, hcount⟩
  -- the exponent drops by the number of Hadamard edges that are lost
  set lost := g.view.fusionCost V v₀ v₁
  have hedges : g'.view.edgesIn .hadamard V + lost = g.view.edgesIn .hadamard V :=
    hfuses.edgesIn_add_cost (hfuses.simple.mem_of_tied hfuses.tied.symm)
      (hfuses.simple.mem_of_tied hfuses.tied)
  have habs : |g'.scalar.sqrt2Pow| ≤ |g.scalar.sqrt2Pow| + lost := by
    have hpow : g'.scalar.sqrt2Pow = g.scalar.sqrt2Pow - lost := hfuses.sqrt2Pow_eq
    calc |g'.scalar.sqrt2Pow| = |g.scalar.sqrt2Pow - lost| := by rw [hpow]
      _ ≤ |g.scalar.sqrt2Pow| + |(lost : ℤ)| := abs_sub _ _
      _ = |g.scalar.sqrt2Pow| + lost := by rw [Nat.abs_cast]
  have hroom := h.pow
  omega

/-! ## Runs -/

theorem lt_of_mem_edgesWhere {m : ℕ × ℕ} (h : m ∈ g.edgesWhere g.fusible) : m.1 < m.2 := by
  have hne := (fusible_iff.mp (mem_edgesWhere h)).1
  obtain ⟨⟨s, t, e⟩, hedge, rfl⟩ := List.mem_map.mp (List.mem_filter.mp h).1
  obtain ⟨v, -, hlink⟩ := List.mem_flatMap.mp hedge
  cases hx : g.vertex? v with
  | none => simp [hx] at hlink
  | some x =>
      rw [hx] at hlink
      obtain ⟨l, hl, heq⟩ := List.mem_map.mp hlink
      cases heq
      exact lt_of_le_of_ne (of_decide_eq_true (List.mem_filter.mp hl).2) hne

/-- What every step keeps, a whole run keeps. -/
theorem fuseAll_settled {P : Diagram → Prop} {E : Fault → Prop}
    (hstep : ∀ g v₀ v₁, P g → g.fusible v₀ v₁ = true → v₀ < v₁ → Ends (g.fuse v₀ v₁)
      (fun g' => P g' ∧ g.view.Fuses V v₀ v₁ g'.view ∧ g'.vertexCount < g.vertexCount) E)
    (hg : P g) :
    Ends g.fuseAll.outcome (Rule.fusion.Settled P (fun g g' => g.view.Reaches V g'.view) g) E := by
  have hadvances : Rule.fusion.Advances P (fun g g' => g.view.Reaches V g'.view) E
      (fun m => m.1 < m.2) (fun g m => g.fusible m.1 m.2) (fun g m => g.fuse m.1 m.2) :=
    fun g m hg hm hf => (hstep g m.1 m.2 hg hf hm).imp fun g' h =>
      ⟨h.1, .single ⟨m.1, m.2, h.2.1⟩, h.2.2⟩
  have hprogress := hadvances.progress (fun _ => .refl) (fun _ _ _ => .trans)
    (fun g => ⟨_, rfl, fun m hm => ⟨lt_of_mem_edgesWhere hm, mem_edgesWhere hm⟩⟩) fusion_act
  exact Rule.fixedPoint_settled hprogress (fun _ => .refl) (fun _ _ _ => .trans) hg

theorem fuseAll_ends (hg : g.WellFormed) (hgreen : ∀ v, g.kind? v ≠ some .x) :
    Ends g.fuseAll.outcome
      (fun result => result.2.WellFormed ∧ g.view.Quotient g.support result.2.view)
      (· = .overflow) := by
  have hgreenOn : g.GreenOn g.support := ⟨hg, hgreen, Subset.rfl⟩
  have hrun := fuseAll_settled (fun _ _ _ hg hf hlt => GreenOn.fuse hg hf hlt) hgreenOn
  refine hrun.imp fun result h => ?_
  have hg' := h.keeps
  refine ⟨hg'.toWellFormed, h.related.quotient hgreenOn.simple hg'.simple fun a b hab => ?_⟩
  obtain ⟨he, ha, hb⟩ := (view_tied_iff hg'.toConsistent).mp hab
  exact edgeKind?_ne_plain hg'.toConsistent h.no_place ha hb he

theorem support_eq_of_view (hview : g'.view = g.view) : g'.support = g.support := by
  ext v
  rw [mem_support, mem_support, contains_iff_data?, contains_iff_data?]
  exact iff_of_eq (congrArg (fun G : LabelledGraph => ∃ d, G.data v = some d) hview)

/-- Fusing all spiders of a well-formed diagram without red ones gives the quotient of its graph by
the plain edges between spiders, so the result depends on the graph alone, not on the order of the
links or the layout of the arena. It fails at most by an overflow, and it does not fail where the
phases have a common denominator and the exponent of the scalar has room. -/
theorem fuseAll_quotient (hg : g.WellFormed) (hgreen : ∀ v, g.kind? v ≠ some .x) :
    Ends g.fuseAll.outcome
      (fun result => result.2.WellFormed ∧ g.view.Quotient g.support result.2.view)
      (· = .overflow) ∧
    (∀ g' : Diagram, g'.WellFormed → g'.view = g.view → ∀ result result',
      g.fuseAll.outcome = .ok result → g'.fuseAll.outcome = .ok result' →
      result'.2.view = result.2.view) ∧
    ∀ D, 0 < D → D < 2 ^ 62 → (∀ v d, g.data? v = some d → d.phase.den ∣ D) →
      g.scalar.phase.den ∣ D →
      |g.scalar.sqrt2Pow| + g.view.edgesIn .hadamard g.support + 2 * g.vertexCount < 2 ^ 31 →
      ∃ result, g.fuseAll.outcome = .ok result := by
  refine ⟨fuseAll_ends hg hgreen, fun g' hg' hview result result' hresult hresult' => ?_,
    fun D hD hlt hphases hscalar hpow => ?_⟩
  · have hkind : ∀ v, g'.kind? v = g.kind? v := fun v =>
      congrArg (fun G : LabelledGraph => G.kind? v) hview
    have hquotient' := ((fuseAll_ends hg' fun v => hkind v ▸ hgreen v).of_eq_ok hresult').2
    rw [hview, support_eq_of_view hview] at hquotient'
    exact hquotient'.unique ((fuseAll_ends hg hgreen).of_eq_ok hresult).2 hgreen
  · have hgreenOn : g.GreenOn g.support := ⟨hg, hgreen, Subset.rfl⟩
    have hrun := fuseAll_settled (V := g.support)
      (P := fun g' => g'.GreenOn g.support ∧ g'.Ample D g.support)
      (fun _ _ _ h hf hv => (h.2.fuse hD hlt h.1 hf hv).imp fun _ h' =>
        ⟨⟨h'.1, h'.2.1⟩, h'.2.2⟩) ⟨hgreenOn, ⟨hphases, hscalar⟩, hpow⟩
    obtain ⟨result, hresult, -⟩ := hrun.exists_ok
    exact ⟨result, hresult⟩

/-- The links of every vertex are stored in another order. -/
def reorder (g : Diagram) (turn : List Link → List Link) : Diagram :=
  { g with slots := g.slots.map (Option.map fun x => { x with links := turn x.links }) }

theorem vertex?_reorder (g : Diagram) (turn : List Link → List Link) (v : ℕ) :
    (g.reorder turn).vertex? v = (g.vertex? v).map fun x => { x with links := turn x.links } := by
  rw [vertex?, vertex?, reorder, Array.getElem?_map]
  rcases g.slots[v]? with _ | _ | x <;> rfl

theorem Consistent.reorder_view {turn : List Link → List Link} (hg : g.Consistent)
    (hturn : ∀ links, (turn links).Perm links) : (g.reorder turn).view = g.view := by
  have hdata : (g.reorder turn).data? = g.data? := by
    funext v
    rw [data?, data?, vertex?_reorder, Option.map_map]
    rfl
  have hedge : (g.reorder turn).edgeKind? = g.edgeKind? := by
    funext a b
    have hperm : ((g.reorder turn).linksAt a).Perm (g.linksAt a) := by
      rw [linksAt, linksAt, vertex?_reorder]
      cases g.vertex? a with
      | none => rfl
      | some x => exact hturn x.links
    have hnodup := (hperm.map Prod.fst).nodup_iff.mpr (hg.nodup a)
    ext e
    rw [edgeKind?_eq_lookup, edgeKind?_eq_lookup, lookup_eq_some_iff hnodup,
      lookup_eq_some_iff (hg.nodup a), hperm.mem_iff]
  rw [view, view, hdata, hedge]
  rfl

/-- The spiders 2, 4 and 6 are tied together, and so are 3 and 5. -/
def tangle : Diagram where
  slots := #[
    some ⟨.ofKind .boundary, [(4, .hadamard)]⟩,
    some ⟨.ofKind .boundary, [(5, .plain)]⟩,
    some ⟨⟨.z, Phase.eighth, 1, 0⟩, [(6, .plain), (4, .hadamard), (3, .hadamard)]⟩,
    some ⟨⟨.z, Phase.zero, 1, 1⟩, [(5, .plain), (2, .hadamard), (6, .hadamard)]⟩,
    some ⟨⟨.z, Phase.quarter, 2, 0⟩,
      [(0, .hadamard), (6, .plain), (2, .hadamard), (5, .hadamard), (7, .hadamard)]⟩,
    some ⟨⟨.z, Phase.quarter, 2, 1⟩,
      [(1, .plain), (3, .plain), (4, .hadamard), (7, .hadamard)]⟩,
    some ⟨⟨.z, Phase.one, 3, 0⟩,
      [(2, .plain), (4, .plain), (3, .hadamard), (7, .hadamard)]⟩,
    some ⟨⟨.z, Phase.zero, 3, 1⟩, [(4, .hadamard), (5, .hadamard), (6, .hadamard)]⟩]
  holes := []
  inputs := [0]
  outputs := [1]
  vertexCount := 8
  edgeCount := 12
  scalar := Scalar.one

/-- In either order the inner Hadamard edge adds half a turn to the first class, its three edges to
the second class leave one, and its two edges to the last spider cancel. -/
theorem fuseAll_quotient_tangle : tangle.WellFormed ∧ (tangle.reorder List.reverse).WellFormed ∧
    ∃ result result', tangle.fuseAll.outcome = .ok result ∧
      (tangle.reorder List.reverse).fuseAll.outcome = .ok result' ∧
      result'.2.view = result.2.view ∧ tangle.view.Quotient tangle.support result.2.view ∧
      result.2.vertices = [0, 1, 2, 3, 7] ∧ result.2.edgeKind? 2 3 = some .hadamard ∧
      result.2.edgeKind? 2 7 = none ∧ result.2.scalar.sqrt2Pow = -5 := by
  have hg : tangle.WellFormed := by decide +kernel
  have hg' : (tangle.reorder List.reverse).WellFormed := by decide +kernel
  have hgreen : ∀ v, tangle.kind? v ≠ some .x := by
    intro v hv
    obtain ⟨d, hd, hk⟩ := kind?_eq_some.mp hv
    exact forall_data?_of_all (P := fun d => d.kind ≠ .x) (by decide +kernel) v d hd hk
  have hview := hg.toConsistent.reorder_view List.reverse_perm
  obtain ⟨hends, hsame, hroom⟩ := fuseAll_quotient hg hgreen
  obtain ⟨result, hresult⟩ := hroom 4 (by decide) (by decide)
    (forall_data?_of_all (by decide +kernel)) (by decide +kernel) (by decide +kernel)
  have hok : (tangle.reorder List.reverse).fuseAll.outcome.toOption.any fun _ => true := by
    decide +kernel
  obtain ⟨result', hresult', -⟩ := exists_ok_of_any hok
  have hvalues : tangle.fuseAll.outcome.toOption.all fun result =>
      result.2.vertices = [0, 1, 2, 3, 7] ∧ result.2.edgeKind? 2 3 = some .hadamard ∧
      result.2.edgeKind? 2 7 = none ∧ result.2.scalar.sqrt2Pow = -5 := by decide +kernel
  rw [hresult] at hvalues
  exact ⟨hg, hg', result, result', hresult, hresult',
    hsame _ hg' hview result result' hresult hresult', (hends.of_eq_ok hresult).2,
    of_decide_eq_true hvalues⟩

end Diagram

end ZX
