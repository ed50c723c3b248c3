import Mathlib
import ZX.Extraction.Preparation
import ZX.Proofs.Rule.Identity
import ZX.Proofs.Simplification

/-!
# Normal diagrams

Before the outputs are peeled, a diagram is made green and fused, and every input is hung on a green
spider by a Hadamard edge. The padded diagram turns back into the one before when the new spider is
summed out, so both denote the same map.
-/
namespace ZX

open Finset Function

namespace Diagram

variable {g g' : Diagram} {s t u v b new : ℕ} {e : EdgeKind}

/-- `g'` is `g` with the edge from `v` to the boundary `b` interrupted by a spider. -/
structure Padded (g : Diagram) (v b : ℕ) (e : EdgeKind) (new : ℕ) (g' : Diagram) : Prop where
  consistent : g'.Consistent
  fresh : g.contains new = false
  kind?_eq : ∀ u, g'.kind? u = if u = new then some .z else g.kind? u
  phase?_eq : ∀ u, g'.phase? u = if u = new then some Phase.zero else g.phase? u
  data?_eq : ∀ u, u ≠ new → g'.data? u = g.data? u
  edgeKind?_eq : ∀ s t, g'.edgeKind? s t =
    if IsPair new v s t then some e.flip
    else if IsPair b new s t then some .hadamard
    else if IsPair v b s t then none
    else g.edgeKind? s t
  linksAt_eq : ∀ u, u ≠ v → u ≠ b → u ≠ new → g'.linksAt u = g.linksAt u
  inputs_eq : g'.inputs = g.inputs
  outputs_eq : g'.outputs = g.outputs
  scalar_eq : g'.scalar = g.scalar
  vertexCount_eq : g'.vertexCount = g.vertexCount + 1

theorem exists_qubit (h : g.contains v) : ∃ x, g.qubit v = .ok x := by
  obtain ⟨d, hd⟩ := contains_iff_data?.mp h
  exact ⟨d.qubit, qubit_of_data? hd⟩

theorem exists_column (h : g.contains v) : ∃ x, g.column v = .ok x := by
  obtain ⟨d, hd⟩ := contains_iff_data?.mp h
  exact ⟨d.column, column_of_data? hd⟩

theorem edgeKind?_eq_of_linksAt (h : g'.linksAt s = g.linksAt s) (t : ℕ) :
    g'.edgeKind? s t = g.edgeKind? s t := by
  rw [edgeKind?_eq_lookup, edgeKind?_eq_lookup, h]

theorem edgeKind?_eq_none_of_not_contains (h : g.contains s = false) (t : ℕ) :
    g.edgeKind? s t = none := by
  rw [edgeKind?_eq_lookup, linksAt_eq_nil h]
  rfl

theorem unfuseBoundary_padded (hg : g.Consistent) (hb : g.kind? b = some .boundary)
    (he : g.edgeKind? v b = some e) :
    Ends (g.unfuseBoundary v b) (fun r => ∃ new, r.1 = some new ∧ Padded g v b e new r.2)
      (fun f => f = .tooLarge ∧ 2 ^ 57 ≤ g.vertexCount) := by
  have hvc := hg.contains_left he
  have hbc := hg.contains_far he
  have hvb := hg.ne_of_edgeKind? he
  obtain ⟨xv, hxv⟩ := exists_column hvc
  obtain ⟨xb, hxb⟩ := exists_column hbc
  obtain ⟨xq, hxq⟩ := exists_qubit hbc
  set d : VertexData := ⟨.z, Phase.zero, xq, (xv + xb) / 2⟩ with hd
  have hstart : startData d = d := rfl
  have hkind : g.kind b = .ok .boundary := kind_of_kind? hb
  have hrun : g.unfuseBoundary v b = do
      let r ← g.addVertex d
      let g ← r.2.removeEdge v b
      let g ← g.addEdge b r.1 .hadamard
      return (some r.1, ← g.addEdge r.1 v e.flip) := by
    simp only [unfuseBoundary, hkind, he, hxv, hxb, hxq, ← hd, bind, Except.bind, ne_eq,
      not_true_eq_false, if_false]
  rw [hrun]
  refine (addVertex_ends hg d).bind ?_
  rintro ⟨new, g₁⟩ ⟨h₁, -⟩
  dsimp only at h₁
  have hnv : new ≠ v := by
    intro h
    have hfresh := h₁.fresh
    rw [h, hvc] at hfresh
    exact Bool.false_ne_true hfresh.symm
  have hnb : new ≠ b := by
    intro h
    have hfresh := h₁.fresh
    rw [h, hbc] at hfresh
    exact Bool.false_ne_true hfresh.symm
  have hc₁ : ∀ u, g₁.contains u = true ↔ u = new ∨ g.contains u = true := by
    intro u
    rw [contains_eq_data?_isSome, h₁.data?_eq, contains_eq_data?_isSome]
    by_cases hu : u = new <;> simp [hu]
  have he₁ : ∀ s t, g₁.edgeKind? s t = g.edgeKind? s t := fun s t =>
    edgeKind?_eq_of_linksAt (h₁.linksAt_eq s) t
  have hnone : ∀ t, g.edgeKind? new t = none := edgeKind?_eq_none_of_not_contains h₁.fresh
  obtain ⟨g₂, hok₂, h₂⟩ := removeEdge_edgeSet h₁.consistent ((he₁ v b).trans he)
  have hc₂ : ∀ u, g₂.contains u = g₁.contains u := h₂.contains_eq
  obtain ⟨g₃, hok₃, h₃⟩ := addEdge_edgeSet h₂.consistent hnb.symm
    (by rw [hc₂, hc₁]; exact .inr hbc) (by rw [hc₂, hc₁]; exact .inl rfl)
    (by rw [h₂.consistent.edgeKind?_comm, h₂.edgeKind?_eq, if_neg (by simp [IsPair, hnv, hnb]), he₁,
      hnone]) .hadamard
  obtain ⟨g₄, hok₄, h₄⟩ := addEdge_edgeSet h₃.consistent hnv
    (by rw [h₃.contains_eq, hc₂, hc₁]; exact .inl rfl)
    (by rw [h₃.contains_eq, hc₂, hc₁]; exact .inr hvc)
    (by rw [h₃.edgeKind?_eq, if_neg (by simp [IsPair, hnb, hvb]), h₂.edgeKind?_eq,
      if_neg (by simp [IsPair, hnv, hnb]), he₁, hnone]) e.flip
  have hdata : ∀ u, g₄.data? u = if u = new then some d else g.data? u := by
    intro u
    rw [h₄.data?_eq, h₃.data?_eq, h₂.data?_eq, h₁.data?_eq, hstart]
  refine Ends.of_exists_ok ⟨(some new, g₄), ?_, new, rfl, ?_⟩
  · simp only [hok₂, hok₃, hok₄, bind, Except.bind, pure, Except.pure]
  · refine ⟨h₄.consistent, h₁.fresh, ?_, ?_, ?_, ?_, ?_, ?_, ?_, ?_, ?_⟩
    · intro u
      rw [kind?, hdata]
      split <;> rfl
    · intro u
      rw [phase?, hdata]
      split <;> rfl
    · intro u hu
      rw [hdata, if_neg hu]
    · intro s t
      rw [h₄.edgeKind?_eq, h₃.edgeKind?_eq, h₂.edgeKind?_eq, he₁]
    · intro u huv hub hun
      rw [h₄.linksAt_eq u hun huv, h₃.linksAt_eq u hub hun, h₂.linksAt_eq u huv hub, h₁.linksAt_eq]
    · rw [h₄.inputs_eq, h₃.inputs_eq, h₂.inputs_eq, h₁.inputs_eq]
    · rw [h₄.outputs_eq, h₃.outputs_eq, h₂.outputs_eq, h₁.outputs_eq]
    · rw [h₄.scalar_eq, h₃.scalar_eq, h₂.scalar_eq, h₁.scalar_eq]
    · rw [h₄.vertexCount_eq, h₃.vertexCount_eq, h₂.vertexCount_eq, h₁.vertexCount_eq]

namespace Padded

theorem ne_new (h : Padded g v b e new g') (hu : g.contains u = true) : u ≠ new := by
  intro heq
  have hfresh := h.fresh
  rw [← heq, hu] at hfresh
  exact Bool.false_ne_true hfresh.symm

theorem contains_iff (h : Padded g v b e new g') :
    g'.contains u = true ↔ u = new ∨ g.contains u = true := by
  rw [contains_eq_kind?_isSome, h.kind?_eq, contains_eq_kind?_isSome]
  by_cases hu : u = new <;> simp [hu]

theorem support_erase (h : Padded g v b e new g') : g'.support.erase new = g.support := by
  ext u
  rw [mem_erase, mem_support, mem_support, h.contains_iff]
  constructor
  · intro ⟨hne, hor⟩
    exact hor.resolve_left hne
  · intro hu
    exact ⟨h.ne_new hu, .inr hu⟩

/-- The new spider has two edges. -/
theorem edgeKind?_new (h : Padded g v b e new g') (hv : g.contains v = true)
    (hb : g.contains b = true) (u : ℕ) :
    g'.edgeKind? new u = if u = v then some e.flip else if u = b then some .hadamard else none := by
  have hnv := h.ne_new hv
  have hnb := h.ne_new hb
  rw [h.edgeKind?_eq]
  by_cases huv : u = v
  · rw [if_pos (by simp [IsPair, huv]), if_pos huv]
  · rw [if_neg (by simp [IsPair, huv, Ne.symm hnv]), if_neg huv]
    by_cases hub : u = b
    · rw [if_pos (by simp [IsPair, hub]), if_pos hub]
    · rw [if_neg (by simp [IsPair, hub, Ne.symm hnb]), if_neg hub,
        if_neg (by simp [IsPair, Ne.symm hnv, Ne.symm hnb]),
        edgeKind?_eq_none_of_not_contains h.fresh]

theorem around_new (h : Padded g v b e new g') (hg : g.Consistent)
    (he : g.edgeKind? v b = some e) (c : Bool) (a : ℕ → Bool) :
    g'.around g.support new c a =
      (g'.tinted new v e.flip).factor c (a v) * (g'.tinted new b .hadamard).factor c (a b) := by
  have hvc := hg.contains_left he
  have hbc := hg.contains_far he
  have hvb := hg.ne_of_edgeKind? he
  rw [around, prod_eq_mul v b hvb]
  · rw [wire?, wire?, h.edgeKind?_new hvc hbc, h.edgeKind?_new hvc hbc, if_pos rfl,
      if_neg hvb.symm, if_pos rfl]
    rfl
  · intro u _ hu
    rw [wire?, h.edgeKind?_new hvc hbc, if_neg hu.1, if_neg hu.2]
    rfl
  · exact fun hc => absurd (mem_support.mpr hvc) hc
  · exact fun hc => absurd (mem_support.mpr hbc) hc

/-- Summing the new spider out gives the edge back. -/
theorem rewrites (h : Padded g v b e new g') (hg : g.Consistent)
    (he : g.edgeKind? v b = some e) : Rewrites g' g := by
  have hvc := hg.contains_left he
  have hbc := hg.contains_far he
  have hvb := hg.ne_of_edgeKind? he
  have hnv := h.ne_new hvc
  have hnb := h.ne_new hbc
  have hnew : g'.contains new = true := h.contains_iff.mpr (.inl rfl)
  have hkind : g'.kind? new = some .z := by rw [h.kind?_eq, if_pos rfl]
  have hturn : g'.turn new = 1 := by
    rw [turn_of_phase? (by simp [hkind]) (by rw [h.phase?_eq, if_pos rfl]), Phase.unit_zero]
  obtain ⟨g₂, _, h₂⟩ := removeVertex_removed h.consistent hnew
  have hrestricts := h₂.restricts h.consistent
  rw [h.support_erase] at hrestricts
  have hdata : ∀ u, g.data? u = g₂.data? u := by
    intro u
    rw [h₂.data?_eq]
    by_cases hu : u = new
    · rw [if_pos hu, hu]
      have hfresh := h.fresh
      rw [contains_eq_data?_isSome] at hfresh
      simpa using hfresh
    · rw [if_neg hu, h.data?_eq u hu]
  -- what remains lacks only the edge that was interrupted
  have hset : EdgeSet g₂ v b (some e) g := by
    refine ⟨hg, hdata, ?_, ?_, ?_, ?_, ?_, ?_⟩
    · intro p q
      by_cases hpair : IsPair v b p q
      · rw [if_pos hpair]
        obtain ⟨rfl, rfl⟩ | ⟨rfl, rfl⟩ := hpair
        · exact he
        · rw [hg.edgeKind?_comm]
          exact he
      · rw [if_neg hpair]
        by_cases hp : p = new
        · rw [hp, edgeKind?_eq_none_of_not_contains h.fresh, edgeKind?_eq_none_of_not_contains]
          rw [h₂.contains_eq]
          simp
        · rw [h₂.edgeKind?_eq_ite h.consistent hp]
          by_cases hq : q = new
          · rw [if_pos hq, hq, hg.edgeKind?_comm, edgeKind?_eq_none_of_not_contains h.fresh]
          · rw [if_neg hq, h.edgeKind?_eq, if_neg (by simp [IsPair, hp, hq]),
              if_neg (by simp [IsPair, hp, hq]), if_neg hpair]
    · intro u huv hub
      rw [h₂.linksAt_eq]
      by_cases hu : u = new
      · rw [if_pos hu, hu, linksAt_eq_nil h.fresh]
      · rw [if_neg hu, h.linksAt_eq u huv hub hu, eraseLink_eq_self]
        rw [hg.key_iff]
        rintro ⟨f, hf⟩
        rw [hg.edgeKind?_comm, edgeKind?_eq_none_of_not_contains h.fresh] at hf
        exact absurd hf (by simp)
    · rw [h₂.inputs_eq, h.inputs_eq]
    · rw [h₂.outputs_eq, h.outputs_eq]
    · rw [h₂.scalar_eq, h.scalar_eq]
    · have hcount := h₂.vertexCount_eq
      rw [h.vertexCount_eq] at hcount
      omega
  have hvV : v ∈ g.support := mem_support.mpr hvc
  have hbV : b ∈ g.support := mem_support.mpr hbc
  have hnone : g₂.edgeKind? v b = none := by
    rw [h₂.edgeKind?_eq h.consistent hnv hnb, h.edgeKind?_eq, if_neg (by simp [IsPair, hnv, hnb]),
      if_neg (by simp [IsPair, hvb, hnv]), if_pos (isPair_self v b)]
  have habsorbs := hset.absorbs_new h₂.consistent hvV hbV hvb hnone
  have hsum := sumsTo_erase h.consistent (mem_spiders.mpr ⟨hnew, by simp [hkind]⟩)
  rw [h.support_erase] at hsum
  refine rewrites_of_sumsTo ?_ (.refl h.consistent) hrestricts habsorbs hsum fun a => ?_
  · intro u hu
    rw [mem_support, h.contains_iff]
    exact .inr (mem_support.mp hu)
  · have hthrough : e.flip.through .hadamard = e := by cases e <;> rfl
    rw [bucket, h.around_new hg he, h.around_new hg he, hturn, one_mul, one_mul,
      EdgeKind.sum_factor, tinted_through, hthrough, hrestricts.tinted_eq hvV hbV]

theorem hangsOn_boundary (h : Padded g v b e new g') (hg : g.Consistent)
    (hb : g.HangsOn b v e) : g'.HangsOn b new .hadamard := by
  have he : g.edgeKind? b v = some e := by rw [hb, if_pos rfl]
  have hbv := hg.ne_of_edgeKind? he
  have hbn := h.ne_new (hg.contains_left he)
  intro u
  rw [h.edgeKind?_eq, if_neg (by simp [IsPair, hbn, hbv])]
  by_cases hu : u = new
  · rw [if_pos (by simp [IsPair, hu]), if_pos hu]
  · rw [if_neg (by simp [IsPair, hu, hbn]), if_neg hu]
    by_cases huv : u = v
    · rw [if_pos (by simp [IsPair, huv])]
    · rw [if_neg (by simp [IsPair, huv, hbv]), hb, if_neg huv]

/-- A vertex that hung on another one still does, unless it is next to the interrupted edge. -/
theorem hangsOn_other (h : Padded g v b e new g') (hub : u ≠ b) (huv : u ≠ v)
    (hun : u ≠ new) {f : EdgeKind} (hu : g.HangsOn u t f) : g'.HangsOn u t f := by
  intro w
  rw [edgeKind?_eq_of_linksAt (h.linksAt_eq u huv hub hun), hu]

/-- If the neighbour of the boundary is a boundary too, it now hangs on the new spider. -/
theorem hangsOn_far (h : Padded g v b e new g') (hg : g.Consistent) (hv : g.HangsOn v b e) :
    g'.HangsOn v new e.flip := by
  have he : g.edgeKind? v b = some e := by rw [hv, if_pos rfl]
  have hvb := hg.ne_of_edgeKind? he
  have hvn := h.ne_new (hg.contains_left he)
  intro u
  rw [h.edgeKind?_eq]
  by_cases hu : u = new
  · rw [if_pos (by simp [IsPair, hu]), if_pos hu]
  · rw [if_neg (by simp [IsPair, hu, hvn]), if_neg (by simp [IsPair, hvb, hvn]), if_neg hu]
    by_cases hub : u = b
    · rw [if_pos (by simp [IsPair, hub])]
    · rw [if_neg (by simp [IsPair, hub, hvb]), hv, if_neg hub]

theorem wellFormed (h : Padded g v b e new g') (hg : g.WellFormed)
    (hb : g.kind? b = some .boundary) (hhang : g.HangsOn b v e) : g'.WellFormed := by
  have hcons := hg.toConsistent
  have he : g.edgeKind? b v = some e := by rw [hhang, if_pos rfl]
  have hkind : ∀ u, g'.kind? u = some .boundary ↔ g.kind? u = some .boundary := by
    intro u
    rw [h.kind?_eq]
    by_cases hu : u = new
    · have hnone : g.kind? u = none := by
        have hfresh := h.fresh
        rw [contains_eq_kind?_isSome, ← hu] at hfresh
        simpa using hfresh
      rw [if_pos hu, hnone]
      simp
    · rw [if_neg hu]
  refine hg.transport h.consistent h.inputs_eq h.outputs_eq hkind (fun u hu => ?_)
    fun u t f hu ht => ?_
  · rw [h.phase?_eq, if_neg (h.ne_new (contains_of_kind? hu))]
  · by_cases hub : u = b
    · subst hub
      exact ⟨new, .hadamard, h.hangsOn_boundary hcons hhang⟩
    · by_cases huv : u = v
      · subst huv
        obtain ⟨rfl, rfl⟩ := ht.eq_of_edgeKind? ((hcons.edgeKind?_comm u b).trans he)
        exact ⟨new, e.flip, h.hangsOn_far hcons ht⟩
      · exact ⟨t, f, h.hangsOn_other hub huv (h.ne_new (contains_of_kind? hu)) ht⟩

end Padded

/-! ## Normal diagrams -/

/-- A green diagram in which all edges between spiders are Hadamard edges. -/
structure Fused (g : Diagram) : Prop extends g.WellFormed where
  green : ∀ v, g.kind? v ≠ some .x
  spider_edge : ∀ {s t e}, g.kind? s = some .z → g.kind? t = some .z →
    g.edgeKind? s t = some e → e = .hadamard

theorem fused_of_settled {x : Bool × Diagram}
    (h : Rule.fusion.Settled WellFormed Rewrites g x) (hgreen : ∀ v, g.kind? v ≠ some .x) :
    x.2.Fused := by
  refine ⟨h.keeps, fun v hv => hgreen v (h.related.red v hv), ?_⟩
  intro s t e hs ht he
  cases e with
  | hadamard => rfl
  | plain => exact absurd he (edgeKind?_ne_plain h.keeps.toConsistent h.no_place hs ht)

/-- The one edge of `b` is a Hadamard edge to a green spider. -/
def HangsGreen (g : Diagram) (b : ℕ) : Prop := ∃ v, g.kind? v = some .z ∧ g.HangsOn b v .hadamard

/-- A fused diagram whose inputs hang on green spiders by Hadamard edges. -/
structure Normal (g : Diagram) : Prop extends g.Fused where
  input_hangs : ∀ b ∈ g.inputs, g.HangsGreen b

/-- The edges of a green spider are Hadamard edges, unless they lead to an output. -/
theorem Normal.edge_hadamard (h : g.Normal) (hs : g.kind? s = some .z) (ht : t ∉ g.outputs)
    (he : g.edgeKind? s t = some e) : e = .hadamard := by
  obtain ⟨κ, hκ⟩ := exists_kind? (h.toConsistent.contains_far he)
  cases κ with
  | boundary =>
      have hin : t ∈ g.inputs := (List.mem_append.mp (h.mem_ends.mpr hκ)).resolve_right ht
      obtain ⟨p, -, hp⟩ := h.input_hangs t hin
      exact (hp.eq_of_edgeKind? ((h.toConsistent.edgeKind?_comm t s).trans he)).2
  | z => exact h.spider_edge hs hκ he
  | x => exact absurd hκ (h.green t)

/-- The vertices and a spider for every input are more than the slots can double to once more. -/
def Crowded (g : Diagram) : Prop := 2 ^ 56 < g.vertexCount + g.inputs.length

/-- The edge of an input is interrupted by a spider. -/
def PadsInput (g g' : Diagram) : Prop :=
  ∃ b v e new, b ∈ g.inputs ∧ g.WellFormed ∧ g.HangsOn b v e ∧ Padded g v b e new g'

theorem Padded.fused (h : Padded g v b e new g') (hg : g.Fused) (hb : g.kind? b = some .boundary)
    (hhang : g.HangsOn b v e) (hpad : e ≠ .hadamard ∨ g.kind? v ≠ some .z) : g'.Fused := by
  have he : g.edgeKind? b v = some e := by rw [hhang, if_pos rfl]
  have hvn := h.ne_new (hg.toConsistent.contains_far he)
  refine ⟨h.wellFormed hg.toWellFormed hb hhang, ?_, ?_⟩
  · intro u
    rw [h.kind?_eq]
    by_cases hu : u = new
    · simp [hu]
    · rw [if_neg hu]
      exact hg.green u
  · intro s t f hs ht hst
    have hold : ∀ u, g'.kind? u = some .z → u ≠ new → g.kind? u = some .z := by
      intro u hu hun
      rwa [h.kind?_eq, if_neg hun] at hu
    have hnotb : ∀ u, g'.kind? u = some .z → u ≠ b := by
      intro u hu hub
      rw [hub, h.kind?_eq, if_neg (h.ne_new (contains_of_kind? hb)), hb] at hu
      cases hu
    rw [h.edgeKind?_eq] at hst
    split at hst
    case isTrue hpair =>
      -- the far half of the interrupted edge, whose old kind was plain
      have hv : g.kind? v = some .z := by
        obtain ⟨_, rfl⟩ | ⟨rfl, _⟩ := hpair
        · exact hold _ ht hvn
        · exact hold _ hs hvn
      obtain hplain | hkind := hpad
      · cases hst
        cases e with
        | plain => rfl
        | hadamard => exact absurd rfl hplain
      · exact absurd hv hkind
    case isFalse =>
      split at hst
      case isTrue hpair =>
        obtain ⟨rfl, _⟩ | ⟨_, rfl⟩ := hpair
        · exact absurd rfl (hnotb _ hs)
        · exact absurd rfl (hnotb _ ht)
      case isFalse =>
        split at hst
        case isTrue => cases hst
        case isFalse =>
          have hsn := h.ne_new (hg.toConsistent.contains_left hst)
          have htn := h.ne_new (hg.toConsistent.contains_far hst)
          exact hg.spider_edge (hold s hs hsn) (hold t ht htn) hst

/-- Padding a boundary does not disturb the inputs that hang on green spiders already. -/
theorem Padded.hangsGreen (h : Padded g v b e new g') (hg : g.WellFormed)
    (hb : g.kind? b = some .boundary) (hhang : g.HangsOn b v e) (hub : u ≠ b)
    (hu : g.kind? u = some .boundary) (hgreen : g.HangsGreen u) : g'.HangsGreen u := by
  obtain ⟨t, ht, htu⟩ := hgreen
  have he : g.edgeKind? b v = some e := by rw [hhang, if_pos rfl]
  have huv : u ≠ v := by
    intro heq
    rw [← heq] at he
    obtain ⟨hbt, _⟩ := htu.eq_of_edgeKind? ((hg.toConsistent.edgeKind?_comm u b).trans he)
    rw [hbt, ht] at hb
    cases hb
  refine ⟨t, ?_, h.hangsOn_other hub huv (h.ne_new (contains_of_kind? hu)) htu⟩
  rw [h.kind?_eq, if_neg (h.ne_new (contains_of_kind? ht))]
  exact ht

end Diagram

namespace Workspace

open Diagram

/-- What padding keeps and what it brings about. -/
structure PadStep (w : Workspace) (b : ℕ) (w' : Workspace) : Prop where
  circuit_eq : w'.circuit = w.circuit
  vertexCount_le : w'.diagram.vertexCount ≤ w.diagram.vertexCount + 1
  fused : w'.diagram.Fused
  rewrites : Rewrites w'.diagram w.diagram
  pads : Relation.ReflTransGen PadsInput w.diagram w'.diagram
  hangsGreen : w'.diagram.HangsGreen b
  keeps : ∀ u ∈ w.diagram.inputs, w.diagram.HangsGreen u → w'.diagram.HangsGreen u

theorem padInput_ends {w : Workspace} {b : ℕ} (hw : w.diagram.Fused) (hb : b ∈ w.diagram.inputs) :
    Ends (w.padInput b).outcome (PadStep w b)
      (fun f => f = .fault .tooLarge ∧ 2 ^ 57 ≤ w.diagram.vertexCount) := by
  have hcons := hw.toConsistent
  have hinput : ∀ u ∈ w.diagram.inputs, w.diagram.kind? u = some .boundary := fun u hu =>
    hw.kind?_input hu
  have hbk := hinput b hb
  obtain ⟨v, e, hhang⟩ := hw.exists_hangsOn hbk
  have hlinks : w.diagram.links b = .ok [(v, e)] := by
    rw [links_of_contains (contains_of_kind? hbk), hcons.hangsOn_iff.mp hhang]
  have he : w.diagram.edgeKind? b v = some e := by rw [hhang, if_pos rfl]
  have he' : w.diagram.edgeKind? v b = some e := (hcons.edgeKind?_comm v b).trans he
  obtain ⟨k, hk⟩ := exists_kind? (hcons.contains_far he)
  have hkind : w.diagram.kind v = .ok k := kind_of_kind? hk
  unfold padInput
  simp only [Run.outcome_bind, outcome_lift_except, hlinks, hkind, Except.mapError, Except.bind]
  by_cases hpad : e ≠ .hadamard ∨ k ≠ .z
  · rw [if_pos hpad]
    refine Ends.run_bind (Ends.mapError ((unfuseBoundary_padded hcons hbk he').mono (fun _ h => h)
      fun _ hf => ⟨congrArg Halt.fault hf.1, hf.2⟩)) ?_
    rintro ⟨_, g'⟩ ⟨new, rfl, hpadded⟩
    refine Ends.run_emit (Ends.ok_iff.mpr ⟨rfl, hpadded.vertexCount_eq.le, ?_,
      hpadded.rewrites hcons he', .single ⟨b, v, e, new, hb, hw.toWellFormed, hhang, hpadded⟩, ?_,
      ?_⟩)
    · refine hpadded.fused hw hbk hhang ?_
      rwa [hk, ne_eq, ne_eq, Option.some_inj]
    · exact ⟨new, by rw [hpadded.kind?_eq, if_pos rfl], hpadded.hangsOn_boundary hcons hhang⟩
    · intro u hu hgreen
      by_cases hub : u = b
      · rw [hub]
        exact ⟨new, by rw [hpadded.kind?_eq, if_pos rfl], hpadded.hangsOn_boundary hcons hhang⟩
      · exact hpadded.hangsGreen hw.toWellFormed hbk hhang hub (hinput u hu) hgreen
  · rw [not_or, not_not, not_not] at hpad
    obtain ⟨rfl, rfl⟩ := hpad
    rw [if_neg (by simp)]
    exact Ends.ok_iff.mpr ⟨rfl, Nat.le_succ _, hw, .refl _, .refl, ⟨v, hk, hhang⟩,
      fun u _ hgreen => hgreen⟩

/-- The inputs in `done` have been padded. -/
structure PaddedUpTo (w : Workspace) (done : List ℕ) (w' : Workspace) : Prop where
  circuit_eq : w'.circuit = w.circuit
  vertexCount_le : w'.diagram.vertexCount ≤ w.diagram.vertexCount + done.length
  fused : w'.diagram.Fused
  rewrites : Rewrites w'.diagram w.diagram
  pads : Relation.ReflTransGen PadsInput w.diagram w'.diagram
  hangsGreen : ∀ u ∈ done, w'.diagram.HangsGreen u

/-- Normalising gives a normal diagram of the same map. Both `D` and the normalised diagram rewrite
to the fused one, which lies between them. -/
structure Normalised (w w' : Workspace) : Prop where
  circuit_eq : w'.circuit = w.circuit
  normal : w'.diagram.Normal
  exists_fused : ∃ g, Rewrites w.diagram g ∧ Rewrites w'.diagram g
  exists_padded : ∃ g, Rewrites w.diagram g ∧ Relation.ReflTransGen PadsInput g w'.diagram

theorem Normalised.same {w w' : Workspace} (h : Normalised w w') :
    w'.diagram.inputs = w.diagram.inputs ∧ w'.diagram.outputs = w.diagram.outputs ∧
      w'.diagram.amplitude = w.diagram.amplitude := by
  obtain ⟨g, hg, hg'⟩ := h.exists_fused
  refine ⟨hg'.inputs_eq.symm.trans hg.inputs_eq, hg'.outputs_eq.symm.trans hg.outputs_eq, ?_⟩
  funext x y
  rw [← hg.amplitude_eq, hg'.amplitude_eq]

/-- A word runs out, or there is no room for a spider at every input. -/
theorem normaliseInputs_ends {w : Workspace} (hw : w.diagram.WellFormed) :
    Ends w.normaliseInputs.outcome (Normalised w)
      (fun f => f = .fault .overflow ∨ f = .fault .tooLarge ∧ w.diagram.Crowded) := by
  unfold normaliseInputs
  obtain ⟨g₁, hgreen, hrecoloured, hx⟩ := toGreen_recoloured hw.toConsistent
  refine Ends.run_bind (P := (· = g₁)) ?_ ?_
  · rw [outcome_lift_except, hgreen]
    exact Ends.ok_iff.mpr rfl
  · intro g hg
    subst hg
    have hwf := hrecoloured.wellFormed hw
    have hsettled := Rule.fixedPoint_settled fusion_progress Rewrites.refl
      (fun _ _ _ => Rewrites.trans) hwf
    refine Ends.run_bind (P := Rule.fusion.Settled WellFormed Rewrites g) ?_ ?_
    · rw [outcome_lift_run]
      exact Ends.mapError (hsettled.mono (fun _ h => h) fun _ h => .inl (congrArg Halt.fault h))
    · intro x hsettled
      have hfused := fused_of_settled hsettled hx
      have hrewrites := hrecoloured.rewrites.trans hsettled.related
      have hcount : x.2.vertexCount ≤ w.diagram.vertexCount :=
        hrewrites.vertexCount_le hw.toConsistent hfused.toConsistent
      have hloop : Ends (x.2.inputs.foldlM padInput { w with diagram := x.2 }).outcome
          (PaddedUpTo { w with diagram := x.2 } x.2.inputs)
          (fun f => f = .fault .overflow ∨ f = .fault .tooLarge ∧ w.diagram.Crowded) := by
        rw [Run.outcome_foldlM]
        refine Ends.foldlM_done (I := PaddedUpTo { w with diagram := x.2 }) ?_ ?_
        · intro done b rest w₁ hinputs h₁
          have hsame : w₁.diagram.inputs = x.2.inputs := h₁.rewrites.inputs_eq.symm
          have hb : b ∈ w₁.diagram.inputs := by rw [hsame, hinputs]; simp
          have hlength : done.length < w.diagram.inputs.length := by
            rw [← hrewrites.inputs_eq, hinputs]
            simp
          refine (padInput_ends h₁.fused hb).mono (fun w₂ h₂ => ⟨h₂.circuit_eq.trans h₁.circuit_eq,
            ?_, h₂.fused, h₂.rewrites.trans h₁.rewrites, h₁.pads.trans h₂.pads, ?_⟩) ?_
          · rw [List.length_append, List.length_singleton, ← Nat.add_assoc]
            exact h₂.vertexCount_le.trans (Nat.add_le_add_right h₁.vertexCount_le 1)
          · intro u hu
            rw [List.mem_append, List.mem_singleton] at hu
            obtain hu | hu := hu
            · exact h₂.keeps u (by rw [hsame, hinputs]; simp [hu]) (h₁.hangsGreen u hu)
            · rw [hu]
              exact h₂.hangsGreen
          · rintro f ⟨rfl, hfull⟩
            have hdone := h₁.vertexCount_le
            refine .inr ⟨rfl, ?_⟩
            unfold Crowded
            dsimp only at hdone
            omega
        · exact ⟨rfl, Nat.le_refl _, hfused, .refl _, .refl, fun _ hu => absurd hu List.not_mem_nil⟩
      refine hloop.imp fun w' h' => ⟨h'.circuit_eq, ⟨h'.fused, ?_⟩, ⟨x.2, hrewrites, h'.rewrites⟩,
        x.2, hrewrites, h'.pads⟩
      rw [← h'.rewrites.inputs_eq]
      exact h'.hangsGreen

end Workspace

end ZX
