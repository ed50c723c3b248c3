import Mathlib
import ZX.Circuit.Diagram
import ZX.Proofs.Arena.Frame
import ZX.Proofs.Drawing.Readout
import ZX.Proofs.Extraction.Padding

/-!
# Extending the wire of a qubit

Every gate turns the outputs of its qubits into spiders and plugs fresh outputs in behind them. The
summand of the extended diagram is that of the old one, seen as a state of the vertices, with the
operators of the gate on the vertex that was the output. So the image of an input changes by the
same operators on the qubit.
-/
namespace ZX

open Finset Function State

namespace Diagram

variable {g g' : Diagram} {q s t u v w out : ℕ} {k : VertexKind} {e f wire : EdgeKind} {p : Phase}
  {V : Finset ℕ} {ω : ℕ → ℂ} {a x : ℕ → Bool}

/-- `g'` is `g` with the output `v` of qubit `q` turned into a spider behind the given wire, and with
the fresh output `out` behind the spider. -/
structure Extended (g : Diagram) (q : ℕ) (k : VertexKind) (wire : EdgeKind) (p : Phase) (v out : ℕ)
    (g' : Diagram) : Prop where
  consistent : g'.Consistent
  fresh : g.contains out = false
  held : g.outputs[q]? = some v
  kind?_eq : ∀ u, g'.kind? u =
    if u = out then some .boundary else if u = v then some k else g.kind? u
  phase?_eq : ∀ u, g'.phase? u =
    if u = out then some Phase.zero else if u = v then some p else g.phase? u
  edgeKind?_eq : ∀ s t, g'.edgeKind? s t =
    if IsPair v out s t then some .plain
    else if s = v ∨ t = v then (g.edgeKind? s t).map wire.through
    else g.edgeKind? s t
  inputs_eq : g'.inputs = g.inputs
  outputs_eq : g'.outputs = g.outputs.set q out
  scalar_eq : g'.scalar = g.scalar
  line?_eq : ∀ u, g'.line? u = if u = out then some (Float.ofNat q) else g.line? u
  vertexCount_eq : g'.vertexCount = g.vertexCount + 1
  edgeCount_eq : g'.edgeCount = g.edgeCount + 1
  size_le : g.slots.size ≤ 2 ^ 57 → g'.slots.size ≤ 2 ^ 57

/-- A boundary has one edge, so to pass it through a wire is to pass all edges through the wire. -/
theorem HangsOn.through_eq (hg : g.Consistent) (h : g.HangsOn v w e) (wire : EdgeKind) (s t : ℕ) :
    (if IsPair v w s t then some (wire.through e) else g.edgeKind? s t) =
      if s = v ∨ t = v then (g.edgeKind? s t).map wire.through else g.edgeKind? s t := by
  have hvw : v ≠ w := hg.ne_of_edgeKind? (by rw [h, if_pos rfl])
  by_cases hs : s = v
  · rw [if_pos (c := s = v ∨ t = v) (.inl hs), hs, h]
    by_cases ht : t = w
    · rw [if_pos (by simp [IsPair, ht]), if_pos ht, Option.map_some]
    · rw [if_neg (by simp [IsPair, ht, hvw]), if_neg ht, Option.map_none]
  · by_cases ht : t = v
    · rw [if_pos (c := s = v ∨ t = v) (.inr ht), ht, hg.edgeKind?_comm, h]
      by_cases hsw : s = w
      · rw [if_pos (by simp [IsPair, hsw]), if_pos hsw, Option.map_some]
      · rw [if_neg (by simp [IsPair, hsw, hs]), if_neg hsw, Option.map_none]
    · rw [if_neg (by simp [IsPair, hs, ht]), if_neg (by simp [hs, ht])]

/-- A wire is put on an edge by toggling it or by leaving it alone. -/
theorem exists_through (hg : g.Consistent) (he : g.edgeKind? s t = some e) (wire : EdgeKind) :
    ∃ g', (wire = .plain → g = g') ∧ (wire = .hadamard → g.toggleEdge s t = .ok g') ∧
      EdgeSet g s t (some (wire.through e)) g' ∧ Relinked s t 0 0 g g' := by
  cases wire with
  | plain =>
      refine ⟨g, fun _ => rfl, (fun hc => by cases hc), ?_, relinked_edgeCount s t rfl⟩
      have h := EdgeSet.same hg s t
      rwa [he] at h
  | hadamard =>
      obtain ⟨g', hok, h⟩ := toggleEdge_edgeSet hg he
      exact ⟨g', (fun hc => by cases hc), fun _ => hok, h,
        ((toggleEdge_rekinded g s t).of_eq_ok hok).toRelinked⟩

theorem extendWire_extended (hg : g.WellFormed) (hq : g.outputs[q]? = some v) (k : VertexKind)
    (wire : EdgeKind) (p : Phase) :
    Ends (g.extendWire q k wire p)
      (fun r => r.1 = some v ∧ ∃ out, Extended g q k wire p v out r.2)
      (fun f => f = .tooLarge ∧ 2 ^ 57 ≤ g.vertexCount) := by
  have hcons := hg.toConsistent
  have hvk : g.kind? v = some .boundary := hg.kind?_output (List.mem_of_getElem? hq)
  have hvc := contains_of_kind? hvk
  obtain ⟨d, hd, -⟩ := kind?_eq_some.mp hvk
  obtain ⟨w, e, hhang⟩ := hg.exists_hangsOn hvk
  have hvw : g.edgeKind? v w = some e := by rw [hhang, if_pos rfl]
  have hlinks := hcons.hangsOn_iff.mp hhang
  set d₁ : VertexData := { d with kind := k }
  set d₂ : VertexData := { d₁ with phase := p }
  set d₃ : VertexData := ⟨.boundary, Phase.zero, Float.ofNat q, d.column + 1⟩ with hd₃
  have hrun : g.extendWire q k wire p = do
      let r ← (g.setData v d₂).addVertex d₃
      let g ← r.2.addEdge v r.1 .plain
      let g := { g with outputs := g.outputs.set q r.1 }
      if wire = .hadamard then return (some v, ← g.toggleEdge v w) else return (some v, g) := by
    have hkind : g.setKind v k = .ok (g.setData v d₁) := setKind_eq hd k
    have hdv₁ : (g.setData v d₁).data? v = some d₁ := by rw [data?_setData d₁ hvc, if_pos rfl]
    have hphase : (g.setData v d₁).setPhase v p = .ok (g.setData v d₂) :=
      (setPhase_eq hdv₁ p).trans (congrArg _ (setData_setData g v d₁ d₂))
    simp only [extendWire, hq, neighbours_of_contains hvc, column_of_data? hd, hlinks, List.map_cons,
      List.map_nil, List.head?_cons, hkind, hphase, ← hd₃, bind, Except.bind]
    cases wire <;> rfl
  rw [hrun]
  -- the spider and the fresh output
  refine (addVertex_ends (hcons.setData d₂) d₃).bind ?_
  rintro ⟨out, g₃⟩ ⟨h₃, hsize₃⟩
  dsimp only at h₃ hsize₃
  have hfresh : g.contains out = false := (contains_setData d₂).symm.trans h₃.fresh
  have hdata₃ : ∀ u, g₃.data? u = if u = out then some d₃ else if u = v then some d₂ else g.data? u :=
    fun u => (h₃.data?_eq u).trans (by rw [data?_setData d₂ hvc]; rfl)
  have hvout : v ≠ out := by
    intro hc
    rw [← hc, hvc] at hfresh
    cases hfresh
  have hedge₃ : ∀ s t, g₃.edgeKind? s t = g.edgeKind? s t := fun s =>
    edgeKind?_eq_of_linksAt ((h₃.linksAt_eq s).trans (linksAt_setData d₂))
  have hc₃ : ∀ u, g₃.contains u = true ↔ u = out ∨ g.contains u = true := by
    intro u
    rw [contains_eq_data?_isSome, hdata₃, contains_eq_data?_isSome]
    by_cases hu : u = out
    · simp [hu]
    · by_cases huv : u = v
      · simp [huv, hvout, hd]
      · simp [hu, huv]
  have hnone : g₃.edgeKind? v out = none := by
    rw [hedge₃, hcons.edgeKind?_comm, edgeKind?_eq_none_of_not_contains hfresh]
  obtain ⟨g₄, hok₄, h₄⟩ := addEdge_edgeSet h₃.consistent hvout ((hc₃ v).mpr (.inr hvc))
    ((hc₃ out).mpr (.inl rfl)) hnone .plain
  have hframe₄ := (addEdge_relinked g₃ v out .plain).of_eq_ok hok₄
  set g₅ : Diagram := { g₄ with outputs := g₄.outputs.set q out } with hg₅
  have hcons₅ : g₅.Consistent :=
    h₄.consistent.congr (fun _ => rfl) (fun _ => rfl) rfl rfl rfl rfl
  have hwout : w ≠ out := by
    intro hc
    have hwc := hcons.contains_far hvw
    rw [hc, hfresh] at hwc
    cases hwc
  have hedge₅ : ∀ s t, g₅.edgeKind? s t =
      if IsPair v out s t then some .plain else g.edgeKind? s t := by
    intro s t
    rw [← hedge₃, ← h₄.edgeKind?_eq]
    rfl
  have hvw₅ : g₅.edgeKind? v w = some e := by
    rw [hedge₅, if_neg (by simp [IsPair, hwout, hvout]), hvw]
  obtain ⟨g₆, hplain, hflip, h₆, hframe₆⟩ := exists_through hcons₅ hvw₅ wire
  have hdata : ∀ u, g₆.data? u =
      if u = out then some d₃ else if u = v then some d₂ else g.data? u := by
    intro u
    rw [h₆.data?_eq]
    exact (h₄.data?_eq u).trans (hdata₃ u)
  refine Ends.of_exists_ok ⟨(some v, g₆), ?_, rfl, out, ?_⟩
  · simp only [hok₄, ← hg₅, bind, Except.bind, pure, Except.pure]
    cases wire with
    | plain => rw [hplain rfl, if_neg (by decide)]
    | hadamard => simp only [hflip rfl, if_true]
  · constructor
    case consistent => exact h₆.consistent
    case fresh => exact hfresh
    case held => exact hq
    case kind?_eq =>
      intro u
      rw [kind?, hdata]
      split
      · rfl
      · split <;> rfl
    case phase?_eq =>
      intro u
      rw [phase?, hdata]
      split
      · rfl
      · split <;> rfl
    case edgeKind?_eq =>
      intro s t
      rw [h₆.edgeKind?_eq, hedge₅, ← hhang.through_eq hcons]
      by_cases hout : IsPair v out s t
      · rw [if_neg, if_pos hout, if_pos hout]
        rcases hout with ⟨rfl, rfl⟩ | ⟨rfl, rfl⟩ <;> simp [IsPair, hwout.symm, hvout.symm]
      · rw [if_neg hout, if_neg hout]
    case inputs_eq => exact h₆.inputs_eq.trans (h₄.inputs_eq.trans h₃.inputs_eq)
    case outputs_eq =>
      rw [h₆.outputs_eq]
      exact congrArg (·.set q out) (h₄.outputs_eq.trans h₃.outputs_eq)
    case scalar_eq => exact h₆.scalar_eq.trans (h₄.scalar_eq.trans h₃.scalar_eq)
    case line?_eq =>
      intro u
      rw [line?, hdata, line?]
      by_cases huv : u = v
      · subst huv
        rw [if_neg hvout, if_pos rfl, if_neg hvout, hd]
        rfl
      · rw [if_neg huv]
        split <;> rfl
    case vertexCount_eq => exact h₆.vertexCount_eq.trans (h₄.vertexCount_eq.trans h₃.vertexCount_eq)
    case edgeCount_eq =>
      exact hframe₆.edgeCount_eq.trans (hframe₄.edgeCount_eq.trans
        (congrArg (· + 1) h₃.edgeCount_eq))
    case size_le =>
      intro hsize
      rw [hframe₆.size_eq]
      exact hframe₄.size_eq.trans_le (hsize₃ ((size_modifyVertex _).trans_le hsize))

theorem WellFormed.held (hg : g.WellFormed) (hq : g.outputs[q]? = some v) :
    g.outputs.Nodup ∧ v ∉ g.inputs ∧ v ∉ g.spiders := by
  have hnodup := List.nodup_append.mp hg.nodup_ends
  have hv := List.mem_of_getElem? hq
  exact ⟨hnodup.2.1, fun hc => hnodup.2.2 v hc v hv rfl, fun hc =>
    (mem_spiders.mp hc).2 (hg.kind?_output hv)⟩

namespace Extended

theorem ne_out (h : Extended g q k wire p v out g') (hu : g.contains u = true) : u ≠ out := by
  intro heq
  have hfresh := h.fresh
  rw [← heq, hu] at hfresh
  cases hfresh

theorem kind?_held (h : Extended g q k wire p v out g') (hg : g.WellFormed) :
    g.kind? v = some .boundary :=
  hg.kind?_output (List.mem_of_getElem? h.held)

theorem contains_iff (h : Extended g q k wire p v out g') (hg : g.WellFormed) :
    g'.contains u = true ↔ u = out ∨ g.contains u = true := by
  rw [contains_eq_kind?_isSome, h.kind?_eq, contains_eq_kind?_isSome]
  by_cases hu : u = out
  · simp [hu]
  · by_cases huv : u = v
    · simp [huv ▸ hu, huv, h.kind?_held hg]
    · simp [hu, huv]

theorem support_eq (h : Extended g q k wire p v out g') (hg : g.WellFormed) :
    g'.support = insert out g.support := by
  ext u
  rw [mem_insert, mem_support, mem_support, h.contains_iff hg]

theorem spiders_eq (h : Extended g q k wire p v out g') (hg : g.WellFormed) (hk : k ≠ .boundary) :
    g'.spiders = insert v g.spiders := by
  have hvk := h.kind?_held hg
  have hvout := h.ne_out (contains_of_kind? hvk)
  ext u
  rw [mem_insert, mem_spiders, mem_spiders, h.contains_iff hg, h.kind?_eq]
  by_cases hu : u = out
  · simp [hu, hvout.symm, h.fresh]
  · by_cases huv : u = v
    · simp [huv, hvout, hk, contains_of_kind? hvk]
    · simp [hu, huv]

theorem turn_eq (h : Extended g q k wire p v out g') (hg : g.WellFormed) (hu : u ∈ g.spiders) :
    g'.turn u = g.turn u := by
  obtain ⟨huc, huk⟩ := mem_spiders.mp hu
  have huv : u ≠ v := by
    rintro rfl
    exact huk (h.kind?_held hg)
  have huout := h.ne_out huc
  rw [turn, turn, h.kind?_eq, h.phase?_eq, if_neg huout, if_neg huv, if_neg huout, if_neg huv]

theorem turn_held (h : Extended g q k wire p v out g') (hg : g.WellFormed) (hk : k ≠ .boundary) :
    g'.turn v = p.unit := by
  have hvout := h.ne_out (contains_of_kind? (h.kind?_held hg))
  refine turn_of_phase? ?_ ?_
  · rw [h.kind?_eq, if_neg hvout, if_pos rfl]
    simpa using hk
  · rw [h.phase?_eq, if_neg hvout, if_pos rfl]

/-- The fresh output hangs on the spider; the other boundaries hang where they did. -/
theorem hangsOn_out (h : Extended g q k wire p v out g') (hg : g.WellFormed) :
    g'.HangsOn out v .plain := by
  have hvout := h.ne_out (contains_of_kind? (h.kind?_held hg))
  intro u
  rw [h.edgeKind?_eq]
  by_cases hu : u = v
  · rw [if_pos (by simp [IsPair, hu]), if_pos hu]
  · rw [if_neg (by simp [IsPair, hu, hvout.symm]), if_neg hu, if_neg (by simp [hu, hvout.symm]),
      edgeKind?_eq_none_of_not_contains h.fresh]

theorem exists_hangsOn (h : Extended g q k wire p v out g') (huv : u ≠ v) (huout : u ≠ out)
    (hu : g.HangsOn u t e) : ∃ f, g'.HangsOn u t f := by
  refine ⟨if t = v then wire.through e else e, fun w => ?_⟩
  rw [h.edgeKind?_eq, if_neg (by simp [IsPair, huv, huout]), hu]
  by_cases hw : w = t
  · subst hw
    by_cases hwv : w = v <;> simp [huv, hwv]
  · simp [hw]

theorem wellFormed (h : Extended g q k wire p v out g') (hg : g.WellFormed) (hk : k ≠ .boundary) :
    g'.WellFormed := by
  have hvk := h.kind?_held hg
  have hvout := h.ne_out (contains_of_kind? hvk)
  have hnodup := List.nodup_append.mp hg.nodup_ends
  have houtk : g.kind? out ≠ some .boundary := by
    intro hc
    exact h.ne_out (contains_of_kind? hc) rfl
  have hvin := (hg.held h.held).2.1
  have houtin : out ∉ g.inputs ++ g.outputs := fun hc => houtk (hg.mem_ends.mp hc)
  rw [List.mem_append, not_or] at houtin
  have hkind : ∀ u, g'.kind? u = some .boundary ↔ u = out ∨ u ≠ v ∧ g.kind? u = some .boundary := by
    intro u
    rw [h.kind?_eq]
    by_cases hu : u = out
    · simp [hu]
    · by_cases huv : u = v <;> simp [hu, huv, hvout, hk]
  refine ⟨h.consistent, ?_, ?_, ?_, ?_⟩
  · intro u
    rw [hkind, ← hg.mem_ends, h.inputs_eq, h.outputs_eq, List.mem_append, List.mem_append,
      mem_set_iff hnodup.2.1 h.held]
    constructor
    · rintro (hu | hu | ⟨hu, huv⟩)
      · exact .inr ⟨ne_of_mem_of_not_mem hu hvin, .inl hu⟩
      · exact .inl hu
      · exact .inr ⟨huv, .inr hu⟩
    · rintro (hu | ⟨huv, hu | hu⟩)
      · exact .inr (.inl hu)
      · exact .inl hu
      · exact .inr (.inr ⟨hu, huv⟩)
  · rw [h.inputs_eq, h.outputs_eq, List.nodup_append]
    refine ⟨hnodup.1, hnodup.2.1.set houtin.2, ?_⟩
    rintro i hi o ho rfl
    rw [mem_set_iff hnodup.2.1 h.held] at ho
    rcases ho with rfl | ⟨ho, -⟩
    · exact houtin.1 hi
    · exact hnodup.2.2 i hi i ho rfl
  · intro u hu
    rw [h.phase?_eq]
    rcases (hkind u).mp hu with rfl | ⟨huv, hu⟩
    · rw [if_pos rfl]
    · rw [if_neg (h.ne_out (contains_of_kind? hu)), if_neg huv, hg.boundary_phase hu]
  · intro u hu
    have hhang : ∃ t f, g'.HangsOn u t f := by
      rcases (hkind u).mp hu with rfl | ⟨huv, hu⟩
      · exact ⟨v, .plain, h.hangsOn_out hg⟩
      · obtain ⟨t, e, hte⟩ := hg.exists_hangsOn hu
        exact ⟨t, h.exists_hangsOn huv (h.ne_out (contains_of_kind? hu)) hte⟩
    obtain ⟨t, f, htf⟩ := hhang
    rw [h.consistent.hangsOn_iff.mp htf]
    rfl

/-- The operators of the gate on the vertex that was the output. -/
theorem mass_eq (h : Extended g q k wire p v out g') (hg : g.WellFormed) (hk : k ≠ .boundary)
    (ω : ℕ → ℂ) :
    g'.mass g'.support (g'.restrain ω) =
      weigh (fun a => (EdgeKind.plain.tint (k = .x)).factor (a out) (a v))
        (rotate (ω v) v (cross (wire.tint (k = .x)) v (g.mass g.support (g.restrain ω)))) := by
  have hcons := hg.toConsistent
  have hvk := h.kind?_held hg
  have hvc := contains_of_kind? hvk
  have hvout := h.ne_out hvc
  have hvV : v ∈ g.support := mem_support.mpr hvc
  have houtV : out ∉ g.support := fun hc => h.ne_out (mem_support.mp hc) rfl
  obtain ⟨w, e, hhang⟩ := hg.exists_hangsOn hvk
  have hvw : g.edgeKind? v w = some e := by rw [hhang, if_pos rfl]
  have hwv : w ≠ v := (hcons.ne_of_edgeKind? hvw).symm
  have hwc := hcons.contains_far hvw
  have hwout := h.ne_out hwc
  set V := g.support.erase v
  have hvnot : v ∉ V := notMem_erase v _
  have hinsert : insert v V = g.support := insert_erase hvV
  have hwV : w ∈ V := mem_erase.mpr ⟨hwv, mem_support.mpr hwc⟩
  have hred : ∀ u, u ≠ out → u ≠ v → g'.isRed u = g.isRed u := by
    intro u huout huv
    rw [isRed, isRed, h.kind?_eq, if_neg huout, if_neg huv]
  have hredv : g'.isRed v = (k = .x : Bool) := by
    rw [isRed, h.kind?_eq, if_neg hvout, if_pos rfl]
    simp
  have hredout : g'.isRed out = false := by
    rw [isRed, h.kind?_eq, if_pos rfl]
    rfl
  have hredv' : g.isRed v = false := by
    rw [isRed, hvk]
    rfl
  have hVne : ∀ u ∈ V, u ≠ out ∧ u ≠ v := fun u hu =>
    ⟨h.ne_out (mem_support.mp (mem_of_mem_erase hu)), ne_of_mem_erase hu⟩
  funext a
  -- the rest of the diagram is the same
  have hrest : g'.mass V (g'.restrain ω) a = g.mass V (g.restrain ω) a := by
    refine mass_congr (by rw [h.scalar_eq]) (fun s hs t ht => ?_) (fun u hu => ?_) fun _ _ => rfl
    · obtain ⟨hsout, hsv⟩ := hVne s hs
      obtain ⟨htout, htv⟩ := hVne t ht
      have htinted : g'.tinted s t = g.tinted s t := by
        unfold tinted
        rw [hred s hsout hsv, hred t htout htv]
      rw [wire?, wire?, htinted, h.edgeKind?_eq, if_neg (by simp [IsPair, hsv, hsout]),
        if_neg (by simp [hsv, htv])]
    · obtain ⟨huout, huv⟩ := hVne u hu
      rw [restrain, restrain, h.kind?_eq, if_neg huout, if_neg huv]
  have hout : g'.around g.support out (a out) a =
      (EdgeKind.plain.tint (k = .x)).factor (a out) (a v) := by
    rw [around_of_single hvV fun u _ => h.hangsOn_out hg u, tinted, hredout, hredv]
    rfl
  have hspider : g'.around V v (a v) a =
      ((wire.tint (k = .x)).through (g.tinted v w e)).factor (a v) (a w) := by
    rw [around_of_single (w := w) (e := wire.through e) hwV]
    · rw [tinted, tinted, hredv, hredv', hred w hwout hwv]
      cases k <;> cases wire <;> cases g.isRed w <;> cases e <;> rfl
    · intro u hu
      rw [h.edgeKind?_eq, if_neg (by simp [IsPair, (hVne u hu).1, hvout]), if_pos (.inl rfl), hhang]
      by_cases huw : u = w <;> simp [huw]
  have hcross : cross (wire.tint (k = .x)) v (g.mass g.support (g.restrain ω)) a =
      ((wire.tint (k = .x)).through (g.tinted v w e)).factor (a v) (a w) *
        g.mass V (g.restrain ω) a := by
    rw [← cross_mass_boundary hcons hvk hhang, update_eq_self]
  have hweight : g'.restrain ω v = ω v := by
    rw [restrain, h.kind?_eq, if_neg hvout, if_pos rfl, if_neg (by simpa using hk)]
  have hweight' : g'.restrain ω out = 1 := by
    rw [restrain, h.kind?_eq, if_pos rfl, if_pos rfl]
  calc g'.mass g'.support (g'.restrain ω) a
      = spin 1 (a out) * g'.around g.support out (a out) a *
          g'.mass g.support (g'.restrain ω) a := by
        rw [h.support_eq hg, h.consistent.mass_insert houtV, hweight']
        rfl
    _ = (EdgeKind.plain.tint (k = .x)).factor (a out) (a v) *
          (spin (ω v) (a v) * g'.around V v (a v) a * g'.mass V (g'.restrain ω) a) := by
        rw [spin_one, one_mul, hout, ← hinsert, h.consistent.mass_insert hvnot, hweight]
        rfl
    _ = _ := by
        rw [hspider, hrest, weigh, rotate, weigh, hcross]
        ring

/-- The fresh output reads what the spider passes on. -/
theorem readout_eq (h : Extended g q k wire p v out g') (hg : g.WellFormed) (hk : k ≠ .boundary)
    {φ : State} (hφ : Ignores φ out) (x : ℕ → Bool) :
    readout g'.spiders g'.inputs g'.outputs x (weigh (fun a => e.factor (a out) (a v)) φ) =
      cross e q (readout g.spiders g.inputs g.outputs x φ) := by
  obtain ⟨hnodup, hvin, hvS⟩ := hg.held h.held
  have hends : out ∉ g.inputs ++ g.outputs := fun hc =>
    h.ne_out (contains_of_kind? (hg.mem_ends.mp hc)) rfl
  rw [List.mem_append, not_or] at hends
  have houtS : out ∉ g.spiders := fun hc => h.ne_out (mem_spiders.mp hc).1 rfl
  rw [h.spiders_eq hg hk, h.inputs_eq, h.outputs_eq]
  exact readout_release hnodup h.held hvin hvS hends.1 hends.2 houtS hφ

theorem image_eq (h : Extended g q k wire p v out g') (hg : g.WellFormed) (hk : k ≠ .boundary)
    (ω : ℕ → ℂ) (x : ℕ → Bool) :
    g'.image ω x = cross (EdgeKind.plain.tint (k = .x)) q
      (rotate (ω v) q (cross (wire.tint (k = .x)) q (g.image ω x))) := by
  obtain ⟨hnodup, hvin, hvS⟩ := hg.held h.held
  have hvout := h.ne_out (contains_of_kind? (h.kind?_held hg))
  have houtS : out ∉ g.support := fun hc => h.ne_out (mem_support.mp hc) rfl
  rw [image, h.mass_eq hg hk, h.readout_eq hg hk,
    readout_rotate hnodup h.held hvin hvS, readout_cross hnodup h.held hvin hvS]
  · rfl
  · exact ((mass_ignores houtS).cross hvout).rotate hvout

end Extended

end Diagram

end ZX
