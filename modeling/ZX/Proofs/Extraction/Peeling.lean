import Mathlib
import ZX.Proofs.Extraction.Padding
import ZX.Proofs.Extraction.Residue
import ZX.Proofs.Lines

/-!
# Peeling the outputs

Every output hands its qubit to the spider behind it, whose phase becomes a gate. This succeeds
unless an output hangs on no spider or two outputs hang on the same one.
-/
namespace ZX

open Finset Function

namespace Diagram

variable {g g' g'' : Diagram} {p u v k : ℕ} {e : EdgeKind}

/-- A spider lost its phase and took other coordinates. -/
structure Restyled (g : Diagram) (u : ℕ) (g' : Diagram) : Prop where
  consistent : g'.Consistent
  data?_eq : ∀ t, t ≠ u → g'.data? t = g.data? t
  kind?_eq : g'.kind? u = g.kind? u
  phase?_eq : g'.phase? u = some Phase.zero
  linksAt_eq : ∀ t, g'.linksAt t = g.linksAt t
  inputs_eq : g'.inputs = g.inputs
  outputs_eq : g'.outputs = g.outputs
  scalar_eq : g'.scalar = g.scalar

theorem restyled_setData {d : VertexData} (d' : VertexData) (hg : g.Consistent) (hd : g.data? u = some d)
    (hkind : d'.kind = d.kind) (hphase : d'.phase = Phase.zero) : Restyled g u (g.setData u d') where
  consistent := hg.setData d'
  data?_eq t ht := by rw [data?_setData d' (contains_of_data? hd), if_neg ht]
  kind?_eq := kind?_setData hd hkind
  phase?_eq := by rw [phase?_setData d' hd, if_pos rfl, hphase]
  linksAt_eq _ := linksAt_setData d'
  inputs_eq := rfl
  outputs_eq := rfl
  scalar_eq := rfl

namespace Restyled

theorem trans (h : Restyled g u g') (h' : Restyled g' u g'') : Restyled g u g'' where
  consistent := h'.consistent
  data?_eq t ht := (h'.data?_eq t ht).trans (h.data?_eq t ht)
  kind?_eq := h'.kind?_eq.trans h.kind?_eq
  phase?_eq := h'.phase?_eq
  linksAt_eq t := (h'.linksAt_eq t).trans (h.linksAt_eq t)
  inputs_eq := h'.inputs_eq.trans h.inputs_eq
  outputs_eq := h'.outputs_eq.trans h.outputs_eq
  scalar_eq := h'.scalar_eq.trans h.scalar_eq

theorem kind?_eq_all (h : Restyled g u g') (t : ℕ) : g'.kind? t = g.kind? t := by
  by_cases ht : t = u
  · rw [ht, h.kind?_eq]
  · rw [kind?, kind?, h.data?_eq t ht]

theorem edgeKind?_eq (h : Restyled g u g') (s t : ℕ) : g'.edgeKind? s t = g.edgeKind? s t :=
  edgeKind?_eq_of_linksAt (h.linksAt_eq s) t

theorem contains_eq (h : Restyled g u g') (t : ℕ) : g'.contains t = g.contains t := by
  rw [contains_eq_kind?_isSome, contains_eq_kind?_isSome, h.kind?_eq_all]

theorem turn_eq (h : Restyled g u g') {t : ℕ} (ht : t ≠ u) : g'.turn t = g.turn t := by
  rw [turn, turn, h.kind?_eq_all, phase?, phase?, h.data?_eq t ht]

end Restyled

theorem turn_of_phase_zero (hp : g.phase? v = some Phase.zero) : g.turn v = 1 := by
  by_cases hk : g.kind? v = some .boundary
  · exact turn_of_boundary hk
  · rw [turn_of_phase? hk hp, Phase.unit_zero]

theorem exists_restyled {d : VertexData} (hg : g.Consistent) (hd : g.data? u = some d) (x : Float) :
    ∃ g₀ g₁, g.setPhase u Phase.zero = .ok g₀ ∧ g₀.setQubit u x = .ok g₁ ∧ Restyled g u g₁ ∧
      g₁.qubit u = .ok x := by
  have hstyle := restyled_setData { d with phase := Phase.zero } hg hd rfl rfl
  have hd₀ : (g.setData u { d with phase := Phase.zero }).data? u =
      some { d with phase := Phase.zero } := by
    rw [data?_setData _ (contains_of_data? hd), if_pos rfl]
  refine ⟨_, _, setPhase_eq hd _, setQubit_eq hd₀ x,
    hstyle.trans (restyled_setData _ hstyle.consistent hd₀ rfl rfl),
    qubit_eq_ok.mpr ⟨{ d with phase := Phase.zero, qubit := x }, ?_, rfl⟩⟩
  rw [data?_setData _ (contains_of_data? hd₀), if_pos rfl]

/-- The qubit of an output, whose edge is cut, moves to the restyled spider. -/
theorem Restyled.hops {o : ℕ} (h : Restyled g u g') (hcut : EdgeSet g' u o none g'')
    (hg : g.Consistent) (hgreen : ∀ v, g.kind? v ≠ some .x) (ho : g.kind? o = some .boundary)
    (hu : u ∈ g.spiders) (hhang : g.HangsOn o u e) : Hops g o u e g'' := by
  have hkind : ∀ t, g''.kind? t = g.kind? t := fun t =>
    (hcut.recast.kind?_eq t).trans (h.kind?_eq_all t)
  have hedge : ∀ s t, g''.edgeKind? s t = if IsPair o u s t then none else g.edgeKind? s t := by
    intro s t
    rw [hcut.edgeKind?_eq, h.edgeKind?_eq]
    have hswap : IsPair u o s t ↔ IsPair o u s t := by
      unfold IsPair
      tauto
    simp only [hswap]
  have hsupport : g''.support = g.support := by
    ext t
    rw [mem_support, mem_support, hcut.contains_eq, h.contains_eq]
  have hspiders : g''.spiders = g.spiders := by
    ext t
    rw [mem_spiders, mem_spiders, hkind, hcut.contains_eq, h.contains_eq]
  have hou : g.edgeKind? o u = some e := by rw [hhang, if_pos rfl]
  constructor
  case consistent => exact hcut.consistent
  case green =>
    intro v
    rw [hkind]
    exact hgreen v
  case edge => exact hou
  case spider => exact hu
  case inputs_eq => rw [hcut.inputs_eq, h.inputs_eq]
  case scalar_eq => rw [hcut.scalar_eq, h.scalar_eq]
  case edgeKind?_eq => exact hedge
  case turn_eq =>
    intro v hv
    rw [hcut.turn_eq, h.turn_eq hv]
  case turn_target =>
    rw [hcut.turn_eq]
    exact turn_of_phase_zero h.phase?_eq
  case bare =>
    constructor
    · intro t
      rw [hedge]
      split
      case isTrue => rfl
      case isFalse hpair =>
        rw [hhang t, if_neg]
        intro ht
        exact hpair (ht ▸ isPair_self o u)
    · rw [hcut.turn_eq, h.turn_eq (hg.ne_of_edgeKind? hou), turn_of_boundary ho]
  case support_eq =>
    rw [hsupport]
    exact insert_eq_of_mem (mem_support.mpr (contains_of_kind? ho))
  case spiders_eq =>
    rw [hspiders, erase_eq_of_notMem]
    intro hmem
    exact (mem_spiders.mp hmem).2 ho

/-- Some output hangs on no spider or shares its spider with another output. -/
def Clashes (g : Diagram) : Prop :=
  ∃ o ∈ g.outputs, ∃ v e, g.HangsOn o v e ∧
    (g.kind? v ≠ some .z ∨ ∃ o' ∈ g.outputs, o' ≠ o ∧ ∃ e', g.HangsOn o' v e')

end Diagram

namespace Workspace

open Diagram

variable {g : Diagram} {P : List ℕ} {w w' : Workspace} {n q o v : ℕ} {e : EdgeKind}

/-- The first outputs have been peeled, and their qubits are held by the spiders `P`. -/
structure Peeled (g : Diagram) (n : ℕ) (P : List ℕ) (w : Workspace) : Prop where
  consistent : w.diagram.Consistent
  inputs_eq : w.diagram.inputs = g.inputs
  outputs_eq : w.diagram.outputs = g.outputs
  scalar_eq : w.diagram.scalar = g.scalar
  width_eq : w.circuit.width = n
  kind?_eq : ∀ v, w.diagram.kind? v = g.kind? v
  data?_eq : ∀ v, v ∉ P → w.diagram.data? v = g.data? v
  edgeKind?_eq : ∀ s t, w.diagram.edgeKind? s t =
    if s ∈ g.outputs.take P.length ∨ t ∈ g.outputs.take P.length then none else g.edgeKind? s t
  frontier_eq : w.frontier = P.zipIdx.map Prod.swap
  nodup : P.Nodup
  length_le : P.length ≤ g.outputs.length
  hangs : ∀ q v : ℕ, P[q]? = some v →
    g.kind? v = some .z ∧ ∃ o e, g.outputs[q]? = some o ∧ g.HangsOn o v e
  phase?_eq : ∀ v ∈ P, w.diagram.phase? v = some Phase.zero
  line : ∀ q v : ℕ, P[q]? = some v → ∃ x, w.diagram.qubit v = .ok x ∧ Decimal.OnLine q x
  leads : Leads g.outputs.length g g.outputs w.circuit.gates w.diagram
    (P ++ g.outputs.drop P.length)

theorem exists_of_mem_take {l : List ℕ} {i : ℕ} (hv : v ∈ l.take i) :
    ∃ j < i, l[j]? = some v := by
  obtain ⟨j, hj, rfl⟩ := List.mem_take_iff_getElem.mp hv
  exact ⟨j, by omega, List.getElem?_eq_getElem (by omega)⟩

namespace Peeled

theorem refl (hg : g.WellFormed) {c : Circuit} (hc : c.gates = []) :
    Peeled g c.width [] ⟨g, c, []⟩ where
  consistent := hg.toConsistent
  inputs_eq := rfl
  outputs_eq := rfl
  scalar_eq := rfl
  width_eq := rfl
  kind?_eq _ := rfl
  data?_eq _ _ := rfl
  edgeKind?_eq s t := by simp
  frontier_eq := rfl
  nodup := List.nodup_nil
  length_le := Nat.zero_le _
  hangs := by simp
  phase?_eq := by simp
  line := by simp
  leads := by
    rw [hc]
    exact Leads.refl _ _ _

/-- The vertices that hold the qubits are distinct. -/
theorem nodup_holders (h : Peeled g n P w) (hg : g.WellFormed) :
    (P ++ g.outputs.drop P.length).Nodup := by
  refine List.nodup_append.mpr ⟨h.nodup, ?_, fun v hv o ho hvo => ?_⟩
  · exact (List.nodup_append.mp hg.nodup_ends).2.1.sublist (List.drop_sublist _ _)
  · subst hvo
    obtain ⟨q, hq⟩ := List.mem_iff_getElem?.mp hv
    have hb := hg.kind?_output (List.mem_of_mem_drop ho)
    rw [(h.hangs q v hq).1] at hb
    cases hb

theorem frontierQubit?_isSome (h : Peeled g n P w) : (w.frontierQubit? v).isSome ↔ v ∈ P := by
  rw [frontierQubit?, Option.isSome_map, List.find?_isSome, h.frontier_eq]
  simp only [List.mem_map, decide_eq_true_eq]
  constructor
  · intro hv
    obtain ⟨_, ⟨⟨p, i⟩, hp, rfl⟩, rfl⟩ := hv
    exact List.mem_of_getElem? (List.mem_zipIdx_iff_getElem?.mp hp)
  · intro hv
    obtain ⟨i, hi⟩ := List.mem_iff_getElem?.mp hv
    exact ⟨(i, v), ⟨(v, i), List.mem_zipIdx_iff_getElem?.mpr hi, rfl⟩, rfl⟩

/-- The next output still hangs on its vertex, which is none of the peeled outputs. -/
theorem hangsOn_next (h : Peeled g n P w) (hg : g.WellFormed) (ho : g.outputs[P.length]? = some o)
    (hhang : g.HangsOn o v e) : w.diagram.HangsOn o v e := by
  have hnodup := (List.nodup_append.mp hg.nodup_ends).2.1
  have hoi : o ∉ g.outputs.take P.length := by
    intro hmem
    obtain ⟨j, hjlt, hj⟩ := exists_of_mem_take hmem
    have := eq_of_getElem? hnodup hj ho
    omega
  have hvi : v ∉ g.outputs.take P.length := by
    intro hmem
    obtain ⟨j, hjlt, hj⟩ := exists_of_mem_take hmem
    obtain ⟨hz, o', e', ho', hhang'⟩ := h.hangs j P[j] (List.getElem?_eq_getElem hjlt)
    cases hj.symm.trans ho'
    have hback : g.edgeKind? v o = some e := by
      rw [hg.toConsistent.edgeKind?_comm, hhang, if_pos rfl]
    rw [← (hhang'.eq_of_edgeKind? hback).1,
      hg.kind?_output (List.mem_of_getElem? ho)] at hz
    cases hz
  intro t
  rw [h.edgeKind?_eq, hhang t]
  by_cases ht : t = v
  · subst ht
    simp [hoi, hvi]
  · simp [ht]

/-- Peeling one more output, the gates of its wire being `new`. -/
theorem step (h : Peeled g n P w) (hg : g.Fused) (ho : g.outputs[P.length]? = some o)
    (hhang : g.HangsOn o v e) (hz : g.kind? v = some .z) (hv : v ∉ P) {g₁ g₂ : Diagram}
    (hstyle : Restyled w.diagram v g₁) (hcut : EdgeSet g₁ v o none g₂) {x : Float}
    (hx : g₂.qubit v = .ok x) (hline : Decimal.OnLine P.length x) {c : Circuit}
    (hwidth : c.width = n) {new : List Gate} (hc : c.gates = new ++ w.circuit.gates)
    (hnew : Leads g.outputs.length w.diagram (P ++ g.outputs.drop P.length) new g₂
      ((P ++ g.outputs.drop P.length).set P.length v)) :
    Peeled g n (P ++ [v]) ⟨g₂, c, w.frontier ++ [(P.length, v)]⟩ := by
  have hlt := (List.getElem?_eq_some_iff.mp ho).1
  have hdata : ∀ t, t ≠ v → g₂.data? t = w.diagram.data? t := fun t ht =>
    (hcut.data?_eq t).trans (hstyle.data?_eq t ht)
  have htake : g.outputs.take (P.length + 1) = g.outputs.take P.length ++ [o] := by
    rw [List.take_add_one, ho]
    rfl
  have hdrop : g.outputs.drop P.length = o :: g.outputs.drop (P.length + 1) := by
    rw [← (List.getElem?_eq_some_iff.mp ho).2]
    exact List.drop_eq_getElem_cons hlt
  have hcases : ∀ q t, (P ++ [v])[q]? = some t → P[q]? = some t ∨ (q = P.length ∧ t = v) := by
    intro q t hq
    rw [List.getElem?_append] at hq
    split at hq
    case isTrue => exact .inl hq
    case isFalse hge =>
      obtain ⟨hlast, hvt⟩ := List.getElem?_eq_some_iff.mp hq
      rw [List.length_singleton] at hlast
      exact .inr ⟨by omega, by simpa using hvt.symm⟩
  constructor
  case consistent => exact hcut.consistent
  case inputs_eq => exact hcut.inputs_eq.trans (hstyle.inputs_eq.trans h.inputs_eq)
  case outputs_eq => exact hcut.outputs_eq.trans (hstyle.outputs_eq.trans h.outputs_eq)
  case scalar_eq => exact hcut.scalar_eq.trans (hstyle.scalar_eq.trans h.scalar_eq)
  case width_eq => exact hwidth
  case kind?_eq =>
    intro t
    exact (hcut.recast.kind?_eq t).trans ((hstyle.kind?_eq_all t).trans (h.kind?_eq t))
  case data?_eq =>
    intro t ht
    rw [List.mem_append, List.mem_singleton, not_or] at ht
    exact (hdata t ht.2).trans (h.data?_eq t ht.1)
  case edgeKind?_eq =>
    intro s t
    show g₂.edgeKind? s t = _
    rw [hcut.edgeKind?_eq, hstyle.edgeKind?_eq, h.edgeKind?_eq, List.length_append,
      List.length_singleton, htake]
    simp only [List.mem_append, List.mem_singleton]
    -- besides its edge to `v` the output has none
    have hrow : ∀ t, t ≠ v → g.edgeKind? o t = none := fun t ht => by rw [hhang, if_neg ht]
    have hcol : ∀ t, t ≠ v → g.edgeKind? t o = none := fun t ht => by
      rw [hg.toConsistent.edgeKind?_comm, hrow t ht]
    by_cases hs : s = o
    · subst hs
      by_cases ht : t = v
      · simp [IsPair, ht]
      · simp [hrow t ht]
    · by_cases ht : t = o
      · subst ht
        by_cases hsv : s = v
        · simp [IsPair, hsv]
        · simp [hcol s hsv]
      · have hpair : ¬IsPair v o s t := by
          unfold IsPair
          tauto
        simp [hpair, hs, ht]
  case frontier_eq =>
    show w.frontier ++ [(P.length, v)] = _
    rw [h.frontier_eq, List.zipIdx_append]
    simp
  case nodup => exact List.nodup_append.mpr ⟨h.nodup, List.nodup_singleton v, by
      intro a ha b hb hab
      rw [List.mem_singleton] at hb
      exact hv (hb ▸ hab ▸ ha)⟩
  case length_le =>
    rw [List.length_append, List.length_singleton]
    exact hlt
  case hangs =>
    intro q t hq
    obtain hq | ⟨rfl, rfl⟩ := hcases q t hq
    · exact h.hangs q t hq
    · exact ⟨hz, o, e, ho, hhang⟩
  case phase?_eq =>
    intro t ht
    by_cases htv : t = v
    · rw [htv]
      exact (hcut.phase?_eq v).trans hstyle.phase?_eq
    · rw [List.mem_append, List.mem_singleton] at ht
      rw [phase?, hdata t htv]
      exact h.phase?_eq t (ht.resolve_right htv)
  case line =>
    intro q t hq
    obtain hq | ⟨rfl, rfl⟩ := hcases q t hq
    · obtain ⟨y, hy, hyline⟩ := h.line q t hq
      refine ⟨y, ?_, hyline⟩
      have htv : t ≠ v := fun hc => hv (hc ▸ List.mem_of_getElem? hq)
      exact qubit_congr (hdata t htv) hy
    · exact ⟨x, hx, hline⟩
  case leads =>
    have hset : (P ++ g.outputs.drop P.length).set P.length v =
        P ++ [v] ++ g.outputs.drop (P ++ [v]).length := by
      rw [hdrop, List.set_append_right _ _ le_rfl, Nat.sub_self, List.set_cons_zero]
      simp
    rw [hset] at hnew
    have hall := h.leads.trans hnew
    rwa [← hc] at hall

end Peeled

/-- A refusal of an output that hangs on no spider, or of a spider that two outputs share. -/
def IsMisfit (e : Halt) : Prop :=
  (∃ o left, e = .failure (.misfit (.outputWithoutSpider o)) left) ∨
    ∃ v left, e = .failure (.misfit (.sharedSpider v)) left

/-- An output that hangs on a spider of its own can be peeled. -/
theorem Peeled.exists_step (h : Peeled g n P w) (hg : g.Fused)
    (ho : g.outputs[P.length]? = some o) (hhang : g.HangsOn o v e) (hz : g.kind? v = some .z)
    (hv : v ∉ P) :
    ∃ w', (w.peelOutput P.length o).outcome = .ok w' ∧ Peeled g n (P ++ [v]) w' := by
  have hlt := (List.getElem?_eq_some_iff.mp ho).1
  have hmem := List.mem_of_getElem? ho
  have hbo : w.diagram.kind? o = some .boundary :=
    (h.kind?_eq o).trans (hg.kind?_output hmem)
  have hzw : w.diagram.kind? v = some .z := (h.kind?_eq v).trans hz
  have hhang' := h.hangsOn_next hg.toWellFormed ho hhang
  have he : w.diagram.edgeKind? o v = some e := by rw [hhang', if_pos rfl]
  have hlinks : w.diagram.links o = .ok [(v, e)] := by
    rw [links_of_contains (contains_of_kind? hbo), h.consistent.hangsOn_iff.mp hhang']
  have hfree : (w.frontierQubit? v).isSome = false := by
    rw [Bool.eq_false_iff]
    exact fun hc => hv (h.frontierQubit?_isSome.mp hc)
  obtain ⟨d, hd⟩ := contains_iff_data?.mp (h.consistent.contains_far he)
  obtain ⟨g₀, g₁, hset₀, hset₁, hstyle, hqubit⟩ :=
    exists_restyled h.consistent hd (Float.ofNat P.length)
  obtain ⟨g₂, hremove, hcut⟩ := removeEdge_edgeSet (g := g₁) (s := v) (t := o) (e := e)
    hstyle.consistent (by rw [hstyle.edgeKind?_eq, h.consistent.edgeKind?_comm, he])
  have hx : g₂.qubit v = .ok (Float.ofNat P.length) := qubit_congr (hcut.data?_eq v) hqubit
  have hspider : v ∈ w.diagram.spiders :=
    mem_spiders.mpr ⟨contains_of_data? hd, by rw [hzw]; simp⟩
  have hgreen : ∀ u, w.diagram.kind? u ≠ some .x := fun u => by
    rw [h.kind?_eq]
    exact hg.green u
  have hhops := hstyle.hops hcut h.consistent hgreen hbo hspider hhang'
  have hheld : (P ++ g.outputs.drop P.length)[P.length]? = some o := by
    rw [List.getElem?_append_right le_rfl, Nat.sub_self, List.getElem?_drop, Nat.add_zero, ho]
  have hoin : o ∉ w.diagram.inputs := by
    rw [h.inputs_eq]
    exact fun hc => (List.nodup_append.mp hg.nodup_ends).2.2 o hc o hmem rfl
  have hends : v ∉ g.inputs ++ g.outputs := by
    intro hc
    rw [hg.mem_ends.mp hc] at hz
    cases hz
  rw [List.mem_append, not_or] at hends
  have hvin : v ∉ w.diagram.inputs := by
    rw [h.inputs_eq]
    exact hends.1
  have hvA : v ∉ P ++ g.outputs.drop P.length := by
    rw [List.mem_append, not_or]
    exact ⟨hv, fun hc => hends.2 (List.mem_of_mem_drop hc)⟩
  have hturn : w.diagram.turn v = d.phase.unit :=
    turn_of_phase? (by rw [hzw]; simp) (phase?_eq_some.mpr ⟨d, hd, rfl⟩)
  have hline := Decimal.onLine_ofNat P.length
  have hholders := h.nodup_holders hg.toWellFormed
  unfold peelOutput
  simp only [Run.outcome_bind, outcome_lift_except, hlinks, kind_of_kind? hzw, Except.mapError,
    Except.bind, ne_eq, not_true_eq_false, if_false, hfree, Bool.false_eq_true]
  cases e with
  | plain =>
      have hnew := hhops.leads_plain h.consistent hgreen hholders hheld hoin hvin hvA hturn hlt
      refine ⟨_, ?_, h.step (c := w.circuit.pushFront ⟨.zPhase, [P.length], d.phase⟩) hg ho hhang hz
        hv hstyle hcut hx hline h.width_eq rfl hnew⟩
      simp only [reduceCtorEq, if_false, emit, phase_of_data? hd, hset₀, hset₁, hremove]
      rfl
  | hadamard =>
      have hnew := hhops.leads_hadamard h.consistent hgreen hholders hheld hoin hvin hvA hturn hlt
      refine ⟨_, ?_, h.step (c := (w.circuit.pushFront (.plain .had [P.length])).pushFront
        ⟨.zPhase, [P.length], d.phase⟩) hg ho hhang hz hv hstyle hcut hx hline h.width_eq rfl hnew⟩
      simp only [if_true, emit, phase_of_data? hd, hset₀, hset₁, hremove]
      rfl

theorem peelOutput_ends (h : Peeled g n P w) (hg : g.Fused)
    (ho : g.outputs[P.length]? = some o) :
    Ends (w.peelOutput P.length o).outcome (fun w' => ∃ v, Peeled g n (P ++ [v]) w')
      fun e => IsMisfit e ∧ g.Clashes := by
  have hmem := List.mem_of_getElem? ho
  have hbo : g.kind? o = some .boundary := hg.kind?_output hmem
  obtain ⟨v, e, hhang⟩ := hg.exists_hangsOn hbo
  by_cases hclash : g.kind? v = some .z ∧ v ∉ P
  · obtain ⟨w', hok, hw'⟩ := h.exists_step hg ho hhang hclash.1 hclash.2
    rw [hok]
    exact Ends.ok_iff.mpr ⟨v, hw'⟩
  · have hhang' := h.hangsOn_next hg.toWellFormed ho hhang
    have he : w.diagram.edgeKind? o v = some e := by rw [hhang', if_pos rfl]
    have hlinks : w.diagram.links o = .ok [(v, e)] := by
      rw [links_of_contains (h.consistent.contains_left he), h.consistent.hangsOn_iff.mp hhang']
    obtain ⟨κ, hκ⟩ := exists_kind? (h.consistent.contains_far he)
    have hκ' : g.kind? v = some κ := (h.kind?_eq v).symm.trans hκ
    unfold peelOutput
    simp only [Run.outcome_bind, outcome_lift_except, hlinks, kind_of_kind? hκ, Except.mapError,
      Except.bind]
    by_cases hz : κ = .z
    · have hvP : v ∈ P := by
        by_contra hc
        exact hclash ⟨hκ'.trans (congrArg some hz), hc⟩
      rw [if_neg (not_not.mpr hz), if_pos (h.frontierQubit?_isSome.mpr hvP)]
      obtain ⟨q, hq⟩ := List.mem_iff_getElem?.mp hvP
      obtain ⟨-, o', e', ho', hhang₂⟩ := h.hangs q v hq
      refine Ends.error_iff.mpr ⟨.inr ⟨_, _, rfl⟩, o, hmem, v, e, hhang, .inr
        ⟨o', List.mem_of_getElem? ho', fun hc => ?_, e', hhang₂⟩⟩
      subst hc
      have hnodup := (List.nodup_append.mp hg.nodup_ends).2.1
      have := eq_of_getElem? hnodup ho ho'
      have := (List.getElem?_eq_some_iff.mp hq).1
      omega
    · rw [if_pos hz]
      refine Ends.error_iff.mpr ⟨.inl ⟨_, _, rfl⟩, o, hmem, v, e, hhang, .inl ?_⟩
      rw [hκ']
      exact fun hc => hz (Option.some.inj hc)

/-- All outputs can be peeled, unless two of them clash. -/
theorem peelOutputs_ends {c : Circuit} (hg : g.Fused) (hc : c.gates = []) (F : List FrontierEntry) :
    Ends (peelOutputs ⟨g, c, F⟩).outcome
      (fun w => ∃ P, P.length = g.outputs.length ∧ Peeled g c.width P w)
      fun e => IsMisfit e ∧ g.Clashes := by
  unfold peelOutputs
  rw [Run.outcome_foldlM]
  have hloop := Ends.foldlM_done (l := g.outputs.zipIdx)
    (f := fun w (x : ℕ × ℕ) => (peelOutput w x.2 x.1).outcome) (b := ⟨g, c, []⟩)
    (I := fun done w => ∃ P, P.length = done.length ∧ Peeled g c.width P w)
    (E := fun e => IsMisfit e ∧ g.Clashes) ?_ ⟨[], rfl, Peeled.refl hg.toWellFormed hc⟩
  · refine hloop.imp fun w hw => ?_
    rwa [List.length_zipIdx] at hw
  · intro done x rest w hsplit hw
    obtain ⟨P, hlen, hP⟩ := hw
    have hx : g.outputs.zipIdx[done.length]? = some x := by
      rw [hsplit, List.getElem?_append_right le_rfl, Nat.sub_self]
      rfl
    rw [List.getElem?_zipIdx, Nat.zero_add] at hx
    obtain ⟨o, ho, rfl⟩ := Option.map_eq_some_iff.mp hx
    rw [← hlen] at ho ⊢
    refine (peelOutput_ends hP hg ho).imp fun w' hw' => ?_
    obtain ⟨v, hv⟩ := hw'
    exact ⟨P ++ [v], by simp [hlen], hv⟩

end Workspace

end ZX
