import Mathlib
import ZX.Proofs.Extraction.Flow
import ZX.Proofs.Extraction.Peeling

/-!
# The frontier

During extraction a diagram consists of a rest, in which nothing has changed since the inputs were
normalised, of the spiders that hold the qubits, and of inputs that are tied to such spiders. The
spiders in front of the rest have no phase, and Hadamard edges join them to the rest. Their
neighbourhoods in the rest span the same space as the neighbourhoods of everything that has left it.

Cutting the edges between members of the frontier keeps all of this.
-/
namespace ZX

open Finset Function

namespace Diagram

variable {g D D' : Diagram} {U : Finset ℕ} {A N : List ℕ} {F : List FrontierEntry}
  {q s t u v w : ℕ} {e : EdgeKind}

/-- The wire of a qubit ends: it runs from the spider `v` straight to the input `b`. -/
structure Tied (g : Diagram) (U : Finset ℕ) (D : Diagram) (v b : ℕ) : Prop where
  input : b ∈ g.inputs
  done : b ∉ U
  hangs : D.HangsOn b v .plain
  hangs_back : D.HangsOn v b .plain

/-- What extraction has made of the diagram `g`: the rest `U` is as before, `A` lists the spiders
that hold the qubits, and of these only those in `N` may be adjacent to each other. -/
structure Laid (g : Diagram) (U : Finset ℕ) (A N : List ℕ) (F : List FrontierEntry)
    (D : Diagram) : Prop where
  consistent : D.Consistent
  inputs_eq : D.inputs = g.inputs
  outputs_eq : D.outputs = g.outputs
  scalar_eq : D.scalar = g.scalar
  contains_iff : ∀ v, D.contains v = true ↔
    v ∈ A ∨ v ∈ U ∨ v ∈ g.inputs ∨ v ∈ g.outputs ∨ v ∈ g.isolated
  data?_eq : ∀ v, v ∉ A → D.contains v = true → D.data? v = g.data? v
  subset : U ⊆ g.core
  nodup : A.Nodup
  length_eq : A.length = g.outputs.length
  green : ∀ v ∈ A, g.kind? v = some .z ∧ D.kind? v = some .z
  phase?_eq : ∀ v ∈ A, D.phase? v = some Phase.zero
  line : ∀ q v : ℕ, A[q]? = some v → ∃ x, D.qubit v = .ok x ∧ Decimal.OnLine q x
  left : ∀ v ∈ A, v ∉ U ∧ v ∉ g.isolated
  rest_eq : ∀ s ∈ U, ∀ t ∈ U, D.edgeKind? s t = g.edgeKind? s t
  rest_edge : ∀ {s t e}, D.edgeKind? s t = some e → s ∉ A → t ∉ A → s ∈ U ∧ t ∈ U
  edge : ∀ {v t e}, v ∈ A → D.edgeKind? v t = some e →
    (e = .hadamard ∧ (t ∈ U ∨ t ∈ A ∧ v ∈ N ∧ t ∈ N)) ∨
      (e = .plain ∧ t ∈ g.inputs ∧ ∃ q : ℕ, A[q]? = some v ∧ (q, t) ∈ F)
  input_edge : ∀ {b v}, b ∈ g.inputs → v ∈ A → D.edgeKind? v b = some .hadamard →
    ∀ p ∈ U, g.edgeKind? b p = none
  fst_eq : F.map Prod.fst = List.range A.length
  entry : ∀ {q w}, (q, w) ∈ F → ∃ v, A[q]? = some v ∧ (w = v ∨ Tied g U D v w)
  done : ∀ b ∈ g.inputs, b ∉ U → ∃ q, (q, b) ∈ F

namespace Laid

theorem kind?_eq (h : Laid g U A N F D) (hv : D.contains v = true) : D.kind? v = g.kind? v := by
  by_cases hvA : v ∈ A
  · rw [(h.green v hvA).1, (h.green v hvA).2]
  · rw [kind?, kind?, h.data?_eq v hvA hv]

theorem not_red (h : Laid g U A N F D) (hg : ∀ v, g.kind? v ≠ some .x) (v : ℕ) :
    D.kind? v ≠ some .x := by
  intro hv
  rw [h.kind?_eq (contains_of_kind? hv)] at hv
  exact hg v hv

theorem notMem_inputs (h : Laid g U A N F D) (hg : g.WellFormed) (hv : v ∈ A) : v ∉ g.inputs := by
  intro hin
  have hk := hg.kind?_input hin
  rw [(h.green v hv).1] at hk
  cases hk

theorem contains_anchor (h : Laid g U A N F D) (hv : v ∈ A) : D.contains v = true :=
  (h.contains_iff v).mpr (.inl hv)

theorem contains_rest (h : Laid g U A N F D) (hv : v ∈ U) : D.contains v = true :=
  (h.contains_iff v).mpr (.inr (.inl hv))

/-- The entry of qubit `q` stands at position `q`. -/
theorem mem_iff_getElem? (h : Laid g U A N F D) : (q, w) ∈ F ↔ F[q]? = some (q, w) := by
  constructor
  · intro hmem
    obtain ⟨i, hi⟩ := List.mem_iff_getElem?.mp hmem
    have hfst : (F.map Prod.fst)[i]? = some q := by rw [List.getElem?_map, hi]; rfl
    rw [h.fst_eq] at hfst
    obtain ⟨hlt, hiq⟩ := List.getElem?_eq_some_iff.mp hfst
    rw [List.getElem_range] at hiq
    rw [← hiq] at hi ⊢
    exact hi
  · exact List.mem_of_getElem?

theorem entry_unique (h : Laid g U A N F D) (hv : (q, v) ∈ F) (hw : (q, w) ∈ F) : v = w := by
  rw [h.mem_iff_getElem?] at hv hw
  rw [hv, Option.some_inj, Prod.mk.injEq] at hw
  exact hw.2

/-- A spider on the frontier has Hadamard edges only. -/
theorem edge_of_entry (h : Laid g U A N F D) (hg : g.WellFormed) (hq : A[q]? = some v)
    (hv : (q, v) ∈ F) (he : D.edgeKind? v t = some e) :
    e = .hadamard ∧ (t ∈ U ∨ t ∈ A ∧ v ∈ N ∧ t ∈ N) := by
  have hvA := List.mem_of_getElem? hq
  obtain hrest | ⟨-, htin, p, hp, hpt⟩ := h.edge hvA he
  · exact hrest
  · have hpq : p = q := (idxOf_of_getElem? h.nodup hp).symm.trans (idxOf_of_getElem? h.nodup hq)
    subst hpq
    have hvt := h.entry_unique hv hpt
    exact absurd (hvt ▸ htin) (h.notMem_inputs hg hvA)

/-- Other edges at the spiders that hold the qubits; nothing else changes. -/
theorem rewire {N' : List ℕ} (h : Laid g U A N F D) (hcons : D'.Consistent)
    (hdata : ∀ v, D'.data? v = D.data? v) (hin : D'.inputs = D.inputs)
    (hout : D'.outputs = D.outputs) (hscalar : D'.scalar = D.scalar)
    (hrest : ∀ s t, s ∉ A → t ∉ A → D'.edgeKind? s t = D.edgeKind? s t)
    (htied : ∀ v b, Tied g U D v b → Tied g U D' v b)
    (hedge : ∀ {v t e}, v ∈ A → D'.edgeKind? v t = some e →
      (e = .hadamard ∧ (t ∈ U ∨ t ∈ A ∧ v ∈ N' ∧ t ∈ N')) ∨
        (e = .plain ∧ t ∈ g.inputs ∧ ∃ q : ℕ, A[q]? = some v ∧ (q, t) ∈ F))
    (hinput : ∀ {b v}, b ∈ g.inputs → v ∈ A → D'.edgeKind? v b = some .hadamard →
      ∀ p ∈ U, g.edgeKind? b p = none) : Laid g U A N' F D' where
  consistent := hcons
  inputs_eq := hin.trans h.inputs_eq
  outputs_eq := hout.trans h.outputs_eq
  scalar_eq := hscalar.trans h.scalar_eq
  contains_iff v := by
    rw [contains_eq_data?_isSome, hdata, ← contains_eq_data?_isSome]
    exact h.contains_iff v
  data?_eq v hv hcont := by
    rw [contains_eq_data?_isSome, hdata, ← contains_eq_data?_isSome] at hcont
    rw [hdata]
    exact h.data?_eq v hv hcont
  subset := h.subset
  nodup := h.nodup
  length_eq := h.length_eq
  green v hv := by
    have hkind : D'.kind? v = D.kind? v := by rw [kind?, kind?, hdata]
    rw [hkind]
    exact h.green v hv
  phase?_eq v hv := by
    rw [phase?, hdata]
    exact h.phase?_eq v hv
  line q v hq := by
    obtain ⟨x, hx, hline⟩ := h.line q v hq
    exact ⟨x, qubit_congr (hdata v) hx, hline⟩
  left := h.left
  rest_eq s hs t ht := by
    rw [hrest s t (fun hc => (h.left s hc).1 hs) fun hc => (h.left t hc).1 ht]
    exact h.rest_eq s hs t ht
  rest_edge he hs ht := by
    rw [hrest _ _ hs ht] at he
    exact h.rest_edge he hs ht
  edge := hedge
  input_edge := hinput
  fst_eq := h.fst_eq
  entry hq := by
    obtain ⟨v, hv, hw⟩ := h.entry hq
    exact ⟨v, hv, hw.imp_right (htied _ _)⟩
  done := h.done

/-- The edges at a tied pair are the plain edge between its members. -/
theorem edge_of_tied (h : Tied g U D v w) (he : D.edgeKind? s t = some e)
    (hst : s = v ∨ s = w ∨ t = v ∨ t = w) (hcons : D.Consistent) : e = .plain := by
  have hflip := hcons.edgeKind?_comm t s
  rcases hst with rfl | rfl | rfl | rfl
  · exact (h.hangs_back.eq_of_edgeKind? he).2
  · exact (h.hangs.eq_of_edgeKind? he).2
  · exact (h.hangs_back.eq_of_edgeKind? (hflip.trans he)).2
  · exact (h.hangs.eq_of_edgeKind? (hflip.trans he)).2

/-- A change of edges none of which is at a tied pair leaves the pair tied. -/
theorem tied_congr (h : Tied g U D v w)
    (heq : ∀ t, D'.edgeKind? v t = D.edgeKind? v t ∧ D'.edgeKind? w t = D.edgeKind? w t) :
    Tied g U D' v w :=
  ⟨h.input, h.done, fun t => (heq t).2.trans (h.hangs t), fun t => (heq t).1.trans (h.hangs_back t)⟩

theorem cut (h : Laid g U A N F D) (hs : s ∈ A) (ht : t ∈ A)
    (he : D.edgeKind? s t = some .hadamard) (hcut : EdgeSet D s t none D') :
    Laid g U A N F D' := by
  have hsub : ∀ {a b f}, D'.edgeKind? a b = some f → D.edgeKind? a b = some f := by
    intro a b f hf
    rw [hcut.edgeKind?_eq] at hf
    split at hf
    case isTrue => cases hf
    case isFalse => exact hf
  refine h.rewire hcut.consistent hcut.data?_eq hcut.inputs_eq hcut.outputs_eq hcut.scalar_eq
    (fun a b ha hb => ?_) (fun v b htied => ?_) (fun hv hf => h.edge hv (hsub hf))
    fun hb hv hf => h.input_edge hb hv (hsub hf)
  · rw [hcut.edgeKind?_eq, if_neg]
    intro hpair
    obtain ⟨rfl, -⟩ | ⟨rfl, -⟩ := hpair
    · exact ha hs
    · exact ha ht
  · have hfree : ∀ a, a = v ∨ a = b → ∀ c, ¬IsPair s t a c := by
      intro a ha c hpair
      have hac : D.edgeKind? a c = some .hadamard := by
        obtain ⟨rfl, rfl⟩ | ⟨rfl, rfl⟩ := hpair
        · exact he
        · exact (h.consistent.edgeKind?_comm a c).trans he
      have := edge_of_tied htied hac (by tauto) h.consistent
      cases this
    refine tied_congr htied fun c => ⟨?_, ?_⟩
    · rw [hcut.edgeKind?_eq, if_neg (hfree v (.inl rfl) c)]
    · rw [hcut.edgeKind?_eq, if_neg (hfree b (.inr rfl) c)]

end Laid

theorem rowSpan_congr {X : Finset ℕ} (h : ∀ v ∈ X, ∀ t ∈ U, D'.edgeKind? v t = D.edgeKind? v t) :
    D'.rowSpan U X = D.rowSpan U X := by
  have hrow : Set.EqOn (D'.row U) (D.row U) X := fun v hv => row_congr (h v hv)
  rw [rowSpan, rowSpan, hrow.image_eq]

/-- Two families of neighbourhoods, one of them with some zeros in addition, have the same span. -/
theorem rowSpan_eq_of_zero {X Y : Finset ℕ} (hXY : ∀ v ∈ X, v ∈ Y ∧ D.row U v = g.row U v)
    (hY : ∀ v ∈ Y, v ∈ X ∨ g.row U v = 0) : D.rowSpan U X = g.rowSpan U Y := by
  apply le_antisymm
  · refine Submodule.span_le.mpr ?_
    intro y hy
    obtain ⟨v, hv, rfl⟩ := hy
    rw [(hXY v hv).2]
    exact row_mem_rowSpan (hXY v hv).1
  · refine Submodule.span_le.mpr ?_
    intro y hy
    obtain ⟨v, hv, rfl⟩ := hy
    obtain hvX | hzero := hY v hv
    · rw [← (hXY v hvX).2]
      exact row_mem_rowSpan hvX
    · rw [hzero]
      exact Submodule.zero_mem _

theorem mem_isolated (hg : g.Consistent) :
    v ∈ g.isolated ↔ v ∈ g.spiders ∧ ∀ t, g.edgeKind? v t = none := by
  rw [isolated, mem_filter, and_congr_right_iff]
  intro _
  constructor
  · intro h t
    rw [edgeKind?_eq_lookup, h]
    rfl
  · intro h
    refine List.eq_nil_iff_forall_not_mem.mpr fun l hl => ?_
    have he : g.edgeKind? v l.1 = some l.2 := hg.edgeKind?_iff.mpr hl
    rw [h] at he
    cases he

theorem mem_core_of_edge (hg : g.Consistent) (he : g.edgeKind? s t = some e) (hs : s ∉ g.outputs) :
    s ∈ g.core := by
  refine mem_filter.mpr ⟨mem_support.mpr (hg.contains_left he), hs, fun hiso => ?_⟩
  rw [((mem_isolated hg).mp hiso).2] at he
  cases he

end Diagram

namespace Workspace

open Diagram

variable {g : Diagram} {U : Finset ℕ} {A N P : List ℕ} {n q s t v : ℕ} {e : EdgeKind}
  {w w' : Workspace}

/-- A state of the extraction of `g`: the gates so far and the diagram that is left make up `g`, and
the rest `U` was reached by freeing vertices. -/
structure Reached (g : Diagram) (n : ℕ) (U : Finset ℕ) (A N : List ℕ) (w : Workspace) : Prop where
  laid : Laid g U A N w.frontier w.diagram
  leads : Leads g.outputs.length g g.outputs w.circuit.gates w.diagram A
  spans : w.diagram.rowSpan U A.toFinset = g.rowSpan U (g.spiders \ U)
  freed : Relation.ReflTransGen g.FreesOne (g.core \ g.fringe) U
  width_eq : w.circuit.width = n

namespace Peeled

theorem mem_iff_fringe (h : Peeled g n P w) (hlen : P.length = g.outputs.length) :
    v ∈ P ↔ v ∈ g.fringe := by
  constructor
  · intro hv
    obtain ⟨q, hq⟩ := List.mem_iff_getElem?.mp hv
    obtain ⟨hz, o, e, ho, hhang⟩ := h.hangs q v hq
    have he : g.edgeKind? o v = some e := by rw [hhang, if_pos rfl]
    refine mem_filter.mpr ⟨mem_spiders.mpr ⟨contains_of_kind? hz, by rw [hz]; simp⟩, o,
      List.mem_of_getElem? ho, ?_⟩
    rw [connected, he]
    rfl
  · intro hv
    obtain ⟨-, o, ho, hconn⟩ := mem_filter.mp hv
    obtain ⟨q, hq⟩ := List.mem_iff_getElem?.mp ho
    have hqlt : q < P.length := by
      rw [hlen]
      exact (List.getElem?_eq_some_iff.mp hq).1
    obtain ⟨-, o', e, ho', hhang⟩ := h.hangs q P[q] (List.getElem?_eq_getElem hqlt)
    cases hq.symm.trans ho'
    obtain ⟨f, hf⟩ := Option.isSome_iff_exists.mp hconn
    rw [(hhang.eq_of_edgeKind? hf).1]
    exact List.getElem_mem hqlt

theorem edgeKind?_eq_all (h : Peeled g n P w) (hlen : P.length = g.outputs.length) (s t : ℕ) :
    w.diagram.edgeKind? s t =
    if s ∈ g.outputs ∨ t ∈ g.outputs then none else g.edgeKind? s t := by
  rw [h.edgeKind?_eq, hlen, List.take_length]

theorem contains_eq (h : Peeled g n P w) (v : ℕ) : w.diagram.contains v = g.contains v := by
  rw [contains_eq_kind?_isSome, contains_eq_kind?_isSome, h.kind?_eq]

/-- A vertex of the diagram that is neither peeled nor an output belongs to the rest. -/
theorem mem_rest (h : Peeled g n P w) (hlen : P.length = g.outputs.length) (hg : g.WellFormed)
    (he : g.edgeKind? s t = some e) (hs : s ∉ g.outputs) (hsP : s ∉ P) : s ∈ g.core \ g.fringe :=
  mem_sdiff.mpr ⟨mem_core_of_edge hg.toConsistent he hs, fun hc =>
    hsP ((h.mem_iff_fringe hlen).mpr hc)⟩

theorem laid (h : Peeled g n P w) (hlen : P.length = g.outputs.length) (hg : g.Normal) :
    Laid g (g.core \ g.fringe) P P w.frontier w.diagram := by
  have hcons := hg.toConsistent
  have hedge : ∀ {s t e}, w.diagram.edgeKind? s t = some e →
      s ∉ g.outputs ∧ t ∉ g.outputs ∧ g.edgeKind? s t = some e := by
    intro s t e he
    rw [h.edgeKind?_eq_all hlen] at he
    split at he
    case isTrue => cases he
    case isFalse hout => exact ⟨fun hc => hout (.inl hc), fun hc => hout (.inr hc), he⟩
  have hz : ∀ v ∈ P, g.kind? v = some .z := by
    intro v hv
    obtain ⟨q, hq⟩ := List.mem_iff_getElem?.mp hv
    exact (h.hangs q v hq).1
  constructor
  case consistent => exact h.consistent
  case inputs_eq => exact h.inputs_eq
  case outputs_eq => exact h.outputs_eq
  case scalar_eq => exact h.scalar_eq
  case contains_iff =>
    intro v
    rw [h.contains_eq, h.mem_iff_fringe hlen, ← mem_support]
    constructor
    · intro hv
      by_cases hout : v ∈ g.outputs
      · tauto
      · by_cases hiso : v ∈ g.isolated
        · tauto
        · have hcore : v ∈ g.core := mem_filter.mpr ⟨hv, hout, hiso⟩
          rw [mem_sdiff]
          tauto
    · rintro (hv | hv | hv | hv | hv)
      · exact spiders_subset g (mem_filter.mp hv).1
      · exact (mem_filter.mp (mem_sdiff.mp hv).1).1
      · exact mem_support.mpr (contains_of_kind? (hg.kind?_input hv))
      · exact mem_support.mpr (contains_of_kind? (hg.kind?_output hv))
      · exact spiders_subset g (mem_filter.mp hv).1
  case data?_eq => exact fun v hv _ => h.data?_eq v hv
  case subset => exact sdiff_subset
  case nodup => exact h.nodup
  case length_eq => exact hlen
  case green => exact fun v hv => ⟨hz v hv, (h.kind?_eq v).trans (hz v hv)⟩
  case phase?_eq => exact h.phase?_eq
  case line => exact h.line
  case left =>
    intro v hv
    have hfringe := (h.mem_iff_fringe hlen).mp hv
    refine ⟨fun hc => (mem_sdiff.mp hc).2 hfringe, fun hiso => ?_⟩
    obtain ⟨-, o, -, hconn⟩ := mem_filter.mp hfringe
    rw [connected, hcons.edgeKind?_comm, ((mem_isolated hcons).mp hiso).2] at hconn
    cases hconn
  case rest_eq =>
    intro s hs t ht
    have hout : ∀ v ∈ g.core \ g.fringe, v ∉ g.outputs := fun v hv =>
      (mem_filter.mp (mem_sdiff.mp hv).1).2.1
    rw [h.edgeKind?_eq_all hlen, if_neg (by simp [hout s hs, hout t ht])]
  case rest_edge =>
    intro s t e he hs ht
    obtain ⟨hsout, htout, he⟩ := hedge he
    exact ⟨h.mem_rest hlen hg.toWellFormed he hsout hs,
      h.mem_rest hlen hg.toWellFormed ((hcons.edgeKind?_comm t s).trans he) htout ht⟩
  case edge =>
    intro v t e hv he
    obtain ⟨-, htout, he⟩ := hedge he
    refine .inl ⟨hg.edge_hadamard (hz v hv) htout he, ?_⟩
    by_cases ht : t ∈ P
    · exact .inr ⟨ht, hv, ht⟩
    · exact .inl (h.mem_rest hlen hg.toWellFormed ((hcons.edgeKind?_comm t v).trans he) htout ht)
  case input_edge =>
    intro b v hb hv he p hp
    obtain ⟨-, -, he⟩ := hedge he
    obtain ⟨a, -, ha⟩ := hg.input_hangs b hb
    have hav := (ha.eq_of_edgeKind? ((hcons.edgeKind?_comm b v).trans he)).1
    rw [ha p, if_neg]
    intro hpa
    refine (mem_sdiff.mp hp).2 ((h.mem_iff_fringe hlen).mp ?_)
    rw [hpa, ← hav]
    exact hv
  case fst_eq =>
    rw [h.frontier_eq, List.map_map]
    exact List.zipIdx_map_snd 0 P |>.trans (by rw [List.range_eq_range'])
  case entry =>
    intro q v hv
    rw [h.frontier_eq] at hv
    obtain ⟨⟨v', q'⟩, hmem, hswap⟩ := List.mem_map.mp hv
    cases hswap
    exact ⟨_, List.mem_zipIdx_iff_getElem?.mp hmem, .inl rfl⟩
  case done =>
    intro b hb hbU
    obtain ⟨p, hp, hhang⟩ := hg.input_hangs b hb
    have hbk := hg.kind?_input hb
    refine absurd (h.mem_rest (t := p) (e := .hadamard) hlen hg.toWellFormed ?_ ?_ ?_) hbU
    · rw [hhang, if_pos rfl]
    · exact fun hc => (List.nodup_append.mp hg.nodup_ends).2.2 b hb b hc rfl
    · intro hc
      rw [hz b hc] at hbk
      cases hbk

theorem reached (h : Peeled g n P w) (hlen : P.length = g.outputs.length) (hg : g.Normal) :
    Reached g n (g.core \ g.fringe) P P w where
  laid := h.laid hlen hg
  leads := by
    have hleads := h.leads
    rwa [hlen, List.drop_length, List.append_nil] at hleads
  spans := by
    have hmem : ∀ v ∈ P.toFinset, v ∈ g.fringe := fun v hv =>
      (h.mem_iff_fringe hlen).mp (List.mem_toFinset.mp hv)
    refine rowSpan_eq_of_zero (fun v hv => ⟨?_, row_congr fun t ht => ?_⟩) fun v hv => ?_
    · refine mem_sdiff.mpr ⟨(mem_filter.mp (hmem v hv)).1, fun hc => ?_⟩
      exact (mem_sdiff.mp hc).2 (hmem v hv)
    · have hvout : v ∉ g.outputs := fun hc =>
        (mem_spiders.mp (mem_filter.mp (hmem v hv)).1).2 (hg.kind?_output hc)
      have htout : t ∉ g.outputs := (mem_filter.mp (mem_sdiff.mp ht).1).2.1
      rw [h.edgeKind?_eq_all hlen, if_neg (by simp [hvout, htout])]
    · rw [mem_sdiff, mem_sdiff, not_and_or, not_not] at hv
      obtain ⟨hspider, hcore | hfringe⟩ := hv
      · right
        have hiso : v ∈ g.isolated := by
          by_contra hc
          refine hcore (mem_filter.mpr ⟨spiders_subset g hspider, fun hout => ?_, hc⟩)
          exact (mem_spiders.mp hspider).2 (hg.kind?_output hout)
        funext t
        rw [row, connected, ((mem_isolated hg.toConsistent).mp hiso).2]
        simp
      · exact .inl (List.mem_toFinset.mpr ((h.mem_iff_fringe hlen).mpr hfringe))
  freed := .refl
  width_eq := h.width_eq

end Peeled

/-! ## Cutting edges inside the frontier -/

/-- An edge between two entries of the frontier joins two spiders, unless it is plain. -/
theorem Reached.mem_of_entry (h : Reached g n U A N w) {i j : ℕ} (hi : (i, s) ∈ w.frontier)
    (hj : (j, t) ∈ w.frontier) (he : w.diagram.edgeKind? s t = some .hadamard) :
    A[i]? = some s ∧ A[j]? = some t := by
  obtain ⟨a, ha, hsa⟩ := h.laid.entry hi
  obtain ⟨b, hb, htb⟩ := h.laid.entry hj
  constructor
  · obtain rfl | htied := hsa
    · exact ha
    · cases Laid.edge_of_tied htied he (by tauto) h.laid.consistent
  · obtain rfl | htied := htb
    · exact hb
    · cases Laid.edge_of_tied htied he (by tauto) h.laid.consistent

/-- What cutting the edge between two entries does. -/
theorem cutEdge_reached (h : Reached g n U A N w) (hg : g.Fused) {a b : FrontierEntry}
    (ha : a ∈ w.frontier) (hb : b ∈ w.frontier) :
    ∃ w', cutEdge a w b = .ok w' ∧ Reached g n U A N w' ∧ w'.frontier = w.frontier ∧
      w'.diagram.edgeKind? a.2 b.2 ≠ some .hadamard ∧
      ∀ s t, w'.diagram.edgeKind? s t = w.diagram.edgeKind? s t ∨
        w'.diagram.edgeKind? s t = none := by
  unfold cutEdge
  split
  case isFalse he =>
    exact ⟨w, rfl, h, rfl, he, fun s t => .inl rfl⟩
  case isTrue he =>
    obtain ⟨hi, hj⟩ := h.mem_of_entry ha hb he
    have hsA := List.mem_of_getElem? hi
    have htA := List.mem_of_getElem? hj
    obtain ⟨D, hremove, hcut⟩ := removeEdge_edgeSet h.laid.consistent he
    have hgreen := h.laid.not_red hg.green
    have hnotin : ∀ v ∈ A, v ∉ w.diagram.inputs := fun v hv => by
      rw [h.laid.inputs_eq]
      exact h.laid.notMem_inputs hg.toWellFormed hv
    refine ⟨{ w with diagram := D }.emit (.plain .cz [a.1, b.1]), ?_, ?_, rfl, ?_, ?_⟩
    · rw [hremove]
      rfl
    · constructor
      case laid => exact h.laid.cut hsA htA he hcut
      case leads =>
        exact h.leads.trans (hcut.leads_cut h.laid.consistent hgreen h.laid.nodup hi hj
          (hnotin _ hsA) (hnotin _ htA) he h.laid.length_eq)
      case spans =>
        rw [← h.spans]
        refine rowSpan_congr fun v _ t ht => ?_
        show D.edgeKind? v t = _
        rw [hcut.edgeKind?_eq, if_neg]
        intro hpair
        obtain ⟨-, rfl⟩ | ⟨-, rfl⟩ := hpair
        · exact (h.laid.left _ htA).1 ht
        · exact (h.laid.left _ hsA).1 ht
      case freed => exact h.freed
      case width_eq => exact h.width_eq
    · show D.edgeKind? a.2 b.2 ≠ _
      rw [hcut.edgeKind?_eq, if_pos (isPair_self _ _)]
      simp
    · intro s t
      show D.edgeKind? s t = _ ∨ D.edgeKind? s t = _
      rw [hcut.edgeKind?_eq]
      split
      · exact .inr rfl
      · exact .inl rfl

/-- The new entries can be chosen again, as long as all edges between new entries still are. -/
theorem Reached.renew {N' : List ℕ} (h : Reached g n U A N w)
    (hN : ∀ v ∈ N, ∀ t ∈ N, w.diagram.edgeKind? v t = some .hadamard → v ∈ N' ∧ t ∈ N') :
    Reached g n U A N' w := by
  refine ⟨h.laid.rewire h.laid.consistent (fun _ => rfl) rfl rfl rfl (fun _ _ _ _ => rfl)
    (fun _ _ htied => htied) (fun {v t e} hv he => ?_) h.laid.input_edge, h.leads, h.spans, h.freed,
    h.width_eq⟩
  obtain ⟨rfl, hrest | ⟨htA, hvN, htN⟩⟩ | hplain := h.laid.edge hv he
  · exact .inl ⟨rfl, .inl hrest⟩
  · exact .inl ⟨rfl, .inr ⟨htA, hN v hvN t htN he⟩⟩
  · exact .inr hplain

theorem Reached.widen {N' : List ℕ} (h : Reached g n U A N w) (hN : ∀ v ∈ N, v ∈ N') :
    Reached g n U A N' w := h.renew fun v hv t ht _ => ⟨hN v hv, hN t ht⟩

/-- An entry none of whose edges to the other new entries is left is no longer new. -/
theorem Reached.shrink {a : ℕ} {rest : List ℕ} (h : Reached g n U A (a :: rest) w)
    (ha : ∀ b ∈ rest, w.diagram.edgeKind? a b ≠ some .hadamard) : Reached g n U A rest w := by
  refine h.renew fun v hv t ht he => ?_
  have hcomm := h.laid.consistent.edgeKind?_comm t v
  have hvt := h.laid.consistent.ne_of_edgeKind? he
  constructor
  · refine (List.mem_cons.mp hv).resolve_left fun hva => ?_
    subst hva
    exact ha t ((List.mem_cons.mp ht).resolve_left hvt.symm) he
  · refine (List.mem_cons.mp ht).resolve_left fun hta => ?_
    subst hta
    exact ha v ((List.mem_cons.mp hv).resolve_left hvt) (hcomm.trans he)

theorem foldlM_cutEdge_reached (hg : g.Fused) {a : FrontierEntry} {rest : List FrontierEntry}
    (h : Reached g n U A N w) (ha : a ∈ w.frontier) (hrest : ∀ b ∈ rest, b ∈ w.frontier) :
    ∃ w', rest.foldlM (cutEdge a) w = .ok w' ∧ Reached g n U A N w' ∧ w'.frontier = w.frontier ∧
      (∀ b ∈ rest, w'.diagram.edgeKind? a.2 b.2 ≠ some .hadamard) ∧
      ∀ s t, w'.diagram.edgeKind? s t = w.diagram.edgeKind? s t ∨
        w'.diagram.edgeKind? s t = none := by
  induction rest generalizing w with
  | nil => exact ⟨w, rfl, h, rfl, by simp, fun s t => .inl rfl⟩
  | cons b rest ih =>
      obtain ⟨w₁, hok₁, h₁, hF₁, hcut₁, hedge₁⟩ :=
        cutEdge_reached h hg ha (hrest b List.mem_cons_self)
      obtain ⟨w₂, hok₂, h₂, hF₂, hcut₂, hedge₂⟩ := ih h₁ (hF₁ ▸ ha) fun c hc =>
        hF₁ ▸ hrest c (List.mem_cons_of_mem b hc)
      refine ⟨w₂, ?_, h₂, hF₂.trans hF₁, fun c hc => ?_, fun s t => ?_⟩
      · rw [List.foldlM_cons, hok₁]
        exact hok₂
      · obtain rfl | hc := List.mem_cons.mp hc
        · obtain heq | hnone := hedge₂ a.2 c.2
          · rw [heq]
            exact hcut₁
          · rw [hnone]
            simp
        · exact hcut₂ c hc
      · obtain heq | hnone := hedge₂ s t
        · rw [heq]
          exact hedge₁ s t
        · exact .inr hnone

/-- Once all edges between new entries are cut, the members of the frontier are not adjacent. -/
theorem cutEdges_reached (hg : g.Fused) {new : List FrontierEntry}
    (h : Reached g n U A (new.map Prod.snd) w) (hnew : ∀ a ∈ new, a ∈ w.frontier) :
    ∃ w', cutEdges new w = .ok w' ∧ Reached g n U A [] w' ∧ w'.frontier = w.frontier := by
  induction new generalizing w with
  | nil => exact ⟨w, rfl, h, rfl⟩
  | cons a rest ih =>
      obtain ⟨w₁, hok₁, h₁, hF₁, hcut, -⟩ := foldlM_cutEdge_reached hg h (hnew a List.mem_cons_self)
        fun b hb => hnew b (List.mem_cons_of_mem a hb)
      have h₁' : Reached g n U A (rest.map Prod.snd) w₁ := by
        refine h₁.shrink fun v hv => ?_
        obtain ⟨b, hb, rfl⟩ := List.mem_map.mp hv
        exact hcut b hb
      obtain ⟨w₂, hok₂, h₂, hF₂⟩ := ih h₁' fun b hb => hF₁ ▸ hnew b (List.mem_cons_of_mem a hb)
      refine ⟨w₂, ?_, h₂, hF₂.trans hF₁⟩
      rw [cutEdges, hok₁]
      exact hok₂

/-- The first frontier, once all outputs are peeled. -/
theorem prepare_ends {w₀ : Workspace} (hw : Normalised w₀ w)
    (hnormal : w₀.normaliseInputs.outcome = .ok w) (hgates : w.circuit.gates = []) :
    Ends w₀.prepare.outcome
      (fun w' => ∃ A, Reached w.diagram w.circuit.width (w.diagram.core \ w.diagram.fringe) A [] w' ∧
        w'.frontier = A.zipIdx.map Prod.swap ∧ ∀ v ∈ w.diagram.fringe, v ∈ A)
      fun e => IsMisfit e ∧ w.diagram.Clashes := by
  have hfused := hw.normal.toFused
  unfold prepare
  refine Ends.run_bind (P := (· = w)) ?_ ?_
  · rw [hnormal]
    exact Ends.ok_iff.mpr rfl
  · intro w₁ hw₁
    subst hw₁
    refine Ends.run_bind (peelOutputs_ends hfused hgates w₁.frontier) ?_
    intro w₂ hw₂
    obtain ⟨P, hlen, hP⟩ := hw₂
    have hreached := hP.reached hlen hw.normal
    have hnew : w₂.frontier.map Prod.snd = P := by
      rw [hP.frontier_eq, List.map_map]
      exact List.zipIdx_map_fst 0 P
    obtain ⟨w₃, hok, h₃, hF⟩ := cutEdges_reached hfused
      (show Reached w₁.diagram w₁.circuit.width _ P (w₂.frontier.map Prod.snd) w₂ by
        rw [hnew]; exact hreached) fun a ha => ha
    rw [outcome_lift_except, hok]
    exact Ends.ok_iff.mpr ⟨P, h₃, hF.trans hP.frontier_eq, fun v hv => (hP.mem_iff_fringe hlen).mpr hv⟩

end Workspace

end ZX
