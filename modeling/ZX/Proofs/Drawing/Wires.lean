import Mathlib
import ZX.Proofs.Drawing.Gates

/-!
# Plain wires

The diagram of a circuit starts as one plain wire per qubit: a row of boundaries for the inputs,
another one for the outputs, and an edge from each input to its output. It has no spiders, and its
summand is 1 where the bits at the ends of every wire agree.
-/
namespace ZX.Diagram

open Finset Function State

variable {g g' : Diagram} {u v n : ℕ}

/-- The vertices `vs` are new boundaries without edges, on the first lines. -/
structure Bordered (g : Diagram) (vs : List ℕ) (g' : Diagram) : Prop where
  consistent : g'.Consistent
  nodup : vs.Nodup
  fresh : ∀ v ∈ vs, g.contains v = false
  kind?_eq : ∀ u, g'.kind? u = if u ∈ vs then some .boundary else g.kind? u
  phase?_eq : ∀ u, g'.phase? u = if u ∈ vs then some Phase.zero else g.phase? u
  line?_new : ∀ {q v}, vs[q]? = some v → g'.line? v = some (Float.ofNat q)
  line?_eq : ∀ u, u ∉ vs → g'.line? u = g.line? u
  linksAt_eq : ∀ u, g'.linksAt u = g.linksAt u
  scalar_eq : g'.scalar = g.scalar
  vertexCount_eq : g'.vertexCount = g.vertexCount + vs.length
  edgeCount_eq : g'.edgeCount = g.edgeCount
  size_le : g.slots.size ≤ 2 ^ 57 → g'.slots.size ≤ 2 ^ 57

namespace Bordered

variable {vs : List ℕ}

theorem contains_iff (h : Bordered g vs g') :
    g'.contains u = true ↔ u ∈ vs ∨ g.contains u = true := by
  rw [contains_eq_kind?_isSome, h.kind?_eq, contains_eq_kind?_isSome]
  by_cases hu : u ∈ vs <;> simp [hu]

theorem nil (hg : g.Consistent) : Bordered g [] g := by
  constructor <;> simp [hg]

/-- One more boundary, on the next line. -/
theorem snoc {g'' : Diagram} {column : Float} (h : Bordered g vs g')
    (h' : Added g' ⟨.boundary, Phase.zero, Float.ofNat vs.length, column⟩ v g'')
    (hsize : g'.slots.size ≤ 2 ^ 57 → g''.slots.size ≤ 2 ^ 57) : Bordered g (vs ++ [v]) g'' := by
  have hfresh : ¬(v ∈ vs ∨ g.contains v = true) := by
    rw [← h.contains_iff, h'.fresh]
    exact Bool.false_ne_true
  rw [not_or, Bool.not_eq_true] at hfresh
  have hline : ∀ u, u ≠ v → g''.line? u = g'.line? u := by
    intro u hu
    rw [line?, h'.data?_eq, if_neg hu, line?]
  constructor
  case consistent => exact h'.consistent
  case nodup =>
    refine List.nodup_append.mpr ⟨h.nodup, List.nodup_singleton v, ?_⟩
    intro a ha b hb hab
    rw [hab, List.mem_singleton.mp hb] at ha
    exact hfresh.1 ha
  case fresh =>
    intro u hu
    rcases List.mem_append.mp hu with hu | hu
    · exact h.fresh u hu
    · rw [List.mem_singleton.mp hu]
      exact hfresh.2
  case kind?_eq =>
    intro u
    rw [kind?, h'.data?_eq]
    by_cases hu : u = v
    · simp [hu, startData]
    · rw [if_neg hu, ← kind?, h.kind?_eq]
      simp [hu]
  case phase?_eq =>
    intro u
    rw [phase?, h'.data?_eq]
    by_cases hu : u = v
    · simp [hu, startData]
    · rw [if_neg hu, ← phase?, h.phase?_eq]
      simp [hu]
  case line?_new =>
    intro q u hu
    rw [List.getElem?_append] at hu
    split at hu
    case isTrue =>
      rw [hline u (ne_of_mem_of_not_mem (List.mem_of_getElem? hu) hfresh.1)]
      exact h.line?_new hu
    case isFalse hlt =>
      rw [List.getElem?_singleton] at hu
      split at hu
      case isTrue hq =>
        have hlength : vs.length = q := by omega
        rw [← Option.some.inj hu, line?, h'.data?_eq, if_pos rfl, Option.map_some, qubit_startData,
          hlength]
      case isFalse => cases hu
  case line?_eq =>
    intro u hu
    rw [List.mem_append, List.mem_singleton, not_or] at hu
    rw [hline u hu.2, h.line?_eq u hu.1]
  case linksAt_eq => exact fun u => (h'.linksAt_eq u).trans (h.linksAt_eq u)
  case scalar_eq => exact h'.scalar_eq.trans h.scalar_eq
  case vertexCount_eq =>
    rw [h'.vertexCount_eq, h.vertexCount_eq, List.length_append, List.length_singleton,
      Nat.add_assoc]
  case edgeCount_eq => exact h'.edgeCount_eq.trans h.edgeCount_eq
  case size_le => exact fun hle => hsize (h.size_le hle)

end Bordered

theorem addBoundaries_bordered (hg : g.Consistent) (n : ℕ) (column : Float) :
    Ends (g.addBoundaries n column) (fun r => r.1.length = n ∧ Bordered g r.1 r.2)
      (fun f => f = .tooLarge ∧ 2 ^ 57 < g.vertexCount + n) := by
  refine (Ends.foldlM_done (l := List.range n) (I := fun done (r : List ℕ × Diagram) =>
    r.1.length = done.length ∧ Bordered g r.1 r.2) ?_ ⟨rfl, .nil hg⟩).imp ?_
  · rintro done q rest ⟨vs, g₁⟩ hsplit ⟨hlength, h⟩
    dsimp only at hlength h
    have hlt : vs.length < n := by
      rw [hlength, ← List.length_range (n := n), hsplit]
      simp
    have hq : q = vs.length := by
      have hget : (List.range n)[vs.length]? = some q := by
        rw [hsplit, hlength]
        simp
      rw [List.getElem?_range hlt] at hget
      exact (Option.some.inj hget).symm
    have hcount := h.vertexCount_eq
    subst hq
    refine ((addVertex_ends h.consistent _).mono (fun _ hr => hr) fun f hf =>
      ⟨hf.1, by omega⟩).bind fun (v, g₂) ⟨h₂, hsize₂⟩ => Ends.pure_iff.mpr ⟨?_, h.snoc h₂ hsize₂⟩
    simp [hlength]
  · rintro r ⟨hlength, h⟩
    exact ⟨by rw [hlength, List.length_range], h⟩

/-- The pairs of a list are joined by plain edges, and there are no others. -/
structure Strung (g : Diagram) (ps : List (ℕ × ℕ)) (g' : Diagram) : Prop where
  consistent : g'.Consistent
  data?_eq : ∀ u, g'.data? u = g.data? u
  edge_iff : ∀ s t e, g'.edgeKind? s t = some e ↔ e = .plain ∧ ∃ p ∈ ps, IsPair p.1 p.2 s t
  scalar_eq : g'.scalar = g.scalar
  vertexCount_eq : g'.vertexCount = g.vertexCount
  edgeCount_eq : g'.edgeCount = g.edgeCount + ps.length
  size_eq : g'.slots.size = g.slots.size

theorem Strung.step {ps : List (ℕ × ℕ)} {i o : ℕ} (h : Strung g ps g') (hi : g.contains i = true)
    (ho : g.contains o = true) (hio : i ≠ o) (hfresh : ∀ p ∈ ps, i ≠ p.1 ∧ i ≠ p.2) :
    ∃ g'', g'.addEdge i o .plain = .ok g'' ∧ Strung g (ps ++ [(i, o)]) g'' := by
  have hcontains : ∀ u, g'.contains u = g.contains u := fun u => by
    rw [contains_eq_data?_isSome, h.data?_eq, contains_eq_data?_isSome]
  have hnone : g'.edgeKind? i o = none := by
    rw [Option.eq_none_iff_forall_ne_some]
    intro e he
    obtain ⟨-, p, hp, hpair⟩ := (h.edge_iff i o e).mp he
    obtain ⟨h1, h2⟩ := hfresh p hp
    rcases hpair with ⟨hc, -⟩ | ⟨hc, -⟩
    · exact h1 hc
    · exact h2 hc
  obtain ⟨g'', hok, hset⟩ := addEdge_edgeSet h.consistent hio ((hcontains i).trans hi)
    ((hcontains o).trans ho) hnone .plain
  have hframe := (addEdge_relinked g' i o .plain).of_eq_ok hok
  refine ⟨g'', hok, hset.consistent, fun u => (hset.data?_eq u).trans (h.data?_eq u), ?_,
    hset.scalar_eq.trans h.scalar_eq, hset.vertexCount_eq.trans h.vertexCount_eq, ?_,
    hframe.size_eq.trans h.size_eq⟩
  swap
  · rw [List.length_append, List.length_singleton, ← Nat.add_assoc, ← h.edgeCount_eq]
    exact hframe.edgeCount_eq
  intro s t e
  rw [hset.edgeKind?_eq]
  by_cases hpair : IsPair i o s t
  · simp only [if_pos hpair, Option.some_inj, List.mem_append, List.mem_singleton]
    constructor
    · intro he
      exact ⟨he.symm, (i, o), .inr rfl, hpair⟩
    · intro he
      exact he.1.symm
  · rw [if_neg hpair, h.edge_iff]
    simp only [List.mem_append, List.mem_singleton, or_and_right, exists_or, exists_eq_left,
      hpair, or_false]

theorem foldlM_addEdge_strung (ps : List (ℕ × ℕ)) (hg : g.Consistent)
    (hnone : ∀ s t, g.edgeKind? s t = none) (hnodup : (ps.map Prod.fst).Nodup)
    (hapart : ∀ p ∈ ps, ∀ p' ∈ ps, p.1 ≠ p'.2)
    (hcontains : ∀ p ∈ ps, g.contains p.1 = true ∧ g.contains p.2 = true) :
    ∃ g', ps.foldlM (fun g (i, o) => g.addEdge i o .plain) g = .ok g' ∧ Strung g ps g' := by
  refine Ends.exists_ok (Ends.foldlM_done (I := Strung g) ?_ ?_)
  · rintro done ⟨i, o⟩ rest g' hsplit h
    have hmem : (i, o) ∈ ps := by simp [hsplit]
    obtain ⟨hi, ho⟩ := hcontains _ hmem
    refine Ends.of_exists_ok (h.step hi ho (hapart _ hmem _ hmem) fun p hp => ⟨?_, ?_⟩)
    · rw [hsplit, List.map_append, List.map_cons, List.nodup_append] at hnodup
      exact fun hc => hnodup.2.2 p.1 (List.mem_map_of_mem hp) i List.mem_cons_self hc.symm
    · exact hapart _ hmem p (by simp [hsplit, hp])
  · refine ⟨hg, fun _ => rfl, fun s t e => ?_, rfl, rfl, rfl, rfl⟩
    rw [hnone]
    simp

/-- An input and an output in the same position. -/
def Opposite (inputs outputs : List ℕ) (i o : ℕ) : Prop :=
  ∃ q : ℕ, inputs[q]? = some i ∧ outputs[q]? = some o

/-- Plain wires between two rows of boundaries. -/
structure Blank (g : Diagram) (n : ℕ) : Prop where
  consistent : g.Consistent
  nodup : (g.inputs ++ g.outputs).Nodup
  length_inputs : g.inputs.length = n
  length_outputs : g.outputs.length = n
  kind?_eq : ∀ u, g.kind? u = if u ∈ g.inputs ++ g.outputs then some .boundary else none
  phase?_eq : ∀ u ∈ g.inputs ++ g.outputs, g.phase? u = some Phase.zero
  edge_iff : ∀ s t e, g.edgeKind? s t = some e ↔
    e = .plain ∧ (Opposite g.inputs g.outputs s t ∨ Opposite g.inputs g.outputs t s)
  scalar_eq : g.scalar = Scalar.one
  vertexCount_eq : g.vertexCount = 2 * n
  edgeCount_eq : g.edgeCount = n
  size_le : g.slots.size ≤ 2 ^ 57
  ruled : g.Ruled

theorem wires_blank (n : ℕ) :
    Ends (wires n) (fun g => g.Blank n) (fun f => f = .tooLarge ∧ 2 ^ 57 < 2 * n) := by
  have hzero : empty.vertexCount = 0 := rfl
  refine Ends.bind (P := fun _ => True) ⟨fun _ _ => trivial, fun f hf => ?_⟩ fun _ _ => ?_
  · obtain ⟨rfl, hlarge⟩ := checkTable_eq_error.mp hf
    exact ⟨rfl, by omega⟩
  refine ((addBoundaries_bordered consistent_empty n 0).mono (fun _ h => h) fun f hf =>
    ⟨hf.1, by omega⟩).bind ?_
  rintro ⟨inputs, g₁⟩ ⟨hlen₁, h₁⟩
  dsimp only at hlen₁ h₁
  have hcount₁ := h₁.vertexCount_eq
  refine ((addBoundaries_bordered h₁.consistent n 1).mono (fun _ h => h) fun f hf =>
    ⟨hf.1, by omega⟩).bind ?_
  rintro ⟨outputs, g₂⟩ ⟨hlen₂, h₂⟩
  dsimp only at hlen₂ h₂ ⊢
  have hnodup : (inputs ++ outputs).Nodup := by
    refine List.nodup_append.mpr ⟨h₁.nodup, h₂.nodup, ?_⟩
    rintro i hi o ho rfl
    have hfresh := h₂.fresh i ho
    rw [h₁.contains_iff.mpr (.inl hi)] at hfresh
    cases hfresh
  have hdisjoint := (List.nodup_append.mp hnodup).2.2
  have hmem : ∀ {p}, p ∈ inputs.zip outputs → p.1 ∈ inputs ∧ p.2 ∈ outputs := fun hp =>
    List.of_mem_zip hp
  have hlinks : ∀ u, g₂.linksAt u = [] := by
    intro u
    rw [h₂.linksAt_eq, h₁.linksAt_eq]
    exact linksAt_eq_nil (by simp [empty, contains, vertex?])
  obtain ⟨g₃, hok₃, h₃⟩ := foldlM_addEdge_strung (inputs.zip outputs) h₂.consistent
    (fun s t => by rw [edgeKind?_eq_lookup, hlinks]; rfl)
    (by rw [List.map_fst_zip (by omega)]; exact h₁.nodup)
    (fun p hp p' hp' => hdisjoint p.1 (hmem hp).1 p'.2 (hmem hp').2)
    (fun p hp => ⟨h₂.contains_iff.mpr (.inr (h₁.contains_iff.mpr (.inl (hmem hp).1))),
      h₂.contains_iff.mpr (.inl (hmem hp).2)⟩)
  have hline : ∀ u, g₃.line? u = g₂.line? u := fun u =>
    congrArg (Option.map VertexData.qubit) (h₃.data?_eq u)
  refine Ends.of_exists_ok ⟨{ g₃ with inputs := inputs, outputs := outputs }, ?_, ?_⟩
  · rw [hok₃]
    rfl
  · constructor
    case consistent => exact h₃.consistent.congr (fun _ => rfl) (fun _ => rfl) rfl rfl rfl rfl
    case nodup => exact hnodup
    case length_inputs => exact hlen₁
    case length_outputs => exact hlen₂
    case kind?_eq =>
      intro u
      show g₃.kind? u = if u ∈ inputs ++ outputs then some .boundary else none
      rw [kind?, h₃.data?_eq, ← kind?, h₂.kind?_eq, h₁.kind?_eq]
      by_cases ho : u ∈ outputs <;> by_cases hi : u ∈ inputs <;>
        simp [ho, hi, kind?, data?, vertex?, empty]
    case phase?_eq =>
      intro u hu
      show g₃.phase? u = some Phase.zero
      rw [phase?, h₃.data?_eq, ← phase?, h₂.phase?_eq, h₁.phase?_eq]
      rcases List.mem_append.mp hu with hu | hu <;> simp [hu]
    case edge_iff =>
      intro s t e
      show g₃.edgeKind? s t = some e ↔ _
      rw [h₃.edge_iff]
      refine and_congr_right fun _ => ?_
      have hzip : ∀ i o, (i, o) ∈ inputs.zip outputs ↔ Opposite inputs outputs i o := by
        intro i o
        simp only [List.mem_iff_getElem?, List.getElem?_zip_eq_some, Opposite]
      constructor
      · rintro ⟨⟨i, o⟩, hp, ⟨rfl, rfl⟩ | ⟨rfl, rfl⟩⟩
        · exact .inl ((hzip _ _).mp hp)
        · exact .inr ((hzip _ _).mp hp)
      · rintro (hp | hp)
        · exact ⟨(s, t), (hzip _ _).mpr hp, .inl ⟨rfl, rfl⟩⟩
        · exact ⟨(t, s), (hzip _ _).mpr hp, .inr ⟨rfl, rfl⟩⟩
    case scalar_eq =>
      show g₃.scalar = Scalar.one
      rw [h₃.scalar_eq, h₂.scalar_eq, h₁.scalar_eq]
      rfl
    case vertexCount_eq =>
      refine h₃.vertexCount_eq.trans ?_
      rw [h₂.vertexCount_eq]
      omega
    case edgeCount_eq =>
      refine h₃.edgeCount_eq.trans ?_
      rw [h₂.edgeCount_eq, h₁.edgeCount_eq, List.length_zip, hlen₁, hlen₂, Nat.min_self]
      exact Nat.zero_add n
    case size_le =>
      refine h₃.size_eq.trans_le (h₂.size_le (h₁.size_le ?_))
      decide
    case ruled =>
      refine ⟨fun {q v} hv => ?_, fun {q v} hv => ?_⟩
      · have hapart : v ∉ outputs := fun hc => hdisjoint v (List.mem_of_getElem? hv) v hc rfl
        exact (hline v).trans ((h₂.line?_eq v hapart).trans (h₁.line?_new hv))
      · exact (hline v).trans (h₂.line?_new hv)

namespace Opposite

variable {inputs outputs : List ℕ} {i i' o o' : ℕ}

theorem eq_right (hnodup : inputs.Nodup) (h : Opposite inputs outputs i o)
    (h' : Opposite inputs outputs i o') : o = o' := by
  obtain ⟨q, hi, ho⟩ := h
  obtain ⟨q', hi', ho'⟩ := h'
  have hq : q = q' := (idxOf_of_getElem? hnodup hi).symm.trans (idxOf_of_getElem? hnodup hi')
  exact Option.some.inj (ho.symm.trans (hq ▸ ho'))

theorem eq_left (hnodup : outputs.Nodup) (h : Opposite inputs outputs i o)
    (h' : Opposite inputs outputs i' o) : i = i' := by
  obtain ⟨q, hi, ho⟩ := h
  obtain ⟨q', hi', ho'⟩ := h'
  have hq : q = q' := (idxOf_of_getElem? hnodup ho).symm.trans (idxOf_of_getElem? hnodup ho')
  exact Option.some.inj (hi.symm.trans (hq ▸ hi'))

end Opposite

namespace Blank

theorem exists_opposite (h : g.Blank n) {q : ℕ} (hq : q < n) :
    ∃ i o, g.inputs[q]? = some i ∧ g.outputs[q]? = some o :=
  ⟨_, _, List.getElem?_eq_getElem (h.length_inputs ▸ hq),
    List.getElem?_eq_getElem (h.length_outputs ▸ hq)⟩

/-- Inputs have edges to outputs and outputs to inputs, each to its own. -/
theorem hangsOn (h : g.Blank n) (hv : v ∈ g.inputs ++ g.outputs) : ∃ t, g.HangsOn v t .plain := by
  have hnodup := List.nodup_append.mp h.nodup
  have hedge : ∀ t, (∀ u, Opposite g.inputs g.outputs v u ∨ Opposite g.inputs g.outputs u v ↔
      u = t) → g.HangsOn v t .plain := by
    intro t ht u
    ext e
    rw [h.edge_iff, ht]
    by_cases hu : u = t <;> simp [hu, eq_comm]
  rcases List.mem_append.mp hv with hv | hv
  · obtain ⟨q, hq⟩ := List.mem_iff_getElem?.mp hv
    obtain ⟨i, o, hi, ho⟩ :=
      h.exists_opposite (h.length_inputs ▸ (List.getElem?_eq_some_iff.mp hq).1)
    have hvo : Opposite g.inputs g.outputs v o := ⟨q, hq, ho⟩
    refine ⟨o, hedge o fun u => ⟨?_, fun hu => .inl (hu ▸ hvo)⟩⟩
    rintro (hu | ⟨q', -, hu⟩)
    · exact hu.eq_right hnodup.1 hvo
    · exact absurd rfl (hnodup.2.2 v hv v (List.mem_of_getElem? hu))
  · obtain ⟨q, hq⟩ := List.mem_iff_getElem?.mp hv
    obtain ⟨i, o, hi, ho⟩ :=
      h.exists_opposite (h.length_outputs ▸ (List.getElem?_eq_some_iff.mp hq).1)
    have hiv : Opposite g.inputs g.outputs i v := ⟨q, hi, hq⟩
    refine ⟨i, hedge i fun u => ⟨?_, fun hu => .inr (hu ▸ hiv)⟩⟩
    rintro (⟨q', hu, -⟩ | hu)
    · exact absurd rfl (hnodup.2.2 v (List.mem_of_getElem? hu) v hv)
    · exact hu.eq_left hnodup.2.1 hiv

theorem drawn (h : g.Blank n) : g.Drawn := by
  have hnodup := List.nodup_append.mp h.nodup
  have hends : ∀ v, v ∈ g.inputs ++ g.outputs ↔ g.kind? v = some .boundary := by
    intro v
    rw [h.kind?_eq]
    split <;> simp [*]
  refine ⟨⟨h.consistent, fun {v} => hends v, h.nodup, fun hv => h.phase?_eq _ ((hends _).mpr hv),
    fun hv => ?_⟩, ?_⟩
  · obtain ⟨t, ht⟩ := h.hangsOn ((hends _).mpr hv)
    rw [h.consistent.hangsOn_iff.mp ht]
    rfl
  · intro s hs t ht
    rw [Option.eq_none_iff_forall_ne_some]
    intro e he
    rcases ((h.edge_iff s t e).mp he).2 with ⟨q, hi, -⟩ | ⟨q, hi, -⟩
    · exact hnodup.2.2 s (List.mem_of_getElem? hi) s hs rfl
    · exact hnodup.2.2 t (List.mem_of_getElem? hi) t ht rfl

/-- Plain wires denote the identity. -/
theorem image_eq (h : g.Blank n) (ω : ℕ → ℂ) (x : ℕ → Bool) : g.image ω x = ket n x := by
  have hnodup := List.nodup_append.mp h.nodup
  have hspiders : g.spiders = ∅ := by
    rw [Finset.eq_empty_iff_forall_notMem]
    intro v hv
    obtain ⟨hvc, hvk⟩ := mem_spiders.mp hv
    rw [contains_eq_kind?_isSome, h.kind?_eq] at hvc
    rw [h.kind?_eq] at hvk
    split at hvc
    case isTrue hmem => exact hvk (if_pos hmem)
    case isFalse => cases hvc
  have hone : ∀ v ∈ g.support, g.restrain ω v = 1 := by
    intro v hv
    refine if_pos ?_
    by_contra hk
    exact Finset.notMem_empty v (hspiders ▸ mem_spiders.mpr ⟨mem_support.mp hv, hk⟩)
  funext z
  set a := pins g.inputs g.outputs x z with ha
  have hgreen : ∀ v, g.kind? v ≠ some .x := by
    intro v
    rw [h.kind?_eq]
    split <;> simp
  have hbits : ∀ {q i o : ℕ}, g.inputs[q]? = some i → g.outputs[q]? = some o →
      a i = x q ∧ a o = z q := by
    intro q i o hi ho
    refine ⟨?_, pins_held hnodup.2.1 ho fun hc =>
      hnodup.2.2 o hc o (List.mem_of_getElem? ho) rfl⟩
    rw [ha, pins_input (List.mem_of_getElem? hi), idxOf_of_getElem? hnodup.1 hi]
  have hiff : (∀ q < n, z q = x q) ↔ ∀ s t, g.connected s t = true → a s = a t := by
    constructor
    · intro hall s t hst
      obtain ⟨e, he⟩ := Option.isSome_iff_exists.mp hst
      have hopp : ∀ {i o}, Opposite g.inputs g.outputs i o → a i = a o := by
        rintro i o ⟨q, hi, ho⟩
        obtain ⟨h1, h2⟩ := hbits hi ho
        rw [h1, h2, hall q (h.length_inputs ▸ (List.getElem?_eq_some_iff.mp hi).1)]
      rcases ((h.edge_iff s t e).mp he).2 with hopp' | hopp'
      · exact hopp hopp'
      · exact (hopp hopp').symm
    · intro hall q hq
      obtain ⟨i, o, hi, ho⟩ := h.exists_opposite hq
      obtain ⟨h1, h2⟩ := hbits hi ho
      have hedge := (h.edge_iff i o .plain).mpr ⟨rfl, .inl ⟨q, hi, ho⟩⟩
      rw [← h1, ← h2]
      exact (hall i o (by rw [connected, hedge]; rfl)).symm
  show sumOver g.spiders _ a = _
  rw [hspiders, sumOver_empty, mass, h.scalar_eq, Scalar.value_one, one_mul,
    prod_congr rfl fun v hv => by rw [hone v hv, spin_one], prod_const_one, one_mul,
    pairs_of_plain h.consistent hgreen (fun he => ((h.edge_iff _ _ _).mp he).1) hiff]
  rfl

end Blank

end ZX.Diagram
