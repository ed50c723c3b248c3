import Mathlib
import ZX.Proofs.Arena.Basic

/-!
# Consistency and the operations on vertices

The invariant of the arena, and what setting data, adding a vertex and removing a vertex do to the
reading of a diagram. Removing a vertex removes its edges; both counters have enough to give.
-/
namespace ZX.Diagram

variable {g : Diagram} {s t u v : Nat} {e : EdgeKind}

/-- The arena stores a simple graph. -/
structure Consistent (g : Diagram) : Prop where
  symm : ∀ {s t e}, (t, e) ∈ g.linksAt s → (s, e) ∈ g.linksAt t
  nodup : ∀ s, ((g.linksAt s).map Prod.fst).Nodup
  irrefl : ∀ {s e}, (s, e) ∉ g.linksAt s
  mem_holes : ∀ {v}, v ∈ g.holes ↔ v < g.slots.size ∧ g.contains v = false
  nodup_holes : g.holes.Nodup
  vertexCount_eq : g.vertexCount = g.support.card
  edgeCount_eq : 2 * g.edgeCount = ∑ v ∈ Finset.range g.slots.size, (g.linksAt v).length

theorem consistent_empty : empty.Consistent := by
  have hv : ∀ v, empty.vertex? v = none := fun v => by simp [empty, vertex?]
  constructor <;> intros <;> simp_all [linksAt, empty, support, vertices]

theorem Consistent.contains_right (h : g.Consistent) (hl : (t, e) ∈ g.linksAt s) : g.contains t :=
  contains_of_mem_linksAt (h.symm hl)

theorem Consistent.ne (h : g.Consistent) (hl : (t, e) ∈ g.linksAt s) : t ≠ s := by
  rintro rfl
  exact h.irrefl hl

theorem Consistent.edgeKind?_iff (h : g.Consistent) :
    g.edgeKind? s t = some e ↔ (t, e) ∈ g.linksAt s := by
  rw [edgeKind?_eq_lookup, lookup_eq_some_iff (h.nodup s)]

theorem Consistent.edgeKind?_comm (h : g.Consistent) (s t : Nat) :
    g.edgeKind? s t = g.edgeKind? t s := by
  ext e
  rw [h.edgeKind?_iff, h.edgeKind?_iff]
  exact ⟨h.symm, h.symm⟩

theorem Consistent.edgeKind?_self (h : g.Consistent) (s : Nat) : g.edgeKind? s s = none := by
  rw [Option.eq_none_iff_forall_ne_some]
  intro e he
  exact h.irrefl (h.edgeKind?_iff.mp he)

theorem Consistent.key_comm (h : g.Consistent) :
    t ∈ (g.linksAt s).map Prod.fst ↔ s ∈ (g.linksAt t).map Prod.fst := by
  constructor
  · intro ht
    obtain ⟨⟨w, e⟩, hl, rfl⟩ := List.mem_map.mp ht
    exact List.mem_map_of_mem (h.symm hl)
  · intro hs
    obtain ⟨⟨w, e⟩, hl, rfl⟩ := List.mem_map.mp hs
    exact List.mem_map_of_mem (h.symm hl)

/-- Consistency depends on the links, the places and the counters only. -/
theorem Consistent.congr {g' : Diagram} (h : g.Consistent)
    (hlinks : ∀ v, g'.linksAt v = g.linksAt v) (hcontains : ∀ v, g'.contains v = g.contains v)
    (hsize : g'.slots.size = g.slots.size) (hholes : g'.holes = g.holes)
    (hv : g'.vertexCount = g.vertexCount) (he : g'.edgeCount = g.edgeCount) : g'.Consistent where
  symm hl := by
    rw [hlinks] at hl ⊢
    exact h.symm hl
  nodup s := by
    rw [hlinks]
    exact h.nodup s
  irrefl := by
    intro s e
    rw [hlinks]
    exact h.irrefl
  mem_holes := by
    intro v
    rw [hholes, hsize, hcontains]
    exact h.mem_holes
  nodup_holes := by
    rw [hholes]
    exact h.nodup_holes
  vertexCount_eq := by
    rw [hv, h.vertexCount_eq]
    congr 1
    ext v
    rw [mem_support, mem_support, hcontains]
  edgeCount_eq := by
    rw [he, h.edgeCount_eq, hsize]
    exact Finset.sum_congr rfl fun v _ => by rw [hlinks]

/-! ## Modified vertices -/

theorem vertex?_modifyVertex (f : Vertex → Vertex) :
    (g.modifyVertex v f).vertex? u = if u = v then (g.vertex? u).map f else g.vertex? u := by
  simp only [modifyVertex, vertex?, Array.getElem?_modify]
  by_cases h : u = v
  · subst h
    rw [if_pos rfl, if_pos rfl]
    cases g.slots[u]? with
    | none => rfl
    | some o => cases o <;> rfl
  · rw [if_neg h, if_neg fun hc => h hc.symm]

theorem contains_modifyVertex (f : Vertex → Vertex) :
    (g.modifyVertex v f).contains u = g.contains u := by
  rw [contains, contains, vertex?_modifyVertex]
  split <;> simp

@[simp] theorem size_modifyVertex (f : Vertex → Vertex) :
    (g.modifyVertex v f).slots.size = g.slots.size := by
  simp [modifyVertex]

theorem data?_modifyLinks (f : List Link → List Link) :
    (g.modifyLinks v f).data? u = g.data? u := by
  rw [data?, data?, modifyLinks, vertex?_modifyVertex]
  split
  · rw [Option.map_map]
    rfl
  · rfl

theorem linksAt_modifyLinks (f : List Link → List Link) (hf : g.contains v = true ∨ f [] = []) :
    (g.modifyLinks v f).linksAt u = if u = v then f (g.linksAt u) else g.linksAt u := by
  rw [linksAt, linksAt, modifyLinks, vertex?_modifyVertex]
  split
  · rename_i hu
    subst hu
    cases hx : g.vertex? u with
    | some x => rfl
    | none =>
        have hc : g.contains u = false := by simp [contains, hx]
        rcases hf with hf | hf
        · rw [hc] at hf
          cases hf
        · simp [hf]
  · rfl

theorem data?_setData (d : VertexData) (hv : g.contains v) :
    (g.setData v d).data? u = if u = v then some d else g.data? u := by
  rw [data?, data?, setData, vertex?_modifyVertex]
  split
  · rename_i hu
    subst hu
    obtain ⟨x, hx⟩ := contains_iff.mp hv
    rw [hx]
    rfl
  · rfl

@[simp] theorem linksAt_setData (d : VertexData) : (g.setData v d).linksAt u = g.linksAt u := by
  rw [linksAt, linksAt, setData, vertex?_modifyVertex]
  split
  · cases g.vertex? u <;> rfl
  · rfl

@[simp] theorem edgeKind?_setData (d : VertexData) :
    (g.setData v d).edgeKind? s t = g.edgeKind? s t := by
  rw [edgeKind?_eq_lookup, edgeKind?_eq_lookup, linksAt_setData]

@[simp] theorem contains_setData (d : VertexData) : (g.setData v d).contains u = g.contains u :=
  contains_modifyVertex _

theorem Consistent.setData (h : g.Consistent) (d : VertexData) : (g.setData v d).Consistent :=
  h.congr (fun _ => linksAt_setData d) (fun _ => contains_setData d) (size_modifyVertex _) rfl rfl
    rfl

theorem setData_setData (g : Diagram) (v : Nat) (d d' : VertexData) :
    (g.setData v d).setData v d' = g.setData v d' := by
  unfold setData modifyVertex
  congr 1
  refine Array.ext_getElem? fun u => ?_
  rw [Array.getElem?_modify, Array.getElem?_modify, Array.getElem?_modify]
  split
  · rw [Option.map_map]
    congr 1
    funext o
    cases o <;> rfl
  · rfl

theorem setKind_eq {d : VertexData} (h : g.data? v = some d) (k : VertexKind) :
    g.setKind v k = .ok (g.setData v { d with kind := k }) := by
  rw [setKind, data_of_data? h]
  rfl

theorem setPhase_eq {d : VertexData} (h : g.data? v = some d) (p : Phase) :
    g.setPhase v p = .ok (g.setData v { d with phase := p }) := by
  rw [setPhase, data_of_data? h]
  rfl

theorem setQubit_eq {d : VertexData} (h : g.data? v = some d) (x : Float) :
    g.setQubit v x = .ok (g.setData v { d with qubit := x }) := by
  rw [setQubit, data_of_data? h]
  rfl

theorem setColumn_eq {d : VertexData} (h : g.data? v = some d) (x : Float) :
    g.setColumn v x = .ok (g.setData v { d with column := x }) := by
  rw [setColumn, data_of_data? h]
  rfl

theorem addToPhase_eq {d : VertexData} (h : g.data? v = some d) (p : Phase) :
    g.addToPhase v p = (d.phase.add p).map fun q => g.setData v { d with phase := q } := by
  rw [addToPhase, data_of_data? h]
  change (d.phase.add p >>= fun q => pure (g.setData v { d with phase := q })) = _
  cases d.phase.add p <;> rfl

/-! ## Adding a vertex -/

/-- The data that a new vertex starts with. -/
def startData (d : VertexData) : VertexData :=
  if d.kind = .boundary then { d with phase := Phase.zero } else d

@[simp] theorem qubit_startData (d : VertexData) : (startData d).qubit = d.qubit := by
  unfold startData
  split <;> rfl

/-- What a fresh vertex changes: its number was free, it has the given data and no link. -/
structure Added (g : Diagram) (d : VertexData) (v : Nat) (g' : Diagram) : Prop where
  consistent : g'.Consistent
  fresh : g.contains v = false
  data?_eq : ∀ u, g'.data? u = if u = v then some (startData d) else g.data? u
  linksAt_eq : ∀ u, g'.linksAt u = g.linksAt u
  inputs_eq : g'.inputs = g.inputs
  outputs_eq : g'.outputs = g.outputs
  scalar_eq : g'.scalar = g.scalar
  vertexCount_eq : g'.vertexCount = g.vertexCount + 1
  edgeCount_eq : g'.edgeCount = g.edgeCount

theorem contains_eq_data?_isSome : g.contains v = (g.data? v).isSome := by
  rw [contains, data?, Option.isSome_map]

theorem linksAt_eq_nil (h : g.contains v = false) : g.linksAt v = [] := by
  rw [contains] at h
  cases hx : g.vertex? v with
  | none => simp [linksAt, hx]
  | some x => simp [hx] at h

theorem support_eq_insert {g' : Diagram} (h : ∀ u, g'.contains u = (decide (u = v) || g.contains u)) :
    g'.support = insert v g.support := by
  ext u
  rw [mem_support, h, Finset.mem_insert, mem_support, Bool.or_eq_true, decide_eq_true_eq]

theorem added_of_vertex? {d : VertexData} {g' : Diagram} (h : g.Consistent)
    (hfresh : g.contains v = false)
    (hvertex : ∀ u, g'.vertex? u = if u = v then some ⟨startData d, []⟩ else g.vertex? u)
    (hholes : ∀ u, u ∈ g'.holes ↔ u ∈ g.holes ∧ u ≠ v) (hnodup : g'.holes.Nodup)
    (hsize : g'.slots.size = max g.slots.size (v + 1))
    (hcount : g'.vertexCount = g.vertexCount + 1) (hedges : g'.edgeCount = g.edgeCount)
    (hv : v ≤ g.slots.size) (hin : g'.inputs = g.inputs) (hout : g'.outputs = g.outputs)
    (hscalar : g'.scalar = g.scalar) : Added g d v g' := by
  have hdata : ∀ u, g'.data? u = if u = v then some (startData d) else g.data? u := by
    intro u
    rw [data?, hvertex, data?]
    split <;> rfl
  have hlinks : ∀ u, g'.linksAt u = g.linksAt u := by
    intro u
    rw [linksAt, hvertex]
    split
    · rename_i hu
      rw [hu, linksAt_eq_nil hfresh]
      rfl
    · rfl
  have hcontains : ∀ u, g'.contains u = (decide (u = v) || g.contains u) := by
    intro u
    rw [contains, hvertex, contains]
    by_cases hu : u = v <;> simp [hu]
  refine ⟨⟨?_, ?_, ?_, ?_, hnodup, ?_, ?_⟩, hfresh, hdata, hlinks, hin, hout, hscalar, hcount,
    hedges⟩
  · intro s t e hl
    rw [hlinks] at hl ⊢
    exact h.symm hl
  · intro s
    rw [hlinks]
    exact h.nodup s
  · intro s e
    rw [hlinks]
    exact h.irrefl
  · intro u
    rw [hholes, h.mem_holes, hsize, hcontains, Bool.or_eq_false_iff, decide_eq_false_iff_not]
    constructor
    · rintro ⟨⟨h1, h2⟩, h3⟩
      exact ⟨by omega, h3, h2⟩
    · rintro ⟨h1, h2, h3⟩
      exact ⟨⟨by omega, h3⟩, h2⟩
  · rw [hcount, h.vertexCount_eq, support_eq_insert hcontains, Finset.card_insert_of_notMem]
    simp [hfresh]
  · rw [hedges, h.edgeCount_eq, hsize]
    -- the arena grows by at most one slot, whose vertex has no link
    have hgrow : ∑ u ∈ Finset.range g.slots.size, (g.linksAt u).length =
        ∑ u ∈ Finset.range (max g.slots.size (v + 1)), (g.linksAt u).length := by
      refine Finset.sum_subset (Finset.range_subset_range.mpr (Nat.le_max_left _ _)) ?_
      intro u _ hu
      rw [linksAt_eq_nil, List.length_nil]
      by_contra hc
      exact hu (Finset.mem_range.mpr (lt_size_of_contains (by simpa using hc)))
    rw [hgrow]
    exact Finset.sum_congr rfl fun u _ => by rw [hlinks]

theorem insertVertex_added (h : g.Consistent) (d : VertexData) :
    Added g d (g.insertVertex d).1 (g.insertVertex d).2 := by
  cases hh : g.holes with
  | nil =>
      have hfresh : g.contains g.slots.size = false := by
        by_contra hc
        exact absurd (lt_size_of_contains (by simpa using hc)) (Nat.lt_irrefl _)
      have hv : (g.insertVertex d).1 = g.slots.size := by simp [insertVertex, hh]
      rw [hv]
      refine added_of_vertex? h hfresh ?_ ?_ ?_ ?_ ?_ ?_ (Nat.le_refl _) ?_ ?_ ?_
      · intro u
        simp only [insertVertex, hh, vertex?, Array.getElem?_push]
        split <;> rfl
      · intro u
        simp [insertVertex, hh]
      · simp [insertVertex, hh]
      · simp [insertVertex, hh]
      all_goals simp [insertVertex, hh]
  | cons v rest =>
      have hmem := h.mem_holes.mp (hh ▸ List.mem_cons_self : v ∈ g.holes)
      have hnd := h.nodup_holes
      rw [hh, List.nodup_cons] at hnd
      have hv : (g.insertVertex d).1 = v := by simp [insertVertex, hh]
      rw [hv]
      refine added_of_vertex? h hmem.2 ?_ ?_ ?_ ?_ ?_ ?_ hmem.1.le ?_ ?_ ?_
      · intro u
        simp only [insertVertex, hh, vertex?, Array.getElem?_setIfInBounds]
        by_cases hu : u = v
        · subst hu
          simp [hmem.1, startData]
        · simp [hu, Ne.symm hu]
      · intro u
        have : (g.insertVertex d).2.holes = rest := by simp [insertVertex, hh]
        rw [this, hh, List.mem_cons]
        constructor
        · intro hu
          exact ⟨.inr hu, fun hc => hnd.1 (hc ▸ hu)⟩
        · rintro ⟨hu | hu, hne⟩
          · exact absurd hu hne
          · exact hu
      · have : (g.insertVertex d).2.holes = rest := by simp [insertVertex, hh]
        rw [this]
        exact hnd.2
      · have : (g.insertVertex d).2.slots.size = g.slots.size := by simp [insertVertex, hh]
        omega
      all_goals simp [insertVertex, hh]

/-- The slots double up to `2^57`. Twice as many would take more than `2^63` bytes. -/
theorem checkPush_slot {n : ℕ} : 2 ^ (n.log2 + 1) * 40 < 2 ^ 63 ↔ n < 2 ^ 57 := by
  have hlog : n.log2 < 57 ↔ n < 2 ^ 57 := by
    obtain rfl | hpos := Nat.eq_zero_or_pos n
    · simp
    · exact Nat.log2_lt hpos.ne'
  rw [← hlog]
  constructor
  · intro hfits
    by_contra hlarge
    have hpow : 2 ^ 58 ≤ 2 ^ (n.log2 + 1) := Nat.pow_le_pow_right (by decide) (by omega)
    omega
  · intro hsmall
    have hpow : 2 ^ (n.log2 + 1) ≤ 2 ^ 57 := Nat.pow_le_pow_right (by decide) (by omega)
    omega

theorem checkSlot_ends (g : Diagram) :
    Ends g.checkSlot (fun _ => g.holes ≠ [] ∨ g.slots.size < 2 ^ 57)
      (fun e => e = .tooLarge ∧ g.holes = [] ∧ 2 ^ 57 ≤ g.slots.size) := by
  cases hh : g.holes with
  | cons v rest =>
      rw [checkSlot, hh]
      exact Ends.ok_iff.mpr (.inl (List.cons_ne_nil v rest))
  | nil =>
      have hcheck : g.checkSlot = checkTable (2 ^ (g.slots.size.log2 + 1)) 40 := by
        rw [checkSlot, hh]
        rfl
      rw [hcheck]
      refine ⟨fun u hu => .inr (checkPush_slot.mp (checkTable_eq_ok.mp hu)), fun e he => ?_⟩
      obtain ⟨rfl, hlarge⟩ := checkTable_eq_error.mp he
      exact ⟨rfl, rfl, not_lt.mp fun hsmall => absurd (checkPush_slot.mpr hsmall) hlarge.not_gt⟩

theorem Consistent.vertexCount_le (h : g.Consistent) : g.vertexCount ≤ g.slots.size := by
  have hsubset : g.support ⊆ Finset.range g.slots.size := fun v hv =>
    Finset.mem_range.mpr (lt_size_of_contains (mem_support.mp hv))
  rw [h.vertexCount_eq]
  exact (Finset.card_le_card hsubset).trans_eq (Finset.card_range _)

/-- Without holes, every slot has its vertex. -/
theorem Consistent.size_eq (h : g.Consistent) (hholes : g.holes = []) :
    g.slots.size = g.vertexCount := by
  refine Nat.le_antisymm ?_ h.vertexCount_le
  have hsubset : Finset.range g.slots.size ⊆ g.support := by
    intro v hv
    rw [mem_support]
    by_contra hc
    have hmem := h.mem_holes.mpr ⟨Finset.mem_range.mp hv, Bool.eq_false_iff.mpr hc⟩
    rw [hholes] at hmem
    cases hmem
  rw [h.vertexCount_eq]
  exact (Finset.card_range _).symm.trans_le (Finset.card_le_card hsubset)

theorem insertVertex_eq {d : VertexData} {r : ℕ × Diagram} (h : g.addVertex d = .ok r) :
    g.insertVertex d = r := by
  rw [addVertex] at h
  cases hc : g.checkSlot with
  | ok u =>
      rw [hc] at h
      exact Except.ok.inj h
  | error e =>
      rw [hc] at h
      cases h

theorem size_insertVertex_le (g : Diagram) (d : VertexData) :
    (g.insertVertex d).2.slots.size ≤ g.slots.size + 1 := by
  cases hh : g.holes <;> simp [insertVertex, hh]

/-- Only a diagram of `2^57` vertices has no room for another one. -/
theorem addVertex_ends (h : g.Consistent) (d : VertexData) :
    Ends (g.addVertex d)
      (fun r => Added g d r.1 r.2 ∧ (g.slots.size ≤ 2 ^ 57 → r.2.slots.size ≤ 2 ^ 57))
      (fun e => e = .tooLarge ∧ 2 ^ 57 ≤ g.vertexCount) := by
  refine Ends.bind (g.checkSlot_ends.mono (fun _ hroom => hroom) ?_) fun _ hroom =>
    Ends.pure_iff.mpr ⟨insertVertex_added h d, fun hsize => ?_⟩
  · rintro e ⟨rfl, hholes, hfull⟩
    exact ⟨rfl, h.size_eq hholes ▸ hfull⟩
  · obtain hhole | hsmall := hroom
    · have heq : (g.insertVertex d).2.slots.size = g.slots.size := by
        obtain ⟨v, rest, hh⟩ := List.exists_cons_of_ne_nil hhole
        simp [insertVertex, hh]
      exact heq.trans_le hsize
    · exact (size_insertVertex_le g d).trans hsmall

/-! ## Removing a vertex -/

/-- What the removal of a vertex leaves. -/
structure Removed (g : Diagram) (v : Nat) (g' : Diagram) : Prop where
  consistent : g'.Consistent
  data?_eq : ∀ u, g'.data? u = if u = v then none else g.data? u
  linksAt_eq : ∀ u, g'.linksAt u = if u = v then [] else eraseLink (g.linksAt u) v
  inputs_eq : g'.inputs = g.inputs
  outputs_eq : g'.outputs = g.outputs
  scalar_eq : g'.scalar = g.scalar
  vertexCount_eq : g'.vertexCount + 1 = g.vertexCount

/-- One link of a removed vertex: the edge is counted off and its other half erased. -/
def dropHalf (v : Nat) (g : Diagram) (l : Link) : Except Fault Diagram := do
  let m ← natSub g.edgeCount 1
  return { g with edgeCount := m }.eraseHalf l.1 v

/-- What erasing the halves of a list of links leaves. -/
structure HalvesDropped (g : Diagram) (v : Nat) (ls : List Link) (g' : Diagram) : Prop where
  edgeCount_eq : g'.edgeCount + ls.length = g.edgeCount
  data?_eq : ∀ u, g'.data? u = g.data? u
  linksAt_eq : ∀ u, g'.linksAt u =
    if u ∈ ls.map Prod.fst then eraseLink (g.linksAt u) v else g.linksAt u
  size_eq : g'.slots.size = g.slots.size
  holes_eq : g'.holes = g.holes
  inputs_eq : g'.inputs = g.inputs
  outputs_eq : g'.outputs = g.outputs
  scalar_eq : g'.scalar = g.scalar
  vertexCount_eq : g'.vertexCount = g.vertexCount

theorem eraseLink_nil (t : Nat) : eraseLink [] t = [] := rfl

theorem halvesDropped_nil : HalvesDropped g v [] g := by
  constructor <;> simp

theorem dropHalf_cons {l : Link} {ls : List Link} {g' : Diagram} (hl : l.1 ∉ ls.map Prod.fst)
    {m : Nat} (hm : m + 1 = g.edgeCount)
    (h : HalvesDropped ({ g with edgeCount := m }.eraseHalf l.1 v) v ls g') :
    HalvesDropped g v (l :: ls) g' where
  edgeCount_eq := by
    have := h.edgeCount_eq
    simp only [eraseHalf, modifyLinks, modifyVertex, List.length_cons] at this ⊢
    omega
  data?_eq u := (h.data?_eq u).trans (data?_modifyLinks _)
  linksAt_eq u := by
    rw [h.linksAt_eq, eraseHalf, linksAt_modifyLinks _ (.inr (eraseLink_nil v))]
    by_cases hu : u = l.1
    · subst hu
      simp only [hl, if_false, if_true, List.map_cons, List.mem_cons, true_or]
      rfl
    · simp only [hu, if_false, List.map_cons, List.mem_cons, false_or]
      rfl
  size_eq := h.size_eq.trans (size_modifyVertex _)
  holes_eq := h.holes_eq
  inputs_eq := h.inputs_eq
  outputs_eq := h.outputs_eq
  scalar_eq := h.scalar_eq
  vertexCount_eq := h.vertexCount_eq

theorem foldlM_dropHalf (ls : List Link) (hnodup : (ls.map Prod.fst).Nodup) (g : Diagram)
    (hcount : ls.length ≤ g.edgeCount) :
    ∃ g', ls.foldlM (dropHalf v) g = .ok g' ∧ HalvesDropped g v ls g' := by
  induction ls generalizing g with
  | nil => exact ⟨g, rfl, halvesDropped_nil⟩
  | cons l ls ih =>
      simp only [List.map_cons, List.nodup_cons] at hnodup
      simp only [List.length_cons] at hcount
      have hsub : natSub g.edgeCount 1 = .ok (g.edgeCount - 1) :=
        natSub_eq_ok.mpr ⟨by omega, rfl⟩
      have hhead : dropHalf v g l =
          .ok ({ g with edgeCount := g.edgeCount - 1 }.eraseHalf l.1 v) := by
        rw [dropHalf, hsub]
        rfl
      have hrest : ls.length ≤
          ({ g with edgeCount := g.edgeCount - 1 }.eraseHalf l.1 v).edgeCount := by
        simp only [eraseHalf, modifyLinks, modifyVertex]
        omega
      obtain ⟨g', hg', hd⟩ := ih hnodup.2 _ hrest
      refine ⟨g', ?_, dropHalf_cons hnodup.1 (by omega) hd⟩
      rw [List.foldlM_cons, hhead]
      exact hg'

/-- The degrees before the removal of a vertex exceed those after it by twice its own. -/
theorem Consistent.sum_degrees (h : g.Consistent) (hv : g.contains v) :
    ∑ u ∈ Finset.range g.slots.size, (g.linksAt u).length =
      (∑ u ∈ Finset.range g.slots.size,
        (if u = v then [] else eraseLink (g.linksAt u) v).length) + 2 * (g.linksAt v).length := by
  have hpoint : ∀ u, (g.linksAt u).length =
      (if u = v then [] else eraseLink (g.linksAt u) v).length +
        ((if u = v then (g.linksAt v).length else 0) +
          if u ∈ (g.linksAt v).map Prod.fst then 1 else 0) := by
    intro u
    by_cases hu : u = v
    · subst hu
      have hself : u ∉ (g.linksAt u).map Prod.fst := by
        intro hm
        obtain ⟨⟨w, f⟩, hl, rfl⟩ := List.mem_map.mp hm
        exact h.irrefl hl
      simp only [hself, if_true, if_false, List.length_nil]
      omega
    · have := length_eraseLink (t := v) (h.nodup u)
      simp only [hu, if_false, h.key_comm (s := v)]
      omega
  have hkeys : ∑ u ∈ Finset.range g.slots.size,
      (if u ∈ (g.linksAt v).map Prod.fst then 1 else 0) = (g.linksAt v).length := by
    rw [← Finset.sum_filter, Finset.sum_const, smul_eq_mul, mul_one]
    have hset : (Finset.range g.slots.size).filter (· ∈ (g.linksAt v).map Prod.fst) =
        ((g.linksAt v).map Prod.fst).toFinset := by
      ext u
      rw [Finset.mem_filter, Finset.mem_range, List.mem_toFinset]
      refine ⟨fun hu => hu.2, fun hu => ⟨?_, hu⟩⟩
      obtain ⟨⟨w, f⟩, hl, rfl⟩ := List.mem_map.mp hu
      exact lt_size_of_contains (h.contains_right hl)
    rw [hset, List.toFinset_card_of_nodup (h.nodup v), List.length_map]
  have hself : ∑ u ∈ Finset.range g.slots.size, (if u = v then (g.linksAt v).length else 0) =
      (g.linksAt v).length := by
    rw [Finset.sum_ite_eq', if_pos (Finset.mem_range.mpr (lt_size_of_contains hv))]
  calc ∑ u ∈ Finset.range g.slots.size, (g.linksAt u).length
      = ∑ u ∈ Finset.range g.slots.size,
          ((if u = v then [] else eraseLink (g.linksAt u) v).length +
            ((if u = v then (g.linksAt v).length else 0) +
              if u ∈ (g.linksAt v).map Prod.fst then 1 else 0)) :=
        Finset.sum_congr rfl fun u _ => hpoint u
    _ = _ := by
        rw [Finset.sum_add_distrib, Finset.sum_add_distrib, hkeys, hself]
        omega

/-- A diagram that reads as `g` without `v` and counts accordingly is consistent. -/
theorem Consistent.remove {g' : Diagram} (h : g.Consistent) (hv : g.contains v)
    (hdata : ∀ u, g'.data? u = if u = v then none else g.data? u)
    (hlinks : ∀ u, g'.linksAt u = if u = v then [] else eraseLink (g.linksAt u) v)
    (hsize : g'.slots.size = g.slots.size) (hholes : g'.holes = v :: g.holes)
    (hcount : g'.vertexCount = g.vertexCount - 1)
    (hedges : g'.edgeCount + (g.linksAt v).length = g.edgeCount) : g'.Consistent := by
  have hcontains : ∀ u, g'.contains u = (!decide (u = v) && g.contains u) := by
    intro u
    rw [contains_eq_data?_isSome, hdata, contains_eq_data?_isSome]
    by_cases hu : u = v <;> simp [hu]
  have hsupport : g'.support = g.support.erase v := by
    ext u
    rw [mem_support, hcontains, Finset.mem_erase, mem_support]
    simp
  refine ⟨?_, ?_, ?_, ?_, ?_, ?_, ?_⟩
  · intro s t e hl
    rw [hlinks] at hl ⊢
    split at hl
    · simp at hl
    · rename_i hs
      rw [mem_eraseLink (h.nodup s)] at hl
      rw [if_neg hl.2, mem_eraseLink (h.nodup t)]
      exact ⟨h.symm hl.1, hs⟩
  · intro s
    rw [hlinks]
    split
    · simp
    · exact nodup_eraseLink (h.nodup s)
  · intro s e hl
    rw [hlinks] at hl
    split at hl
    · simp at hl
    · exact h.irrefl (mem_eraseLink (h.nodup s) |>.mp hl).1
  · intro u
    rw [hholes, hsize, hcontains, List.mem_cons, h.mem_holes]
    by_cases hu : u = v
    · subst hu
      simp [lt_size_of_contains hv]
    · simp [hu]
  · rw [hholes, List.nodup_cons]
    refine ⟨fun hc => ?_, h.nodup_holes⟩
    have hfalse := (h.mem_holes.mp hc).2
    rw [hv] at hfalse
    cases hfalse
  · rw [hcount, hsupport, Finset.card_erase_of_mem (mem_support.mpr hv), h.vertexCount_eq]
  · have hdeg := h.sum_degrees hv
    have hsum : ∑ u ∈ Finset.range g.slots.size, (g'.linksAt u).length =
        ∑ u ∈ Finset.range g.slots.size,
          (if u = v then [] else eraseLink (g.linksAt u) v).length :=
      Finset.sum_congr rfl fun u _ => by rw [hlinks]
    rw [hsize, hsum]
    rw [← h.edgeCount_eq] at hdeg
    omega

theorem removeVertex_removed (h : g.Consistent) (hv : g.contains v) :
    ∃ g', g.removeVertex v = .ok g' ∧ Removed g v g' := by
  obtain ⟨x, hx⟩ := contains_iff.mp hv
  have hslot := vertex?_eq_some.mp hx
  have hlinks := linksAt_of_vertex? hx
  have hcard : 1 ≤ g.vertexCount := by
    rw [h.vertexCount_eq]
    exact Finset.card_pos.mpr ⟨v, mem_support.mpr hv⟩
  have hsub : natSub g.vertexCount 1 = .ok (g.vertexCount - 1) := natSub_eq_ok.mpr ⟨hcard, rfl⟩
  have hdeg : x.links.length ≤ g.edgeCount := by
    have := h.sum_degrees hv
    rw [← h.edgeCount_eq, hlinks] at this
    omega
  set cleared : Diagram :=
    { g with slots := g.slots.setIfInBounds v none, holes := v :: g.holes,
             vertexCount := g.vertexCount - 1 } with hcleared
  have hvertex : ∀ u, cleared.vertex? u = if u = v then none else g.vertex? u := by
    intro u
    simp only [hcleared, vertex?, Array.getElem?_setIfInBounds]
    by_cases hu : u = v
    · subst hu
      simp [lt_size_of_contains hv]
    · simp [hu, Ne.symm hu]
  obtain ⟨g', hg', hd⟩ := foldlM_dropHalf (v := v) x.links (hlinks ▸ h.nodup v) cleared hdeg
  have hdata : ∀ u, g'.data? u = if u = v then none else g.data? u := by
    intro u
    rw [hd.data?_eq, data?, hvertex, data?]
    split <;> rfl
  have hlinksAt : ∀ u, g'.linksAt u = if u = v then [] else eraseLink (g.linksAt u) v := by
    intro u
    rw [hd.linksAt_eq, linksAt, hvertex, ← hlinks]
    by_cases hu : u = v
    · subst hu
      simp [eraseLink_nil]
    · simp only [hu, if_false]
      split
      · rfl
      · rename_i hkey
        exact (eraseLink_eq_self fun hc => hkey (h.key_comm.mp hc)).symm
  refine ⟨g', ?_, h.remove hv hdata hlinksAt ?_ hd.holes_eq hd.vertexCount_eq ?_, hdata, hlinksAt,
    hd.inputs_eq, hd.outputs_eq, hd.scalar_eq, ?_⟩
  · rw [removeVertex, hslot]
    simp only [hsub]
    exact hg'
  · simp [hd.size_eq, hcleared]
  · rw [hlinks]
    exact hd.edgeCount_eq
  · rw [hd.vertexCount_eq]
    exact Nat.sub_add_cancel hcard

/-! ## Checking -/

theorem linksAt_of_size_le (h : g.slots.size ≤ v) : g.linksAt v = [] := by
  refine linksAt_eq_nil ?_
  by_contra hc
  exact absurd (lt_size_of_contains (by simpa using hc)) (Nat.not_lt.mpr h)

theorem consistent_iff : g.Consistent ↔
    (∀ s < g.slots.size, ((g.linksAt s).map Prod.fst).Nodup ∧
      ∀ l ∈ g.linksAt s, l.1 ≠ s ∧ (s, l.2) ∈ g.linksAt l.1) ∧
    (∀ v < g.slots.size, v ∈ g.holes ↔ g.contains v = false) ∧
    (∀ v ∈ g.holes, v < g.slots.size) ∧ g.holes.Nodup ∧ g.vertexCount = g.vertices.length ∧
    2 * g.edgeCount = ∑ v ∈ Finset.range g.slots.size, (g.linksAt v).length := by
  constructor
  · intro h
    refine ⟨fun s _ => ⟨h.nodup s, fun l hl => ⟨h.ne hl, h.symm hl⟩⟩, fun v hv => ?_,
      fun v hv => (h.mem_holes.mp hv).1, h.nodup_holes, h.vertexCount_eq.trans g.card_support,
      h.edgeCount_eq⟩
    rw [h.mem_holes]
    exact ⟨fun hc => hc.2, fun hc => ⟨hv, hc⟩⟩
  · rintro ⟨hlinks, hholes, hlt, hnodup, hcount, hedges⟩
    have hsize : ∀ {s l}, l ∈ g.linksAt s → s < g.slots.size := by
      intro s l hl
      by_contra hc
      rw [linksAt_of_size_le (Nat.not_lt.mp hc)] at hl
      exact absurd hl List.not_mem_nil
    refine ⟨fun hl => ((hlinks _ (hsize hl)).2 _ hl).2, fun s => ?_,
      fun hl => ((hlinks _ (hsize hl)).2 _ hl).1 rfl, fun {v} => ?_, hnodup,
      hcount.trans g.card_support.symm, hedges⟩
    · by_cases hs : s < g.slots.size
      · exact (hlinks s hs).1
      · rw [linksAt_of_size_le (Nat.not_lt.mp hs)]
        exact List.nodup_nil
    · exact ⟨fun hv => ⟨hlt v hv, (hholes v (hlt v hv)).mp hv⟩, fun hv => (hholes v hv.1).mpr hv.2⟩

instance (g : Diagram) : Decidable g.Consistent := decidable_of_iff _ consistent_iff.symm

end ZX.Diagram
