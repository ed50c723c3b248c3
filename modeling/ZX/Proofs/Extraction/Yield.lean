import Mathlib
import ZX.Proofs.Extraction.Orderly

/-!
# What a round extracts

The spiders of the frontier and their neighbours form a matrix over two elements. A round extracts
exactly those neighbours whose unit vectors lie in the row space of this matrix. Each takes the place
of one vertex on the frontier, and the other places stay as they are.
-/
namespace ZX

open Finset Diagram

namespace Workspace

variable {g : Diagram} {U : Finset ℕ} {A cols : List ℕ} {n q u v : ℕ} {w w' : Workspace}

/-- The Z spiders on the frontier that have an edge. -/
def facing (w : Workspace) : Finset ℕ :=
  (w.frontier.map Prod.snd).toFinset.filter fun v =>
    w.diagram.kind? v = some .z ∧ w.diagram.linksAt v ≠ []

/-- The neighbours of these spiders. -/
def faced (w : Workspace) : Finset ℕ :=
  w.facing.biUnion fun v => ((w.diagram.linksAt v).map Prod.fst).toFinset

/-- Which of the spiders is adjacent to which of the neighbours. -/
def frontMatrix (w : Workspace) : Matrix w.facing w.faced (ZMod 2) :=
  .of fun v u => if w.diagram.connected v u then 1 else 0

/-- The unit vector of the neighbour lies in the row space of the matrix. -/
def Yields (w : Workspace) (u : ℕ) : Prop :=
  ∃ hu : u ∈ w.faced, Pi.single ⟨u, hu⟩ 1 ∈ Submodule.span (ZMod 2) (Set.range w.frontMatrix.row)

theorem mem_facing : v ∈ w.facing ↔ v ∈ w.activeEntries.map Prod.snd := by
  simp [facing, activeEntries, isActive, List.length_pos_iff]

theorem mem_faced (hD : w.diagram.Consistent) :
    u ∈ w.faced ↔ ∃ v ∈ w.facing, w.diagram.connected v u = true := by
  simp only [faced, mem_biUnion, List.mem_toFinset, hD.key_iff, connected, Option.isSome_iff_exists]

namespace Faces

variable (hf : Faces U A w.activeEntries cols w)
include hf

theorem row_of_notMem_facing (hv : v ∈ A) (hrow : v ∉ w.facing) : w.diagram.row U v = 0 := by
  funext t
  by_cases ht : t ∈ U
  · rw [Diagram.row, connected, hf.other v hv (fun hc => hrow (mem_facing.mpr hc)) t ht]
    simp
  · simp [Diagram.row, ht]

theorem row_apply (hv : v ∈ w.facing) (t : ℕ) :
    w.diagram.row U v t = if w.diagram.connected v t = true then 1 else 0 := by
  by_cases hconn : w.diagram.connected v t = true
  · obtain ⟨e, he⟩ := Option.isSome_iff_exists.mp hconn
    have ht : t ∈ U := (hf.edge (mem_facing.mp hv) he).2.1
    simp [Diagram.row, ht, hconn]
  · simp [Diagram.row, hconn]

/-- The span of the neighbourhoods vanishes outside of the neighbours. -/
theorem rowSpan_apply {y : ℕ → ZMod 2} (hD : w.diagram.Consistent)
    (hy : y ∈ w.diagram.rowSpan U A.toFinset) (hu : u ∉ w.faced) : y u = 0 := by
  refine rowSpan_apply_eq_zero (fun v hv => ?_) hy
  by_cases hrow : v ∈ w.facing
  · rw [hf.row_apply hrow, if_neg fun hconn => hu ((mem_faced hD).mpr ⟨v, hrow, hconn⟩)]
  · rw [hf.row_of_notMem_facing (List.mem_toFinset.mp hv) hrow]
    rfl

/-- The row space of the matrix is the span of the neighbourhoods, read on the neighbours. -/
theorem map_rowSpan :
    (w.diagram.rowSpan U A.toFinset).map
        (LinearMap.funLeft (ZMod 2) (ZMod 2) (Subtype.val : w.faced → ℕ)) =
      Submodule.span (ZMod 2) (Set.range w.frontMatrix.row) := by
  have hrow : ∀ v (hv : v ∈ w.facing), LinearMap.funLeft (ZMod 2) (ZMod 2)
      (Subtype.val : w.faced → ℕ) (w.diagram.row U v) = w.frontMatrix.row ⟨v, hv⟩ := by
    intro v hv
    funext u
    exact hf.row_apply hv u
  rw [rowSpan, Submodule.map_span]
  apply le_antisymm
  · refine Submodule.span_le.mpr ?_
    rintro _ ⟨_, ⟨v, hv, rfl⟩, rfl⟩
    by_cases hvf : v ∈ w.facing
    · rw [hrow v hvf]
      exact Submodule.subset_span ⟨_, rfl⟩
    · rw [hf.row_of_notMem_facing (List.mem_toFinset.mp hv) hvf, map_zero]
      exact Submodule.zero_mem _
  · refine Submodule.span_mono ?_
    rintro _ ⟨⟨v, hv⟩, rfl⟩
    have hvA : v ∈ A := hf.mem_anchors (mem_facing.mp hv)
    exact ⟨_, ⟨v, List.mem_toFinset.mpr hvA, rfl⟩, hrow v hv⟩

theorem single_mem_rowSpan_iff (hD : w.diagram.Consistent) :
    Pi.single u 1 ∈ w.diagram.rowSpan U A.toFinset ↔ w.Yields u := by
  have hsingle : ∀ hu : u ∈ w.faced, LinearMap.funLeft (ZMod 2) (ZMod 2)
      (Subtype.val : w.faced → ℕ) (Pi.single u 1) = Pi.single ⟨u, hu⟩ 1 := by
    intro hu
    funext t
    simp only [LinearMap.funLeft_apply, Pi.single_apply, Subtype.ext_iff]
  unfold Yields
  rw [← hf.map_rowSpan]
  constructor
  · intro h
    have hu : u ∈ w.faced := by
      by_contra hu
      have hzero := hf.rowSpan_apply hD h hu
      rw [Pi.single_eq_same] at hzero
      exact one_ne_zero hzero
    exact ⟨hu, Pi.single u 1, h, hsingle hu⟩
  · rintro ⟨hu, y, hy, hyu⟩
    have heq : y = Pi.single u 1 := by
      funext t
      by_cases ht : t ∈ w.faced
      · have hyt := congrFun (hyu.trans (hsingle hu).symm) ⟨t, ht⟩
        exact hyt
      · have htu : t ≠ u := fun hc => ht (hc ▸ hu)
        rw [hf.rowSpan_apply hD hy ht, Pi.single_eq_of_ne htu]
    exact heq ▸ hy

end Faces

/-- At position `i` of the frontier, `u` has taken the place of another vertex on the same qubit. -/
def Replaces (w w' : Workspace) (i u : ℕ) : Prop :=
  ∃ q v, v ≠ u ∧ w.frontier[i]? = some (q, v) ∧ w'.frontier[i]? = some (q, u)

namespace Turn.Taken

variable {t : Turn} (ht : Turn.Taken g n U A w t)
include ht

theorem replaces (h : Reached g n U A [] w) {a : FrontierEntry} (ha : a ∈ t.new) :
    Replaces w t.next a.1 a.2 := by
  obtain ⟨haU, i, v, j, -, hrow, -⟩ := ht.named a ha
  obtain ⟨hentry, hv⟩ := ht.faces.row (List.mem_of_getElem? hrow)
  have hget := h.laid.mem_iff_getElem?.mp hentry
  have hlt := (List.getElem?_eq_some_iff.mp hget).1
  refine ⟨a.1, v, fun hc => ?_, hget, ?_⟩
  · exact (h.laid.left v (List.mem_of_getElem? hv)).1 (hc ▸ haU)
  · rw [ht.frontier_eq]
    exact getElem?_replaceAll_of_mem ht.nodup_fst ha hlt

theorem getElem?_eq_or_replaces (h : Reached g n U A [] w) (i : ℕ) :
    t.next.frontier[i]? = w.frontier[i]? ∨ ∃ u ∈ t.new.map Prod.snd, Replaces w t.next i u := by
  by_cases hi : i ∈ t.new.map Prod.fst
  · obtain ⟨a, ha, rfl⟩ := List.mem_map.mp hi
    exact .inr ⟨a.2, List.mem_map_of_mem ha, ht.replaces h ha⟩
  · rw [ht.frontier_eq]
    exact .inl (getElem?_replaceAll_of_notMem hi)

theorem existsUnique_replaces (h : Reached g n U A [] w) (hg : g.WellFormed)
    (hu : u ∈ t.new.map Prod.snd) : ∃! i, Replaces w t.next i u := by
  obtain ⟨A', h'⟩ := ht.reached
  have hindex : ∀ {i q x : ℕ}, t.next.frontier[i]? = some (q, x) → i = q := by
    intro i q x hi
    have hfst : (t.next.frontier.map Prod.fst)[i]? = some q := by rw [List.getElem?_map, hi]; rfl
    rw [h'.laid.fst_eq] at hfst
    obtain ⟨_, hiq⟩ := List.getElem?_eq_some_iff.mp hfst
    rwa [List.getElem_range] at hiq
  obtain ⟨a, ha, rfl⟩ := List.mem_map.mp hu
  refine ⟨a.1, ht.replaces h ha, ?_⟩
  rintro i ⟨q, v, -, -, hi⟩
  obtain ⟨_, _, -, -, ha'⟩ := ht.replaces h ha
  rw [hindex hi]
  have hq := h'.laid.qubit_unique hg (List.mem_of_getElem? hi) (List.mem_of_getElem? ha')
  exact hq.trans (hindex ha').symm

end Turn.Taken

/-- A spider on the frontier has no phase and lies on the line of its qubit. -/
theorem Reached.onLine (h : Reached g n U A [] w) (hq : (q, u) ∈ w.frontier)
    (hu : u ∉ w.diagram.inputs) :
    w.diagram.phase? u = some Phase.zero ∧ ∃ x, w.diagram.qubit u = .ok x ∧ Decimal.OnLine q x := by
  obtain ⟨v, hv, rfl | htied⟩ := h.laid.entry hq
  · exact ⟨h.laid.phase?_eq u (List.mem_of_getElem? hv), h.laid.line q u hv⟩
  · rw [h.laid.inputs_eq] at hu
    exact absurd htied.input hu

end Workspace

namespace Diagram

open Workspace

variable {g : Diagram} {options : ExtractionOptions} {w₀ w : Workspace}

/-- The state in which the rounds of an extraction start. -/
theorem exists_start (hg : g.WellFormed)
    (hprep : (g.extractionStart options).prepare.outcome = .ok w₀) :
    ∃ g' n A, g'.Normal ∧ g'.inputs = g.inputs ∧ g'.outputs = g.outputs ∧
      Reached g' n (g'.core \ g'.fringe) A [] w₀ ∧
      Seen g' (g'.core \ g'.fringe) w₀.initiallyVisited := by
  obtain ⟨w', hw'⟩ := exists_normalised hprep
  have hnormal := (normaliseInputs_ends hg).of_eq_ok hw'
  obtain ⟨hin, hout, -⟩ := hnormal.same
  obtain ⟨A, h, hF, hfringe⟩ := (prepare_ends hnormal hw'
    (congrArg Circuit.gates hnormal.circuit_eq)).of_eq_ok hprep
  exact ⟨w'.diagram, _, A, hnormal.normal, hin, hout, h,
    h.seen hnormal.normal.toWellFormed hF hfringe⟩

/-- The states between the rounds of an extraction are in order. -/
theorem exists_reached (hg : g.WellFormed)
    (hprep : (g.extractionStart options).prepare.outcome = .ok w₀)
    (hrun : Relation.ReflTransGen Advances w₀ w) :
    ∃ g' n U A, g'.Normal ∧ Reached g' n U A [] w := by
  obtain ⟨g', n, A, hg', -, -, h, -⟩ := exists_start hg hprep
  obtain ⟨U', A', h'⟩ := Reached.of_advances hg' h hrun
  exact ⟨g', n, U', A', hg', h'⟩

/-- In every state of an extraction a round succeeds and extracts exactly the neighbours of the
frontier whose unit vectors lie in the row space of the frontier. Each of them replaces one entry of
the frontier, a spider without phase and on the line of the qubit; all other entries stay. -/
theorem advance_extracts (hg : g.WellFormed)
    (hprep : (g.extractionStart options).prepare.outcome = .ok w₀)
    (hrun : Relation.ReflTransGen Advances w₀ w) :
    ∃ us w', w.advance.outcome = .ok (us, w') ∧ us.Nodup ∧ (∀ u, u ∈ us ↔ w.Yields u) ∧
      (∀ u ∈ us, ∃! i, Replaces w w' i u) ∧
      (∀ i, w'.frontier[i]? = w.frontier[i]? ∨ ∃ u ∈ us, Replaces w w' i u) ∧
      ∀ u ∈ us, u ∉ w.diagram.inputs → ∀ q, (q, u) ∈ w'.frontier →
        w'.diagram.phase? u = some Phase.zero ∧
        ∃ x, w'.diagram.qubit u = .ok x ∧ Decimal.OnLine q x := by
  obtain ⟨g', n, U, A, hg', h⟩ := exists_reached hg hprep hrun
  obtain ⟨t, ht⟩ := exists_turn h hg'
  obtain ⟨A', h'⟩ := ht.reached
  refine ⟨t.new.map Prod.snd, t.next, ht.advance_eq, ht.nodup_snd, fun u => ?_,
    fun u hu => ht.existsUnique_replaces h hg'.toWellFormed hu, ht.getElem?_eq_or_replaces h,
    fun u _ hin q hq => h'.onLine hq ?_⟩
  · rw [ht.mem_new_iff h, ht.faces.single_mem_rowSpan_iff h.laid.consistent]
  · rwa [h'.laid.inputs_eq, ← h.laid.inputs_eq]

/-- Two qubits, with the spiders 4 and 5 in front of 2 and 3. The neighbours of 4 are 2 and 3, and the
only neighbour of 5 is 3. -/
def fork : Diagram where
  slots := #[
    some ⟨⟨.boundary, Phase.zero, 0, 0⟩, [(2, .hadamard)]⟩,
    some ⟨⟨.boundary, Phase.zero, 1, 0⟩, [(3, .hadamard)]⟩,
    some ⟨⟨.z, Phase.zero, 0, 1⟩, [(0, .hadamard), (4, .hadamard)]⟩,
    some ⟨⟨.z, Phase.one, 1, 1⟩, [(1, .hadamard), (4, .hadamard), (5, .hadamard)]⟩,
    some ⟨⟨.z, Phase.zero, 0, 2⟩, [(2, .hadamard), (3, .hadamard), (6, .plain)]⟩,
    some ⟨⟨.z, Phase.zero, 1, 2⟩, [(3, .hadamard), (7, .plain)]⟩,
    some ⟨⟨.boundary, Phase.zero, 0, 3⟩, [(4, .plain)]⟩,
    some ⟨⟨.boundary, Phase.zero, 1, 3⟩, [(5, .plain)]⟩]
  holes := []
  inputs := [0, 1]
  outputs := [6, 7]
  vertexCount := 8
  edgeCount := 7
  scalar := Scalar.one

/-- No spider has 2 as its only neighbour, but it is extracted in the first round. -/
theorem advance_extracts_fork : fork.WellFormed ∧ ∃ w us w',
    (fork.extractionStart {}).prepare.outcome = .ok w ∧ w.advance.outcome = .ok (us, w') ∧
    2 ∈ us := by
  have hg : fork.WellFormed := by decide +kernel
  have hfront : ((fork.extractionStart {}).prepare.outcome.toOption.any fun w =>
      w.facing = {4, 5} ∧ w.faced = {2, 3} ∧ w.diagram.connected 4 2 = true ∧
        w.diagram.connected 4 3 = true ∧ w.diagram.connected 5 2 = false ∧
        w.diagram.connected 5 3 = true) = true := by
    decide +kernel
  obtain ⟨w, hw, hfront⟩ := exists_ok_of_any hfront
  obtain ⟨hfacing, hfaced, h42, h43, h52, h53⟩ := of_decide_eq_true hfront
  obtain ⟨us, w', hadvance, -, hiff, -⟩ := advance_extracts hg hw .refl
  refine ⟨hg, w, us, w', hw, hadvance, (hiff 2).mpr ?_⟩
  have h4 : 4 ∈ w.facing := by simp [hfacing]
  have h5 : 5 ∈ w.facing := by simp [hfacing]
  have h2 : 2 ∈ w.faced := by simp [hfaced]
  have hsum : w.frontMatrix.row ⟨4, h4⟩ + w.frontMatrix.row ⟨5, h5⟩ = Pi.single ⟨2, h2⟩ 1 := by
    funext ⟨t, ht⟩
    have htwo : (1 : ZMod 2) + 1 = 0 := by decide
    rw [hfaced, mem_insert, mem_singleton] at ht
    obtain rfl | rfl := ht
    · simp [frontMatrix, Matrix.row, h42, h52]
    · simp [frontMatrix, Matrix.row, h43, h53, htwo]
  refine ⟨h2, hsum ▸ Submodule.add_mem _ ?_ ?_⟩
  · exact Submodule.subset_span ⟨_, rfl⟩
  · exact Submodule.subset_span ⟨_, rfl⟩

end Diagram

end ZX
