import Mathlib
import ZX.Proofs.Extraction.Advance
import ZX.Proofs.Extraction.Wiring
import ZX.Proofs.Matrix.RowSpace

/-!
# Rewiring the frontier

A round of extraction lays the edges between the frontier and its neighbours anew, so that every
unit vector in the span of the neighbourhoods is a neighbourhood. The steps of the row reduction
become gates, and the neighbourhoods span what they spanned before.
-/
namespace ZX

open Finset Function

namespace Diagram

variable {g bare D D' : Diagram} {U : Finset ℕ} {A N rows cols : List ℕ} {F : List FrontierEntry}
  {M : BitMatrix} {q s t u v : ℕ} {e : EdgeKind}

/-! ## Neighbourhoods and rows -/

/-- A vector over column numbers as a vector over the vertices of the columns. -/
def spread (cols : List ℕ) : (ℕ → ZMod 2) →ₗ[ZMod 2] (ℕ → ZMod 2) where
  toFun y t := if t ∈ cols then y (cols.idxOf t) else 0
  map_add' y z := by
    funext t
    by_cases ht : t ∈ cols <;> simp [ht]
  map_smul' c y := by
    funext t
    by_cases ht : t ∈ cols <;> simp [ht]

/-- The edges between the frontier and the rest are those of the matrix. -/
structure Fronted (bare : Diagram) (U : Finset ℕ) (A rows cols : List ℕ) : Prop where
  rows_subset : ∀ r ∈ rows, r ∈ A
  cols_subset : ∀ c ∈ cols, c ∈ U
  apart : ∀ v ∈ A, v ∉ U
  nodup_rows : rows.Nodup
  nodup_cols : cols.Nodup
  none_left : ∀ v ∈ A, ∀ t ∈ U, bare.edgeKind? v t = none

namespace Fronted

theorem edge_of_row (h : Fronted bare U A rows cols) (hw : Wired bare rows cols M D) {i : ℕ}
    (hi : rows[i]? = some v) (ht : t ∈ U) :
    D.edgeKind? v t = if t ∈ cols ∧ M i (cols.idxOf t) = true then some .hadamard else none := by
  have hvA := h.rows_subset v (List.mem_of_getElem? hi)
  by_cases htc : t ∈ cols
  · have hj : cols[cols.idxOf t]? = some t := by
      rw [List.getElem?_eq_getElem (List.idxOf_lt_length_of_mem htc), List.getElem_idxOf]
    rw [hw.entry_eq i _ v t hi hj]
    simp [htc]
  · rw [hw.other_eq v t (fun hc => htc hc.2) fun hc => h.apart v hvA (h.cols_subset v hc.1),
      h.none_left v hvA t ht]
    simp [htc]

theorem edge_of_other (h : Fronted bare U A rows cols) (hw : Wired bare rows cols M D) (hv : v ∈ A)
    (hrow : v ∉ rows) (ht : t ∈ U) : D.edgeKind? v t = none := by
  rw [hw.other_eq v t (fun hc => hrow hc.1) fun hc => h.apart v hv (h.cols_subset v hc.1),
    h.none_left v hv t ht]

theorem row_eq (h : Fronted bare U A rows cols) (hw : Wired bare rows cols M D) {i : ℕ}
    (hi : rows[i]? = some v) : D.row U v = spread cols (ByteMatrix.vector (M i)) := by
  funext t
  by_cases ht : t ∈ U
  · rw [row, connected, h.edge_of_row hw hi ht]
    by_cases htc : t ∈ cols
    · by_cases hM : M i (cols.idxOf t) = true
      · simp [spread, ByteMatrix.vector, ht, htc, hM]
      · simp [spread, ByteMatrix.vector, htc, hM]
    · simp [spread, htc]
  · have htc : t ∉ cols := fun hc => ht (h.cols_subset t hc)
    simp [row, spread, ht, htc]

theorem rowSpan_eq (h : Fronted bare U A rows cols) (hw : Wired bare rows cols M D) :
    D.rowSpan U A.toFinset = (ByteMatrix.rowSpace rows.length M).map (spread cols) := by
  apply le_antisymm
  · refine Submodule.span_le.mpr ?_
    intro y hy
    obtain ⟨v, hv, rfl⟩ := hy
    rw [mem_coe, List.mem_toFinset] at hv
    by_cases hvr : v ∈ rows
    · obtain ⟨i, hi⟩ := List.mem_iff_getElem?.mp hvr
      rw [h.row_eq hw hi]
      exact Submodule.mem_map_of_mem
        (ByteMatrix.vector_mem_rowSpace (List.getElem?_eq_some_iff.mp hi).1)
    · have hzero : D.row U v = 0 := by
        funext t
        by_cases ht : t ∈ U
        · rw [row, connected, h.edge_of_other hw hv hvr ht]
          simp
        · simp [row, ht]
      rw [hzero]
      exact Submodule.zero_mem _
  · rw [Submodule.map_le_iff_le_comap]
    refine ByteMatrix.rowSpace_le fun i hi => ?_
    rw [Submodule.mem_comap, ← h.row_eq hw (List.getElem?_eq_getElem hi)]
    exact row_mem_rowSpan (List.mem_toFinset.mpr (h.rows_subset _ (List.getElem_mem hi)))

/-- A unit vector in the span shows as a unit row once every row owns a column. -/
theorem exists_unit_row (h : Fronted bare U A rows cols) (hw : Wired bare rows cols M D)
    (hM : ∀ i j, cols.length ≤ j → M i j = false) (howned : ByteMatrix.Owned rows.length M)
    (hu : Pi.single u 1 ∈ D.rowSpan U A.toFinset) :
    u ∈ cols ∧ ∃ i < rows.length, ∀ k, M i k = (k == cols.idxOf u) := by
  rw [h.rowSpan_eq hw] at hu
  obtain ⟨y, hy, hspread⟩ := hu
  have hbeyond : ∀ j, cols.length ≤ j → y j = 0 := by
    intro j hj
    refine Submodule.span_induction (p := fun y _ => y j = 0) ?_ rfl ?_ ?_ hy
    · intro y hy
      obtain ⟨i, rfl⟩ := hy
      simp [ByteMatrix.vector, hM i j hj]
    · intro a b _ _ ha hb
      simp [ha, hb]
    · intro c a _ ha
      simp [ha]
  have huc : u ∈ cols := by
    by_contra hc
    have heq := congrFun hspread u
    simp [spread, hc] at heq
  have hvec : y = ByteMatrix.vector (· == cols.idxOf u) := by
    funext j
    by_cases hj : j < cols.length
    · have heq := congrFun hspread cols[j]
      simp only [spread, LinearMap.coe_mk, AddHom.coe_mk, List.getElem_mem, if_true,
        h.nodup_cols.idxOf_getElem j hj] at heq
      rw [heq, ByteMatrix.vector]
      by_cases hju : cols[j] = u
      · have hidx : j = cols.idxOf u := by rw [← hju, h.nodup_cols.idxOf_getElem j hj]
        simp [hju, ← hidx]
      · have hidx : j ≠ cols.idxOf u := by
          intro hc
          apply hju
          simp only [hc, List.getElem_idxOf]
        simp [Pi.single_eq_of_ne hju, hidx]
    · have hidx : j ≠ cols.idxOf u := by
        have := List.idxOf_lt_length_of_mem huc
        omega
      rw [hbeyond j (by omega)]
      simp [ByteMatrix.vector, hidx]
  rw [hvec] at hy
  exact ⟨huc, howned.exists_unit hy⟩

/-- A unit row is a unit vector in the span. -/
theorem single_mem_rowSpan (h : Fronted bare U A rows cols) (hw : Wired bare rows cols M D)
    {i j : ℕ} (hi : i < rows.length) (hj : cols[j]? = some u) (hunit : ∀ k, M i k = (k == j)) :
    Pi.single u 1 ∈ D.rowSpan U A.toFinset := by
  have huc := List.mem_of_getElem? hj
  have hrow : D.row U rows[i] = Pi.single u 1 := by
    rw [h.row_eq hw (List.getElem?_eq_getElem hi)]
    funext t
    by_cases htu : t = u
    · subst htu
      simp [spread, ByteMatrix.vector, huc, hunit, idxOf_of_getElem? h.nodup_cols hj]
    · by_cases htc : t ∈ cols
      · have hne : cols.idxOf t ≠ j := by
          rw [← idxOf_of_getElem? h.nodup_cols hj]
          exact fun hc => htu ((List.idxOf_inj htc).mp hc)
        simp [spread, ByteMatrix.vector, htc, hunit, hne, htu]
      · simp [spread, htc, htu]
  rw [← hrow]
  exact row_mem_rowSpan (List.mem_toFinset.mpr (h.rows_subset _ (List.getElem_mem hi)))

end Fronted

end Diagram

namespace Workspace

open Diagram

variable {g bare D : Diagram} {U : Finset ℕ} {A N : List ℕ} {n q u v : ℕ} {w w' : Workspace}

/-! ## Rows and columns -/

/-- The entry ends in a Z spider with an edge. -/
def isActive (D : Diagram) (a : FrontierEntry) : Bool :=
  D.kind? a.2 = some .z && 0 < (D.linksAt a.2).length

/-- The entries that take part in a round. -/
def activeEntries (w : Workspace) : List FrontierEntry := w.frontier.filter (isActive w.diagram)

theorem contains_entry (h : Laid g U A N w.frontier w.diagram) {a : FrontierEntry}
    (ha : a ∈ w.frontier) : w.diagram.contains a.2 = true := by
  obtain ⟨v, hv, heq | htied⟩ := h.entry (q := a.1) (w := a.2) ha
  · rw [heq]
    exact h.contains_anchor (List.mem_of_getElem? hv)
  · exact (h.contains_iff _).mpr (.inr (.inr (.inl htied.input)))

theorem activeRows_eq (h : Laid g U A N w.frontier w.diagram) :
    w.activeRows = .ok w.activeEntries := by
  refine filterM_eq_ok fun a ha => ?_
  have hcont := contains_entry h ha
  obtain ⟨κ, hκ⟩ := exists_kind? hcont
  simp only [kind_of_kind? hκ, degree_of_contains hcont, bind, Except.bind, pure, Except.pure,
    isActive, hκ]
  by_cases hz : κ = .z
  · simp [hz]
  · simp [hz]

theorem mem_active (h : Laid g U A N w.frontier w.diagram) (hg : g.WellFormed) :
    (q, v) ∈ w.activeEntries ↔
      (q, v) ∈ w.frontier ∧ A[q]? = some v ∧ w.diagram.linksAt v ≠ [] := by
  rw [activeEntries, List.mem_filter, isActive, Bool.and_eq_true, decide_eq_true_eq,
    decide_eq_true_eq, List.length_pos_iff]
  constructor
  · intro hmem
    obtain ⟨hF, hz, hlinks⟩ := hmem
    obtain ⟨s, hs, rfl | htied⟩ := h.entry hF
    · exact ⟨hF, hs, hlinks⟩
    · have hkind := hg.kind?_input htied.input
      rw [h.kind?_eq (contains_entry h hF), hkind] at hz
      cases hz
  · intro hmem
    obtain ⟨hF, hs, hlinks⟩ := hmem
    exact ⟨hF, (h.green v (List.mem_of_getElem? hs)).2, hlinks⟩

/-- All neighbours of the listed vertices are collected once, if none is on the frontier. -/
theorem collectNeighbours_ok {l : List ℕ} (hl : ∀ v ∈ l, w.diagram.contains v = true)
    (hfree : ∀ v ∈ l, ∀ c ∈ (w.diagram.linksAt v).map Prod.fst, w.frontierQubit? c = none) :
    ∃ found, (w.collectNeighbours l).outcome = .ok found ∧ found.Nodup ∧
      ∀ c, c ∈ found ↔ ∃ v ∈ l, c ∈ (w.diagram.linksAt v).map Prod.fst := by
  have hstep : ∀ (v : ℕ) (ns found : List ℕ), found.Nodup →
      (∀ c ∈ ns, w.frontierQubit? c = none) →
      ∃ found', (ns.foldlM (fun found n => do
          if (w.frontierQubit? n).isSome then w.refuse (.connectedFrontier v n)
          else if found.contains n then return found
          else return found ++ [n] : List ℕ → ℕ → Extraction (List ℕ)) found).outcome = .ok found' ∧
        found'.Nodup ∧ ∀ c, c ∈ found' ↔ c ∈ found ∨ c ∈ ns := by
    intro v ns
    induction ns with
    | nil => exact fun found hnodup _ => ⟨found, rfl, hnodup, by simp⟩
    | cons c ns ih =>
        intro found hnodup hns
        have hc := hns c List.mem_cons_self
        have hns' : ∀ c ∈ ns, w.frontierQubit? c = none := fun d hd =>
          hns d (List.mem_cons_of_mem c hd)
        by_cases hin : c ∈ found
        · obtain ⟨found', hok, hnodup', hmem⟩ := ih found hnodup hns'
          refine ⟨found', ?_, hnodup', fun d => ?_⟩
          · simp only [List.foldlM_cons, hc, Option.isSome_none, Bool.false_eq_true, if_false,
              List.contains_iff_mem.mpr hin, if_true, Run.outcome_bind, Run.outcome_pure,
              Except.bind]
            exact hok
          · rw [hmem, List.mem_cons]
            by_cases hdc : d = c
            · simp [hdc, hin]
            · simp [hdc]
        · have hnodup₁ : (found ++ [c]).Nodup :=
            List.nodup_append.mpr ⟨hnodup, List.nodup_singleton c, by
              intro a ha b hb hab
              rw [List.mem_singleton] at hb
              exact hin (hb ▸ hab ▸ ha)⟩
          obtain ⟨found', hok, hnodup', hmem⟩ := ih (found ++ [c]) hnodup₁ hns'
          refine ⟨found', ?_, hnodup', fun d => ?_⟩
          · have hfalse : found.contains c = false := by simpa using hin
            simp only [List.foldlM_cons, hc, Option.isSome_none, Bool.false_eq_true, if_false,
              hfalse, Run.outcome_bind, Run.outcome_pure, Except.bind]
            exact hok
          · rw [hmem, List.mem_append, List.mem_singleton, List.mem_cons, or_assoc]
  unfold collectNeighbours
  rw [Run.outcome_foldlM]
  have hloop := Ends.foldlM_done (E := fun _ : Halt => False) (l := l) (b := ([] : List ℕ))
    (f := fun found v => (do
      (← w.diagram.neighbours v).foldlM (fun found n => do
        if (w.frontierQubit? n).isSome then w.refuse (.connectedFrontier v n)
        else if found.contains n then return found
        else return found ++ [n]) found : Extraction (List ℕ)).outcome)
    (I := fun done found => found.Nodup ∧
      ∀ c, c ∈ found ↔ ∃ v ∈ done, c ∈ (w.diagram.linksAt v).map Prod.fst) ?_ (by simp)
  · exact hloop.exists_ok
  · intro done v rest found hsplit hfound
    have hv : v ∈ l := by simp [hsplit]
    obtain ⟨found', hok, hnodup, hmem⟩ := hstep v _ found hfound.1 (hfree v hv)
    refine Ends.of_exists_ok ⟨found', ?_, hnodup, fun c => ?_⟩
    · rw [Run.outcome_bind, outcome_lift_except, neighbours_of_contains (hl v hv)]
      exact hok
    · rw [hmem, hfound.2]
      simp only [List.mem_append, List.mem_singleton]
      constructor
      · intro hc
        obtain ⟨a, ha, hca⟩ | hc := hc
        · exact ⟨a, .inl ha, hca⟩
        · exact ⟨v, .inr rfl, hc⟩
      · intro hc
        obtain ⟨a, ha | rfl, hca⟩ := hc
        · exact .inl ⟨a, ha, hca⟩
        · exact .inr hca

/-! ## Other edges between the same rows and columns -/

/-- The rows are the entries of the frontier with an edge into the rest, and the columns are their
neighbours. -/
structure Faces (U : Finset ℕ) (A : List ℕ) (rows : List FrontierEntry) (cols : List ℕ)
    (w : Workspace) : Prop where
  row : ∀ {q v}, (q, v) ∈ rows → (q, v) ∈ w.frontier ∧ A[q]? = some v
  nodup_rows : (rows.map Prod.snd).Nodup
  nodup_cols : cols.Nodup
  edge : ∀ {v t e}, v ∈ rows.map Prod.snd → w.diagram.edgeKind? v t = some e →
    e = .hadamard ∧ t ∈ U ∧ t ∈ cols
  busy : ∀ v ∈ rows.map Prod.snd, ∃ t, w.diagram.edgeKind? v t = some .hadamard
  met : ∀ c ∈ cols, ∃ v ∈ rows.map Prod.snd, w.diagram.edgeKind? v c = some .hadamard
  other : ∀ v ∈ A, v ∉ rows.map Prod.snd → ∀ t ∈ U, w.diagram.edgeKind? v t = none

theorem Laid.edge_of_inactive (h : Laid g U A N w.frontier w.diagram) (hg : g.WellFormed)
    (hv : v ∈ A) (hrow : v ∉ w.activeEntries.map Prod.snd) {t : ℕ}
    (ht : t ∈ U) : w.diagram.edgeKind? v t = none := by
  obtain ⟨q, hq⟩ := List.mem_iff_getElem?.mp hv
  have hqF : q ∈ w.frontier.map Prod.fst := by
    rw [h.fst_eq, List.mem_range]
    exact (List.getElem?_eq_some_iff.mp hq).1
  obtain ⟨⟨_, x⟩, hx, rfl⟩ := List.mem_map.mp hqF
  obtain ⟨v', hv', hxv⟩ := h.entry hx
  cases hq.symm.trans hv'
  obtain rfl | htied := hxv
  · have hlinks : w.diagram.linksAt x = [] := by
      by_contra hne
      exact hrow (List.mem_map.mpr ⟨(_, x), (mem_active h hg).mpr ⟨hx, hq, hne⟩, rfl⟩)
    rw [edgeKind?_eq_lookup, hlinks]
    rfl
  · rw [htied.hangs_back t, if_neg]
    exact fun hc => htied.done (hc ▸ ht)

/-- The rows and columns of a round. -/
theorem exists_faces (h : Reached g n U A [] w) (hg : g.WellFormed) :
    ∃ found cols, (w.collectNeighbours (w.activeEntries.map Prod.snd)).outcome = .ok found ∧
      sortByQubit w.diagram found = .ok cols ∧ found.Perm cols ∧
      Faces U A w.activeEntries cols w := by
  have hcons := h.laid.consistent
  set rows := w.activeEntries
  have hactive : ∀ {q v}, (q, v) ∈ rows → (q, v) ∈ w.frontier ∧ A[q]? = some v ∧
      w.diagram.linksAt v ≠ [] := fun hmem => (mem_active h.laid hg).mp hmem
  have hspider : ∀ v ∈ rows.map Prod.snd, v ∈ A ∧ ∃ q, (q, v) ∈ rows := by
    intro v hv
    obtain ⟨⟨q, _⟩, hmem, rfl⟩ := List.mem_map.mp hv
    exact ⟨List.mem_of_getElem? (hactive hmem).2.1, q, hmem⟩
  have hedge : ∀ {v t e}, v ∈ rows.map Prod.snd → w.diagram.edgeKind? v t = some e →
      e = .hadamard ∧ t ∈ U := by
    intro v t e hv he
    obtain ⟨-, q, hmem⟩ := hspider v hv
    obtain ⟨hF, hq, -⟩ := hactive hmem
    obtain ⟨rfl, ht | ⟨-, hnil, -⟩⟩ := h.laid.edge_of_entry hg hq hF he
    · exact ⟨rfl, ht⟩
    · cases hnil
  have hkeys : ∀ {v t}, t ∈ (w.diagram.linksAt v).map Prod.fst ↔
      ∃ e, w.diagram.edgeKind? v t = some e := by
    intro v t
    rw [List.mem_map]
    constructor
    · intro ht
      obtain ⟨⟨_, e⟩, hl, rfl⟩ := ht
      exact ⟨e, hcons.edgeKind?_iff.mpr hl⟩
    · intro ht
      obtain ⟨e, he⟩ := ht
      exact ⟨(t, e), hcons.edgeKind?_iff.mp he, rfl⟩
  -- Members of the frontier are spiders that hold a qubit or inputs that have left the rest.
  have hfree : ∀ t ∈ U, w.frontierQubit? t = none := by
    intro t ht
    rw [frontierQubit?, Option.map_eq_none_iff, List.find?_eq_none]
    intro a ha hat
    simp only [decide_eq_true_eq] at hat
    obtain ⟨v, hv, heq | htied⟩ := h.laid.entry (q := a.1) (w := a.2) ha
    · exact (h.laid.left v (List.mem_of_getElem? hv)).1 (heq ▸ hat ▸ ht)
    · exact htied.done (hat ▸ ht)
  obtain ⟨found, hfound, hnodup, hmem⟩ := collectNeighbours_ok (w := w) (l := rows.map Prod.snd)
    (fun v hv => h.laid.contains_anchor (hspider v hv).1) fun v hv c hc => by
      obtain ⟨e, he⟩ := hkeys.mp hc
      exact hfree c (hedge hv he).2
  obtain ⟨cols, hcols, hperm⟩ := sortByQubit_perm (D := w.diagram) fun c hc => by
    obtain ⟨v, hv, hcv⟩ := (hmem c).mp hc
    obtain ⟨e, he⟩ := hkeys.mp hcv
    exact hcons.contains_far he
  have hcol : ∀ c, c ∈ cols ↔ ∃ v ∈ rows.map Prod.snd, ∃ e, w.diagram.edgeKind? v c = some e := by
    intro c
    rw [hperm.mem_iff, hmem]
    simp only [hkeys]
  refine ⟨found, cols, hfound, hcols, hperm.symm, ?_⟩
  constructor
  case row => exact fun hq => ⟨(hactive hq).1, (hactive hq).2.1⟩
  case nodup_rows =>
    refine List.Nodup.map_on ?_ (List.Nodup.filter _ (List.Nodup.of_map Prod.fst ?_))
    · intro a ha b hb hab
      have hq := (hactive (q := a.1) (v := a.2) ha).2.1
      rw [hab] at hq
      exact Prod.ext (eq_of_getElem? h.laid.nodup hq (hactive hb).2.1) hab
    · rw [h.laid.fst_eq]
      exact List.nodup_range
  case nodup_cols => exact hperm.nodup_iff.mpr hnodup
  case edge => exact fun hv he => ⟨(hedge hv he).1, (hedge hv he).2, (hcol _).mpr ⟨_, hv, _, he⟩⟩
  case busy =>
    intro v hv
    obtain ⟨-, q, hq⟩ := hspider v hv
    obtain ⟨⟨t, e⟩, hl⟩ := List.exists_mem_of_ne_nil _ (hactive hq).2.2
    have he := hcons.edgeKind?_iff.mpr hl
    exact ⟨t, (hedge hv he).1 ▸ he⟩
  case met =>
    intro c hc
    obtain ⟨v, hv, e, he⟩ := (hcol c).mp hc
    exact ⟨v, hv, (hedge hv he).1 ▸ he⟩
  case other => exact fun v hv hrow t ht => Laid.edge_of_inactive h.laid hg hv hrow ht

namespace Faces

variable {rows : List FrontierEntry} {cols : List ℕ} {M : BitMatrix}

theorem mem_anchors (h : Faces U A rows cols w) (hv : v ∈ rows.map Prod.snd) : v ∈ A := by
  obtain ⟨⟨q, _⟩, hmem, rfl⟩ := List.mem_map.mp hv
  exact List.mem_of_getElem? (h.row hmem).2

theorem mem_rest (h : Faces U A rows cols w) {c : ℕ} (hc : c ∈ cols) : c ∈ U := by
  obtain ⟨v, hv, he⟩ := h.met c hc
  exact (h.edge hv he).2.1

theorem fronted (h : Faces U A rows cols w) (hlaid : Laid g U A [] w.frontier w.diagram)
    (hbare : Wired bare (rows.map Prod.snd) cols (fun _ _ => false) bare)
    (hD : Wired bare (rows.map Prod.snd) cols M w.diagram) :
    Fronted bare U A (rows.map Prod.snd) cols where
  rows_subset _ hr := h.mem_anchors hr
  cols_subset _ hc := h.mem_rest hc
  apart v hv := (hlaid.left v hv).1
  nodup_rows := h.nodup_rows
  nodup_cols := h.nodup_cols
  none_left v hv t ht := by
    have hvc : v ∉ cols := fun hc => (hlaid.left v hv).1 (h.mem_rest hc)
    by_cases hrow : v ∈ rows.map Prod.snd
    · by_cases htc : t ∈ cols
      · obtain ⟨i, hi⟩ := List.mem_iff_getElem?.mp hrow
        obtain ⟨j, hj⟩ := List.mem_iff_getElem?.mp htc
        rw [hbare.entry_eq i j v t hi hj]
        simp
      · rw [← hD.other_eq v t (fun hc => htc hc.2) fun hc => hvc hc.1]
        by_contra hne
        obtain ⟨e, he⟩ := Option.ne_none_iff_exists'.mp hne
        exact htc (h.edge hrow he).2.2
    · rw [← hD.other_eq v t (fun hc => hrow hc.1) fun hc => hvc hc.1]
      exact h.other v hv hrow t ht

theorem rowed (h : Faces U A rows cols w) (hg : g.Normal)
    (hlaid : Laid g U A [] w.frontier w.diagram)
    (hbare : Wired bare (rows.map Prod.snd) cols (fun _ _ => false) bare)
    (hD : Wired bare (rows.map Prod.snd) cols M w.diagram) :
    Rowed bare A (rows.map Prod.snd) cols fun i => (rows.map Prod.fst).getD i 0 where
  wired := hbare
  green v := by
    rw [← hD.kind?_eq]
    exact hlaid.not_red hg.green v
  nodup := hlaid.nodup
  nodup_rows := h.nodup_rows
  nodup_cols := h.nodup_cols
  disjoint := fun v hv hc => (hlaid.left v (h.mem_anchors hv)).1 (h.mem_rest hc)
  contains_cols c hc := by
    rw [← hD.contains_eq]
    exact hlaid.contains_rest (h.mem_rest hc)
  contains_rows r hr := by
    rw [← hD.contains_eq]
    exact hlaid.contains_anchor (h.mem_anchors hr)
  holds i r hi := by
    rw [List.getElem?_map, Option.map_eq_some_iff] at hi
    obtain ⟨⟨q, v⟩, hqv, rfl⟩ := hi
    rw [List.getD_eq_getElem?_getD, List.getElem?_map, hqv]
    exact (h.row (List.mem_of_getElem? hqv)).2
  bare_row r hr := by
    have hrA := h.mem_anchors hr
    refine ⟨fun t => ?_, ?_⟩
    · by_cases htc : t ∈ cols
      · exact (h.fronted hlaid hbare hD).none_left r hrA t (h.mem_rest htc)
      · have hrc : r ∉ cols := fun hc => (hlaid.left r hrA).1 (h.mem_rest hc)
        rw [← hD.other_eq r t (fun hc => htc hc.2) fun hc => hrc hc.1]
        by_contra hne
        obtain ⟨e, he⟩ := Option.ne_none_iff_exists'.mp hne
        exact htc (h.edge hr he).2.2
    · rw [← hD.turn_eq]
      exact turn_of_phase_zero (hlaid.phase?_eq r hrA)
  not_input r hr := by
    rw [← hD.inputs_eq, hlaid.inputs_eq]
    exact hlaid.notMem_inputs hg.toWellFormed (h.mem_anchors hr)

/-- Laying other edges between the same rows and columns keeps the frontier in order. -/
theorem laid {D : Diagram} {M' : BitMatrix} (h : Faces U A rows cols w)
    (hlaid : Laid g U A [] w.frontier w.diagram)
    (hD : Wired bare (rows.map Prod.snd) cols M w.diagram)
    (hD' : Wired bare (rows.map Prod.snd) cols M' D) : Laid g U A [] w.frontier D := by
  have hcolA : ∀ v ∈ A, v ∉ cols := fun v hv hc => (hlaid.left v hv).1 (h.mem_rest hc)
  have hsame : ∀ s t, (s ∉ rows.map Prod.snd ∨ t ∉ cols) → (s ∉ cols ∨ t ∉ rows.map Prod.snd) →
      D.edgeKind? s t = w.diagram.edgeKind? s t := by
    intro s t h1 h2
    rw [hD'.other_eq s t (by tauto) (by tauto), hD.other_eq s t (by tauto) (by tauto)]
  have hrowed : ∀ {v t e}, v ∈ rows.map Prod.snd → D.edgeKind? v t = some e →
      e = .hadamard ∧ t ∈ cols := by
    intro v t e hv he
    by_cases htc : t ∈ cols
    · obtain ⟨i, hi⟩ := List.mem_iff_getElem?.mp hv
      obtain ⟨j, hj⟩ := List.mem_iff_getElem?.mp htc
      rw [hD'.entry_eq i j v t hi hj] at he
      split at he
      case isTrue => exact ⟨(Option.some.inj he).symm, htc⟩
      case isFalse => cases he
    · rw [hsame v t (.inr htc) (.inl (hcolA v (h.mem_anchors hv)))] at he
      exact absurd (h.edge hv he).2.2 htc
  -- Every row and every column has a Hadamard edge, and tied pairs have none.
  have htouched : ∀ v, v ∈ rows.map Prod.snd ∨ v ∈ cols →
      ∃ t, w.diagram.edgeKind? v t = some .hadamard := by
    intro v hv
    obtain hv | hv := hv
    · exact h.busy v hv
    · obtain ⟨r, -, he⟩ := h.met v hv
      exact ⟨r, (hlaid.consistent.edgeKind?_comm v r).trans he⟩
  refine hlaid.rewire hD'.consistent (fun v => (hD'.data?_eq v).trans (hD.data?_eq v).symm)
    (hD'.inputs_eq.trans hD.inputs_eq.symm) (hD'.outputs_eq.trans hD.outputs_eq.symm)
    (hD'.scalar_eq.trans hD.scalar_eq.symm) (fun s t hs ht => ?_) (fun v b htied => ?_)
    (fun {v t e} hv he => ?_) fun {b v} hb hv he => ?_
  · exact hsame s t (.inl fun hc => hs (h.mem_anchors hc)) (.inr fun hc => ht (h.mem_anchors hc))
  · have hfree : ∀ x, x = v ∨ x = b → x ∉ rows.map Prod.snd ∧ x ∉ cols := by
      intro x hx
      rw [← not_or]
      intro hc
      obtain ⟨t, ht⟩ := htouched x hc
      cases Laid.edge_of_tied htied ht (by tauto) hlaid.consistent
    refine Laid.tied_congr htied fun t => ⟨?_, ?_⟩
    · exact hsame v t (.inl (hfree v (.inl rfl)).1) (.inl (hfree v (.inl rfl)).2)
    · exact hsame b t (.inl (hfree b (.inr rfl)).1) (.inl (hfree b (.inr rfl)).2)
  · by_cases hrow : v ∈ rows.map Prod.snd
    · obtain ⟨rfl, htc⟩ := hrowed hrow he
      exact .inl ⟨rfl, .inl (h.mem_rest htc)⟩
    · rw [hsame v t (.inl hrow) (.inl (hcolA v hv))] at he
      exact hlaid.edge hv he
  · by_cases hrow : v ∈ rows.map Prod.snd
    · obtain ⟨r, hr, hrb⟩ := h.met b (hrowed hrow he).2
      exact hlaid.input_edge hb (h.mem_anchors hr) hrb
    · rw [hsame v b (.inl hrow) (.inl (hcolA v hv))] at he
      exact hlaid.input_edge hb hv he

end Faces

/-- Row reduction lays the edges in front of the rest anew: `m` is the matrix of the edges of `w`, and
`m'` that of the edges of `w₁`. The steps become gates. -/
structure Rewires (U : Finset ℕ) (A : List ℕ) (rows : List FrontierEntry) (cols : List ℕ)
    (m m' : ByteMatrix) (steps : List RowStep) (bare : Diagram) (w w₁ : Workspace) : Prop where
  biadjacency_eq : w.diagram.biadjacency (rows.map Prod.snd) cols = .ok m
  eliminate_eq : m.eliminate = .ok (m', steps)
  replay_eq : RowStep.replay steps (⟨w.circuit, rows.map Prod.fst⟩ : FrontierGates) =
    .ok ⟨w₁.circuit, rows.map Prod.fst⟩
  remove_eq : forOnes m (rows.map Prod.snd) cols (fun g v u => g.removeEdge v u) w.diagram = .ok bare
  add_eq : forOnes m' (rows.map Prod.snd) cols (fun g v u => g.addEdge v u .hadamard) bare =
    .ok w₁.diagram
  frontier_eq : w₁.frontier = w.frontier
  shape : m.Shape rows.length cols.length
  shape' : m'.Shape rows.length cols.length
  echelon : ByteMatrix.Echelon m'.bit
  fronted : Fronted bare U A (rows.map Prod.snd) cols
  before : Wired bare (rows.map Prod.snd) cols m.bit w.diagram
  after : Wired bare (rows.map Prod.snd) cols m'.bit w₁.diagram

theorem Faces.exists_rewired {rows : List FrontierEntry} {cols : List ℕ}
    (hf : Faces U A rows cols w) (h : Reached g n U A [] w) (hg : g.Normal) :
    ∃ m m' steps bare w₁, Rewires U A rows cols m m' steps bare w w₁ ∧ Reached g n U A [] w₁ := by
  have hcons := h.laid.consistent
  have hrow : ∀ r ∈ rows.map Prod.snd, w.diagram.contains r = true := fun r hr =>
    h.laid.contains_anchor (hf.mem_anchors hr)
  have hcol : ∀ c ∈ cols, w.diagram.contains c = true := fun c hc =>
    h.laid.contains_rest (hf.mem_rest hc)
  obtain ⟨m, hm, hshape, hbit⟩ := biadjacency_shape hcons hrow hf.nodup_cols
  obtain ⟨m', steps, helim, hshape', hrun, hwithin, hechelon⟩ := hshape.eliminate
  have hedges : ∀ i j r c : ℕ, (rows.map Prod.snd)[i]? = some r → cols[j]? = some c →
      w.diagram.edgeKind? r c = if m.bit i j then some .hadamard else none := by
    intro i j r c hi hj
    rw [hbit i j r c hi hj, connected]
    cases he : w.diagram.edgeKind? r c with
    | none => simp
    | some e => simp [(hf.edge (List.mem_of_getElem? hi) he).1]
  obtain ⟨bare, D₁, hremove, hadd, hbare, hold, hnew⟩ := exists_wired hcons hf.nodup_rows
    hf.nodup_cols (fun v hv hc => (h.laid.left v (hf.mem_anchors hv)).1 (hf.mem_rest hc)) hrow hcol
    hshape hshape' hedges
  have hreplay := RowStep.replay_frontierGates hwithin
    (show (rows.map Prod.fst).length = (rows.map Prod.snd).length by simp) w.circuit
  have hfront := hf.fronted h.laid hbare hold
  rw [List.length_map] at hshape hshape'
  refine ⟨m, m', steps, bare, ⟨D₁, _, w.frontier⟩, ⟨hm, helim, hreplay, hremove, hadd, rfl, hshape,
    hshape', hechelon, hfront, hold, hnew⟩, ?_⟩
  constructor
  case laid => exact hf.laid h.laid hold hnew
  case leads =>
    refine h.leads.trans ((hf.rowed hg h.laid hbare hold).leads hwithin hold ?_ h.laid.length_eq)
    rw [← hrun]
    exact hnew
  case spans =>
    show D₁.rowSpan U A.toFinset = _
    rw [← h.spans, hfront.rowSpan_eq hnew, hfront.rowSpan_eq hold, hrun,
      ByteMatrix.rowSpace_runBits hwithin]
  case freed => exact h.freed
  case width_eq => exact h.width_eq

end Workspace

end ZX
