import Mathlib
import ZX.Proofs.Extraction.Relay

/-!
# Laying edges by a matrix

A round of extraction reads the matrix between two lists of vertices, removes the edges that it
stands for and lays the edges of another matrix. The lists come from the frontier: its spiders with
an edge, and the neighbours of these sorted by their coordinates.
-/
namespace ZX

open Finset

namespace Diagram

variable {D D' : Diagram} {o : Option EdgeKind} {rows cols : List ℕ} {m : ByteMatrix} {s t u v : ℕ}

/-! ## Sorting and reading -/

/-- The position of a vertex in the order of the qubit lines. -/
def lineKey (D : Diagram) (v : ℕ) : ℤ := Decimal.orderKey ((D.data? v).elim 0 VertexData.qubit)

/-- The order of the lines and, on one line, of the numbers. -/
def lineOrder (a b : ℤ × ℕ) : Bool := a.1 < b.1 || (a.1 = b.1 && a.2 ≤ b.2)

theorem lineOrder_iff {a b : ℤ × ℕ} :
    lineOrder a b = true ↔ a.1 < b.1 ∨ a.1 = b.1 ∧ a.2 ≤ b.2 := by
  simp [lineOrder]

theorem pairwise_mergeSort_lineOrder (l : List (ℤ × ℕ)) :
    (l.mergeSort lineOrder).Pairwise fun a b => lineOrder a b = true := by
  refine List.pairwise_mergeSort ?_ ?_ l
  · intro a b c hab hbc
    rw [lineOrder_iff] at *
    omega
  · intro a b
    rw [Bool.or_eq_true, lineOrder_iff, lineOrder_iff]
    omega

/-- The order leaves no choice. -/
theorem mergeSort_lineOrder {l l' : List (ℤ × ℕ)} (hperm : l.Perm l')
    (hsorted : l'.Pairwise fun a b => lineOrder a b = true) : l.mergeSort lineOrder = l' := by
  refine List.Perm.eq_of_pairwise (fun a b _ _ hab hba => ?_) (pairwise_mergeSort_lineOrder l)
    hsorted ((List.mergeSort_perm _ _).trans hperm)
  rw [lineOrder_iff] at hab hba
  refine Prod.ext ?_ ?_ <;> omega

theorem sortByQubit_eq {vs : List ℕ} (h : ∀ v ∈ vs, D.contains v = true) :
    Workspace.sortByQubit D vs =
      .ok (((vs.map fun v => (D.lineKey v, v)).mergeSort lineOrder).map Prod.snd) := by
  have hkey : ∀ v ∈ vs, (do return (Decimal.orderKey (← D.qubit v), v) : Except Fault _) =
      .ok (D.lineKey v, v) := by
    intro v hv
    obtain ⟨d, hd⟩ := contains_iff_data?.mp (h v hv)
    rw [qubit_of_data? hd, lineKey, hd]
    rfl
  unfold Workspace.sortByQubit
  rw [mapM_eq_ok hkey]
  rfl

theorem sortByQubit_perm {l : List ℕ} (h : ∀ v ∈ l, D.contains v = true) :
    ∃ sorted, Workspace.sortByQubit D l = .ok sorted ∧ sorted.Perm l := by
  refine ⟨_, sortByQubit_eq h, ((List.mergeSort_perm _ _).map Prod.snd).trans ?_⟩
  rw [List.map_map]
  exact List.Perm.of_eq (List.map_id l)

/-- Sorting depends on the set of the vertices and on their data only. -/
theorem sortByQubit_congr {l l' : List ℕ} (hdata : ∀ v, D'.data? v = D.data? v) (hperm : l.Perm l')
    (h : ∀ v ∈ l, D.contains v = true) :
    Workspace.sortByQubit D' l' = Workspace.sortByQubit D l := by
  have h' : ∀ v ∈ l', D'.contains v = true := by
    intro v hv
    rw [contains_eq_data?_isSome, hdata, ← contains_eq_data?_isSome]
    exact h v (hperm.mem_iff.mpr hv)
  have hkey : ∀ v, D'.lineKey v = D.lineKey v := fun v => by rw [lineKey, lineKey, hdata]
  rw [sortByQubit_eq h, sortByQubit_eq h']
  simp only [hkey]
  rw [mergeSort_lineOrder ((hperm.symm.map _).trans (List.mergeSort_perm _ lineOrder).symm)
    (pairwise_mergeSort_lineOrder _)]

theorem lastPosition?_eq_some (hcols : cols.Nodup) {j : ℕ} :
    lastPosition? cols u = some j ↔ cols[j]? = some u := by
  induction cols generalizing j with
  | nil => simp [lastPosition?]
  | cons c cols ih =>
      rw [List.nodup_cons] at hcols
      rw [lastPosition?]
      cases hrec : lastPosition? cols u with
      | some k =>
          have hk := (ih hcols.2).mp hrec
          have hcu : c ≠ u := fun hc => hcols.1 (hc ▸ List.mem_of_getElem? hk)
          cases j with
          | zero => simp [hcu]
          | succ j =>
              rw [List.getElem?_cons_succ, ← ih hcols.2, hrec]
              simp
      | none =>
          cases j with
          | zero => simp
          | succ j =>
              rw [List.getElem?_cons_succ, ← ih hcols.2, hrec]
              by_cases hcu : c = u <;> simp [hcu]

theorem foldl_setIfInBounds {hits : List ℕ} {row : Array UInt8} :
    (hits.foldl (fun row j => row.setIfInBounds j 1) row).size = row.size ∧
      ∀ j, (hits.foldl (fun row j => row.setIfInBounds j 1) row)[j]? =
        if j ∈ hits ∧ j < row.size then some 1 else row[j]? := by
  induction hits generalizing row with
  | nil => simp
  | cons i hits ih =>
      obtain ⟨hsize, hget⟩ := @ih (row.setIfInBounds i 1)
      rw [Array.size_setIfInBounds] at hsize hget
      refine ⟨hsize, fun j => ?_⟩
      rw [List.foldl_cons, hget, Array.getElem?_setIfInBounds]
      by_cases hj : j ∈ hits <;> by_cases hji : i = j <;> by_cases hlt : j < row.size <;>
        simp [hj, hji, hlt, eq_comm]

/-- The matrix between two lists of vertices. -/
theorem biadjacency_shape (hD : D.Consistent) (hrows : ∀ v ∈ rows, D.contains v = true)
    (hcols : cols.Nodup) :
    ∃ m, D.biadjacency rows cols = .ok m ∧ m.Shape rows.length cols.length ∧
      ∀ i j r c, rows[i]? = some r → cols[j]? = some c → m.bit i j = D.connected r c := by
  set line : ℕ → Array UInt8 := fun v =>
    (((D.linksAt v).map Prod.fst).filterMap (lastPosition? cols)).foldl
      (fun row j => row.setIfInBounds j 1) (Array.replicate cols.length 0) with hline
  have hok : ∀ v ∈ rows, D.biadjacencyRow cols v = .ok (line v) := by
    intro v hv
    rw [biadjacencyRow, neighbours_of_contains (hrows v hv)]
    rfl
  have hrow : ∀ i, (rows.map line).toArray[i]? = (rows[i]?).map line := fun i => by
    rw [List.getElem?_toArray, List.getElem?_map]
  have hentry : ∀ v j, (line v)[j]? =
      if j ∈ ((D.linksAt v).map Prod.fst).filterMap (lastPosition? cols) ∧ j < cols.length then some 1
      else if j < cols.length then some 0 else none := by
    intro v j
    rw [hline]
    simp only
    rw [foldl_setIfInBounds.2, Array.size_replicate, Array.getElem?_replicate]
  refine ⟨⟨(rows.map line).toArray⟩, ?_, ⟨?_, ?_, ?_⟩, ?_⟩
  · rw [biadjacency, mapM_eq_ok hok]
    rfl
  · simp
  · intro i row hi
    rw [hrow] at hi
    obtain ⟨v, -, rfl⟩ := Option.map_eq_some_iff.mp hi
    rw [hline]
    simp only
    rw [foldl_setIfInBounds.1, Array.size_replicate]
  · intro i row hi j x hx
    rw [hrow] at hi
    obtain ⟨v, -, rfl⟩ := Option.map_eq_some_iff.mp hi
    rw [hentry] at hx
    split at hx
    · exact .inr (Option.some.inj hx).symm
    · split at hx
      · exact .inl (Option.some.inj hx).symm
      · cases hx
  · intro i j r c hi hj
    have hjlt := (List.getElem?_eq_some_iff.mp hj).1
    have hhit : j ∈ ((D.linksAt r).map Prod.fst).filterMap (lastPosition? cols) ↔
        D.connected r c = true := by
      rw [List.mem_filterMap, connected, Option.isSome_iff_exists, ← hD.key_iff]
      constructor
      · intro h
        obtain ⟨u, hu, huj⟩ := h
        rw [lastPosition?_eq_some hcols, hj, Option.some_inj] at huj
        exact huj ▸ hu
      · intro h
        exact ⟨c, h, (lastPosition?_eq_some hcols).mpr hj⟩
    have hbit : (ByteMatrix.mk (rows.map line).toArray).bit i j = ((line r)[j]? == some 1) := by
      rw [ByteMatrix.bit, hrow, hi]
      rfl
    rw [hbit, hentry]
    by_cases hconn : D.connected r c = true
    · rw [if_pos ⟨hhit.mpr hconn, hjlt⟩, hconn]
      rfl
    · rw [if_neg fun hc => hconn (hhit.mp hc.1), if_pos hjlt, Bool.not_eq_true _ |>.mp hconn]
      rfl

/-! ## Setting many edges -/

/-- All listed edges become `o`, and nothing else changes. -/
structure EdgesSet (D : Diagram) (L : List (ℕ × ℕ)) (o : Option EdgeKind) (D' : Diagram) : Prop where
  consistent : D'.Consistent
  data?_eq : ∀ v, D'.data? v = D.data? v
  edgeKind?_eq : ∀ s t, D'.edgeKind? s t =
    if (s, t) ∈ L ∨ (t, s) ∈ L then o else D.edgeKind? s t
  inputs_eq : D'.inputs = D.inputs
  outputs_eq : D'.outputs = D.outputs
  scalar_eq : D'.scalar = D.scalar

/-- An operation that sets one edge sets the edges of a list without repetitions. Before it is taken,
an edge satisfies `Q`. -/
theorem foldlM_edgesSet {f : Diagram → ℕ → ℕ → Except Fault Diagram} {Q : Option EdgeKind → Prop}
    (hact : ∀ {g : Diagram} {s t}, g.Consistent → s ≠ t → g.contains s = true →
      g.contains t = true → Q (g.edgeKind? s t) → ∃ g', f g s t = .ok g' ∧ EdgeSet g s t o g')
    {L : List (ℕ × ℕ)} (hnodup : L.Nodup) (hswap : ∀ p ∈ L, p.swap ∉ L) (hD : D.Consistent)
    (hL : ∀ p ∈ L, D.contains p.1 = true ∧ D.contains p.2 = true ∧ Q (D.edgeKind? p.1 p.2)) :
    ∃ D', L.foldlM (fun g p => f g p.1 p.2) D = .ok D' ∧ EdgesSet D L o D' := by
  induction L generalizing D with
  | nil => exact ⟨D, rfl, hD, fun _ => rfl, by simp, rfl, rfl, rfl⟩
  | cons p L ih =>
      obtain ⟨s, t⟩ := p
      obtain ⟨hpL, hnodup⟩ := List.nodup_cons.mp hnodup
      obtain ⟨hs, ht, hQ⟩ := hL (s, t) List.mem_cons_self
      have hst : s ≠ t := by
        intro hc
        subst hc
        exact hswap (s, s) List.mem_cons_self List.mem_cons_self
      obtain ⟨D₁, hok₁, h₁⟩ := hact hD hst hs ht hQ
      -- The edges that follow are other ones, so that they still satisfy `Q`.
      have hother : ∀ q ∈ L, ¬IsPair s t q.1 q.2 := by
        intro q hq hpair
        obtain ⟨h1, h2⟩ | ⟨h1, h2⟩ := hpair
        · exact hpL (by rwa [← h1, ← h2])
        · refine hswap q (List.mem_cons_of_mem _ hq) ?_
          rw [Prod.swap, h1, h2]
          exact List.mem_cons_self
      obtain ⟨D₂, hok₂, h₂⟩ := ih hnodup
        (fun q hq hc => hswap q (List.mem_cons_of_mem _ hq) (List.mem_cons_of_mem _ hc))
        h₁.consistent fun q hq => by
          obtain ⟨h1, h2, h3⟩ := hL q (List.mem_cons_of_mem _ hq)
          rw [h₁.contains_eq, h₁.contains_eq, h₁.edgeKind?_eq, if_neg (hother q hq)]
          exact ⟨h1, h2, h3⟩
      refine ⟨D₂, ?_, h₂.consistent, fun v => (h₂.data?_eq v).trans (h₁.data?_eq v), fun a b => ?_,
        h₂.inputs_eq.trans h₁.inputs_eq, h₂.outputs_eq.trans h₁.outputs_eq,
        h₂.scalar_eq.trans h₁.scalar_eq⟩
      · rw [List.foldlM_cons, hok₁]
        exact hok₂
      · have hmem : ((a, b) ∈ (s, t) :: L ∨ (b, a) ∈ (s, t) :: L) ↔
            IsPair s t a b ∨ (a, b) ∈ L ∨ (b, a) ∈ L := by
          simp only [List.mem_cons, Prod.mk.injEq, IsPair]
          tauto
        rw [h₂.edgeKind?_eq, h₁.edgeKind?_eq]
        simp only [hmem]
        by_cases hpair : IsPair s t a b <;> simp [hpair]

/-- The positions of the ones of a matrix, as pairs of vertices. -/
def onesOf (m : ByteMatrix) (rows cols : List ℕ) : List (ℕ × ℕ) :=
  (rows.zip m.rows.toList).flatMap fun (v, row) =>
    (cols.zip row.toList).filterMap fun (u, x) => if x = 1 then some (v, u) else none

theorem forOnes_eq (m : ByteMatrix) (rows cols : List ℕ)
    (act : Diagram → ℕ → ℕ → Except Fault Diagram) (D : Diagram) :
    Workspace.forOnes m rows cols act D =
      (onesOf m rows cols).foldlM (fun g p => act g p.1 p.2) D := by
  have hrow : ∀ (v : ℕ) (entries : List (ℕ × UInt8)) (D : Diagram),
      entries.foldlM (fun g (w, x) => if x = 1 then act g v w else return g) D =
        (entries.filterMap fun (u, x) => if x = 1 then some (v, u) else none).foldlM
          (fun g p => act g p.1 p.2) D := by
    intro v entries
    induction entries with
    | nil => intro D; rfl
    | cons entry entries ih =>
        intro D
        obtain ⟨u, x⟩ := entry
        rw [List.foldlM_cons, List.filterMap_cons]
        by_cases hx : x = 1
        · simp only [hx, if_true, List.foldlM_cons]
          exact bind_congr fun D' => ih D'
        · simp only [hx, if_false]
          exact ih D
  unfold Workspace.forOnes onesOf
  induction rows.zip m.rows.toList generalizing D with
  | nil => rfl
  | cons r rest ih =>
      obtain ⟨v, row⟩ := r
      rw [List.foldlM_cons, List.flatMap_cons, List.foldlM_append]
      dsimp only
      rw [hrow]
      exact bind_congr fun D' => ih D'

theorem mem_onesOf :
    (v, u) ∈ onesOf m rows cols ↔
      ∃ i j : ℕ, rows[i]? = some v ∧ cols[j]? = some u ∧ m.bit i j = true := by
  have hbit : ∀ i j, m.bit i j = true ↔ ∃ row, m.rows[i]? = some row ∧ row[j]? = some 1 := by
    intro i j
    rw [ByteMatrix.bit, beq_iff_eq, Option.bind_eq_some_iff]
  simp only [onesOf, List.mem_flatMap, List.mem_filterMap, Prod.exists]
  simp only [List.mem_iff_getElem?, List.getElem?_zip_eq_some]
  constructor
  · intro h
    obtain ⟨v', row, ⟨i, hv, hrow⟩, u', x, ⟨j, hu, hx⟩, heq⟩ := h
    split at heq
    case isTrue hone =>
      cases heq
      refine ⟨i, j, hv, hu, (hbit i j).mpr ⟨row, ?_, ?_⟩⟩
      · rwa [Array.getElem?_toList] at hrow
      · rwa [Array.getElem?_toList, hone] at hx
    case isFalse => cases heq
  · intro h
    obtain ⟨i, j, hv, hu, hone⟩ := h
    obtain ⟨row, hrow, hx⟩ := (hbit i j).mp hone
    refine ⟨v, row, ⟨i, hv, ?_⟩, u, 1, ⟨j, hu, ?_⟩, if_pos rfl⟩
    · rwa [Array.getElem?_toList]
    · rwa [Array.getElem?_toList]

theorem nodup_onesOf (hm : m.Shape rows.length cols.length) (hrows : rows.Nodup)
    (hcols : cols.Nodup) : (onesOf m rows cols).Nodup := by
  have hfst : (rows.zip m.rows.toList).map Prod.fst = rows := by
    refine List.map_fst_zip (le_of_eq ?_)
    exact hm.height.symm
  refine List.nodup_flatMap.mpr ⟨fun p hp => ?_, ?_⟩
  · obtain ⟨v, row⟩ := p
    obtain ⟨i, hi⟩ := List.mem_iff_getElem?.mp hp
    have hrow : m.rows[i]? = some row := by
      rw [← Array.getElem?_toList]
      exact (List.getElem?_zip_eq_some.mp hi).2
    have hsnd : (cols.zip row.toList).map Prod.fst = cols := by
      refine List.map_fst_zip (le_of_eq ?_)
      exact (hm.width i row hrow).symm
    refine List.Nodup.filterMap ?_ (List.Nodup.of_map Prod.fst (hsnd.symm ▸ hcols))
    intro a a' b hb hb'
    obtain ⟨u, x⟩ := a
    obtain ⟨u', x'⟩ := a'
    simp only [Option.mem_def, Option.ite_none_right_eq_some, Option.some.injEq] at hb hb'
    obtain ⟨rfl, rfl⟩ := hb
    obtain ⟨rfl, hpair⟩ := hb'
    rw [(Prod.mk.inj hpair).2]
  · have hpair : (rows.zip m.rows.toList).Pairwise fun a b => a.1 ≠ b.1 := by
      rw [← List.pairwise_map, hfst]
      exact hrows
    refine hpair.imp fun hne => ?_
    intro p hp hp'
    simp only [List.mem_filterMap, Option.ite_none_right_eq_some, Option.some.injEq] at hp hp'
    obtain ⟨_, -, -, rfl⟩ := hp
    obtain ⟨_, -, -, heq⟩ := hp'
    exact hne (Prod.mk.inj heq).1.symm

/-- Removing the edges of one matrix and laying those of another. -/
theorem exists_wired {m' : ByteMatrix} (hD : D.Consistent) (hrows : rows.Nodup) (hcols : cols.Nodup)
    (hdisj : List.Disjoint rows cols) (hr : ∀ r ∈ rows, D.contains r = true)
    (hc : ∀ c ∈ cols, D.contains c = true) (hm : m.Shape rows.length cols.length)
    (hm' : m'.Shape rows.length cols.length)
    (hbit : ∀ i j r c : ℕ, rows[i]? = some r → cols[j]? = some c →
      D.edgeKind? r c = if m.bit i j then some .hadamard else none) :
    ∃ bare D', Workspace.forOnes m rows cols (fun g v u => g.removeEdge v u) D = .ok bare ∧
      Workspace.forOnes m' rows cols (fun g v u => g.addEdge v u .hadamard) bare = .ok D' ∧
      Wired bare rows cols (fun _ _ => false) bare ∧ Wired bare rows cols m.bit D ∧
      Wired bare rows cols m'.bit D' := by
  have hside : ∀ (m : ByteMatrix) {v u}, (v, u) ∈ onesOf m rows cols → v ∈ rows ∧ u ∈ cols := by
    intro m v u hvu
    obtain ⟨i, j, hv, hu, -⟩ := mem_onesOf.mp hvu
    exact ⟨List.mem_of_getElem? hv, List.mem_of_getElem? hu⟩
  have hswap : ∀ (m : ByteMatrix), ∀ p ∈ onesOf m rows cols, p.swap ∉ onesOf m rows cols := by
    intro m p hp hp'
    exact hdisj (hside m hp).1 (hside m hp').2
  have hmem : ∀ (m : ByteMatrix) {i j r c : ℕ}, rows[i]? = some r → cols[j]? = some c →
      (((r, c) ∈ onesOf m rows cols ∨ (c, r) ∈ onesOf m rows cols) ↔ m.bit i j = true) := by
    intro m i j r c hi hj
    constructor
    · intro h
      obtain h | h := h
      · obtain ⟨i', j', hi', hj', hone⟩ := mem_onesOf.mp h
        rwa [← idxOf_of_getElem? hrows hi, ← idxOf_of_getElem? hcols hj,
          idxOf_of_getElem? hrows hi', idxOf_of_getElem? hcols hj']
      · exact absurd (hside m h).1 fun hc => hdisj hc (List.mem_of_getElem? hj)
    · intro hone
      exact .inl (mem_onesOf.mpr ⟨i, j, hi, hj, hone⟩)
  obtain ⟨bare, hremove, hbare⟩ := foldlM_edgesSet (o := none) (Q := fun o => o ≠ none)
    (f := fun g v u => g.removeEdge v u)
    (fun hg _ _ _ he => by
      obtain ⟨e, he⟩ := Option.ne_none_iff_exists'.mp he
      exact removeEdge_edgeSet hg he)
    (nodup_onesOf hm hrows hcols) (hswap m) hD fun p hp => by
      obtain ⟨i, j, hi, hj, hone⟩ := mem_onesOf.mp hp
      refine ⟨hr _ (hside m hp).1, hc _ (hside m hp).2, ?_⟩
      rw [hbit i j _ _ hi hj, if_pos hone]
      simp
  have hclear : ∀ i j r c : ℕ, rows[i]? = some r → cols[j]? = some c → bare.edgeKind? r c = none := by
    intro i j r c hi hj
    rw [hbare.edgeKind?_eq]
    split
    case isTrue => rfl
    case isFalse hnot =>
      rw [hbit i j r c hi hj, if_neg]
      exact fun hone => hnot ((hmem m hi hj).mpr hone)
  have hcontains : ∀ v, bare.contains v = D.contains v := fun v => by
    rw [contains_eq_data?_isSome, contains_eq_data?_isSome, hbare.data?_eq]
  obtain ⟨D', hadd, hD'⟩ := foldlM_edgesSet (o := some .hadamard) (Q := fun o => o = none)
    (f := fun g v u => g.addEdge v u .hadamard)
    (fun hg hst hs ht he => addEdge_edgeSet hg hst hs ht he .hadamard)
    (nodup_onesOf hm' hrows hcols) (hswap m') hbare.consistent fun p hp => by
      obtain ⟨i, j, hi, hj, hone⟩ := mem_onesOf.mp hp
      rw [hcontains, hcontains]
      exact ⟨hr _ (hside m' hp).1, hc _ (hside m' hp).2, hclear i j _ _ hi hj⟩
  have hother : ∀ (m : ByteMatrix) {s t}, ¬(s ∈ rows ∧ t ∈ cols) → ¬(s ∈ cols ∧ t ∈ rows) →
      ¬((s, t) ∈ onesOf m rows cols ∨ (t, s) ∈ onesOf m rows cols) := by
    intro m s t h1 h2 h
    obtain h | h := h
    · exact h1 (hside m h)
    · exact h2 (hside m h).symm
  refine ⟨bare, D', (forOnes_eq _ _ _ _ _).trans hremove, (forOnes_eq _ _ _ _ _).trans hadd, ?_, ?_,
    ?_⟩
  · exact ⟨hbare.consistent, fun _ => rfl, rfl, rfl, rfl,
      fun i j r c hi hj => (hclear i j r c hi hj).trans (by simp), fun _ _ _ _ => rfl⟩
  · refine ⟨hD, fun v => (hbare.data?_eq v).symm, hbare.inputs_eq.symm, hbare.outputs_eq.symm,
      hbare.scalar_eq.symm, hbit, fun s t h1 h2 => ?_⟩
    rw [hbare.edgeKind?_eq, if_neg (hother m h1 h2)]
  · refine ⟨hD'.consistent, hD'.data?_eq, hD'.inputs_eq, hD'.outputs_eq, hD'.scalar_eq,
      fun i j r c hi hj => ?_, fun s t h1 h2 => ?_⟩
    · rw [hD'.edgeKind?_eq, hclear i j r c hi hj]
      simp only [hmem m' hi hj]
    · rw [hD'.edgeKind?_eq, if_neg (hother m' h1 h2)]

end Diagram

end ZX
