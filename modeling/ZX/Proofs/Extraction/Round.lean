import Mathlib
import ZX.Proofs.Extraction.Rewiring

/-!
# One round of extraction

Once the edges in front of the rest are laid anew, a spider whose row has a single entry gives its
place to the vertex of that entry. A round extracts all such vertices; there are some unless no
vertex of the rest can be freed.
-/
namespace ZX

open Finset Function

/-- A row with a single entry owns the column of that entry. -/
theorem ByteMatrix.Owned.unit_column {k i j : ℕ} {M : BitMatrix} (h : Owned k M) (hi : i < k)
    (hunit : ∀ c, M i c = (c == j)) : ∀ r, r ≠ i → M r j = false := by
  obtain hzero | ⟨p, hp, hother⟩ := h i hi
  · have hone := hunit j
    rw [hzero j, beq_self_eq_true] at hone
    cases hone
  · rw [hunit, beq_iff_eq] at hp
    exact hp ▸ hother

namespace Workspace

open Diagram

variable {g bare D : Diagram} {U : Finset ℕ} {A N : List ℕ} {n q u v : ℕ} {w w' : Workspace}

/-! ## Extracting the far ends -/

/-- The far end of a single edge is extracted, be it a spider or an input. Only the qubit of the
edge has another holder afterwards. -/
theorem advanceTo_ready (h : Reached g n U A N w) (hg : g.Normal)
    (hr : Ready g U A N w.frontier w.diagram q v u) :
    ∃ κ A' w', w.diagram.kind u = .ok κ ∧
      (κ = .z ∨ κ = .boundary ∧ w.diagram.isInput u = true) ∧
      w.advanceTo q v u (κ = .boundary && w.diagram.isInput u) = .ok w' ∧
      Reached g n (U.erase u) A' (u :: N) w' ∧ Advanced w q v u w' ∧
      (∀ p, p ≠ q → A'[p]? = A[p]?) ∧ ∀ s ∈ A', s = u ∨ s ∈ A := by
  have hcont := h.laid.contains_rest hr.mem_rest
  obtain ⟨κ, hκ⟩ := exists_kind? hcont
  have hκg : g.kind? u = some κ := (h.laid.kind?_eq hcont).symm.trans hκ
  cases κ with
  | z =>
      obtain ⟨w', hok, hreached, hadv⟩ := advanceTo_spider h hg hr hκg
      refine ⟨.z, A.set q u, w', kind_of_kind? hκ, .inl rfl, ?_, hreached, hadv, fun p hp => ?_,
        fun s hs => ?_⟩
      · simpa using hok
      · exact List.getElem?_set_ne hp.symm
      · exact ((mem_set_iff h.laid.nodup hr.holds).mp hs).imp_right And.left
  | boundary =>
      have hout : u ∉ g.outputs := (mem_filter.mp (h.laid.subset hr.mem_rest)).2.1
      have hin : u ∈ g.inputs := (List.mem_append.mp (hg.mem_ends.mpr hκg)).resolve_right hout
      have hisin : w.diagram.isInput u = true := by
        rw [isInput, h.laid.inputs_eq]
        exact List.contains_iff_mem.mpr hin
      obtain ⟨w', hok, hreached, hadv⟩ := advanceTo_input h hg hr hin
      refine ⟨.boundary, A, w', kind_of_kind? hκ, .inr ⟨rfl, hisin⟩, ?_, hreached, hadv,
        fun _ _ => rfl, fun s hs => .inr hs⟩
      simpa [hisin] using hok
  | x => exact absurd hκg (hg.green u)

/-- Extracting one far end leaves the other single edges as they are. -/
theorem Reached.keep_ready {A' : List ℕ} {q' v' u' : ℕ} (h : Reached g n U A N w)
    (hr : Ready g U A N w.frontier w.diagram q v u)
    (hr' : Ready g U A N w.frontier w.diagram q' v' u') (hq : q' ≠ q) (hu : u' ≠ u)
    (hadv : Advanced w q v u w') (hcons : w'.diagram.Consistent)
    (hheld : ∀ p, p ≠ q → A'[p]? = A[p]?) (hnew : ∀ s ∈ A', s = u ∨ s ∈ A) :
    Ready g (U.erase u) A' (u :: N) w'.frontier w'.diagram q' v' u' := by
  have hvA := hr.mem_holders
  have hvA' := hr'.mem_holders
  have hvv := hr.ne_holder h.laid hr'.holds hq
  have hapart : ∀ s ∈ A, ∀ t ∈ U, s ≠ t := fun s hs t ht hst => (h.laid.left s hs).1 (hst ▸ ht)
  have huv : u ≠ v := (hapart v hvA u hr.mem_rest).symm
  have huv' : u' ≠ v := (hapart v hvA u' hr'.mem_rest).symm
  constructor
  case holds => exact (hheld q' hq).trans hr'.holds
  case entry =>
    rw [hadv.frontier_eq, h.laid.mem_set_entry hr.lt]
    exact .inr ⟨hq, hr'.entry⟩
  case hangs =>
    intro t
    by_cases htv : t = v
    · rw [htv, hadv.behind v' (hapart v' hvA' u hr.mem_rest), if_neg huv'.symm]
    · rw [hadv.edgeKind?_eq v' t hvv htv]
      exact hr'.hangs t
  case mem_rest => exact mem_erase.mpr ⟨hu, hr'.mem_rest⟩
  case only =>
    intro s hs hedge
    by_cases hsv : s = v
    · rw [hsv, hcons.edgeKind?_comm, hadv.behind u' hu] at hedge
      exact absurd rfl hedge
    · rw [hadv.edgeKind?_eq s u' hsv huv'] at hedge
      obtain rfl | hsA := hnew s hs
      · -- A new spider next to an input would have been in front of it.
        refine .inr ⟨List.mem_cons_self, fun hin => hedge ?_⟩
        have hvu : w.diagram.edgeKind? v' u' = some .hadamard := by rw [hr'.hangs, if_pos rfl]
        have hnone := h.laid.input_edge hin hvA' hvu s hr.mem_rest
        rw [h.laid.consistent.edgeKind?_comm, h.laid.rest_eq u' hr'.mem_rest s hr.mem_rest]
        exact hnone
      · obtain hsv' | ⟨hsN, hin⟩ := hr'.only s hsA hedge
        · exact .inl hsv'
        · exact .inr ⟨List.mem_cons_of_mem u hsN, hin⟩

/-- Row `i` of the matrix has a single entry; it stands for the edge from the spider `v` of qubit `q`
to `u`. -/
def Names (m : ByteMatrix) (rows : List FrontierEntry) (cols : List ℕ) (i q v u : ℕ) : Prop :=
  ∃ j, (∀ k, m.bit i k = (k == j)) ∧ rows[i]? = some (q, v) ∧ cols[j]? = some u

/-- The frontier once every listed entry has taken the place of its qubit. -/
def replaceAll (F new : List FrontierEntry) : List FrontierEntry :=
  new.foldl (fun F a => F.set a.1 a) F

theorem getElem?_replaceAll_of_notMem {F new : List FrontierEntry} (h : q ∉ new.map Prod.fst) :
    (replaceAll F new)[q]? = F[q]? := by
  induction new generalizing F with
  | nil => rfl
  | cons a new ih =>
      rw [List.map_cons, List.mem_cons, not_or] at h
      refine (ih h.2).trans ?_
      rw [List.getElem?_set_ne (Ne.symm h.1)]

theorem getElem?_replaceAll_of_mem {F new : List FrontierEntry} {a : FrontierEntry}
    (hnew : (new.map Prod.fst).Nodup) (ha : a ∈ new) (hlt : a.1 < F.length) :
    (replaceAll F new)[a.1]? = some a := by
  induction new generalizing F with
  | nil => cases ha
  | cons b new ih =>
      obtain ⟨hb, hnew⟩ := List.nodup_cons.mp hnew
      obtain rfl | ha := List.mem_cons.mp ha
      · refine (getElem?_replaceAll_of_notMem hb).trans ?_
        rw [List.getElem?_set_self hlt]
      · exact ih hnew ha (by rwa [List.length_set])

/-- The far ends of all named edges are extracted, one after the other. -/
theorem extractUnits_reached {m : ByteMatrix} {rows : List FrontierEntry} {cols is : List ℕ}
    (hg : g.Normal) (hm : m.Shape rows.length cols.length)
    (hapart : ∀ {i i' q v u q' v' u'}, Names m rows cols i q v u → Names m rows cols i' q' v' u' →
      i ≠ i' → q' ≠ q ∧ u' ≠ u)
    (his : is.Nodup) (h : Reached g n U A N w)
    (hready : ∀ i ∈ is, ∃ q v u, Names m rows cols i q v u ∧
      Ready g U A N w.frontier w.diagram q v u) :
    ∃ new A' w', (extractUnits m rows cols is w).outcome = .ok (new, w') ∧
      Reached g n (U \ (new.map Prod.snd).toFinset) A' ((new.map Prod.snd).reverse ++ N) w' ∧
      (new.map Prod.fst).Nodup ∧ (new.map Prod.snd).Nodup ∧
      (∀ a ∈ new, a.2 ∈ U ∧ ∃ i ∈ is, ∃ v, Names m rows cols i a.1 v a.2) ∧
      (∀ i ∈ is, ∃ a ∈ new, ∃ v, Names m rows cols i a.1 v a.2) ∧
      w'.frontier = replaceAll w.frontier new := by
  induction is generalizing U A N w with
  | nil => exact ⟨[], A, w, rfl, by simpa using h, by simp, by simp, by simp, by simp, rfl⟩
  | cons i is ih =>
      obtain ⟨q, v, u, hname, hr⟩ := hready i List.mem_cons_self
      obtain ⟨hi, his⟩ := List.nodup_cons.mp his
      obtain ⟨κ, A₁, w₁, hkind, hκ, hok₁, h₁, hadv, hheld, hnew⟩ := advanceTo_ready h hg hr
      have hlater : ∀ {i' q' v' u'}, i' ∈ is → Names m rows cols i' q' v' u' → q' ≠ q ∧ u' ≠ u :=
        fun hi' hname' => hapart hname hname' fun hc => hi (hc ▸ hi')
      obtain ⟨new, A₂, w₂, hok₂, h₂, hfst, hsnd, hmem, hall, hF⟩ := ih his h₁ fun i' hi' => by
        obtain ⟨q', v', u', hname', hr'⟩ := hready i' (List.mem_cons_of_mem i hi')
        obtain ⟨hq, hu⟩ := hlater hi' hname'
        exact ⟨q', v', u', hname', h.keep_ready hr hr' hq hu hadv h₁.laid.consistent hheld hnew⟩
      have hother : ∀ a ∈ new, a.1 ≠ q ∧ a.2 ≠ u := by
        intro a ha
        obtain ⟨-, i', hi', v', hname'⟩ := hmem a ha
        exact hlater hi' hname'
      refine ⟨(q, u) :: new, A₂, w₂, ?_, ?_, ?_, ?_, ?_, ?_, ?_⟩
      · obtain ⟨j, hunit, hrow, hcol⟩ := hname
        have hlt := (List.getElem?_eq_some_iff.mp hrow).1
        obtain ⟨row, hmrow, hget⟩ := hm.row_eq hlt
        have hdegree : w.diagram.degree v = .ok 1 := by
          rw [degree_of_contains (h.laid.contains_anchor hr.mem_holders),
            h.laid.consistent.hangsOn_iff.mp hr.hangs]
          rfl
        have hstray :
            (!(κ = .boundary && w.diagram.isInput u : Bool) && decide (κ ≠ .z)) = false := by
          obtain rfl | ⟨rfl, hin⟩ := hκ
          · simp
          · simp [hin]
        unfold extractUnits
        simp only [Run.outcome_bind, outcome_lift_except, hmrow, Except.mapError, Except.bind,
          hm.idxOf?_eq hget hunit, at?_eq_ok.mpr hrow, at?_eq_ok.mpr hcol, hdegree, ne_eq,
          not_true_eq_false, if_false, hkind]
        rw [if_neg (by rw [hstray]; exact Bool.false_ne_true)]
        simp only [Run.outcome_bind, outcome_lift_except, Except.mapError, Except.bind, hok₁, hok₂,
          Run.outcome_pure]
      · have hrest : U \ (List.map Prod.snd ((q, u) :: new)).toFinset =
            U.erase u \ (new.map Prod.snd).toFinset := by
          ext t
          simp only [List.map_cons, List.toFinset_cons, mem_sdiff, mem_insert, mem_erase]
          tauto
        rw [hrest]
        simpa using h₂
      · refine List.nodup_cons.mpr ⟨fun hc => ?_, hfst⟩
        obtain ⟨a, ha, haq⟩ := List.mem_map.mp hc
        exact (hother a ha).1 haq
      · refine List.nodup_cons.mpr ⟨fun hc => ?_, hsnd⟩
        obtain ⟨a, ha, hau⟩ := List.mem_map.mp hc
        exact (hother a ha).2 hau
      · intro a ha
        obtain rfl | ha := List.mem_cons.mp ha
        · exact ⟨hr.mem_rest, i, List.mem_cons_self, v, hname⟩
        · obtain ⟨haU, i', hi', v', hname'⟩ := hmem a ha
          exact ⟨mem_of_mem_erase haU, i', List.mem_cons_of_mem i hi', v', hname'⟩
      · intro i' hi'
        obtain rfl | hi' := List.mem_cons.mp hi'
        · exact ⟨(q, u), List.mem_cons_self, v, hname⟩
        · obtain ⟨a, ha, hname'⟩ := hall i' hi'
          exact ⟨a, List.mem_cons_of_mem _ ha, hname'⟩
      · rw [hF, hadv.frontier_eq]
        rfl

namespace Faces

variable {rows : List FrontierEntry} {cols : List ℕ}

/-- The single entry of a row of the new matrix is the single edge of its spider. -/
theorem ready {D : Diagram} {m : ByteMatrix} {i : ℕ} (h : Faces U A rows cols w)
    (hg : g.WellFormed) (hlaid : Laid g U A [] w.frontier D)
    (hfront : Fronted bare U A (rows.map Prod.snd) cols)
    (hD : Wired bare (rows.map Prod.snd) cols m.bit D) (howned : ByteMatrix.Owned rows.length m.bit)
    (hname : Names m rows cols i q v u) : Ready g U A [] w.frontier D q v u := by
  obtain ⟨j, hunit, hrow, hcol⟩ := hname
  have hmem := List.mem_of_getElem? hrow
  have huc := List.mem_of_getElem? hcol
  have hidx : cols.idxOf u = j := idxOf_of_getElem? h.nodup_cols hcol
  have hspider : (rows.map Prod.snd)[i]? = some v := by rw [List.getElem?_map, hrow]; rfl
  have hvu : D.edgeKind? v u = some .hadamard := by
    rw [hD.entry_eq i j v u hspider hcol, hunit, beq_self_eq_true, if_pos rfl]
  constructor
  case holds => exact (h.row hmem).2
  case entry => exact (h.row hmem).1
  case mem_rest => exact h.mem_rest huc
  case hangs =>
    intro t
    by_cases htu : t = u
    · rw [htu, hvu, if_pos rfl]
    · rw [if_neg htu]
      by_cases htc : t ∈ cols
      · rw [hfront.edge_of_row hD hspider (h.mem_rest htc), if_neg]
        intro hc
        rw [hunit, beq_iff_eq, ← hidx] at hc
        exact htu ((List.idxOf_inj htc).mp hc.2)
      · by_contra hne
        obtain ⟨e, he⟩ := Option.ne_none_iff_exists'.mp hne
        obtain ⟨rfl, htU | ⟨-, hnil, -⟩⟩ := hlaid.edge_of_entry hg (h.row hmem).2 (h.row hmem).1 he
        · rw [hfront.edge_of_row hD hspider htU, if_neg fun hc => htc hc.1] at he
          cases he
        · cases hnil
  case only =>
    intro s hs hedge
    left
    have hsrow : s ∈ rows.map Prod.snd := by
      by_contra hc
      exact hedge (hfront.edge_of_other hD hs hc (h.mem_rest huc))
    obtain ⟨i', hi'⟩ := List.mem_iff_getElem?.mp hsrow
    rw [hD.entry_eq i' j s u hi' hcol] at hedge
    have hbit : m.bit i' j = true := by
      by_contra hc
      exact hedge (if_neg hc)
    have hown := howned.unit_column (List.getElem?_eq_some_iff.mp hrow).1 hunit
    have hii : i' = i := by
      by_contra hc
      rw [hown i' hc] at hbit
      cases hbit
    rw [hii, hspider] at hi'
    exact (Option.some.inj hi').symm

/-- Different rows with a single entry belong to different qubits and name different vertices. -/
theorem apart {m : ByteMatrix} {i i' q' v' u' : ℕ} (h : Faces U A rows cols w)
    (howned : ByteMatrix.Owned rows.length m.bit) (hname : Names m rows cols i q v u)
    (hname' : Names m rows cols i' q' v' u') (hii : i ≠ i') : q' ≠ q ∧ u' ≠ u := by
  obtain ⟨j, hunit, hrow, hcol⟩ := hname
  obtain ⟨j', hunit', hrow', hcol'⟩ := hname'
  constructor
  · intro hq
    subst hq
    have hvv := (h.row (List.mem_of_getElem? hrow)).2.symm.trans
      (h.row (List.mem_of_getElem? hrow')).2
    cases hvv
    have hspider : ∀ {i}, rows[i]? = some (q', v) → (rows.map Prod.snd)[i]? = some v := fun hi => by
      rw [List.getElem?_map, hi]
      rfl
    exact hii (eq_of_getElem? h.nodup_rows (hspider hrow) (hspider hrow'))
  · intro hu
    subst hu
    have hjj : j' = j := eq_of_getElem? h.nodup_cols hcol' hcol
    have hzero := howned.unit_column (List.getElem?_eq_some_iff.mp hrow).1 hunit i' hii.symm
    rw [hunit', hjj, beq_self_eq_true] at hzero
    cases hzero

end Faces

/-- A frontier that is in order is sorted. -/
theorem mergeSort_frontier (h : Laid g U A N w.frontier D) :
    w.frontier.mergeSort (fun a b => a.1 ≤ b.1) = w.frontier := by
  apply List.mergeSort_of_pairwise
  have hsorted : (w.frontier.map Prod.fst).Pairwise (· ≤ ·) := by
    rw [h.fst_eq]
    exact List.pairwise_le_range
  rw [List.pairwise_map] at hsorted
  exact hsorted.imp fun hab => decide_eq_true hab

/-- Without an active entry there is nothing to lay anew. -/
theorem Rewires.eq_of_nil {cols : List ℕ} {m m' : ByteMatrix} {steps : List RowStep}
    (h : Rewires U A [] cols m m' steps bare w w') : w' = w := by
  obtain rfl : m = ⟨#[]⟩ := (Except.ok.inj h.biadjacency_eq).symm
  obtain ⟨rfl, rfl⟩ : m' = ⟨#[]⟩ ∧ steps = [] :=
    Prod.mk.inj (Except.ok.inj (h.eliminate_eq.symm.trans rfl))
  have hbare : bare = w.diagram := (Except.ok.inj h.remove_eq).symm
  have hdiagram : w'.diagram = bare := (Except.ok.inj h.add_eq).symm
  have hcircuit : w.circuit = w'.circuit :=
    congrArg FrontierGates.circuit (Except.ok.inj h.replay_eq)
  calc w' = ⟨w'.diagram, w'.circuit, w'.frontier⟩ := rfl
    _ = ⟨w.diagram, w.circuit, w.frontier⟩ := by rw [hdiagram, hbare, ← hcircuit, h.frontier_eq]
    _ = w := rfl

/-- The data of a round: the columns, the matrix before and after row reduction, the steps of the
reduction, the diagram without the edges of the matrix, the state with the edges laid anew, the
entries that join the frontier, and the state in the end. -/
structure Turn where
  cols : List ℕ
  matrix : ByteMatrix
  reduced : ByteMatrix
  steps : List RowStep
  bare : Diagram
  rewired : Workspace
  new : List FrontierEntry
  next : Workspace

/-- The round that is taken in the state `w`. -/
structure Turn.Taken (g : Diagram) (n : ℕ) (U : Finset ℕ) (A : List ℕ) (w : Workspace) (t : Turn) :
    Prop where
  advance_eq : w.advance.outcome = .ok (t.new.map Prod.snd, t.next)
  faces : Faces U A w.activeEntries t.cols w
  sorted : ∃ found, sortByQubit w.diagram found = .ok t.cols ∧ found.Perm t.cols
  rewires : Rewires U A w.activeEntries t.cols t.matrix t.reduced t.steps t.bare w t.rewired
  reached_rewired : Reached g n U A [] t.rewired
  reached : ∃ A', Reached g n (U \ (t.new.map Prod.snd).toFinset) A' [] t.next
  nodup_fst : (t.new.map Prod.fst).Nodup
  nodup_snd : (t.new.map Prod.snd).Nodup
  named : ∀ a ∈ t.new, a.2 ∈ U ∧ ∃ i v, Names t.reduced w.activeEntries t.cols i a.1 v a.2
  complete : ∀ i ∈ t.reduced.unitRows, ∃ a ∈ t.new, ∃ v,
    Names t.reduced w.activeEntries t.cols i a.1 v a.2
  frontier_eq : t.next.frontier = replaceAll w.frontier t.new
  idle : t.new = [] → t.next = t.rewired

/-- A round has a result. -/
theorem exists_turn (h : Reached g n U A [] w) (hg : g.Normal) : ∃ t, Turn.Taken g n U A w t := by
  obtain ⟨found, cols, hfound, hcols, hperm, hf⟩ := exists_faces h hg.toWellFormed
  obtain ⟨m, m', steps, bare, w₁, hrew, h₁⟩ := hf.exists_rewired h hg
  have howned := hrew.echelon.owned w.activeEntries.length
  have hunits : m'.unitRows.Nodup := List.Nodup.filter _ List.nodup_range
  obtain ⟨new, A', w₂, hok, h₂, hfst, hsnd, hmem, hall, hF⟩ := extractUnits_reached hg hrew.shape'
    (fun hname hname' hii => hf.apart howned hname hname' hii) hunits h₁ fun i hi => by
      obtain ⟨hlt, j, hj⟩ := hrew.shape'.mem_unitRows.mp hi
      have hjlt : j < cols.length := (hrew.shape'.lt_of_bit ((hj j).trans (beq_self_eq_true j))).2
      have hname :
          Names m' w.activeEntries cols i w.activeEntries[i].1 w.activeEntries[i].2 cols[j] :=
        ⟨j, hj, List.getElem?_eq_getElem hlt, List.getElem?_eq_getElem hjlt⟩
      refine ⟨_, _, _, hname, ?_⟩
      rw [hrew.frontier_eq]
      exact hf.ready hg.toWellFormed (hrew.frontier_eq ▸ h₁.laid) hrew.fronted hrew.after howned
        hname
  rw [hrew.frontier_eq] at hF
  have hnamed : ∀ a ∈ new, a.2 ∈ U ∧ ∃ i v, Names m' w.activeEntries cols i a.1 v a.2 := by
    intro a ha
    obtain ⟨haU, i, -, v, hname⟩ := hmem a ha
    exact ⟨haU, i, v, hname⟩
  by_cases hrows : w.activeEntries = []
  · -- nothing takes part, and the state stays as it is
    have hnew : new = [] := List.eq_nil_iff_forall_not_mem.mpr fun a ha => by
      obtain ⟨-, i, v, j, -, hrow, -⟩ := hnamed a ha
      rw [hrows] at hrow
      cases hrow
    obtain rfl : w₁ = w := Rewires.eq_of_nil (hrows ▸ hrew)
    have hadvance : w₁.advance.outcome = .ok ([], w₁) := by
      unfold advance
      rw [Run.outcome_bind, outcome_lift_except, activeRows_eq h.laid, hrows]
      rfl
    subst hnew
    exact ⟨⟨cols, m, m', steps, bare, w₁, [], w₁⟩, hadvance, hf, ⟨found, hcols, hperm⟩, hrew, h₁,
      ⟨A, by simpa using h⟩, hfst, hsnd, hnamed, hall, rfl, fun _ => rfl⟩
  · have hqubit : ∀ a ∈ new, a.1 < w.frontier.length := by
      intro a ha
      obtain ⟨-, i, v, j, -, hrow, -⟩ := hnamed a ha
      have hentry := (hf.row (List.mem_of_getElem? hrow)).1
      have hlt := h.laid.mem_iff_getElem?.mp hentry
      exact (List.getElem?_eq_some_iff.mp hlt).1
    obtain ⟨w₃, hcut, h₃, hF₃⟩ := cutEdges_reached hg.toFused
      (h₂.widen (fun v hv => by simpa using hv)) fun a ha => by
        rw [hF]
        exact List.mem_of_getElem? (getElem?_replaceAll_of_mem hfst ha (hqubit a ha))
    have hadvance : w.advance.outcome = .ok (new.map Prod.snd, w₃) := by
      have hactive := activeRows_eq h.laid
      have hmatrix := hrew.biadjacency_eq
      have hreplay := hrew.replay_eq
      have hremove := hrew.remove_eq
      have hadd := hrew.add_eq
      have hstart : (⟨w₁.diagram, w₁.circuit, w.frontier⟩ : Workspace) = w₁ := by
        rw [← hrew.frontier_eq]
      obtain ⟨a, rest, hcons⟩ := List.exists_cons_of_ne_nil hrows
      rw [hcons] at hactive hfound hmatrix hreplay hremove hadd hok
      unfold advance
      simp only [Run.outcome_bind, outcome_lift_except, hactive, Except.mapError, Except.bind,
        hfound, hcols, hmatrix, hrew.eliminate_eq, Run.outcome_emit, hreplay, hremove, hadd, hstart,
        hok, hcut, Run.outcome_pure, mergeSort_frontier h₃.laid]
    refine ⟨⟨cols, m, m', steps, bare, w₁, new, w₃⟩, hadvance, hf, ⟨found, hcols, hperm⟩, hrew, h₁,
      ⟨A', h₃⟩, hfst, hsnd, hnamed, hall, hF₃.trans hF, fun hnil => ?_⟩
    subst hnil
    have hunits : m'.unitRows = [] := List.eq_nil_iff_forall_not_mem.mpr fun i hi => by
      obtain ⟨a, ha, -⟩ := hall i hi
      cases ha
    rw [hunits] at hok
    have hsame : w₁ = w₂ := (Prod.mk.inj (Except.ok.inj hok)).2
    have hdone : w₂ = w₃ := Except.ok.inj hcut
    rw [hsame, hdone]

/-- A vertex is extracted if and only if its unit vector lies in the span of the neighbourhoods. -/
theorem Turn.Taken.mem_new_iff {t : Turn} (ht : Turn.Taken g n U A w t) (h : Reached g n U A [] w) :
    u ∈ t.new.map Prod.snd ↔ Pi.single u 1 ∈ w.diagram.rowSpan U A.toFinset := by
  have hspan : w.diagram.rowSpan U A.toFinset = t.rewired.diagram.rowSpan U A.toFinset :=
    h.spans.trans ht.reached_rewired.spans.symm
  have hshape := ht.rewires.shape'
  rw [hspan]
  constructor
  · intro hu
    obtain ⟨a, ha, rfl⟩ := List.mem_map.mp hu
    obtain ⟨-, i, v, j, hunit, hrow, hcol⟩ := ht.named a ha
    refine ht.rewires.fronted.single_mem_rowSpan ht.rewires.after ?_ hcol hunit
    rw [List.length_map]
    exact (List.getElem?_eq_some_iff.mp hrow).1
  · intro hu
    obtain ⟨huc, i, hi, hunit⟩ := ht.rewires.fronted.exists_unit_row ht.rewires.after
      (fun i j hj => Bool.eq_false_iff.mpr fun hc => absurd (hshape.lt_of_bit hc).2 (by omega))
      (ht.rewires.echelon.owned _) hu
    rw [List.length_map] at hi
    obtain ⟨a, ha, v, j, hunit', -, hcol⟩ := ht.complete i (hshape.mem_unitRows.mpr ⟨hi, _, hunit⟩)
    have hj : j = t.cols.idxOf u := by
      have hone := hunit' j
      rw [hunit, beq_self_eq_true, beq_iff_eq] at hone
      exact hone
    have hget : t.cols[t.cols.idxOf u]? = some u := by
      rw [List.getElem?_eq_getElem (List.idxOf_lt_length_of_mem huc), List.getElem_idxOf]
    rw [hj, hget] at hcol
    exact List.mem_map.mpr ⟨a, ha, (Option.some.inj hcol).symm⟩

/-- A round extracts vertices of the rest, and if it extracts none then none can be freed. -/
theorem advance_reached (h : Reached g n U A [] w) (hg : g.Normal) :
    ∃ new A' w', w.advance.outcome = .ok (new, w') ∧ Reached g n (U \ new.toFinset) A' [] w' ∧
      new.Nodup ∧ (∀ u ∈ new, u ∈ U) ∧ (new = [] → ∀ u, ¬g.Frees U u) := by
  obtain ⟨t, ht⟩ := exists_turn h hg
  obtain ⟨A', h'⟩ := ht.reached
  refine ⟨t.new.map Prod.snd, A', t.next, ht.advance_eq, h', ht.nodup_snd, fun u hu => ?_,
    fun hnil u hu => ?_⟩
  · obtain ⟨a, ha, rfl⟩ := List.mem_map.mp hu
    exact (ht.named a ha).1
  · rw [frees_iff hg.toConsistent, ← h.spans] at hu
    have hmem := (ht.mem_new_iff h).mpr hu.2
    rw [hnil] at hmem
    cases hmem

end Workspace

end ZX
