import Mathlib
import ZX.Proofs.Extraction.Yield

/-!
# Rounds that extract nothing

A round that extracts nothing leaves the edges in front of the rest reduced. The round after it
finds the same columns and a matrix in echelon form, so that there is nothing to reduce and nothing
to extract: it takes no gate and lays the same edges. The loop therefore stops after two such
rounds, and every other round makes the rest smaller.
-/
namespace ZX

open Finset

namespace Diagram

variable {bare D D' : Diagram} {rows cols : List ℕ} {M : BitMatrix}

/-- The diagrams differ at most in the order in which links are stored. -/
structure SameGraph (D D' : Diagram) : Prop where
  data?_eq : ∀ v, D'.data? v = D.data? v
  edgeKind?_eq : ∀ s t, D'.edgeKind? s t = D.edgeKind? s t
  inputs_eq : D'.inputs = D.inputs
  outputs_eq : D'.outputs = D.outputs
  scalar_eq : D'.scalar = D.scalar

/-- The edges of a matrix determine the diagram around them. -/
theorem Wired.sameGraph (h : Wired bare rows cols M D) (h' : Wired bare rows cols M D') :
    SameGraph D D' where
  data?_eq v := (h'.data?_eq v).trans (h.data?_eq v).symm
  inputs_eq := h'.inputs_eq.trans h.inputs_eq.symm
  outputs_eq := h'.outputs_eq.trans h.outputs_eq.symm
  scalar_eq := h'.scalar_eq.trans h.scalar_eq.symm
  edgeKind?_eq s t := by
    have hentry : ∀ {r c}, r ∈ rows → c ∈ cols → D'.edgeKind? r c = D.edgeKind? r c := by
      intro r c hr hc
      obtain ⟨i, hi⟩ := List.mem_iff_getElem?.mp hr
      obtain ⟨j, hj⟩ := List.mem_iff_getElem?.mp hc
      rw [h'.entry_eq i j r c hi hj, h.entry_eq i j r c hi hj]
    by_cases hst : s ∈ rows ∧ t ∈ cols
    · exact hentry hst.1 hst.2
    · by_cases hts : s ∈ cols ∧ t ∈ rows
      · rw [h'.consistent.edgeKind?_comm, h.consistent.edgeKind?_comm]
        exact hentry hts.2 hts.1
      · rw [h'.other_eq s t hst hts, h.other_eq s t hst hts]

end Diagram

namespace Workspace

open Diagram

variable {g : Diagram} {U : Finset ℕ} {A cols : List ℕ} {n : ℕ} {w w' : Workspace}
  {visited : Std.HashSet ℕ}

/-! ## The round after an idle round -/

/-- The columns are the places where the span of the neighbourhoods is not zero. -/
theorem Faces.mem_cols_iff {rows : List FrontierEntry} {c : ℕ} (hf : Faces U A rows cols w) :
    c ∈ cols ↔ ∃ y ∈ w.diagram.rowSpan U A.toFinset, y c ≠ 0 := by
  rw [exists_mem_rowSpan_ne_zero]
  constructor
  · intro hc
    obtain ⟨v, hv, he⟩ := hf.met c hc
    refine ⟨hf.mem_rest hc, v, List.mem_toFinset.mpr (hf.mem_anchors hv), ?_⟩
    rw [connected, he]
    rfl
  · rintro ⟨hcU, v, hvA, hconn⟩
    obtain ⟨e, he⟩ := Option.isSome_iff_exists.mp hconn
    by_cases hv : v ∈ rows.map Prod.snd
    · exact (hf.edge hv he).2.2
    · rw [hf.other v (List.mem_toFinset.mp hvA) hv c hcU] at he
      cases he

namespace Turn.Taken

variable {t t' : Turn} (ht : Turn.Taken g n U A w t) (ht' : Turn.Taken g n U A t.rewired t')
include ht ht'

/-- Entries without an edge stay without one. -/
theorem sublist_activeEntries (hg : g.WellFormed) :
    t.rewired.activeEntries.Sublist w.activeEntries := by
  have hlaid := ht.reached_rewired.laid
  have hkeep : ∀ a ∈ w.frontier, isActive t.rewired.diagram a = true →
      isActive w.diagram a = true := by
    intro a ha hactive
    have hmem : a ∈ t.rewired.activeEntries := by
      rw [activeEntries, ht.rewires.frontier_eq, List.mem_filter]
      exact ⟨ha, hactive⟩
    obtain ⟨-, hheld, -⟩ := (mem_active hlaid hg).mp hmem
    have hA := List.mem_of_getElem? hheld
    obtain ⟨u, hu⟩ := ht'.faces.busy a.2 (List.mem_map_of_mem hmem)
    have hrow : a.2 ∈ w.activeEntries.map Prod.snd := by
      by_contra hrow
      have huU := (ht'.faces.edge (List.mem_map_of_mem hmem) hu).2.1
      rw [ht.rewires.fronted.edge_of_other ht.rewires.after hA hrow huU] at hu
      cases hu
    obtain ⟨b, hb, hba⟩ := List.mem_map.mp hrow
    have hqubit : b.1 = a.1 := eq_of_getElem? hlaid.nodup (hba ▸ (ht.faces.row hb).2) hheld
    have heq : b = a := Prod.ext hqubit hba
    exact (List.mem_filter.mp (heq ▸ hb)).2
  have hfilter : t.rewired.activeEntries =
      w.activeEntries.filter (isActive t.rewired.diagram) := by
    rw [activeEntries, activeEntries, ht.rewires.frontier_eq, List.filter_filter]
    refine List.filter_congr fun a ha => ?_
    cases hactive : isActive t.rewired.diagram a with
    | false => rfl
    | true => rw [hkeep a ha hactive]; rfl
  rw [hfilter]
  exact List.filter_sublist

theorem cols_eq (h : Reached g n U A [] w) : t'.cols = t.cols := by
  have hspan : t.rewired.diagram.rowSpan U A.toFinset = w.diagram.rowSpan U A.toFinset :=
    ht.reached_rewired.spans.trans h.spans.symm
  have hperm : t.cols.Perm t'.cols := by
    rw [List.perm_ext_iff_of_nodup ht.faces.nodup_cols ht'.faces.nodup_cols]
    intro c
    rw [ht.faces.mem_cols_iff, ht'.faces.mem_cols_iff, hspan]
  obtain ⟨found, hsort, hfound⟩ := ht.sorted
  obtain ⟨found', hsort', hfound'⟩ := ht'.sorted
  have hdata : ∀ v, t.rewired.diagram.data? v = w.diagram.data? v := fun v =>
    (ht.rewires.after.data?_eq v).trans (ht.rewires.before.data?_eq v).symm
  have hsame := sortByQubit_congr hdata (hfound.trans (hperm.trans hfound'.symm)) fun v hv =>
    h.laid.contains_rest (ht.faces.mem_rest (hfound.mem_iff.mp hv))
  exact Except.ok.inj (hsort'.symm.trans (hsame.trans hsort))

/-- The matrix of the next round consists of rows of the reduced matrix, in the same order. -/
theorem exists_rows (h : Reached g n U A [] w) (hg : g.WellFormed) :
    ∃ f : ℕ → ℕ, StrictMono f ∧ ∀ i < t.rewired.activeEntries.length,
      f i < w.activeEntries.length ∧ t'.matrix.bit i = t.reduced.bit (f i) := by
  have hcols := ht.cols_eq ht' h
  obtain ⟨f, hf⟩ := List.sublist_iff_exists_orderEmbedding_getElem?_eq.mp
    (ht.sublist_activeEntries ht' hg)
  refine ⟨f, f.strictMono, fun i hi => ?_⟩
  have hrow' : t.rewired.activeEntries[i]? = some t.rewired.activeEntries[i] :=
    List.getElem?_eq_getElem hi
  have hrow := (hf i).symm.trans hrow'
  refine ⟨(List.getElem?_eq_some_iff.mp hrow).1, funext fun j => ?_⟩
  by_cases hj : j < t.cols.length
  · have hj' : t'.cols[j]? = some t.cols[j] := by rw [hcols, List.getElem?_eq_getElem hj]
    have hold := ht.rewires.after.entry_eq (f i) j t.rewired.activeEntries[i].2 t.cols[j]
      (by rw [List.getElem?_map, hrow]; rfl) (List.getElem?_eq_getElem hj)
    have hnew := ht'.rewires.before.entry_eq i j t.rewired.activeEntries[i].2 t.cols[j]
      (by rw [List.getElem?_map, hrow']; rfl) hj'
    rw [hold] at hnew
    cases hM : t.reduced.bit (f i) j <;> cases hM' : t'.matrix.bit i j <;> simp [hM, hM'] at hnew ⊢
  · -- there are no more columns
    have hbeyond : ∀ {m : ByteMatrix} {k i : ℕ}, m.Shape k t.cols.length → m.bit i j = false :=
      fun hm => Bool.eq_false_iff.mpr fun hc => hj (hm.lt_of_bit hc).2
    rw [hbeyond ht.rewires.shape', hbeyond (hcols ▸ ht'.rewires.shape)]

/-- The next round has nothing to reduce. -/
theorem reduced_eq (h : Reached g n U A [] w) (hg : g.WellFormed) :
    t'.reduced = t'.matrix ∧ t'.steps = [] := by
  obtain ⟨f, hf, hrows⟩ := ht.exists_rows ht' h hg
  have hechelon : ByteMatrix.Echelon t'.matrix.bit := ht.rewires.echelon.select hf
    (fun r j hr => (ht'.rewires.shape.lt_of_bit hr).1) fun r hr => (hrows r hr).2
  have heliminate := ht'.rewires.eliminate_eq
  rw [ht'.rewires.shape.eliminate_echelon hechelon] at heliminate
  obtain ⟨hm, hsteps⟩ := Prod.mk.inj (Except.ok.inj heliminate)
  exact ⟨hm.symm, hsteps.symm⟩

/-- A round after an idle round is idle. -/
theorem new_eq_nil (h : Reached g n U A [] w) (hg : g.WellFormed) (hidle : t.new = []) :
    t'.new = [] := by
  obtain ⟨f, hf, hrows⟩ := ht.exists_rows ht' h hg
  refine List.eq_nil_iff_forall_not_mem.mpr fun a ha => ?_
  obtain ⟨-, i, v, j, hunit, hrow, -⟩ := ht'.named a ha
  obtain ⟨hlt, hbits⟩ := hrows i (List.getElem?_eq_some_iff.mp hrow).1
  rw [(ht.reduced_eq ht' h hg).1, hbits] at hunit
  obtain ⟨b, hb, -⟩ := ht.complete (f i) (ht.rewires.shape'.mem_unitRows.mpr ⟨hlt, j, hunit⟩)
  rw [hidle] at hb
  cases hb

/-- The next round takes no gate and lays the same edges. -/
theorem rewired_eq (h : Reached g n U A [] w) (hg : g.WellFormed) :
    t'.rewired.circuit = t.rewired.circuit ∧ t'.rewired.frontier = t.rewired.frontier ∧
      SameGraph t.rewired.diagram t'.rewired.diagram := by
  obtain ⟨hreduced, hsteps⟩ := ht.reduced_eq ht' h hg
  refine ⟨?_, ht'.rewires.frontier_eq, ?_⟩
  · have hreplay := ht'.rewires.replay_eq
    rw [hsteps] at hreplay
    exact (congrArg FrontierGates.circuit (Except.ok.inj hreplay)).symm
  · have hafter := ht'.rewires.after
    rw [hreduced] at hafter
    exact ht'.rewires.before.sameGraph hafter

end Turn.Taken

/-- The next round extracts nothing, takes no gate and changes nothing but the order of links. -/
def Rests (w : Workspace) : Prop :=
  ∃ w', w.advance.outcome = .ok ([], w') ∧ w'.circuit = w.circuit ∧ w'.frontier = w.frontier ∧
    SameGraph w.diagram w'.diagram

theorem Reached.rests (h : Reached g n U A [] w) (hg : g.Normal)
    (hidle : w.advance.outcome = .ok ([], w')) : w'.Rests := by
  obtain ⟨t, ht⟩ := exists_turn h hg
  obtain ⟨hnil, hnext⟩ := Prod.mk.inj (Except.ok.inj (ht.advance_eq.symm.trans hidle))
  have hnew : t.new = [] := List.map_eq_nil_iff.mp hnil
  obtain rfl : t.rewired = w' := (ht.idle hnew).symm.trans hnext
  obtain ⟨t', ht'⟩ := exists_turn ht.reached_rewired hg
  have hnew' := ht.new_eq_nil ht' h hg.toWellFormed hnew
  have hadvance := ht'.advance_eq
  rw [hnew', ht'.idle hnew'] at hadvance
  exact ⟨t'.rewired, hadvance, ht.rewired_eq ht' h hg.toWellFormed⟩

/-! ## The number of rounds -/

/-- Rounds one after the other, with what each of them extracts. -/
inductive Runs : Workspace → List (List ℕ) → Workspace → Prop
  | nil (w : Workspace) : Runs w [] w
  | cons {w w₁ w' : Workspace} {us : List ℕ} {uss : List (List ℕ)} :
      w.advance.outcome = .ok (us, w₁) → Runs w₁ uss w' → Runs w (us :: uss) w'

/-- How many vertices have neither been visited nor extracted. -/
def unvisited (D : Diagram) (visited : Std.HashSet ℕ) (extracted : List ℕ) : ℕ :=
  D.vertices.countP fun v => !visited.contains v && !extracted.contains v

/-- All of `count` rounds extract something, and nothing is left. -/
def Completes (visited : Std.HashSet ℕ) (w : Workspace) (count : ℕ) (w' : Workspace) : Prop :=
  ∃ busy, Runs w busy w' ∧ [] ∉ busy ∧ busy.length = count ∧
    unvisited w'.diagram visited busy.flatten = 0

/-- The last two of `count` rounds extract nothing, and the others extract something. -/
def Stalls (visited : Std.HashSet ℕ) (w : Workspace) (count left : ℕ) (w' : Workspace) : Prop :=
  ∃ busy, Runs w (busy ++ [[], []]) w' ∧ [] ∉ busy ∧ busy.length + 2 = count ∧
    unvisited w'.diagram visited busy.flatten = left

theorem unvisited_visit (D : Diagram) (visited : Std.HashSet ℕ) (l l' : List ℕ) :
    unvisited D (visit visited l).1 l' = unvisited D visited (l ++ l') := by
  refine List.countP_congr fun v _ => ?_
  simp only [Bool.and_eq_true, Bool.not_eq_true', ← Bool.not_eq_true, visit_contains,
    List.contains_iff_mem, List.mem_append]
  tauto

theorem unvisited_nil (D : Diagram) (visited : Std.HashSet ℕ) :
    unvisited D visited [] = remaining D visited := by
  simp [unvisited, remaining]

theorem Completes.cons {count : ℕ} {us : List ℕ} {w₁ : Workspace}
    (hok : w.advance.outcome = .ok (us, w₁)) (hus : us ≠ [])
    (h : Completes (visit visited us).1 w₁ count w') : Completes visited w (count + 1) w' := by
  obtain ⟨busy, hruns, hbusy, hcount, hleft⟩ := h
  refine ⟨us :: busy, .cons hok hruns, ?_, congrArg (· + 1) hcount, ?_⟩
  · exact List.not_mem_cons_of_ne_of_not_mem hus.symm hbusy
  · rwa [List.flatten_cons, ← unvisited_visit]

theorem Stalls.cons {count left : ℕ} {us : List ℕ} {w₁ : Workspace}
    (hok : w.advance.outcome = .ok (us, w₁)) (hus : us ≠ [])
    (h : Stalls (visit visited us).1 w₁ count left w') : Stalls visited w (count + 1) left w' := by
  obtain ⟨busy, hruns, hbusy, hcount, hleft⟩ := h
  refine ⟨us :: busy, .cons hok hruns, ?_, ?_, ?_⟩
  · exact List.not_mem_cons_of_ne_of_not_mem hus.symm hbusy
  · rw [← hcount, List.length_cons]
  · rwa [List.flatten_cons, ← unvisited_visit]

/-- After an idle round the loop stops with the next one. -/
theorem rounds_idle (fuel done : ℕ) (hg : g.Normal) (h : Reached g n U A [] w)
    (hseen : Seen g U visited) (hU : U.Nonempty) (hrests : w.Rests) :
    ∃ w', w.advance.outcome = .ok ([], w') ∧ unvisited w'.diagram visited [] = U.card ∧
      (rounds none (fuel + 1) visited done true w).outcome =
        .error (.failure (.stalled (done + 1) U.card) w') := by
  obtain ⟨w', hok, -⟩ := hrests
  obtain ⟨new, A', w'', hok', h', hnodup, hsub, -⟩ := advance_reached h hg
  obtain ⟨rfl, rfl⟩ := Prod.mk.inj (Except.ok.inj (hok.symm.trans hok'))
  refine ⟨w', hok, ?_, ?_⟩
  · rw [unvisited_nil, remaining_eq (by simpa using h') hseen]
  · rw [rounds_of_advance h hseen hU rfl hok hnodup hsub, if_pos ⟨rfl, rfl⟩]

/-- Without a cap on the rounds the loop ends when nothing is left or after two idle rounds. -/
theorem rounds_runs {fuel : ℕ} (done : ℕ) (hg : g.Normal) (h : Reached g n U A [] w)
    (hseen : Seen g U visited) (hfuel : U.card + 2 ≤ fuel) :
    Ends (rounds none fuel visited done false w).outcome
      (fun r => ∃ count ≤ U.card, r.1 = done + count ∧ Completes visited w count r.2)
      (fun e => ∃ count ≤ U.card + 2, ∃ left w', e = .failure (.stalled (done + count) left) w' ∧
        Stalls visited w count left w') := by
  -- every busy round takes a vertex from the rest
  induction fuel generalizing U A w visited done with
  | zero => omega
  | succ fuel ih =>
      obtain rfl | hU := U.eq_empty_or_nonempty
      · rw [rounds_of_rest_empty h hseen]
        refine Ends.ok_iff.mpr ⟨0, le_rfl, rfl, [], .nil w, List.not_mem_nil, rfl, ?_⟩
        rw [List.flatten_nil, unvisited_nil, remaining_eq h hseen, card_empty]
      · obtain ⟨new, A', w₁, hok, h', hnodup, hsub, -⟩ := advance_reached h hg
        have hcard := card_sdiff_toFinset hnodup hsub
        have hseen' := hseen.visit (l := new)
        rw [rounds_of_advance h hseen hU rfl hok hnodup hsub,
          if_neg fun hc => Bool.false_ne_true hc.2]
        by_cases hnew : new = []
        · subst hnew
          rw [List.toFinset_nil, sdiff_empty] at h'
          obtain ⟨fuel, rfl⟩ : ∃ k, fuel = k + 1 := ⟨fuel - 1, by omega⟩
          obtain ⟨w₂, hok₂, hleft, hstop⟩ := rounds_idle fuel (done + 1) hg h' hseen hU
            (h.rests hg hok)
          show Ends (rounds none (fuel + 1) visited (done + 1) true w₁).outcome _ _
          rw [hstop]
          exact Ends.error_iff.mpr ⟨2, by omega, U.card, w₂, rfl, [],
            .cons hok (.cons hok₂ (.nil w₂)), List.not_mem_nil, rfl, hleft⟩
        · have hpos := List.length_pos_iff.mpr hnew
          have hbusy : new.isEmpty = false := List.isEmpty_eq_false_iff.mpr hnew
          rw [hbusy]
          refine (ih (done + 1) h' hseen' (by omega)).mono ?_ ?_
          · rintro ⟨total, w'⟩ ⟨count, hle, rfl, hruns⟩
            exact ⟨count + 1, by omega, by omega, hruns.cons hok hnew⟩
          · rintro e ⟨count, hle, left, w', rfl, hruns⟩
            refine ⟨count + 1, by omega, left, w', ?_, hruns.cons hok hnew⟩
            rw [Nat.add_assoc, Nat.add_comm 1]

/-- The bound on the rounds in terms of the vertices that are not visited yet. -/
theorem rounds_le_remaining {fuel : ℕ} (hg : g.Normal) (h : Reached g n U A [] w)
    (hseen : Seen g U visited) (hfuel : remaining w.diagram visited + 2 ≤ fuel) :
    Ends (rounds none fuel visited 0 false w).outcome
      (fun r => r.1 ≤ remaining w.diagram visited ∧ Completes visited w r.1 r.2)
      (fun e => ∃ count left w', e = .failure (.stalled count left) w' ∧
        count ≤ remaining w.diagram visited + 2 ∧ Stalls visited w count left w') := by
  rw [remaining_eq h hseen] at hfuel ⊢
  refine (rounds_runs 0 hg h hseen hfuel).mono ?_ ?_
  · rintro ⟨_, w'⟩ ⟨count, hle, rfl, hruns⟩
    rw [Nat.zero_add]
    exact ⟨hle, hruns⟩
  · rintro _ ⟨count, hle, left, w', rfl, hruns⟩
    rw [Nat.zero_add]
    exact ⟨count, left, w', rfl, hle, hruns⟩

theorem Runs.eq_nil_of_idle {busy rest : List (List ℕ)} {w₁ : Workspace}
    (h : Runs w (busy ++ rest) w') (hbusy : [] ∉ busy)
    (hidle : w.advance.outcome = .ok ([], w₁)) : busy = [] := by
  cases busy with
  | nil => rfl
  | cons us busy =>
      cases h with
      | cons hok _ =>
          cases Except.ok.inj (hok.symm.trans hidle)
          exact absurd List.mem_cons_self hbusy

/-- If the first round is idle, then the loop completes only where nothing was left. -/
theorem Completes.remaining_eq_zero {count : ℕ} {w₁ : Workspace} (h : Completes visited w count w')
    (hidle : w.advance.outcome = .ok ([], w₁)) : remaining w.diagram visited = 0 := by
  obtain ⟨busy, hruns, hbusy, -, hleft⟩ := h
  rw [← List.append_nil busy] at hruns
  obtain rfl := hruns.eq_nil_of_idle hbusy hidle
  cases hruns
  rwa [List.flatten_nil, unvisited_nil] at hleft

theorem Stalls.count_eq_two {count left : ℕ} {w₁ : Workspace} (h : Stalls visited w count left w')
    (hidle : w.advance.outcome = .ok ([], w₁)) : count = 2 := by
  obtain ⟨busy, hruns, hbusy, hcount, -⟩ := h
  obtain rfl := hruns.eq_nil_of_idle hbusy hidle
  exact hcount.symm

end Workspace

namespace Diagram

open Workspace

variable {g : Diagram} {options : ExtractionOptions} {w₀ : Workspace}

/-- A diagram that does not fit is not extracted and does not stall. -/
theorem fits_of_stalled {count left : ℕ} {w' : Workspace}
    (h : (g.extract options).outcome = .error (.failure (.stalled count left) w')) :
    g.inputs.length = g.outputs.length ∧
      (options.width = 0 ∨ g.outputs.length ≤ options.width) := by
  by_cases hk : g.inputs.length = g.outputs.length
  · refine ⟨hk, ?_⟩
    by_contra hnarrow
    rw [extract_tooNarrow hk hnarrow] at h
    cases h
  · rw [extract, if_pos hk] at h
    cases h

/-- In every state of an extraction, a round that extracts nothing is followed by one that extracts
nothing and changes nothing. Without a cap, the loop ends after at most two more rounds than there
are vertices to visit: either all rounds extract something and nothing is left, or all but the last
two do and the failure tells how many vertices are left. -/
theorem idle_rounds_final (hg : g.WellFormed)
    (hprep : (g.extractionStart options).prepare.outcome = .ok w₀) :
    (∀ w w', Relation.ReflTransGen Advances w₀ w → w.advance.outcome = .ok ([], w') → w'.Rests) ∧
    (∀ fuel, remaining w₀.diagram w₀.initiallyVisited + 2 ≤ fuel →
      Ends (w₀.rounds none fuel w₀.initiallyVisited 0 false).outcome
        (fun r => r.1 ≤ remaining w₀.diagram w₀.initiallyVisited ∧
          Completes w₀.initiallyVisited w₀ r.1 r.2)
        (fun e => ∃ count left w', e = .failure (.stalled count left) w' ∧
          count ≤ remaining w₀.diagram w₀.initiallyVisited + 2 ∧
          Stalls w₀.initiallyVisited w₀ count left w')) ∧
    (options.maxRounds = none → ∀ count left w',
      (g.extract options).outcome = .error (.failure (.stalled count left) w') →
        count ≤ remaining w₀.diagram w₀.initiallyVisited + 2 ∧
        Stalls w₀.initiallyVisited w₀ count left w') := by
  obtain ⟨g', n, A, hg', hin, hout, h, hseen⟩ := exists_start hg hprep
  refine ⟨fun w w' hrun hidle => ?_, fun fuel hfuel => rounds_le_remaining hg' h hseen hfuel, ?_⟩
  · obtain ⟨U, A', hw⟩ := Reached.of_advances hg' h hrun
    exact hw.rests hg' hidle
  · intro hcap count left w' hstalled
    obtain ⟨hk, hwidth⟩ := fits_of_stalled hstalled
    have hcard := card_rest_le h
    have hfuel : remaining w₀.diagram w₀.initiallyVisited + 2 ≤ 2 * w₀.diagram.vertexCount + 3 := by
      rw [remaining_eq h hseen]
      omega
    rw [extract_eq hk hwidth, Run.outcome_bind, hprep] at hstalled
    have hfinish : (w₀.finish options).outcome = _ := hstalled
    rw [finish, Run.outcome_bind, hcap] at hfinish
    cases hrounds : (w₀.rounds none (2 * w₀.diagram.vertexCount + 3) w₀.initiallyVisited 0
        false).outcome with
    | error e =>
        rw [hrounds] at hfinish
        cases hfinish
        obtain ⟨_, _, _, heq, hle, hruns⟩ := (rounds_le_remaining hg' h hseen hfuel).2 _ hrounds
        cases heq
        exact ⟨hle, hruns⟩
    | ok r =>
        -- what follows the rounds does not stall
        rw [hrounds] at hfinish
        obtain ⟨A', h'⟩ := (rounds_ends hg' h hseen (by simp; omega)).of_eq_ok hrounds
        have hk' : g'.inputs.length = g'.outputs.length := by rw [hin, hout, hk]
        have htail : (r.2.close options r.1).outcome = _ := hfinish
        cases ((close_ends hg' hk' h' r.1).2 _ htail).1

/-- Two qubits, with the spiders 4 and 5 in front of 2 and 3, each adjacent to both. -/
def knot : Diagram where
  slots := #[
    some ⟨⟨.boundary, Phase.zero, 0, 0⟩, [(2, .hadamard)]⟩,
    some ⟨⟨.boundary, Phase.zero, 1, 0⟩, [(3, .hadamard)]⟩,
    some ⟨⟨.z, Phase.zero, 0, 1⟩, [(0, .hadamard), (4, .hadamard), (5, .hadamard)]⟩,
    some ⟨⟨.z, Phase.one, 1, 1⟩, [(1, .hadamard), (4, .hadamard), (5, .hadamard)]⟩,
    some ⟨⟨.z, Phase.zero, 0, 2⟩, [(2, .hadamard), (3, .hadamard), (6, .plain)]⟩,
    some ⟨⟨.z, Phase.zero, 1, 2⟩, [(2, .hadamard), (3, .hadamard), (7, .plain)]⟩,
    some ⟨⟨.boundary, Phase.zero, 0, 3⟩, [(4, .plain)]⟩,
    some ⟨⟨.boundary, Phase.zero, 1, 3⟩, [(5, .plain)]⟩]
  holes := []
  inputs := [0, 1]
  outputs := [6, 7]
  vertexCount := 8
  edgeCount := 8
  scalar := Scalar.one

/-- The first round reduces the matrix of `knot` but cannot extract anything. -/
theorem knot_advance : ∃ w w', (knot.extractionStart {}).prepare.outcome = .ok w ∧
    w.advance.outcome = .ok ([], w') ∧ remaining w.diagram w.initiallyVisited ≠ 0 ∧
    w.diagram.vertices.length ≤ w.diagram.vertexCount := by
  have hg : knot.WellFormed := by decide +kernel
  have hfront : ((knot.extractionStart {}).prepare.outcome.toOption.any fun w =>
      w.faced = {2, 3} ∧ (∀ v ∈ w.facing, w.diagram.connected v 2 = w.diagram.connected v 3) ∧
        2 ∈ w.diagram.vertices ∧ 2 ∉ w.frontier.map Prod.snd ∧ 2 ∉ w.diagram.outputs ∧
        w.diagram.linksAt 2 ≠ [] ∧ w.diagram.vertices.length ≤ w.diagram.vertexCount) = true := by
    decide +kernel
  obtain ⟨w, hw, hfront⟩ := exists_ok_of_any hfront
  obtain ⟨hfaced, hsame, hcont, hfrontier, hout, hlinks, hcount⟩ := of_decide_eq_true hfront
  obtain ⟨g', n, U, A, hg', h⟩ := exists_reached hg hw .refl
  obtain ⟨t, ht⟩ := exists_turn h hg'
  have h2 : 2 ∈ w.faced := by simp [hfaced]
  have h3 : 3 ∈ w.faced := by simp [hfaced]
  -- in the row space the two neighbours have the same coordinate
  have hspan : ∀ y ∈ Submodule.span (ZMod 2) (Set.range w.frontMatrix.row),
      y ⟨2, h2⟩ = y ⟨3, h3⟩ := by
    intro y hy
    refine Submodule.span_induction (p := fun y _ => y ⟨2, h2⟩ = y ⟨3, h3⟩) ?_ rfl ?_ ?_ hy
    · rintro _ ⟨⟨v, hv⟩, rfl⟩
      simp only [Matrix.row, frontMatrix, Matrix.of_apply, hsame v hv]
    · intro a b _ _ ha hb
      rw [Pi.add_apply, Pi.add_apply, ha, hb]
    · intro c a _ ha
      rw [Pi.smul_apply, Pi.smul_apply, ha]
  have hnone : ∀ u, ¬w.Yields u := by
    rintro u ⟨hu, hmem⟩
    have heq := hspan _ hmem
    have hcases := hu
    rw [hfaced, mem_insert, mem_singleton] at hcases
    obtain rfl | rfl := hcases
    · simp at heq
    · simp at heq
  have hnew : t.new.map Prod.snd = [] := List.eq_nil_iff_forall_not_mem.mpr fun u hu =>
    hnone u ((ht.faces.single_mem_rowSpan_iff h.laid.consistent).mp ((ht.mem_new_iff h).mp hu))
  refine ⟨w, t.next, hw, hnew ▸ ht.advance_eq, fun hzero => ?_, hcount⟩
  have hvisited := List.countP_eq_zero.mp hzero 2 hcont
  rw [Bool.not_eq_true', Bool.not_eq_false, mem_initiallyVisited] at hvisited
  obtain hc | hc | ⟨-, hc, -⟩ := hvisited
  · exact hfrontier hc
  · exact hout hc
  · exact hlinks hc

/-- The extraction of `knot` stalls after two rounds. -/
theorem idle_rounds_final_knot : knot.WellFormed ∧ ∃ w w',
    (knot.extractionStart {}).prepare.outcome = .ok w ∧ w.advance.outcome = .ok ([], w') ∧
    w'.Rests ∧ ∃ left w'', (knot.extract {}).outcome = .error (.failure (.stalled 2 left) w'') := by
  have hg : knot.WellFormed := by decide +kernel
  obtain ⟨w, w', hw, hidle, hleft, hcount⟩ := knot_advance
  obtain ⟨hrests, hloop, hstalled⟩ := idle_rounds_final hg hw
  refine ⟨hg, w, w', hw, hidle, hrests w w' .refl hidle, ?_⟩
  have hfuel : remaining w.diagram w.initiallyVisited + 2 ≤ 2 * w.diagram.vertexCount + 3 := by
    have hle : remaining w.diagram w.initiallyVisited ≤ w.diagram.vertices.length :=
      List.countP_le_length
    omega
  cases hrounds : (w.rounds none (2 * w.diagram.vertexCount + 3) w.initiallyVisited 0
      false).outcome with
  | ok r => exact absurd (((hloop _ hfuel).1 r hrounds).2.remaining_eq_zero hidle) hleft
  | error e =>
      obtain ⟨count, left, w'', rfl, -⟩ := (hloop _ hfuel).2 e hrounds
      have hextract : (knot.extract {}).outcome = .error (.failure (.stalled count left) w'') := by
        rw [extract_eq rfl (.inl rfl), Run.outcome_bind, hw]
        show (w.finish {}).outcome = _
        rw [finish, Run.outcome_bind, hrounds]
        rfl
      have htwo := (hstalled rfl count left w'' hextract).2.count_eq_two hidle
      exact ⟨left, w'', htwo ▸ hextract⟩

end Diagram

end ZX
