import Mathlib
import ZX.Extraction.Basic
import ZX.Proofs.Extraction.Round

/-!
# All rounds of extraction

The vertices that have been visited are those that have left the rest, so that rounds run until the
rest is empty. A round without a new vertex cannot free any, and neither can the round after it: an
extraction that stalls of itself shows that there is no flow. At most two rounds are spent on each
vertex of the rest.
-/
namespace ZX

open Finset

namespace Workspace

open Diagram

variable {g : Diagram} {U : Finset ℕ} {A : List ℕ} {n : ℕ} {w : Workspace}
  {visited : Std.HashSet ℕ}

/-! ## Visited vertices -/

/-- Of the vertices of the diagram, those outside of the rest have been visited. -/
def Seen (g : Diagram) (U : Finset ℕ) (visited : Std.HashSet ℕ) : Prop :=
  ∀ v, g.contains v = true → (visited.contains v = true ↔ v ∉ U)

theorem visit_contains (visited : Std.HashSet ℕ) (l : List ℕ) (v : ℕ) :
    (visit visited l).1.contains v = true ↔ visited.contains v = true ∨ v ∈ l := by
  unfold visit
  generalize 0 = k
  induction l generalizing visited k with
  | nil => simp
  | cons u l ih =>
      rw [List.foldl_cons]
      dsimp only
      by_cases hu : visited.contains u = true
      · rw [if_pos hu, ih, List.mem_cons]
        by_cases huv : v = u
        · simp [huv, hu]
        · simp [huv]
      · rw [if_neg hu, ih, Std.HashSet.contains_insert, List.mem_cons]
        by_cases huv : u = v
        · simp [huv]
        · simp [huv, Ne.symm huv]

theorem visit_count {l : List ℕ} (hl : l.Nodup) (hnew : ∀ v ∈ l, visited.contains v = false) :
    (visit visited l).2 = l.length := by
  suffices hloop : ∀ k, (l.foldl _ (visited, k)).2 = k + l.length from
    (hloop 0).trans (Nat.zero_add _)
  intro k
  induction l generalizing visited k with
  | nil => simp
  | cons u l ih =>
      obtain ⟨hul, hl⟩ := List.nodup_cons.mp hl
      rw [List.foldl_cons]
      dsimp only
      rw [hnew u List.mem_cons_self, if_neg Bool.false_ne_true, ih hl, List.length_cons]
      · omega
      · intro v hv
        rw [Std.HashSet.contains_insert, hnew v (List.mem_cons_of_mem u hv), Bool.or_false,
          beq_eq_false_iff_ne]
        exact fun hc => hul (hc ▸ hv)

/-- Everything in the diagram at hand stems from the first diagram. -/
theorem Reached.contains_of (h : Reached g n U A [] w) {v : ℕ} (hv : w.diagram.contains v = true) :
    g.contains v = true := by
  obtain ⟨κ, hκ⟩ := exists_kind? hv
  rw [h.laid.kind?_eq hv] at hκ
  exact contains_of_kind? hκ

theorem remaining_eq (h : Reached g n U A [] w) (hseen : Seen g U visited) :
    remaining w.diagram visited = U.card := by
  have hmem : (w.diagram.vertices.filter fun v => !visited.contains v).toFinset = U := by
    ext v
    rw [List.mem_toFinset, List.mem_filter, mem_vertices, Bool.not_eq_true']
    constructor
    · intro hv
      by_contra hU
      rw [(hseen v (h.contains_of hv.1)).mpr hU] at hv
      cases hv.2
    · intro hv
      have hcont := h.laid.contains_rest hv
      refine ⟨hcont, Bool.eq_false_iff.mpr fun hc => ?_⟩
      exact (hseen v (h.contains_of hcont)).mp hc hv
  rw [remaining, List.countP_eq_length_filter, ← hmem, List.toFinset_card_of_nodup]
  exact (nodup_vertices w.diagram).filter _

theorem Seen.visit {l : List ℕ} (h : Seen g U visited) :
    Seen g (U \ l.toFinset) (visit visited l).1 := by
  intro v hv
  rw [visit_contains, h v hv, mem_sdiff, List.mem_toFinset]
  tauto

/-- A vertex of the first rest that is not a boundary still has an edge. -/
theorem Reached.linksAt_ne_nil {v : ℕ} (h : Reached g n (g.core \ g.fringe) A [] w)
    (hg : g.WellFormed) (hv : v ∈ g.core \ g.fringe) (hk : g.kind? v ≠ some .boundary) :
    w.diagram.linksAt v ≠ [] := by
  intro hnil
  obtain ⟨hcore, hfringe⟩ := mem_sdiff.mp hv
  obtain ⟨hsup, hout, hiso⟩ := mem_filter.mp hcore
  have hspider : v ∈ g.spiders := mem_spiders.mpr ⟨mem_support.mp hsup, hk⟩
  have hnone : ∀ t, w.diagram.edgeKind? v t = none := by
    intro t
    rw [edgeKind?_eq_lookup, hnil]
    rfl
  rw [mem_isolated hg.toConsistent, not_and, not_forall] at hiso
  obtain ⟨t, ht⟩ := hiso hspider
  obtain ⟨e, he⟩ := Option.ne_none_iff_exists'.mp ht
  have he' : g.edgeKind? t v = some e := (hg.toConsistent.edgeKind?_comm t v).trans he
  have htout : t ∉ g.outputs := by
    intro hc
    exact hfringe (mem_filter.mpr ⟨hspider, t, hc, by rw [connected, he']; rfl⟩)
  by_cases htU : t ∈ g.core \ g.fringe
  · rw [← h.laid.rest_eq v hv t htU, hnone] at he
    cases he
  · -- The neighbour has left the rest, so the column of `v` is not zero.
    have htspider : t ∈ g.spiders := by
      rw [mem_sdiff, not_and, not_not] at htU
      exact (mem_filter.mp (htU (mem_core_of_edge hg.toConsistent he' htout))).1
    have hzero : ∀ y ∈ w.diagram.rowSpan (g.core \ g.fringe) A.toFinset, y v = 0 := by
      refine fun y hy => rowSpan_apply_eq_zero (fun s _ => ?_) hy
      rw [row, connected, h.laid.consistent.edgeKind?_comm, hnone]
      simp
    have hrow := hzero (g.row _ t) (by
      rw [h.spans]
      exact row_mem_rowSpan (mem_sdiff.mpr ⟨htspider, htU⟩))
    rw [row, connected, he', if_pos ⟨hv, rfl⟩] at hrow
    exact one_ne_zero hrow

theorem Reached.linksAt_isolated {v : ℕ} (h : Reached g n U A [] w) (hg : g.WellFormed)
    (hv : v ∈ g.isolated) : w.diagram.linksAt v = [] := by
  have hvA : v ∉ A := fun hc => (h.laid.left v hc).2 hv
  have hvU : v ∉ U := fun hc => (mem_filter.mp (h.laid.subset hc)).2.2 hv
  refine List.eq_nil_iff_forall_not_mem.mpr fun l hl => ?_
  have he : w.diagram.edgeKind? v l.1 = some l.2 := h.laid.consistent.edgeKind?_iff.mpr hl
  by_cases hA : l.1 ∈ A
  · have he' := (h.laid.consistent.edgeKind?_comm l.1 v).trans he
    obtain ⟨-, hU | ⟨hc, -⟩⟩ | ⟨-, hin, -⟩ := h.laid.edge hA he'
    · exact hvU hU
    · exact hvA hc
    · exact (mem_spiders.mp (mem_filter.mp hv).1).2 (hg.kind?_input hin)
  · exact hvU (h.laid.rest_edge he hvA hA).1

theorem mem_initiallyVisited {v : ℕ} : w.initiallyVisited.contains v = true ↔
    v ∈ w.frontier.map Prod.snd ∨ v ∈ w.diagram.outputs ∨ w.diagram.contains v = true ∧
      w.diagram.linksAt v = [] ∧ w.diagram.kind? v ≠ some .boundary := by
  rw [initiallyVisited, Std.HashSet.contains_ofList, List.contains_iff_mem, List.mem_append,
    List.mem_append, or_assoc, List.mem_filter, mem_vertices]
  refine or_congr Iff.rfl (or_congr Iff.rfl (and_congr_right fun hv => ?_))
  obtain ⟨x, hx⟩ := contains_iff.mp hv
  rw [hx, linksAt_of_vertex? hx, kind?, data?_of_vertex? hx]
  simp

theorem Reached.seen (h : Reached g n (g.core \ g.fringe) A [] w) (hg : g.WellFormed)
    (hF : w.frontier = A.zipIdx.map Prod.swap) (hfringe : ∀ v ∈ g.fringe, v ∈ A) :
    Seen g (g.core \ g.fringe) w.initiallyVisited := by
  have hmap : w.frontier.map Prod.snd = A := by
    rw [hF, List.map_map]
    exact List.zipIdx_map_fst 0 A
  intro v hv
  rw [mem_initiallyVisited, hmap, h.laid.outputs_eq]
  constructor
  · intro hseen hU
    obtain hA | hout | ⟨hcont, hnil, hk⟩ := hseen
    · exact (h.laid.left v hA).1 hU
    · exact (mem_filter.mp (h.laid.subset hU)).2.1 hout
    · rw [h.laid.kind?_eq hcont] at hk
      exact h.linksAt_ne_nil hg hU hk hnil
  · intro hU
    by_cases hout : v ∈ g.outputs
    · exact .inr (.inl hout)
    · by_cases hiso : v ∈ g.isolated
      · have hcont : w.diagram.contains v = true :=
          (h.laid.contains_iff v).mpr (.inr (.inr (.inr (.inr hiso))))
        refine .inr (.inr ⟨hcont, h.linksAt_isolated hg hiso, ?_⟩)
        rw [h.laid.kind?_eq hcont]
        exact (mem_spiders.mp (mem_filter.mp hiso).1).2
      · rw [mem_sdiff, not_and, not_not] at hU
        exact .inl (hfringe v (hU (mem_filter.mpr ⟨mem_support.mpr hv, hout, hiso⟩)))

/-! ## The loop -/

/-- A stop of the loop, which has no other cause than a lack of flow or the cap on the rounds. -/
def IsStall (g : Diagram) (maxRounds : Option ℕ) (e : Halt) : Prop :=
  (∃ count left w, e = .failure (.stalled count left) w) ∧ (maxRounds = none → ¬g.HasFlow)

theorem Reached.not_hasFlow (h : Reached g n U A [] w) (hg : g.WellFormed) (hU : U.Nonempty)
    (hnone : ∀ u, ¬g.Frees U u) : ¬g.HasFlow := by
  intro hflow
  obtain ⟨hsub, -⟩ := exists_partialFlow hg h.freed
  obtain ⟨u, hu⟩ := hflow.exists_frees hg hsub hU
  exact hnone u hu

theorem card_sdiff_toFinset {l : List ℕ} (hl : l.Nodup) (hsub : ∀ u ∈ l, u ∈ U) :
    (U \ l.toFinset).card + l.length = U.card := by
  rw [← List.toFinset_card_of_nodup hl, card_sdiff_add_card_eq_card]
  exact fun u hu => hsub u (List.mem_toFinset.mp hu)

theorem rounds_of_rest_empty {maxRounds : Option ℕ} {fuel done : ℕ} {idle : Bool}
    (h : Reached g n ∅ A [] w) (hseen : Seen g ∅ visited) :
    (rounds maxRounds (fuel + 1) visited done idle w).outcome = .ok (done, w) := by
  unfold rounds
  rw [remaining_eq h hseen, card_empty, if_pos rfl]
  rfl

/-- One turn of the loop. -/
theorem rounds_of_advance {maxRounds : Option ℕ} {fuel done : ℕ} {idle : Bool} {new : List ℕ}
    {w' : Workspace} (h : Reached g n U A [] w) (hseen : Seen g U visited) (hU : U.Nonempty)
    (hcap : maxRounds.any (· ≤ done) = false) (hok : w.advance.outcome = .ok (new, w'))
    (hnodup : new.Nodup) (hsub : ∀ u ∈ new, u ∈ U) :
    (rounds maxRounds (fuel + 1) visited done idle w).outcome =
      if new = [] ∧ idle = true then .error (.failure (.stalled (done + 1) U.card) w')
      else (rounds maxRounds fuel (visit visited new).1 (done + 1) new.isEmpty w').outcome := by
  have hcard : U.card ≠ 0 := (card_pos.mpr hU).ne'
  have hcount : (visit visited new).2 = new.length := by
    refine visit_count hnodup fun v hv => Bool.eq_false_iff.mpr fun hc => ?_
    exact (hseen v (h.contains_of (h.laid.contains_rest (hsub v hv)))).mp hc (hsub v hv)
  conv_lhs => unfold rounds
  rw [remaining_eq h hseen, if_neg hcard, hcap, if_neg Bool.false_ne_true, Run.outcome_bind, hok]
  simp only [Except.bind, Run.outcome_bind, Run.outcome_emit, hcount]
  cases new with
  | nil => cases idle <;> rfl
  | cons u new => rfl

theorem rounds_ends {maxRounds : Option ℕ} (hg : g.Normal) {fuel : ℕ} {done : ℕ} {idle : Bool}
    (h : Reached g n U A [] w) (hseen : Seen g U visited)
    (hfuel : 2 * U.card + (if idle then 1 else 2) ≤ fuel) :
    Ends (rounds maxRounds fuel visited done idle w).outcome
      (fun r => ∃ A', Reached g n ∅ A' [] r.2) (IsStall g maxRounds) := by
  induction fuel generalizing U A w visited done idle with
  | zero =>
      split at hfuel <;> omega
  | succ fuel ih =>
      obtain rfl | hne := U.eq_empty_or_nonempty
      · rw [rounds_of_rest_empty h hseen]
        exact Ends.ok_iff.mpr ⟨A, h⟩
      · by_cases hcap : maxRounds.any (· ≤ done) = true
        · unfold rounds
          rw [remaining_eq h hseen, if_neg (card_pos.mpr hne).ne', if_pos hcap]
          refine Ends.run_emit (Ends.throw_iff.mpr ⟨⟨_, _, _, rfl⟩, fun hnone => ?_⟩)
          rw [hnone] at hcap
          cases hcap
        · obtain ⟨new, A', w', hok, h', hnodup, hsub, hidle⟩ := advance_reached h hg
          have hcard := card_sdiff_toFinset hnodup hsub
          rw [rounds_of_advance h hseen hne (Bool.not_eq_true _ |>.mp hcap) hok hnodup hsub]
          split
          case isTrue hstop =>
            refine Ends.error_iff.mpr ⟨⟨_, _, _, rfl⟩, fun _ => ?_⟩
            exact h.not_hasFlow hg.toWellFormed hne (hidle hstop.1)
          case isFalse hgo =>
            refine ih h' hseen.visit ?_
            cases new with
            | nil =>
                have hfirst : idle = false := Bool.eq_false_iff.mpr fun hc => hgo ⟨rfl, hc⟩
                simp only [hfirst, Bool.false_eq_true, if_false, List.isEmpty_nil, if_true,
                  List.length_nil] at hfuel hcard ⊢
                omega
            | cons u new =>
                simp only [List.isEmpty_cons, Bool.false_eq_true, if_false,
                  List.length_cons] at hcard ⊢
                split at hfuel <;> omega

end Workspace

end ZX
