import Mathlib
import ZX.Proofs.Arena.Vertices

/-!
# Operations on edges

Adding, removing and relabelling an edge set the entry of one unordered pair of vertices and leave
every other part of the reading alone.
-/
namespace ZX.Diagram

variable {g : Diagram} {s t u v : Nat} {e : EdgeKind}

/-- The two ordered forms of the pair of `s` and `t`. -/
def IsPair (s t a b : Nat) : Prop := (a = s ∧ b = t) ∨ (a = t ∧ b = s)

instance (s t a b : Nat) : Decidable (IsPair s t a b) :=
  inferInstanceAs (Decidable ((a = s ∧ b = t) ∨ (a = t ∧ b = s)))

theorem isPair_comm {s t a b : Nat} : IsPair s t a b ↔ IsPair s t b a := by
  unfold IsPair
  tauto

theorem isPair_self (s t : Nat) : IsPair s t s t := .inl ⟨rfl, rfl⟩

/-- The edge between `s` and `t` becomes `o`, and nothing else changes. -/
structure EdgeSet (g : Diagram) (s t : Nat) (o : Option EdgeKind) (g' : Diagram) : Prop where
  consistent : g'.Consistent
  data?_eq : ∀ u, g'.data? u = g.data? u
  edgeKind?_eq : ∀ a b, g'.edgeKind? a b = if IsPair s t a b then o else g.edgeKind? a b
  linksAt_eq : ∀ u, u ≠ s → u ≠ t → g'.linksAt u = g.linksAt u
  inputs_eq : g'.inputs = g.inputs
  outputs_eq : g'.outputs = g.outputs
  scalar_eq : g'.scalar = g.scalar
  vertexCount_eq : g'.vertexCount = g.vertexCount

theorem EdgeSet.contains_eq {g' : Diagram} {o : Option EdgeKind} (h : EdgeSet g s t o g') (u : Nat) :
    g'.contains u = g.contains u := by
  rw [contains_eq_data?_isSome, h.data?_eq, contains_eq_data?_isSome]

/-- What an operation does to the list of one end of the edge: the entry for the far end becomes
`o`, the other entries stay, and the length changes by `m - n`. -/
structure LinkSet (links : List Link) (t : Nat) (o : Option EdgeKind) (n m : Nat)
    (links' : List Link) : Prop where
  mem_iff : ∀ b f, (b, f) ∈ links' ↔ if b = t then o = some f else (b, f) ∈ links
  nodup : (links'.map Prod.fst).Nodup
  length_eq : links'.length + n = links.length + m

theorem Consistent.edgeSet {g' : Diagram} {o : Option EdgeKind} (n m : Nat) (h : g.Consistent)
    (hst : s ≠ t) (hs : g.contains s) (ht : g.contains t)
    (hdata : ∀ u, g'.data? u = g.data? u)
    (hsource : LinkSet (g.linksAt s) t o n m (g'.linksAt s))
    (htarget : LinkSet (g.linksAt t) s o n m (g'.linksAt t))
    (hlinks : ∀ u, u ≠ s → u ≠ t → g'.linksAt u = g.linksAt u)
    (hsize : g'.slots.size = g.slots.size) (hholes : g'.holes = g.holes)
    (hcount : g'.vertexCount = g.vertexCount) (hedges : g'.edgeCount + n = g.edgeCount + m)
    (hin : g'.inputs = g.inputs) (hout : g'.outputs = g.outputs)
    (hscalar : g'.scalar = g.scalar) : EdgeSet g s t o g' := by
  have hcontains : ∀ u, g'.contains u = g.contains u := by
    intro u
    rw [contains_eq_data?_isSome, hdata, contains_eq_data?_isSome]
  have hmem : ∀ a b f, (b, f) ∈ g'.linksAt a ↔
      if IsPair s t a b then o = some f else (b, f) ∈ g.linksAt a := by
    intro a b f
    by_cases ha : a = s
    · subst ha
      rw [hsource.mem_iff]
      simp [IsPair, hst]
    · by_cases ha' : a = t
      · subst ha'
        rw [htarget.mem_iff]
        simp [IsPair, ha]
      · rw [hlinks a ha ha']
        simp [IsPair, ha, ha']
  have hcons : g'.Consistent := by
    refine ⟨?_, ?_, ?_, ?_, hholes ▸ h.nodup_holes, ?_, ?_⟩
    · intro a b f hl
      rw [hmem] at hl ⊢
      by_cases hp : IsPair s t a b
      · rw [if_pos hp] at hl
        rw [if_pos (isPair_comm.mp hp)]
        exact hl
      · rw [if_neg hp] at hl
        rw [if_neg fun hc => hp (isPair_comm.mp hc)]
        exact h.symm hl
    · intro u
      by_cases hu : u = s
      · exact hu ▸ hsource.nodup
      · by_cases hu' : u = t
        · exact hu' ▸ htarget.nodup
        · exact hlinks u hu hu' ▸ h.nodup u
    · intro a f hl
      rw [hmem, if_neg] at hl
      · exact h.irrefl hl
      · rintro (⟨rfl, rfl⟩ | ⟨rfl, rfl⟩)
        · exact hst rfl
        · exact hst rfl
    · intro u
      rw [hholes, hsize, hcontains]
      exact h.mem_holes
    · rw [hcount, h.vertexCount_eq]
      congr 1
      ext u
      rw [mem_support, mem_support, hcontains]
    · -- only the lists of the two ends change their length
      have hrest : ∑ u ∈ ((Finset.range g.slots.size).erase s).erase t, (g'.linksAt u).length =
          ∑ u ∈ ((Finset.range g.slots.size).erase s).erase t, (g.linksAt u).length := by
        refine Finset.sum_congr rfl fun u hu => ?_
        rw [Finset.mem_erase, Finset.mem_erase] at hu
        rw [hlinks u hu.2.1 hu.1]
      have hsplit : ∀ f : Nat → Nat, ∑ u ∈ Finset.range g.slots.size, f u =
          f s + (f t + ∑ u ∈ ((Finset.range g.slots.size).erase s).erase t, f u) := by
        intro f
        rw [Finset.add_sum_erase _ f (Finset.mem_erase.mpr
            ⟨Ne.symm hst, Finset.mem_range.mpr (lt_size_of_contains ht)⟩),
          Finset.add_sum_erase _ f (Finset.mem_range.mpr (lt_size_of_contains hs))]
      have hold := h.edgeCount_eq
      have hls := hsource.length_eq
      have hlt := htarget.length_eq
      rw [hsplit fun u => (g.linksAt u).length] at hold
      rw [hsize, hsplit fun u => (g'.linksAt u).length, hrest]
      omega
  refine ⟨hcons, hdata, ?_, hlinks, hin, hout, hscalar, hcount⟩
  intro a b
  ext f
  rw [hcons.edgeKind?_iff, hmem]
  split
  · rfl
  · rw [h.edgeKind?_iff]

theorem linkSet_append {links : List Link} (h : (links.map Prod.fst).Nodup)
    (ht : t ∉ links.map Prod.fst) (e : EdgeKind) :
    LinkSet links t (some e) 0 1 (links ++ [(t, e)]) where
  mem_iff b f := by
    rw [List.mem_append, List.mem_singleton, Prod.mk.injEq]
    by_cases hb : b = t
    · subst hb
      have hnot : (b, f) ∉ links := fun hm => ht (List.mem_map_of_mem hm)
      simp [hnot, eq_comm]
    · simp [hb]
  nodup := by
    rw [List.map_append, List.nodup_append]
    refine ⟨h, by simp, ?_⟩
    intro x hx y hy hxy
    simp only [List.map_cons, List.map_nil, List.mem_singleton] at hy
    exact ht (hy ▸ hxy ▸ hx)
  length_eq := by simp

theorem linkSet_erase {links : List Link} (h : (links.map Prod.fst).Nodup)
    (ht : t ∈ links.map Prod.fst) : LinkSet links t none 1 0 (eraseLink links t) where
  mem_iff b f := by
    rw [mem_eraseLink h]
    by_cases hb : b = t <;> simp [hb]
  nodup := nodup_eraseLink h
  length_eq := by
    have := length_eraseLink (t := t) h
    rw [if_pos ht] at this
    omega

theorem linkSet_setLink {links : List Link} (h : (links.map Prod.fst).Nodup)
    (ht : t ∈ links.map Prod.fst) (e : EdgeKind) :
    LinkSet links t (some e) 0 0 (setLink links t e) where
  mem_iff b f := by
    rw [mem_setLink]
    by_cases hb : b = t
    · subst hb
      simp only [if_true, ht, and_true, Option.some.injEq]
      exact eq_comm
    · simp [hb]
  nodup := by
    rw [map_fst_setLink]
    exact h
  length_eq := by simp

theorem Consistent.key_iff (h : g.Consistent) :
    t ∈ (g.linksAt s).map Prod.fst ↔ ∃ e, g.edgeKind? s t = some e := by
  constructor
  · intro ht
    obtain ⟨⟨w, e⟩, hl, rfl⟩ := List.mem_map.mp ht
    exact ⟨e, h.edgeKind?_iff.mpr hl⟩
  · rintro ⟨e, he⟩
    exact List.mem_map_of_mem (h.edgeKind?_iff.mp he)

theorem Consistent.ne_of_edgeKind? (h : g.Consistent) (he : g.edgeKind? s t = some e) : s ≠ t :=
  fun hc => h.ne (h.edgeKind?_iff.mp he) hc.symm

theorem Consistent.contains_left (h : g.Consistent) (he : g.edgeKind? s t = some e) :
    g.contains s := contains_of_mem_linksAt (h.edgeKind?_iff.mp he)

theorem Consistent.contains_far (h : g.Consistent) (he : g.edgeKind? s t = some e) :
    g.contains t := h.contains_right (h.edgeKind?_iff.mp he)

theorem addEdge_edgeSet (h : g.Consistent) (hst : s ≠ t) (hs : g.contains s) (ht : g.contains t)
    (hnone : g.edgeKind? s t = none) (e : EdgeKind) :
    ∃ g', g.addEdge s t e = .ok g' ∧ EdgeSet g s t (some e) g' := by
  set counted : Diagram := { g with edgeCount := g.edgeCount + 1 } with hcounted
  have ht' : (counted.modifyLinks s (· ++ [(t, e)])).contains t :=
    (contains_modifyVertex _).trans ht
  have hlinks : ∀ u, ((counted.modifyLinks s (· ++ [(t, e)])).modifyLinks t
      (· ++ [(s, e)])).linksAt u =
      if u = t then (if u = s then g.linksAt u ++ [(t, e)] else g.linksAt u) ++ [(s, e)]
      else if u = s then g.linksAt u ++ [(t, e)] else g.linksAt u := by
    intro u
    rw [linksAt_modifyLinks _ (.inl ht'), linksAt_modifyLinks _ (.inl (show counted.contains s from hs))]
    rfl
  have hkey : ¬ ∃ f, g.edgeKind? s t = some f := by
    rintro ⟨f, hf⟩
    rw [hnone] at hf
    cases hf
  have hkey' : s ∉ (g.linksAt t).map Prod.fst := by
    rw [h.key_comm, h.key_iff]
    exact hkey
  refine ⟨(counted.modifyLinks s (· ++ [(t, e)])).modifyLinks t (· ++ [(s, e)]), ?_,
    h.edgeSet 0 1 hst hs ht ?_ ?_ ?_ ?_ ?_ rfl rfl rfl rfl rfl rfl⟩
  · simp only [addEdge, hs, ht]
    rfl
  · intro u
    exact (data?_modifyLinks _).trans (data?_modifyLinks _)
  · rw [hlinks, if_neg hst, if_pos rfl]
    exact linkSet_append (h.nodup s) (h.key_iff.not.mpr hkey) e
  · rw [hlinks, if_pos rfl, if_neg (Ne.symm hst)]
    exact linkSet_append (h.nodup t) hkey' e
  · intro u hus hut
    rw [hlinks, if_neg hut, if_neg hus]
  · simp [hcounted, modifyLinks]

theorem Consistent.edgeCount_pos (h : g.Consistent) (he : g.edgeKind? s t = some e) :
    1 ≤ g.edgeCount := by
  have hs := h.contains_left he
  have hdeg := h.sum_degrees hs
  have hlen : 0 < (g.linksAt s).length := List.length_pos_of_mem (h.edgeKind?_iff.mp he)
  rw [← h.edgeCount_eq] at hdeg
  omega

theorem removeEdge_edgeSet (h : g.Consistent) (he : g.edgeKind? s t = some e) :
    ∃ g', g.removeEdge s t = .ok g' ∧ EdgeSet g s t none g' := by
  have hst := h.ne_of_edgeKind? he
  have hpos := h.edgeCount_pos he
  have hsub : natSub g.edgeCount 1 = .ok (g.edgeCount - 1) := natSub_eq_ok.mpr ⟨hpos, rfl⟩
  set counted : Diagram := { g with edgeCount := g.edgeCount - 1 } with hcounted
  have hlinks : ∀ u, ((counted.eraseHalf s t).eraseHalf t s).linksAt u =
      if u = t then eraseLink (if u = s then eraseLink (g.linksAt u) t else g.linksAt u) s
      else if u = s then eraseLink (g.linksAt u) t else g.linksAt u := by
    intro u
    rw [eraseHalf, linksAt_modifyLinks _ (.inr (eraseLink_nil s)), eraseHalf,
      linksAt_modifyLinks _ (.inr (eraseLink_nil t))]
    rfl
  have hkey : t ∈ (g.linksAt s).map Prod.fst := h.key_iff.mpr ⟨e, he⟩
  refine ⟨(counted.eraseHalf s t).eraseHalf t s, ?_,
    h.edgeSet 1 0 hst (h.contains_left he) (h.contains_far he) ?_ ?_ ?_ ?_ ?_ rfl rfl ?_ rfl rfl
      rfl⟩
  · rw [removeEdge, hsub]
    rfl
  · intro u
    exact (data?_modifyLinks _).trans (data?_modifyLinks _)
  · rw [hlinks, if_neg hst, if_pos rfl]
    exact linkSet_erase (h.nodup s) hkey
  · rw [hlinks, if_pos rfl, if_neg (Ne.symm hst)]
    exact linkSet_erase (h.nodup t) (h.key_comm.mp hkey)
  · intro u hus hut
    rw [hlinks, if_neg hut, if_neg hus]
  · simp [hcounted, eraseHalf, modifyLinks]
  · change g.edgeCount - 1 + 1 = g.edgeCount + 0
    omega

theorem setHalfKind_eq (h : ((g.linksAt s).map Prod.fst).Nodup)
    (ht : t ∈ (g.linksAt s).map Prod.fst) (e : EdgeKind) :
    g.setHalfKind s t e = .ok (g.modifyLinks s (setLink · t e)) := by
  obtain ⟨l, hl, -⟩ := List.mem_map.mp ht
  have hs : g.contains s := contains_of_mem_linksAt hl
  obtain ⟨x, hx⟩ := contains_iff.mp hs
  have hlinks := linksAt_of_vertex? hx
  cases hi : (g.linksAt s).findIdx? (·.1 == t) with
  | none => exact absurd ht (findIdx?_key_eq_none.mp hi)
  | some i =>
      have hset := set_findIdx?_eq_setLink (e := e) h hi
      rw [setHalfKind, links_of_contains hs]
      simp only [bind, Except.bind, hi, pure, Except.pure, Except.ok.injEq]
      -- both changes agree on the one list they touch
      simp only [modifyLinks, modifyVertex]
      congr 1
      refine Array.ext_getElem? fun j => ?_
      rw [Array.getElem?_modify, Array.getElem?_modify]
      split
      · rename_i hj
        subst hj
        rw [vertex?_eq_some.mp hx]
        simp only [Option.map_some, Option.some.injEq, Vertex.mk.injEq, true_and]
        rw [← hlinks]
        exact hset
      · rfl

theorem linksAt_modifyLinks_setLink :
    (g.modifyLinks s (setLink · t e)).linksAt u =
      if u = s then setLink (g.linksAt u) t e else g.linksAt u :=
  linksAt_modifyLinks (setLink · t e) (.inr rfl)

theorem setEdgeKind_edgeSet (h : g.Consistent) {f : EdgeKind} (he : g.edgeKind? s t = some f)
    (e : EdgeKind) : ∃ g', g.setEdgeKind s t e = .ok g' ∧ EdgeSet g s t (some e) g' := by
  have hst := h.ne_of_edgeKind? he
  have hkey : t ∈ (g.linksAt s).map Prod.fst := h.key_iff.mpr ⟨f, he⟩
  have hkey' := h.key_comm.mp hkey
  set half := g.modifyLinks s (setLink · t e) with hhalf
  have hfar : half.linksAt t = g.linksAt t := by
    rw [hhalf, linksAt_modifyLinks_setLink, if_neg (Ne.symm hst)]
  have hlinks : ∀ u, (half.modifyLinks t (setLink · s e)).linksAt u =
      if u = t then setLink (if u = s then setLink (g.linksAt u) t e else g.linksAt u) s e
      else if u = s then setLink (g.linksAt u) t e else g.linksAt u := by
    intro u
    rw [linksAt_modifyLinks_setLink, hhalf, linksAt_modifyLinks_setLink]
  refine ⟨half.modifyLinks t (setLink · s e), ?_,
    h.edgeSet 0 0 hst (h.contains_left he) (h.contains_far he) ?_ ?_ ?_ ?_ ?_ rfl rfl rfl rfl rfl
      rfl⟩
  · rw [setEdgeKind, setHalfKind_eq (h.nodup s) hkey]
    exact setHalfKind_eq (hfar ▸ h.nodup t) (hfar ▸ hkey') e
  · intro u
    exact (data?_modifyLinks _).trans (data?_modifyLinks _)
  · rw [hlinks, if_neg hst, if_pos rfl]
    exact linkSet_setLink (h.nodup s) hkey e
  · rw [hlinks, if_pos rfl, if_neg (Ne.symm hst)]
    exact linkSet_setLink (h.nodup t) hkey' e
  · intro u hus hut
    rw [hlinks, if_neg hut, if_neg hus]
  · simp [hhalf, modifyLinks]

theorem toggleEdge_edgeSet (h : g.Consistent) (he : g.edgeKind? s t = some e) :
    ∃ g', g.toggleEdge s t = .ok g' ∧ EdgeSet g s t (some e.flip) g' := by
  obtain ⟨g', hg', hset⟩ := setEdgeKind_edgeSet h he e.flip
  refine ⟨g', ?_, hset⟩
  have hkind : g.edgeKind s t = .ok e := by simp only [edgeKind, he]
  rw [toggleEdge, hkind]
  exact hg'

end ZX.Diagram
