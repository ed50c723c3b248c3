import Mathlib
import ZX.Diagram.Connect
import ZX.Proofs.Meaning

/-!
# What an operation leaves alone

One statement for each operation of the arena, which needs no consistency. An operation on an edge
changes the lists of its two ends and the number of edges. A setter changes the data of its vertex.
The removal of a vertex leaves the data of the others. The relations that other modules keep along a
run, such as `Inherits` here, follow from these statements.

`connect` is made of them. What it changes is confined to the edge itself, the phase of its source
and the exponent of the scalar, and it fails with an overflow only where one of these two words has
no room.
-/
namespace ZX

/-- A fault other than an overflow has nothing to explain. -/
theorem Ends.imp_of_ne_overflow {α : Type} {x : Except Fault α} {P : α → Prop} {R : Prop}
    (h : Ends x P (· ≠ .overflow)) : Ends x P fun f => f = .overflow → R :=
  h.mono (fun _ ha => ha) fun _ hf hover => absurd hover hf

theorem natSub_ne_overflow (a b : ℕ) :
    Ends (natSub a b) (fun m => natSub a b = .ok m) (· ≠ .overflow) := by
  refine ⟨fun _ hm => hm, fun e he => ?_⟩
  unfold natSub at he
  split at he
  all_goals cases he
  simp

namespace Diagram

variable {g g' g'' : Diagram} {s t u v n m n' m' : ℕ} {e : EdgeKind} {d d' : VertexData}
  {f : VertexData → VertexData}

/-! ## Readings -/

theorem data_ne_overflow (g : Diagram) (v : ℕ) :
    Ends (g.data v) (fun d => g.data v = .ok d) (· ≠ .overflow) := by
  refine ⟨fun d hd => hd, fun e he => ?_⟩
  unfold data at he
  split at he
  all_goals cases he
  all_goals simp

theorem kind_ne_overflow (g : Diagram) (v : ℕ) :
    Ends (g.kind v) (fun _ => True) (· ≠ .overflow) :=
  (data_ne_overflow g v).bind fun _ _ => Ends.pure_iff.mpr trivial

theorem phase_ne_overflow (g : Diagram) (v : ℕ) :
    Ends (g.phase v) (fun p => g.phase v = .ok p) (· ≠ .overflow) :=
  Ends.with_result (P := fun _ => True) ((data_ne_overflow g v).bind fun _ _ =>
    Ends.pure_iff.mpr trivial) |>.imp fun _ h => h.1

theorem linksAt_of_links {links : List Link} (h : g.links v = .ok links) : g.linksAt v = links := by
  unfold Diagram.links at h
  split at h
  · rename_i x hx
    rw [linksAt_of_vertex? hx, Except.ok.inj h]
  · cases h

theorem links_ne_overflow (g : Diagram) (v : ℕ) :
    Ends (g.links v) (fun links => g.links v = .ok links) (· ≠ .overflow) := by
  refine ⟨fun _ hlinks => hlinks, fun e he => ?_⟩
  unfold links at he
  split at he
  all_goals cases he
  simp

theorem edgeKind_ne_overflow (g : Diagram) (s t : ℕ) :
    Ends (g.edgeKind s t) (fun _ => True) (· ≠ .overflow) := by
  unfold edgeKind
  split <;> simp

/-! ## Operations on an edge -/

/-- Only the links of `s` and `t` have changed, and the number of edges, from which `n` have been
taken and to which `m` have come. -/
structure Relinked (s t n m : ℕ) (g g' : Diagram) : Prop where
  data?_eq : ∀ u, g'.data? u = g.data? u
  linksAt_eq : ∀ u, u ≠ s → u ≠ t → g'.linksAt u = g.linksAt u
  inputs_eq : g'.inputs = g.inputs
  outputs_eq : g'.outputs = g.outputs
  scalar_eq : g'.scalar = g.scalar
  size_eq : g'.slots.size = g.slots.size
  holes_eq : g'.holes = g.holes
  vertexCount_eq : g'.vertexCount = g.vertexCount
  edgeCount_eq : g'.edgeCount + n = g.edgeCount + m

theorem Relinked.trans (h : Relinked s t n m g g') (h' : Relinked s t n' m' g' g'') :
    Relinked s t (n + n') (m + m') g g'' where
  data?_eq u := (h'.data?_eq u).trans (h.data?_eq u)
  linksAt_eq u hs ht := (h'.linksAt_eq u hs ht).trans (h.linksAt_eq u hs ht)
  inputs_eq := h'.inputs_eq.trans h.inputs_eq
  outputs_eq := h'.outputs_eq.trans h.outputs_eq
  scalar_eq := h'.scalar_eq.trans h.scalar_eq
  size_eq := h'.size_eq.trans h.size_eq
  holes_eq := h'.holes_eq.trans h.holes_eq
  vertexCount_eq := h'.vertexCount_eq.trans h.vertexCount_eq
  edgeCount_eq := by
    have := h.edgeCount_eq
    have := h'.edgeCount_eq
    omega

theorem relinked_edgeCount (s t : ℕ) {j : ℕ} (hj : j + n = g.edgeCount + m) :
    Relinked s t n m g { g with edgeCount := j } :=
  ⟨fun _ => rfl, fun _ _ _ => rfl, rfl, rfl, rfl, rfl, rfl, rfl, hj⟩

theorem relinked_modifyLinks (hv : v = s ∨ v = t) (f : List Link → List Link) :
    Relinked s t 0 0 g (g.modifyLinks v f) where
  data?_eq _ := data?_modifyLinks f
  linksAt_eq u hs ht := by
    have hu : u ≠ v := by
      rcases hv with rfl | rfl
      · exact hs
      · exact ht
    rw [linksAt, linksAt, modifyLinks, vertex?_modifyVertex, if_neg hu]
  inputs_eq := rfl
  outputs_eq := rfl
  scalar_eq := rfl
  size_eq := size_modifyVertex _
  holes_eq := rfl
  vertexCount_eq := rfl
  edgeCount_eq := rfl

theorem addEdge_relinked (g : Diagram) (s t : ℕ) (e : EdgeKind) :
    Ends (g.addEdge s t e) (Relinked s t 0 1 g) (· ≠ .overflow) := by
  unfold addEdge
  split
  · simp
  · split
    · simp
    · exact Ends.ok_iff.mpr (((relinked_edgeCount (n := 0) (m := 1) s t rfl).trans
        (relinked_modifyLinks (.inl rfl) _)).trans (relinked_modifyLinks (.inr rfl) _))

theorem removeEdge_relinked (g : Diagram) (s t : ℕ) :
    Ends (g.removeEdge s t) (Relinked s t 1 0 g) (· ≠ .overflow) := by
  refine (natSub_ne_overflow g.edgeCount 1).bind fun j hj => Ends.pure_iff.mpr ?_
  obtain ⟨hpos, rfl⟩ := natSub_eq_ok.mp hj
  exact ((relinked_edgeCount s t (Nat.sub_add_cancel hpos)).trans
    (relinked_modifyLinks (.inl rfl) _)).trans (relinked_modifyLinks (.inr rfl) _)

/-- Edges between `s` and `t` have got other kinds and kept their places. -/
structure Rekinded (s t : ℕ) (g g' : Diagram) : Prop extends Relinked s t 0 0 g g' where
  keys_eq : ∀ u, (g'.linksAt u).map Prod.fst = (g.linksAt u).map Prod.fst

theorem Rekinded.trans (h : Rekinded s t g g') (h' : Rekinded s t g' g'') : Rekinded s t g g'' where
  toRelinked := h.toRelinked.trans h'.toRelinked
  keys_eq u := (h'.keys_eq u).trans (h.keys_eq u)

theorem setHalfKind_rekinded (hv : v = s ∨ v = t) (w : ℕ) (e : EdgeKind) :
    Ends (g.setHalfKind v w e) (Rekinded s t g) (· ≠ .overflow) := by
  refine (links_ne_overflow g v).bind fun links hlinks => ?_
  split
  · rename_i i hi
    obtain ⟨hlt, hkey, -⟩ := List.findIdx?_eq_some_iff_getElem.mp hi
    have hkeys : (links.set i (w, e)).map Prod.fst = links.map Prod.fst := by
      have hlt' : i < (links.map Prod.fst).length := by rwa [List.length_map]
      have hsame : (links.map Prod.fst)[i] = w := by rw [List.getElem_map, beq_iff_eq.mp hkey]
      rw [List.map_set, ← hsame, List.set_getElem_self]
    refine Ends.pure_iff.mpr ⟨relinked_modifyLinks hv _, fun u => ?_⟩
    rw [linksAt_modifyLinks _ (.inr rfl)]
    split
    · rename_i hu
      rw [hu, linksAt_of_links hlinks, hkeys]
    · rfl
  · simp

theorem setEdgeKind_rekinded (g : Diagram) (s t : ℕ) (e : EdgeKind) :
    Ends (g.setEdgeKind s t e) (Rekinded s t g) (· ≠ .overflow) :=
  (setHalfKind_rekinded (.inl rfl) t e).bind fun _ h =>
    (setHalfKind_rekinded (.inr rfl) s e).imp fun _ => h.trans

theorem toggleEdge_rekinded (g : Diagram) (s t : ℕ) :
    Ends (g.toggleEdge s t) (Rekinded s t g) (· ≠ .overflow) :=
  (edgeKind_ne_overflow g s t).bind fun _ _ => setEdgeKind_rekinded g s t _

/-! ## Operations on a vertex -/

/-- The vertex `v` was there, and `f` has been applied to its data. -/
def Edited (v : ℕ) (f : VertexData → VertexData) (g g' : Diagram) : Prop :=
  ∃ d, g.data? v = some d ∧ g' = g.setData v (f d)

theorem edit_edited (g : Diagram) (v : ℕ) (f : VertexData → VertexData) :
    Ends (do return g.setData v (f (← g.data v))) (Edited v f g) (· ≠ .overflow) :=
  (data_ne_overflow g v).bind fun d hd => Ends.pure_iff.mpr ⟨d, data_eq_ok.mp hd, rfl⟩

theorem setKind_edited (g : Diagram) (v : ℕ) (k : VertexKind) :
    Ends (g.setKind v k) (Edited v ({ · with kind := k }) g) (· ≠ .overflow) := edit_edited g v _

theorem setQubit_edited (g : Diagram) (v : ℕ) (x : Float) :
    Ends (g.setQubit v x) (Edited v ({ · with qubit := x }) g) (· ≠ .overflow) := edit_edited g v _

theorem setColumn_edited (g : Diagram) (v : ℕ) (x : Float) :
    Ends (g.setColumn v x) (Edited v ({ · with column := x }) g) (· ≠ .overflow) := edit_edited g v _

/-- The vertex `v` is gone. The data of the others and the scalar have stayed. -/
structure Cleared (v : ℕ) (g g' : Diagram) : Prop where
  data?_eq : ∀ u, g'.data? u = if u = v then none else g.data? u
  scalar_eq : g'.scalar = g.scalar

theorem removeVertex_cleared (g : Diagram) (v : ℕ) :
    Ends (g.removeVertex v) (Cleared v g) (· ≠ .overflow) := by
  unfold removeVertex
  split
  · simp
  · simp
  · refine (natSub_ne_overflow _ _).bind fun n _ => Ends.foldlM_mem (I := Cleared v g) ?_ ⟨?_, rfl⟩
    · intro l _ g' h
      refine (natSub_ne_overflow _ _).bind fun m _ => Ends.pure_iff.mpr ⟨fun u => ?_, h.scalar_eq⟩
      rw [eraseHalf, data?_modifyLinks]
      exact h.data?_eq u
    · intro u
      simp only [data?, vertex?, Array.getElem?_setIfInBounds]
      by_cases huv : u = v
      · subst huv
        rw [if_pos rfl, if_pos rfl]
        split <;> rfl
      · rw [if_neg huv, if_neg fun hc => huv hc.symm]

theorem mulSqrt2Pow_ends (g : Diagram) (k : ℤ) :
    Ends (g.mulSqrt2Pow k)
      (fun g' => g' = { g with scalar := ⟨g.scalar.sqrt2Pow + k, g.scalar.phase⟩ })
      fun f => int32 (g.scalar.sqrt2Pow + k) = .error f := by
  unfold mulSqrt2Pow Scalar.mulSqrt2Pow
  cases hk : int32 (g.scalar.sqrt2Pow + k) with
  | error f => exact Ends.error_iff.mpr rfl
  | ok j =>
      obtain ⟨-, rfl⟩ := int32_eq_ok.mp hk
      exact Ends.ok_iff.mpr rfl

/-! ## Operations that leave phases alone -/

/-- The vertices that are left have their kinds and phases, and the scalar has its phase. -/
structure Inherits (g g' : Diagram) : Prop where
  data : ∀ v d', g'.data? v = some d' →
    ∃ d, g.data? v = some d ∧ d'.kind = d.kind ∧ d'.phase = d.phase
  scalar : g'.scalar.phase = g.scalar.phase

namespace Inherits

theorem of_data?_eq (h : ∀ v, g'.data? v = g.data? v) (hscalar : g'.scalar.phase = g.scalar.phase) :
    Inherits g g' :=
  ⟨fun v d hd => ⟨d, (h v).symm.trans hd, rfl, rfl⟩, hscalar⟩

theorem refl (g : Diagram) : Inherits g g := of_data?_eq (fun _ => rfl) rfl

theorem trans (h : Inherits g g') (h' : Inherits g' g'') : Inherits g g'' := by
  refine ⟨fun v d'' hd'' => ?_, h'.scalar.trans h.scalar⟩
  obtain ⟨d', hd', hkind', hphase'⟩ := h'.data v d'' hd''
  obtain ⟨d, hd, hkind, hphase⟩ := h.data v d' hd'
  exact ⟨d, hd, hkind'.trans hkind, hphase'.trans hphase⟩

end Inherits

theorem Relinked.inherits (h : Relinked s t n m g g') : Inherits g g' :=
  .of_data?_eq h.data?_eq (by rw [h.scalar_eq])

theorem Edited.inherits (h : Edited v f g g') (hkind : ∀ d, (f d).kind = d.kind)
    (hphase : ∀ d, (f d).phase = d.phase) : Inherits g g' := by
  obtain ⟨d, hd, rfl⟩ := h
  refine ⟨fun u d' hu => ?_, rfl⟩
  rw [data?_setData (f d) (contains_of_data? hd)] at hu
  split at hu
  · rename_i huv
    cases hu
    exact ⟨d, huv ▸ hd, hkind d, hphase d⟩
  · exact ⟨d', hu, rfl, rfl⟩

theorem Cleared.inherits (h : Cleared v g g') : Inherits g g' := by
  refine ⟨fun u d hu => ?_, by rw [h.scalar_eq]⟩
  rw [h.data?_eq] at hu
  split at hu
  · cases hu
  · exact ⟨d, hu, rfl, rfl⟩

theorem mulSqrt2Pow_inherits (g : Diagram) (k : ℤ) :
    Ends (g.mulSqrt2Pow k) (Inherits g) fun _ => True := by
  refine (mulSqrt2Pow_ends g k).forget.imp ?_
  rintro _ rfl
  exact .of_data?_eq (fun _ => rfl) rfl

/-! ## Adding an edge that may have to be absorbed -/

/-- The links of `s` and `t`, the number of edges, the phase of `s` and the exponent of the scalar
may have changed. -/
structure Confined (s t : ℕ) (g g' : Diagram) : Prop where
  data?_eq : ∀ u, u ≠ s → g'.data? u = g.data? u
  data?_source : (g'.data? s).map ({ · with phase := Phase.zero }) =
    (g.data? s).map ({ · with phase := Phase.zero })
  linksAt_eq : ∀ u, u ≠ s → u ≠ t → g'.linksAt u = g.linksAt u
  inputs_eq : g'.inputs = g.inputs
  outputs_eq : g'.outputs = g.outputs
  scalarPhase_eq : g'.scalar.phase = g.scalar.phase
  size_eq : g'.slots.size = g.slots.size
  holes_eq : g'.holes = g.holes
  vertexCount_eq : g'.vertexCount = g.vertexCount

theorem Confined.phase?_eq (h : Confined s t g g') (hu : u ≠ s) : g'.phase? u = g.phase? u := by
  rw [phase?, phase?, h.data?_eq u hu]

/-- Besides, the phase of `s` has moved by half a turn at most, and the exponent went down by two at
most. -/
structure Absorbed (s t : ℕ) (g g' : Diagram) : Prop extends Confined s t g g' where
  phase_step : ∀ d', g'.data? s = some d' → ∃ d, g.data? s = some d ∧
    (d'.phase = d.phase ∨ d.phase.add Phase.one = .ok d'.phase)
  pow_le : g'.scalar.sqrt2Pow ≤ g.scalar.sqrt2Pow
  le_pow : g.scalar.sqrt2Pow - 2 ≤ g'.scalar.sqrt2Pow

theorem Absorbed.refl (s t : ℕ) (g : Diagram) : Absorbed s t g g where
  toConfined := ⟨fun _ _ => rfl, rfl, fun _ _ _ => rfl, rfl, rfl, rfl, rfl, rfl, rfl⟩
  phase_step d hd := ⟨d, hd, .inl rfl⟩
  pow_le := le_rfl
  le_pow := by omega

/-- What the edge itself becomes does not count. -/
theorem Relinked.absorbed (h : Relinked s t n m g g') (h' : Absorbed s t g' g'') :
    Absorbed s t g g'' where
  data?_eq u hu := (h'.data?_eq u hu).trans (h.data?_eq u)
  data?_source := by rw [h'.data?_source, h.data?_eq]
  linksAt_eq u hs ht := (h'.linksAt_eq u hs ht).trans (h.linksAt_eq u hs ht)
  inputs_eq := h'.inputs_eq.trans h.inputs_eq
  outputs_eq := h'.outputs_eq.trans h.outputs_eq
  scalarPhase_eq := by rw [h'.scalarPhase_eq, h.scalar_eq]
  size_eq := h'.size_eq.trans h.size_eq
  holes_eq := h'.holes_eq.trans h.holes_eq
  vertexCount_eq := h'.vertexCount_eq.trans h.vertexCount_eq
  phase_step d' hd' := by
    obtain ⟨d, hd, hstep⟩ := h'.phase_step d' hd'
    exact ⟨d, (h.data?_eq s).symm.trans hd, hstep⟩
  pow_le := h.scalar_eq ▸ h'.pow_le
  le_pow := h.scalar_eq ▸ h'.le_pow

/-- Half a turn more at `s` does not fit, or one or two powers of the root of two less do not. -/
def Strained (g : Diagram) (s : ℕ) : Prop :=
  (∃ p, g.phase? s = some p ∧ p.add Phase.one = .error .overflow) ∨
    int32 (g.scalar.sqrt2Pow - 1) = .error .overflow ∨
    int32 (g.scalar.sqrt2Pow - 2) = .error .overflow

theorem Relinked.strained (h : Relinked s t n m g g') (hs : g'.Strained s) : g.Strained s := by
  rwa [Strained, phase?, h.data?_eq, h.scalar_eq] at hs

theorem absorbHadamard_absorbed (g : Diagram) (s t : ℕ) :
    Ends (g.absorbHadamard s) (Absorbed s t g) fun f => f = .overflow → g.Strained s := by
  unfold absorbHadamard addToPhase
  refine Ends.bind (P := fun g₁ => ∃ d p, g.data? s = some d ∧ d.phase.add Phase.one = .ok p ∧
    g₁ = g.setData s { d with phase := p }) ?_ ?_
  · refine (data_ne_overflow g s).imp_of_ne_overflow.bind fun d hd => ?_
    have hdata := data_eq_ok.mp hd
    rw [Phase.Arithmetic.words_add]
    cases hp : d.phase.add Phase.one with
    | error f =>
        refine Ends.error_iff.mpr fun hover => .inl ⟨d.phase, phase?_eq_some.mpr ⟨d, hdata, rfl⟩, ?_⟩
        rw [hp, hover]
    | ok p => exact Ends.ok_iff.mpr ⟨d, p, hdata, hp, rfl⟩
  · rintro _ ⟨d, p, hdata, hp, rfl⟩
    have hread : ∀ u, (g.setData s { d with phase := p }).data? u =
        if u = s then some { d with phase := p } else g.data? u := fun u =>
      data?_setData _ (contains_of_data? hdata)
    refine (mulSqrt2Pow_ends _ (-1)).mono ?_ fun f hf hover => .inr (.inl (hover ▸ hf))
    rintro _ rfl
    refine ⟨⟨fun u hu => ?_, ?_, fun u _ _ => linksAt_setData _, rfl, rfl, rfl, size_modifyVertex _,
      rfl, rfl⟩, fun d' hd' => ⟨d, hdata, .inr ?_⟩, ?_, ?_⟩
    · exact (hread u).trans (if_neg hu)
    · refine (congrArg _ ((hread s).trans (if_pos rfl))).trans ?_
      rw [hdata]
      rfl
    · rw [← Option.some.inj (((hread s).trans (if_pos rfl)).symm.trans hd')]
      exact hp
    · show g.scalar.sqrt2Pow + -1 ≤ g.scalar.sqrt2Pow
      omega
    · show g.scalar.sqrt2Pow - 2 ≤ g.scalar.sqrt2Pow + -1
      omega

theorem cancelEdge_absorbed (g : Diagram) (s t : ℕ) :
    Ends (g.cancelEdge s t) (Absorbed s t g) fun f => f = .overflow → g.Strained s := by
  refine (removeEdge_relinked g s t).imp_of_ne_overflow.bind fun g₁ h₁ => ?_
  refine (mulSqrt2Pow_ends g₁ (-2)).mono ?_ fun f hf hover => .inr (.inr ?_)
  · rintro _ rfl
    refine h₁.absorbed ⟨⟨fun _ _ => rfl, rfl, fun _ _ _ => rfl, rfl, rfl, rfl, rfl, rfl, rfl⟩,
      fun d hd => ⟨d, hd, .inl rfl⟩, ?_, le_rfl⟩
    show g₁.scalar.sqrt2Pow + -2 ≤ g₁.scalar.sqrt2Pow
    omega
  · rw [← hover, ← hf, h₁.scalar_eq]
    rfl

theorem mergeEdge_absorbed (g : Diagram) (s t : ℕ) (strong present new : EdgeKind) :
    Ends (g.mergeEdge s t strong present new) (Absorbed s t g)
      fun f => f = .overflow → g.Strained s := by
  unfold mergeEdge
  split
  · split
    · exact Ends.pure_iff.mpr (.refl s t g)
    · exact absorbHadamard_absorbed g s t
  · split
    · refine (setEdgeKind_rekinded g s t strong).imp_of_ne_overflow.bind fun g₁ h₁ => ?_
      exact (absorbHadamard_absorbed g₁ s t).mono (fun _ => h₁.toRelinked.absorbed)
        fun f hf hover => h₁.toRelinked.strained (hf hover)
    · exact cancelEdge_absorbed g s t

theorem connect_absorbed (g : Diagram) (s t : ℕ) (e : EdgeKind) :
    Ends (g.connect s t e) (Absorbed s t g) fun f => f = .overflow → g.Strained s := by
  unfold connect
  refine (kind_ne_overflow g s).imp_of_ne_overflow.bind fun source _ => ?_
  by_cases hst : s = t
  · rw [if_pos hst]
    cases source <;> cases e
    case z.hadamard | x.hadamard => exact absorbHadamard_absorbed g s t
    case z.plain | x.plain => exact Ends.pure_iff.mpr (.refl s t g)
    all_goals exact Ends.throw_iff.mpr (by simp)
  · rw [if_neg hst]
    cases g.edgeKind? s t with
    | none =>
        exact (addEdge_relinked g s t e).imp_of_ne_overflow.imp fun g' h => h.absorbed (.refl s t g')
    | some present =>
        refine (kind_ne_overflow g t).imp_of_ne_overflow.bind fun target _ => ?_
        cases source <;> cases target
        case z.z | x.x | z.x | x.z => exact mergeEdge_absorbed g s t _ present e
        all_goals exact Ends.throw_iff.mpr (by simp)

end Diagram

end ZX
