import Mathlib
import ZX.Proofs.Drawing.Extension
import ZX.Proofs.Drawing.Network

/-!
# Drawing gates

`Draws g a b A g'` says that `g'` is `g` with `a` gates on one qubit and `b` controlled gates behind
it: its map is that of `g` followed by the operator `A`. For other weights of the spiders the operator
is another one, but it still is one that gates can perform. Every basic gate draws its own operator,
and so does every list of gates.

Drawing only adds. A gate on one qubit adds a vertex and an edge, and a controlled gate adds two
vertices, one for each of its wires, and three edges, two behind its spiders and one between them, and
a factor `sqrt(2)`. A swap exchanges two ends of wires and gives them new lines. Between two gates the
ends of qubit `q` lie on line `q`.
-/
namespace ZX

open Finset Function State

namespace Diagram

variable {g g' g'' : Diagram} {q q₁ q₂ s t u v v₁ v₂ out : ℕ} {k : VertexKind} {e wire : EdgeKind}
  {p : Phase} {ω : ℕ → ℂ} {x : ℕ → Bool} {a b a' b' : ℕ} {A B : State → State}

/-- A well-formed diagram without wires between its outputs. -/
structure Drawn (g : Diagram) : Prop extends g.WellFormed where
  apart : ∀ s ∈ g.outputs, ∀ t ∈ g.outputs, g.edgeKind? s t = none

/-- The ends of qubit `q` lie on line `q`. -/
structure Ruled (g : Diagram) : Prop where
  input_line : ∀ {q v}, g.inputs[q]? = some v → g.line? v = some (Float.ofNat q)
  output_line : ∀ {q v}, g.outputs[q]? = some v → g.line? v = some (Float.ofNat q)

/-- `g'` is `g` with `a` gates on one qubit and `b` controlled gates behind it, which act by `A`. -/
structure Draws (g : Diagram) (a b : ℕ) (A : State → State) (g' : Diagram) : Prop where
  drawn : g'.Drawn
  inputs_eq : g'.inputs = g.inputs
  length_outputs : g'.outputs.length = g.outputs.length
  scalar_eq : g'.scalar = ⟨g.scalar.sqrt2Pow + b, g.scalar.phase⟩
  bounded : g.scalar.sqrt2Pow < 2 ^ 31 → g'.scalar.sqrt2Pow < 2 ^ 31
  vertexCount_eq : g'.vertexCount = g.vertexCount + (a + 2 * b)
  edgeCount_eq : g'.edgeCount = g.edgeCount + (a + 3 * b)
  size_le : g.slots.size ≤ 2 ^ 57 → g'.slots.size ≤ 2 ^ 57
  ruled : g.Ruled → g'.Ruled
  image_turn : ∀ x, g'.image g'.turn x = A (g.image g.turn x)
  exists_local : ∀ ω : ℕ → ℂ, (∀ v, ‖ω v‖ = 1) →
    ∃ B, Local (List.range g.outputs.length) B ∧ ∀ x, g'.image ω x = B (g.image ω x)

/-- The gates need one vertex more than the slots hold, or a larger exponent than its word does. -/
def Exceeds (g : Diagram) (a b : ℕ) (f : Fault) : Prop :=
  f = .overflow ∧ 2 ^ 31 ≤ g.scalar.sqrt2Pow + b ∨
    f = .tooLarge ∧ 2 ^ 57 < g.vertexCount + (a + 2 * b)

/-! ## Coordinates -/

/-- The same diagram up to the coordinates of its vertices. -/
structure Alike (g g' : Diagram) : Prop where
  consistent : g'.Consistent
  kind?_eq : ∀ u, g'.kind? u = g.kind? u
  phase?_eq : ∀ u, g'.phase? u = g.phase? u
  linksAt_eq : ∀ u, g'.linksAt u = g.linksAt u
  inputs_eq : g'.inputs = g.inputs
  outputs_eq : g'.outputs = g.outputs
  scalar_eq : g'.scalar = g.scalar
  vertexCount_eq : g'.vertexCount = g.vertexCount
  edgeCount_eq : g'.edgeCount = g.edgeCount
  size_eq : g'.slots.size = g.slots.size

namespace Alike

theorem trans (h : Alike g g') (h' : Alike g' g'') : Alike g g'' where
  consistent := h'.consistent
  kind?_eq u := (h'.kind?_eq u).trans (h.kind?_eq u)
  phase?_eq u := (h'.phase?_eq u).trans (h.phase?_eq u)
  linksAt_eq u := (h'.linksAt_eq u).trans (h.linksAt_eq u)
  inputs_eq := h'.inputs_eq.trans h.inputs_eq
  outputs_eq := h'.outputs_eq.trans h.outputs_eq
  scalar_eq := h'.scalar_eq.trans h.scalar_eq
  vertexCount_eq := h'.vertexCount_eq.trans h.vertexCount_eq
  edgeCount_eq := h'.edgeCount_eq.trans h.edgeCount_eq
  size_eq := h'.size_eq.trans h.size_eq

theorem edgeKind?_eq (h : Alike g g') (s t : ℕ) : g'.edgeKind? s t = g.edgeKind? s t :=
  edgeKind?_eq_of_linksAt (h.linksAt_eq s) t

theorem contains_eq (h : Alike g g') (u : ℕ) : g'.contains u = g.contains u := by
  rw [contains_eq_kind?_isSome, contains_eq_kind?_isSome, h.kind?_eq]

theorem support_eq (h : Alike g g') : g'.support = g.support := by
  ext u
  rw [mem_support, mem_support, h.contains_eq]

theorem spiders_eq (h : Alike g g') : g'.spiders = g.spiders := by
  ext u
  rw [mem_spiders, mem_spiders, h.contains_eq, h.kind?_eq]

theorem turn_eq (h : Alike g g') : g'.turn = g.turn := by
  funext u
  rw [turn, turn, h.kind?_eq, h.phase?_eq]

theorem wire?_eq (h : Alike g g') (s t : ℕ) : g'.wire? s t = g.wire? s t := by
  unfold wire? tinted isRed
  rw [h.edgeKind?_eq, h.kind?_eq, h.kind?_eq]

theorem mass_eq (h : Alike g g') (V : Finset ℕ) (ω : ℕ → ℂ) :
    g'.mass V (g'.restrain ω) = g.mass V (g.restrain ω) := by
  funext a
  refine mass_congr (by rw [h.scalar_eq]) (fun s _ t _ => h.wire?_eq s t) (fun u _ => ?_)
    fun _ _ => rfl
  rw [restrain, restrain, h.kind?_eq]

theorem image_eq (h : Alike g g') (ω : ℕ → ℂ) (x : ℕ → Bool) : g'.image ω x = g.image ω x := by
  rw [image, image, h.spiders_eq, h.inputs_eq, h.outputs_eq, h.support_eq, h.mass_eq]

theorem wellFormed (h : Alike g g') (hg : g.WellFormed) : g'.WellFormed := by
  refine hg.transport h.consistent h.inputs_eq h.outputs_eq (fun v => by rw [h.kind?_eq])
    (fun v _ => h.phase?_eq v) fun b t e _ hb => ⟨t, e, fun u => ?_⟩
  rw [h.edgeKind?_eq, hb u]

theorem drawn (h : Alike g g') (hg : g.Drawn) : g'.Drawn where
  toWellFormed := h.wellFormed hg.toWellFormed
  apart := by
    rw [h.outputs_eq]
    intro s hs t ht
    rw [h.edgeKind?_eq, hg.apart s hs t ht]

end Alike

/-! ## Gates behind gates -/

namespace Draws

theorem refl (hg : g.Drawn) : Draws g 0 0 id g where
  drawn := hg
  inputs_eq := rfl
  length_outputs := rfl
  scalar_eq := by simp
  bounded h := h
  vertexCount_eq := rfl
  edgeCount_eq := rfl
  size_le h := h
  ruled h := h
  image_turn _ := rfl
  exists_local _ _ := ⟨id, .id, fun _ => rfl⟩

theorem trans (h : Draws g a b A g') (h' : Draws g' a' b' B g'') :
    Draws g (a + a') (b + b') (fun ψ => B (A ψ)) g'' where
  drawn := h'.drawn
  inputs_eq := h'.inputs_eq.trans h.inputs_eq
  length_outputs := h'.length_outputs.trans h.length_outputs
  scalar_eq := by
    rw [h'.scalar_eq, h.scalar_eq]
    push_cast
    rw [add_assoc]
  bounded hlt := h'.bounded (h.bounded hlt)
  vertexCount_eq := by
    rw [h'.vertexCount_eq, h.vertexCount_eq]
    ring
  edgeCount_eq := by
    rw [h'.edgeCount_eq, h.edgeCount_eq]
    ring
  size_le hle := h'.size_le (h.size_le hle)
  ruled hr := h'.ruled (h.ruled hr)
  image_turn x := by rw [h'.image_turn, h.image_turn]
  exists_local ω hω := by
    obtain ⟨C, hC, himage⟩ := h.exists_local ω hω
    obtain ⟨C', hC', himage'⟩ := h'.exists_local ω hω
    rw [h.length_outputs] at hC'
    exact ⟨fun ψ => C' (C ψ), hC'.comp hC, fun x => by rw [himage', himage]⟩

theorem congr (h : Draws g a b A g') (hA : ∀ ψ, A ψ = B ψ) : Draws g a b B g' :=
  (funext hA : A = B) ▸ h

end Draws

theorem alike_setData {d d' : VertexData} (hg : g.Consistent) (hd : g.data? u = some d)
    (hkind : d'.kind = d.kind) (hphase : d'.phase = d.phase) : Alike g (g.setData u d') where
  consistent := hg.setData d'
  kind?_eq _ := kind?_setData hd hkind
  phase?_eq v := by
    rw [phase?_setData d' hd]
    split
    case isTrue hv => rw [hv, phase?, hd, hphase, Option.map_some]
    case isFalse => rfl
  linksAt_eq _ := linksAt_setData d'
  inputs_eq := rfl
  outputs_eq := rfl
  scalar_eq := rfl
  vertexCount_eq := rfl
  edgeCount_eq := rfl
  size_eq := size_modifyVertex _

theorem line?_setData {d : VertexData} (d' : VertexData) (hd : g.data? u = some d) (v : ℕ) :
    (g.setData u d').line? v = if v = u then some d'.qubit else g.line? v := by
  rw [line?, data?_setData d' (contains_of_data? hd)]
  split <;> rfl

theorem setColumn_alike (hg : g.Consistent) (hu : g.contains u) (c : Float) :
    ∃ g', g.setColumn u c = .ok g' ∧ Alike g g' ∧ ∀ v, g'.line? v = g.line? v := by
  obtain ⟨d, hd⟩ := contains_iff_data?.mp hu
  refine ⟨_, setColumn_eq hd c, alike_setData hg hd rfl rfl, fun v => ?_⟩
  rw [line?_setData _ hd]
  split
  case isTrue hv => rw [hv, line?, hd, Option.map_some]
  case isFalse => rfl

theorem setQubit_alike (hg : g.Consistent) (hu : g.contains u) (c : Float) :
    ∃ g', g.setQubit u c = .ok g' ∧ Alike g g' ∧
      ∀ v, g'.line? v = if v = u then some c else g.line? v := by
  obtain ⟨d, hd⟩ := contains_iff_data?.mp hu
  exact ⟨_, setQubit_eq hd c, alike_setData hg hd rfl rfl, line?_setData _ hd⟩

theorem alignColumns_alike {o₁ o₂ : ℕ} (hg : g.Consistent) (hv₁ : g.contains v₁)
    (hv₂ : g.contains v₂) (ho₁ : g.outputs[q₁]? = some o₁) (ho₂ : g.outputs[q₂]? = some o₂)
    (hc₁ : g.contains o₁) (hc₂ : g.contains o₂) :
    ∃ g', g.alignColumns v₁ v₂ q₁ q₂ = .ok g' ∧ Alike g g' ∧ ∀ v, g'.line? v = g.line? v := by
  obtain ⟨x₁, hx₁⟩ := exists_column hc₁
  obtain ⟨x₂, hx₂⟩ := exists_column hc₂
  set c := laterColumn x₁ x₂
  obtain ⟨g₁, hok₁, h₁, hl₁⟩ := setColumn_alike hg hv₁ (c - 1)
  obtain ⟨g₂, hok₂, h₂, hl₂⟩ := setColumn_alike h₁.consistent ((h₁.contains_eq v₂).trans hv₂) (c - 1)
  have h₁₂ := h₁.trans h₂
  obtain ⟨g₃, hok₃, h₃, hl₃⟩ := setColumn_alike h₂.consistent ((h₁₂.contains_eq o₁).trans hc₁) c
  have h₁₃ := h₁₂.trans h₃
  obtain ⟨g₄, hok₄, h₄, hl₄⟩ := setColumn_alike h₃.consistent ((h₁₃.contains_eq o₂).trans hc₂) c
  refine ⟨g₄, ?_, h₁₃.trans h₄, fun v => by rw [hl₄, hl₃, hl₂, hl₁]⟩
  rw [alignColumns, at?_eq_ok.mpr ho₁, at?_eq_ok.mpr ho₂]
  show (do
    let column := laterColumn (← g.column o₁) (← g.column o₂)
    let g ← g.setColumn v₁ (column - 1)
    let g ← g.setColumn v₂ (column - 1)
    let g ← g.setColumn o₁ column
    g.setColumn o₂ column) = _
  rw [hx₁, hx₂]
  show (do
    let g ← g.setColumn v₁ (c - 1)
    let g ← g.setColumn v₂ (c - 1)
    let g ← g.setColumn o₁ c
    g.setColumn o₂ c) = _
  rw [hok₁]
  show (do
    let g ← g₁.setColumn v₂ (c - 1)
    let g ← g.setColumn o₁ c
    g.setColumn o₂ c) = _
  rw [hok₂]
  show (do
    let g ← g₂.setColumn o₁ c
    g.setColumn o₂ c) = _
  rw [hok₃]
  exact hok₄

/-! ## Gates on one qubit -/

theorem Extended.drawn (h : Extended g q k wire p v out g') (hg : g.Drawn)
    (hk : k ≠ .boundary) : g'.Drawn where
  toWellFormed := h.wellFormed hg.toWellFormed hk
  apart := by
    have hwf := hg.toWellFormed
    obtain ⟨hnodup, -, -⟩ := hwf.held h.held
    have hvout := h.ne_out (contains_of_kind? (h.kind?_held hwf))
    -- the fresh output hangs on the spider, the others had no edge between them before
    have hmem : ∀ {u}, u ∈ g'.outputs → u ≠ v ∧ (u = out ∨ u ∈ g.outputs) := by
      intro u hu
      rw [h.outputs_eq, mem_set_iff hnodup h.held] at hu
      rcases hu with rfl | ⟨hu, huv⟩
      · exact ⟨hvout.symm, .inl rfl⟩
      · exact ⟨huv, .inr hu⟩
    intro s hs t ht
    obtain ⟨hsv, hs⟩ := hmem hs
    obtain ⟨htv, ht⟩ := hmem ht
    rcases hs with rfl | hs
    · rw [h.hangsOn_out hwf, if_neg htv]
    · rcases ht with rfl | ht
      · rw [h.consistent.edgeKind?_comm, h.hangsOn_out hwf, if_neg hsv]
      · rw [h.edgeKind?_eq, if_neg (by simp [IsPair, hsv, htv]), if_neg (by simp [hsv, htv]),
          hg.apart s hs t ht]

/-- The fresh output lies on the line of its qubit. -/
theorem Extended.ruled (h : Extended g q k wire p v out g') (hg : g.WellFormed) (hr : g.Ruled) :
    g'.Ruled := by
  have hold : ∀ {u x}, u ∈ g.inputs ++ g.outputs → g.line? u = some x → g'.line? u = some x := by
    intro u x hu hx
    rwa [h.line?_eq, if_neg (h.ne_out (contains_of_kind? (hg.mem_ends.mp hu)))]
  constructor
  · intro q' u hu
    rw [h.inputs_eq] at hu
    exact hold (List.mem_append_left _ (List.mem_of_getElem? hu)) (hr.input_line hu)
  · intro q' u hu
    rw [h.outputs_eq, List.getElem?_set] at hu
    split at hu
    case isTrue hq =>
      split at hu
      case isTrue =>
        rw [← Option.some.inj hu, h.line?_eq, if_pos rfl, hq]
      case isFalse => cases hu
    case isFalse => exact hold (List.mem_append_right _ (List.mem_of_getElem? hu)) (hr.output_line hu)

theorem Extended.draws (h : Extended g q k wire p v out g') (hdrawn : g.Drawn)
    (hk : k ≠ .boundary) :
    Draws g 1 0 (fun ψ => cross (EdgeKind.plain.tint (k = .x)) q
      (rotate p.unit q (cross (wire.tint (k = .x)) q ψ))) g' := by
  have hg := hdrawn.toWellFormed
  have hq : q ∈ List.range g.outputs.length :=
    List.mem_range.mpr (List.getElem?_eq_some_iff.mp h.held).1
  constructor
  case drawn => exact h.drawn hdrawn hk
  case inputs_eq => exact h.inputs_eq
  case length_outputs => rw [h.outputs_eq, List.length_set]
  case scalar_eq =>
    rw [h.scalar_eq]
    simp
  case bounded =>
    rw [h.scalar_eq]
    exact id
  case vertexCount_eq => exact h.vertexCount_eq
  case edgeCount_eq => exact h.edgeCount_eq
  case size_le => exact h.size_le
  case ruled => exact h.ruled hg
  case image_turn =>
    intro x
    rw [h.image_eq hg hk, h.turn_held hg hk, image_congr fun u hu => h.turn_eq hg hu]
  case exists_local =>
    intro ω hω
    exact ⟨_, (local_cross hq).comp ((local_rotate (hω v) hq).comp (local_cross hq)),
      fun x => h.image_eq hg hk ω x⟩

/-! ## Gates on two qubits -/

/-- The spiders of two extended wires with a Hadamard between them, once all is seen as green, and
with one more factor `sqrt(2)`. -/
structure Joined (g : Diagram) (v₁ v₂ : ℕ) (g' : Diagram) : Prop where
  drawn : g'.Drawn
  support_eq : g'.support = g.support
  spiders_eq : g'.spiders = g.spiders
  turn_eq : g'.turn = g.turn
  inputs_eq : g'.inputs = g.inputs
  outputs_eq : g'.outputs = g.outputs
  scalar_eq : g'.scalar = ⟨g.scalar.sqrt2Pow + 1, g.scalar.phase⟩
  vertexCount_eq : g'.vertexCount = g.vertexCount
  edgeCount_eq : g'.edgeCount = g.edgeCount + 1
  size_eq : g'.slots.size = g.slots.size
  line?_eq : ∀ u, g'.line? u = g.line? u
  mass_eq : ∀ ω, g'.mass g'.support (g'.restrain ω) =
    weigh (fun a => sign (a v₁ && a v₂)) (g.mass g.support (g.restrain ω))

theorem EdgeSet.wellFormed (h : EdgeSet g s t (some e) g') (hg : g.WellFormed)
    (hs : g.kind? s ≠ some .boundary) (ht : g.kind? t ≠ some .boundary) : g'.WellFormed := by
  refine hg.transport h.consistent h.inputs_eq h.outputs_eq (fun v => by rw [h.recast.kind?_eq])
    (fun v _ => h.phase?_eq v) fun b u f hb hbu => ⟨u, f, h.consistent.hangsOn_iff.mpr ?_⟩
  have hbs : b ≠ s := by
    rintro rfl
    exact hs hb
  have hbt : b ≠ t := by
    rintro rfl
    exact ht hb
  rw [h.linksAt_eq b hbs hbt]
  exact hg.toConsistent.hangsOn_iff.mp hbu

/-- One more edge and one more factor `sqrt(2)`. -/
theorem EdgeSet.joined (h : EdgeSet g v₁ v₂ (some e) g') (hframe : Relinked v₁ v₂ 0 1 g g')
    (hdrawn : g.Drawn) (h₁ : v₁ ∈ g.spiders) (h₂ : v₂ ∈ g.spiders) (hne : v₁ ≠ v₂)
    (hnone : g.edgeKind? v₁ v₂ = none) (htint : g.tinted v₁ v₂ e = .hadamard) :
    Joined g v₁ v₂ { g' with scalar := ⟨g.scalar.sqrt2Pow + 1, g.scalar.phase⟩ } := by
  set g₂ : Diagram := { g' with scalar := ⟨g.scalar.sqrt2Pow + 1, g.scalar.phase⟩ } with hg₂
  have hsupport : g'.support = g.support := by
    ext u
    rw [mem_support, mem_support, h.contains_eq]
  have hg := hdrawn.toWellFormed
  have hwf := h.wellFormed hg (mem_spiders.mp h₁).2 (mem_spiders.mp h₂).2
  have hcons : g₂.Consistent := h.consistent.congr (fun _ => rfl) (fun _ => rfl) rfl rfl rfl rfl
  constructor
  case drawn =>
    refine ⟨⟨hcons, hwf.mem_ends, hwf.nodup_ends, hwf.boundary_phase, hwf.boundary_degree⟩, ?_⟩
    have hnot : ∀ {v}, v ∈ g.outputs → v ∉ g.spiders := fun hv hc =>
      (mem_spiders.mp hc).2 (hg.kind?_output hv)
    intro s hs t ht
    change s ∈ g'.outputs at hs
    change t ∈ g'.outputs at ht
    rw [h.outputs_eq] at hs ht
    have hpair : ¬IsPair v₁ v₂ s t := by
      rintro (⟨rfl, -⟩ | ⟨rfl, -⟩)
      · exact hnot hs h₁
      · exact hnot hs h₂
    show g'.edgeKind? s t = none
    rw [h.edgeKind?_eq, if_neg hpair, hdrawn.apart s hs t ht]
  case support_eq => exact hsupport
  case spiders_eq =>
    ext u
    exact h.recast.mem_spiders
  case turn_eq => exact funext h.turn_eq
  case inputs_eq => exact h.inputs_eq
  case outputs_eq => exact h.outputs_eq
  case scalar_eq => rfl
  case vertexCount_eq => exact h.vertexCount_eq
  case edgeCount_eq => exact hframe.edgeCount_eq
  case size_eq => exact hframe.size_eq
  case line?_eq => exact fun u => congrArg (Option.map VertexData.qubit) (h.data?_eq u)
  case mass_eq =>
    intro ω
    have hrestrain : g₂.restrain ω = g.restrain ω := by
      funext u
      rw [restrain, restrain, show g₂.kind? u = g.kind? u from h.recast.kind?_eq u]
    have hvalue : g₂.scalar.value = ((√2 : ℝ) : ℂ) * g'.scalar.value := by
      rw [h.scalar_eq, hg₂, Scalar.value, Scalar.value, zpow_add_one₀ Scalar.sqrt2_ne_zero]
      ring
    funext a
    obtain ⟨R, hR, hR'⟩ := h.exists_mass_eq hg.toConsistent (spiders_subset g h₁)
      (spiders_subset g h₂) hne (g.restrain ω) a
    rw [wire?, hnone, Option.map_none, linkFactor_none, mul_one] at hR
    rw [Option.map_some, htint, linkFactor_some] at hR'
    rw [show g₂.support = g.support from hsupport, hrestrain,
      mass_mul_scalar hvalue fun _ _ => rfl, hR', weigh, ← sqrt2_mul_factor, hR]
    ring

theorem Joined.of_alike (h : Joined g' v₁ v₂ g'') (hlike : Alike g g')
    (hline : ∀ u, g'.line? u = g.line? u) : Joined g v₁ v₂ g'' where
  drawn := h.drawn
  support_eq := h.support_eq.trans hlike.support_eq
  spiders_eq := h.spiders_eq.trans hlike.spiders_eq
  turn_eq := h.turn_eq.trans hlike.turn_eq
  inputs_eq := h.inputs_eq.trans hlike.inputs_eq
  outputs_eq := h.outputs_eq.trans hlike.outputs_eq
  scalar_eq := by rw [h.scalar_eq, hlike.scalar_eq]
  vertexCount_eq := h.vertexCount_eq.trans hlike.vertexCount_eq
  edgeCount_eq := by rw [h.edgeCount_eq, hlike.edgeCount_eq]
  size_eq := h.size_eq.trans hlike.size_eq
  line?_eq u := (h.line?_eq u).trans (hline u)
  mass_eq ω := by rw [h.mass_eq, hlike.support_eq, hlike.mass_eq]

/-- The second wire was there before the first one was extended. -/
theorem Extended.held_other {g₁ : Diagram} (h : Extended g q₁ k wire p v₁ out g₁) (hq : q₁ ≠ q₂)
    (hq₂ : g₁.outputs[q₂]? = some v₂) : g.outputs[q₂]? = some v₂ := by
  rwa [h.outputs_eq, List.getElem?_set_ne hq] at hq₂

theorem Extended.ne_held {g₁ : Diagram} (h : Extended g q₁ k wire p v₁ out g₁) (hg : g.WellFormed)
    (hq : q₁ ≠ q₂) (hq₂ : g.outputs[q₂]? = some v₂) : v₂ ≠ v₁ := by
  rintro rfl
  obtain ⟨hnodup, -, -⟩ := hg.held hq₂
  exact hq ((idxOf_of_getElem? hnodup h.held).symm.trans (idxOf_of_getElem? hnodup hq₂))

/-- The operator of two joined spiders. The factors of the two fresh outputs are taken to the
front, where the outputs are read one after the other. -/
theorem Joined.image_eq {g₁ g₂ : Diagram} {out₁ out₂ : ℕ} (h : Joined g₂ v₁ v₂ g')
    (h₁ : Extended g q₁ .z .plain p v₁ out₁ g₁) (h₂ : Extended g₁ q₂ k .plain p v₂ out₂ g₂)
    (hg : g.WellFormed) (hk : k ≠ .boundary) (hq : q₁ ≠ q₂) (ω : ℕ → ℂ) (x : ℕ → Bool) :
    g'.image ω x = cross (EdgeKind.plain.tint (k = .x)) q₂
      (weigh (fun z => sign (z q₁ && z q₂)) (rotate (ω v₂) q₂
        (cross (EdgeKind.plain.tint (k = .x)) q₂ (rotate (ω v₁) q₁ (g.image ω x))))) := by
  have hz : VertexKind.z ≠ .boundary := by decide
  have hg₁ := h₁.wellFormed hg hz
  set κ := EdgeKind.plain.tint (k = .x)
  have hq₂ := h₁.held_other hq h₂.held
  obtain ⟨hnodup, hin₁, hS₁⟩ := hg.held h₁.held
  obtain ⟨-, hin₂, hS₂⟩ := hg.held hq₂
  have hv₁ := contains_of_kind? (h₁.kind?_held hg)
  have hv₂ : g.contains v₂ = true := contains_of_kind? (hg.kind?_output (List.mem_of_getElem? hq₂))
  have hvv : v₂ ≠ v₁ := h₁.ne_held hg hq hq₂
  have hcontains₁ : ∀ {u}, g.contains u = true → g₁.contains u = true := fun hu =>
    (h₁.contains_iff hg).mpr (.inr hu)
  have hout₁ : out₁ ∉ g.support := fun hc => h₁.ne_out (mem_support.mp hc) rfl
  have hout₂ : out₂ ∉ g.support := fun hc => h₂.ne_out (hcontains₁ (mem_support.mp hc)) rfl
  have hout₁₂ : out₁ ≠ out₂ := h₂.ne_out ((h₁.contains_iff hg).mpr (.inl rfl))
  have hv₁out₁ := h₁.ne_out hv₁
  have hv₂out₁ := h₁.ne_out hv₂
  have hv₁out₂ := h₂.ne_out (hcontains₁ hv₁)
  have hv₂out₂ := h₂.ne_out (hcontains₁ hv₂)
  set M := g.mass g.support (g.restrain ω)
  set K₁ : State := fun a => EdgeKind.plain.factor (a out₁) (a v₁) with hK₁
  set K₂ : State := fun a => κ.factor (a out₂) (a v₂)
  set P : State := weigh (fun a => sign (a v₁ && a v₂))
    (rotate (ω v₂) v₂ (cross κ v₂ (rotate (ω v₁) v₁ M))) with hP
  have hmass₁ : g₁.mass g₁.support (g₁.restrain ω) = weigh K₁ (rotate (ω v₁) v₁ M) := by
    rw [h₁.mass_eq hg hz]
    show weigh K₁ (rotate (ω v₁) v₁ (cross .plain v₁ M)) = _
    rw [cross_plain]
  have hignores : Ignores K₁ v₂ := by
    intro a b
    simp only [hK₁, update_of_ne hv₂out₁.symm, update_of_ne hvv.symm]
  have hmass : g'.mass g'.support (g'.restrain ω) = weigh K₂ (weigh K₁ P) := by
    rw [h.mass_eq, h₂.mass_eq hg₁ hk, hmass₁, cross_weigh hignores]
    rw [rotate, weigh_weigh _ K₁, weigh_weigh _ K₂, weigh_weigh _ K₁]
    rfl
  have hP₁ : ∀ out, v₁ ≠ out → v₂ ≠ out → out ∉ g.support → Ignores P out := by
    intro out h1 h2 hout
    refine Ignores.weigh (fun a b => ?_)
      ((((mass_ignores hout).rotate h1).cross h2).rotate h2)
    rw [update_of_ne h1, update_of_ne h2]
  have hK₁P : Ignores (weigh K₁ P) out₂ := by
    refine Ignores.weigh (fun a b => ?_) (hP₁ out₂ hv₁out₂ hv₂out₂ hout₂)
    simp only [hK₁, update_of_ne hout₁₂, update_of_ne hv₁out₂]
  calc g'.image ω x
      = readout g₂.spiders g₂.inputs g₂.outputs x (weigh K₂ (weigh K₁ P)) := by
        rw [image, h.spiders_eq, h.inputs_eq, h.outputs_eq, hmass]
    _ = cross κ q₂ (readout g₁.spiders g₁.inputs g₁.outputs x (weigh K₁ P)) :=
        h₂.readout_eq hg₁ hk hK₁P x
    _ = cross κ q₂ (cross .plain q₁ (readout g.spiders g.inputs g.outputs x P)) := by
        rw [h₁.readout_eq hg hz (hP₁ out₁ hv₁out₁ hv₂out₁ hout₁)]
    _ = _ := by
        rw [cross_plain, hP, readout_weigh hnodup h₁.held hq₂ hin₁ hin₂ hS₁ hS₂
            (fun c d => sign (c && d)), readout_rotate hnodup hq₂ hin₂ hS₂,
          readout_cross hnodup hq₂ hin₂ hS₂, readout_rotate hnodup h₁.held hin₁ hS₁]
        rfl

theorem Joined.draws {g₁ g₂ : Diagram} {out₁ out₂ : ℕ} (h : Joined g₂ v₁ v₂ g')
    (h₁ : Extended g q₁ .z .plain Phase.zero v₁ out₁ g₁)
    (h₂ : Extended g₁ q₂ k .plain Phase.zero v₂ out₂ g₂)
    (hg : g.WellFormed) (hk : k ≠ .boundary) (hq : q₁ ≠ q₂)
    (hbound : g.scalar.sqrt2Pow + 1 < 2 ^ 31) :
    Draws g 0 1 (fun ψ => cross (EdgeKind.plain.tint (k = .x)) q₂
      (weigh (fun z => sign (z q₁ && z q₂)) (cross (EdgeKind.plain.tint (k = .x)) q₂ ψ))) g' := by
  have hz : VertexKind.z ≠ .boundary := by decide
  have hg₁ := h₁.wellFormed hg hz
  have hq₂ := h₁.held_other hq h₂.held
  have hrange : ∀ {q v}, g.outputs[q]? = some v → q ∈ List.range g.outputs.length := fun hv =>
    List.mem_range.mpr (List.getElem?_eq_some_iff.mp hv).1
  have himage := h.image_eq h₁ h₂ hg hk hq
  constructor
  case drawn => exact h.drawn
  case inputs_eq => rw [h.inputs_eq, h₂.inputs_eq, h₁.inputs_eq]
  case length_outputs =>
    rw [h.outputs_eq, h₂.outputs_eq, h₁.outputs_eq, List.length_set, List.length_set]
  case scalar_eq =>
    rw [h.scalar_eq, h₂.scalar_eq, h₁.scalar_eq]
    simp
  case bounded =>
    rw [h.scalar_eq, h₂.scalar_eq, h₁.scalar_eq]
    exact fun _ => hbound
  case vertexCount_eq => rw [h.vertexCount_eq, h₂.vertexCount_eq, h₁.vertexCount_eq]
  case edgeCount_eq => rw [h.edgeCount_eq, h₂.edgeCount_eq, h₁.edgeCount_eq]
  case size_le => exact fun hle => h.size_eq.trans_le (h₂.size_le (h₁.size_le hle))
  case ruled =>
    intro hr
    obtain ⟨hin, hout⟩ := h₂.ruled hg₁ (h₁.ruled hg hr)
    refine ⟨fun {q v} hv => ?_, fun {q v} hv => ?_⟩
    · rw [h.line?_eq]
      exact hin (h.inputs_eq ▸ hv)
    · rw [h.line?_eq]
      exact hout (h.outputs_eq ▸ hv)
  case image_turn =>
    intro x
    have hspider₁ : v₁ ∈ g₁.spiders := by
      rw [h₁.spiders_eq hg hz]
      exact mem_insert_self _ _
    have hturn₁ : g₂.turn v₁ = 1 := by
      rw [h₂.turn_eq hg₁ hspider₁, h₁.turn_held hg hz, Phase.unit_zero]
    have hturn₂ : g₂.turn v₂ = 1 := by rw [h₂.turn_held hg₁ hk, Phase.unit_zero]
    have hturn : ∀ u ∈ g.spiders, g₂.turn u = g.turn u := by
      intro u hu
      rw [h₂.turn_eq hg₁ (h₁.spiders_eq hg hz ▸ mem_insert_of_mem hu), h₁.turn_eq hg hu]
    have hid : ∀ q (ψ : State), rotate 1 q ψ = ψ := by
      intro q ψ
      funext z
      rw [rotate, weigh, spin_one, one_mul]
    rw [himage, h.turn_eq, hturn₁, hturn₂, hid, hid, image_congr hturn]
  case exists_local =>
    intro ω hω
    have hsign : Local (List.range g.outputs.length)
        (weigh fun z => sign (z q₁ && z q₂)) := by
      refine .weigh (fun z z' hzz => ?_) fun z => norm_sign _
      rw [hzz q₁ (hrange h₁.held), hzz q₂ (hrange hq₂)]
    exact ⟨_, (local_cross (hrange hq₂)).comp (hsign.comp ((local_rotate (hω v₂) (hrange hq₂)).comp
      ((local_cross (hrange hq₂)).comp (local_rotate (hω v₁) (hrange h₁.held))))),
      fun x => himage ω x⟩

/-- The two spiders had no edge between them when they were outputs. -/
theorem Extended.apart {g₁ g₂ : Diagram} {out₁ out₂ : ℕ} (hg : g.Drawn)
    (h₁ : Extended g q₁ .z .plain Phase.zero v₁ out₁ g₁)
    (h₂ : Extended g₁ q₂ k .plain Phase.zero v₂ out₂ g₂) (hq : q₁ ≠ q₂) :
    g₂.edgeKind? v₁ v₂ = none := by
  have hwf := hg.toWellFormed
  have hold₂ := h₁.held_other hq h₂.held
  have hvv : v₂ ≠ v₁ := h₁.ne_held hwf hq hold₂
  have hv₁ := contains_of_kind? (h₁.kind?_held hwf)
  have hv₁out₁ := h₁.ne_out hv₁
  have hv₂out₁ := h₁.ne_out (contains_of_kind? (hg.kind?_output (List.mem_of_getElem? hold₂)))
  have hv₁out₂ := h₂.ne_out ((h₁.contains_iff hwf).mpr (.inr hv₁))
  rw [h₂.edgeKind?_eq, if_neg (by simp [IsPair, hvv.symm, hv₁out₂]), if_pos (.inr rfl),
    h₁.edgeKind?_eq, if_neg (by simp [IsPair, hv₁out₁, hv₂out₁]), if_pos (.inl rfl),
    hg.apart v₁ (List.mem_of_getElem? h₁.held) v₂ (List.mem_of_getElem? hold₂)]
  rfl

/-- Joining the spiders of two extended wires fails only where the exponent leaves its word. -/
theorem Extended.join_draws {g₁ g₂ : Diagram} {out₁ out₂ : ℕ} (hg : g.Drawn)
    (h₁ : Extended g q₁ .z .plain Phase.zero v₁ out₁ g₁)
    (h₂ : Extended g₁ q₂ k .plain Phase.zero v₂ out₂ g₂) (hq : q₁ ≠ q₂) (hk : k ≠ .boundary)
    (hcolour : e.tint (k = .x) = .hadamard) (hpow : 0 ≤ g.scalar.sqrt2Pow) :
    Ends (do
        let g ← g₂.alignColumns v₁ v₂ q₁ q₂
        let g ← g.addEdge v₁ v₂ e
        return ([v₁, v₂], ← g.mulSqrt2Pow 1))
      (fun r => Draws g 0 1 (fun ψ => cross (EdgeKind.plain.tint (k = .x)) q₂
        (weigh (fun z => sign (z q₁ && z q₂))
          (cross (EdgeKind.plain.tint (k = .x)) q₂ ψ))) r.2)
      (fun f => f = .overflow ∧ 2 ^ 31 ≤ g.scalar.sqrt2Pow + 1) := by
  have hz : VertexKind.z ≠ .boundary := by decide
  have hwf := hg.toWellFormed
  have hg₁ := h₁.drawn hg hz
  have hwf₁ := hg₁.toWellFormed
  have hg₂ := h₂.drawn hg₁ hk
  have hvv : v₂ ≠ v₁ := h₁.ne_held hwf hq (h₁.held_other hq h₂.held)
  have hv₁ := contains_of_kind? (h₁.kind?_held hwf)
  have hv₁out₁ := h₁.ne_out hv₁
  have hv₁out₂ := h₂.ne_out ((h₁.contains_iff hwf).mpr (.inr hv₁))
  have hspider₁ : v₁ ∈ g₂.spiders := by
    rw [h₂.spiders_eq hwf₁ hk, h₁.spiders_eq hwf hz]
    exact mem_insert_of_mem (mem_insert_self _ _)
  have hspider₂ : v₂ ∈ g₂.spiders := by
    rw [h₂.spiders_eq hwf₁ hk]
    exact mem_insert_self _ _
  have hheld : ∀ {q v : ℕ}, g₁.outputs[q]? = some v →
      ∃ o, g₂.outputs[q]? = some o ∧ g₂.contains o := by
    intro q v hv
    have hlen : q < g₂.outputs.length := by
      rw [h₂.outputs_eq, List.length_set]
      exact (List.getElem?_eq_some_iff.mp hv).1
    exact ⟨_, List.getElem?_eq_getElem hlen, contains_of_kind?
      (hg₂.kind?_output (List.getElem_mem hlen))⟩
  have hfresh₁ : g₁.outputs[q₁]? = some out₁ := by
    rw [h₁.outputs_eq, List.getElem?_set_self (List.getElem?_eq_some_iff.mp h₁.held).1]
  obtain ⟨o₁, ho₁, hc₁⟩ := hheld hfresh₁
  obtain ⟨o₂, ho₂, hc₂⟩ := hheld h₂.held
  obtain ⟨g₃, hok₃, h₃, hline₃⟩ := alignColumns_alike hg₂.toConsistent (mem_spiders.mp hspider₁).1
    (mem_spiders.mp hspider₂).1 ho₁ ho₂ hc₁ hc₂
  have hnone : g₃.edgeKind? v₁ v₂ = none := (h₃.edgeKind?_eq v₁ v₂).trans (h₁.apart hg h₂ hq)
  obtain ⟨g₄, hok₄, h₄⟩ := addEdge_edgeSet h₃.consistent hvv.symm
    ((h₃.contains_eq v₁).trans (mem_spiders.mp hspider₁).1)
    ((h₃.contains_eq v₂).trans (mem_spiders.mp hspider₂).1) hnone e
  have htint : g₃.tinted v₁ v₂ e = .hadamard := by
    have hk₁ : g₃.kind? v₁ = some .z := by
      rw [h₃.kind?_eq, h₂.kind?_eq, if_neg hv₁out₂, if_neg hvv.symm, h₁.kind?_eq, if_neg hv₁out₁,
        if_pos rfl]
    have hk₂ : g₃.kind? v₂ = some k := by
      rw [h₃.kind?_eq, h₂.kind?_eq, if_neg (h₂.ne_out (contains_of_kind? (h₂.kind?_held hwf₁))),
        if_pos rfl]
    rw [tinted, isRed, isRed, hk₁, hk₂, ← hcolour]
    simp
  have hjoined := (h₄.joined ((addEdge_relinked g₃ v₁ v₂ e).of_eq_ok hok₄) (h₃.drawn hg₂)
    (h₃.spiders_eq ▸ hspider₁) (h₃.spiders_eq ▸ hspider₂) hvv.symm hnone htint).of_alike h₃ hline₃
  have hscalar : g₄.scalar = g.scalar := by
    rw [h₄.scalar_eq, h₃.scalar_eq, h₂.scalar_eq, h₁.scalar_eq]
  have hrun : (do
      let g ← g₂.alignColumns v₁ v₂ q₁ q₂
      let g ← g.addEdge v₁ v₂ e
      return ([v₁, v₂], ← g.mulSqrt2Pow 1)) = do return ([v₁, v₂], ← g₄.mulSqrt2Pow 1) := by
    simp only [hok₃, hok₄, bind, Except.bind]
  rw [hrun, mulSqrt2Pow, Scalar.mulSqrt2Pow, hscalar, int32]
  split
  case isTrue hrange =>
    refine Ends.ok_iff.mpr ?_
    rw [h₃.scalar_eq, h₂.scalar_eq, h₁.scalar_eq] at hjoined
    exact hjoined.draws h₁ h₂ hwf hk hq hrange.2
  case isFalse hrange => exact Ends.error_iff.mpr ⟨rfl, by omega⟩

theorem addPair_draws (hg : g.Drawn) (hq₁ : q₁ < g.outputs.length)
    (hq₂ : q₂ < g.outputs.length) (hq : q₁ ≠ q₂) (hk : k ≠ .boundary)
    (hcolour : e.tint (k = .x) = .hadamard) (hpow : 0 ≤ g.scalar.sqrt2Pow) :
    Ends (g.addPair [q₁, q₂] k e)
      (fun r => Draws g 0 1 (fun ψ => cross (EdgeKind.plain.tint (k = .x)) q₂
        (weigh (fun z => sign (z q₁ && z q₂))
          (cross (EdgeKind.plain.tint (k = .x)) q₂ ψ))) r.2)
      (g.Exceeds 0 1) := by
  have hz : VertexKind.z ≠ .boundary := by decide
  have hwf := hg.toWellFormed
  refine ((extendWire_extended hwf (List.getElem?_eq_getElem hq₁) .z .plain Phase.zero).mono
    (fun _ h => h) fun f hf => .inr ⟨hf.1, by omega⟩).bind ?_
  rintro ⟨_, g₁⟩ ⟨rfl, out₁, h₁⟩
  have hlength₁ : q₂ < g₁.outputs.length := by rwa [h₁.outputs_eq, List.length_set]
  have hcount₁ := h₁.vertexCount_eq
  refine ((extendWire_extended (h₁.wellFormed hwf hz) (List.getElem?_eq_getElem hlength₁) k .plain
    Phase.zero).mono (fun _ h => h) fun f hf => .inr ⟨hf.1, by omega⟩).bind ?_
  rintro ⟨_, g₂⟩ ⟨rfl, out₂, h₂⟩
  exact (h₁.join_draws hg h₂ hq hk hcolour hpow).mono (fun _ h => h) fun f hf => .inl hf

/-! ## Swaps -/

theorem getElem?_exchange {L : List ℕ} {i o₁ o₂ : ℕ} (h₁ : L[q₁]? = some o₁)
    (h₂ : L[q₂]? = some o₂) :
    ((L.set q₁ o₂).set q₂ o₁)[Equiv.swap q₁ q₂ i]? = L[i]? := by
  have hlt₁ := (List.getElem?_eq_some_iff.mp h₁).1
  have hlt₂ := (List.getElem?_eq_some_iff.mp h₂).1
  rw [List.getElem?_set, List.getElem?_set, List.length_set, Equiv.swap_apply_def]
  grind

theorem pins_exchange {inputs L : List ℕ} {o₁ o₂ : ℕ} {z : ℕ → Bool}
    (hL : ((L.set q₁ o₂).set q₂ o₁).Nodup) (hperm : ((L.set q₁ o₂).set q₂ o₁).Perm L)
    (h₁ : L[q₁]? = some o₁) (h₂ : L[q₂]? = some o₂) :
    pins inputs ((L.set q₁ o₂).set q₂ o₁) x z = pins inputs L x (exchange q₁ q₂ z) := by
  funext v
  unfold pins
  split
  case isTrue => rfl
  case isFalse =>
    rw [exchange_apply]
    by_cases hv : v ∈ L
    · have hi : L[L.idxOf v]? = some v := by
        have hlt := List.idxOf_lt_length_of_mem hv
        rw [List.getElem?_eq_getElem hlt, List.getElem_idxOf]
      rw [idxOf_of_getElem? hL ((getElem?_exchange h₁ h₂).trans hi)]
    · have hlt₁ := (List.getElem?_eq_some_iff.mp h₁).1
      have hlt₂ := (List.getElem?_eq_some_iff.mp h₂).1
      rw [List.idxOf_eq_length hv, List.idxOf_eq_length (mt hperm.mem_iff.mp hv), hperm.length_eq,
        Equiv.swap_apply_of_ne_of_ne (by omega) (by omega)]

/-- The two ends change their lines, and no other output does. -/
theorem swap_output_line {g₁ g₂ : Diagram} {o₁ o₂ : ℕ} (hnodup : g.outputs.Nodup) (hr : g.Ruled)
    (ho₁ : g.outputs[q₁]? = some o₁) (ho₂ : g.outputs[q₂]? = some o₂) (hq : q₁ ≠ q₂)
    (hline₁ : ∀ u, g₁.line? u = if u = o₂ then some (Float.ofNat q₁) else g.line? u)
    (hline₂ : ∀ u, g₂.line? u = if u = o₁ then some (Float.ofNat q₂) else g₁.line? u)
    (hv : ((g.outputs.set q₁ o₂).set q₂ o₁)[q]? = some v) : g₂.line? v = some (Float.ofNat q) := by
  have hposition : ∀ {q q' v : ℕ}, g.outputs[q]? = some v → g.outputs[q']? = some v → q = q' :=
    fun hv hv' => (idxOf_of_getElem? hnodup hv).symm.trans (idxOf_of_getElem? hnodup hv')
  have hlt₁ := (List.getElem?_eq_some_iff.mp ho₁).1
  have hlt₂ := (List.getElem?_eq_some_iff.mp ho₂).1
  by_cases hqq₂ : q = q₂
  · rw [hqq₂, List.getElem?_set_self (by rwa [List.length_set])] at hv
    rw [← Option.some.inj hv, hline₂, if_pos rfl, hqq₂]
  · rw [List.getElem?_set_ne (Ne.symm hqq₂)] at hv
    by_cases hqq₁ : q = q₁
    · rw [hqq₁, List.getElem?_set_self hlt₁] at hv
      have hne : o₂ ≠ o₁ := by
        rintro rfl
        exact hq (hposition ho₁ ho₂)
      rw [← Option.some.inj hv, hline₂, if_neg hne, hline₁, if_pos rfl, hqq₁]
    · rw [List.getElem?_set_ne (Ne.symm hqq₁)] at hv
      have hv₁ : v ≠ o₁ := by
        rintro rfl
        exact hqq₁ (hposition hv ho₁)
      have hv₂ : v ≠ o₂ := by
        rintro rfl
        exact hqq₂ (hposition hv ho₂)
      rw [hline₂, if_neg hv₁, hline₁, if_neg hv₂]
      exact hr.output_line hv

theorem swapOutputs_draws (hg : g.Drawn) (hq₁ : q₁ < g.outputs.length)
    (hq₂ : q₂ < g.outputs.length) (hq : q₁ ≠ q₂) :
    ∃ g', g.swapOutputs q₁ q₂ = .ok g' ∧ Draws g 0 0 (shift (exchange q₁ q₂)) g' := by
  obtain ⟨o₁, ho₁⟩ : ∃ o, g.outputs[q₁]? = some o := ⟨_, List.getElem?_eq_getElem hq₁⟩
  obtain ⟨o₂, ho₂⟩ : ∃ o, g.outputs[q₂]? = some o := ⟨_, List.getElem?_eq_getElem hq₂⟩
  have hcons := hg.toConsistent
  have hcontains : ∀ {o}, o ∈ g.outputs → g.contains o = true := fun ho =>
    contains_of_kind? (hg.kind?_output ho)
  have hnodup := List.nodup_append.mp hg.nodup_ends
  set L := (g.outputs.set q₁ o₂).set q₂ o₁ with hL
  have hperm : L.Perm g.outputs := by
    have h := List.set_set_perm hq₁ hq₂
    rwa [← Option.some.inj ((List.getElem?_eq_getElem hq₁).symm.trans ho₁).symm,
      ← Option.some.inj ((List.getElem?_eq_getElem hq₂).symm.trans ho₂).symm] at h
  have hLnodup : L.Nodup := hperm.nodup_iff.mpr hnodup.2.1
  set g₀ : Diagram := { g with outputs := L } with hg₀
  have hcons₀ : g₀.Consistent := hcons.congr (fun _ => rfl) (fun _ => rfl) rfl rfl rfl rfl
  have hends : (g₀.inputs ++ g₀.outputs).Perm (g.inputs ++ g.outputs) := hperm.append_left g.inputs
  have hdrawn : g₀.Drawn := by
    refine ⟨⟨hcons₀, ?_, hends.nodup_iff.mpr hg.nodup_ends, hg.boundary_phase,
      hg.boundary_degree⟩, ?_⟩
    · intro v
      rw [hends.mem_iff]
      exact hg.mem_ends
    · intro s hs t ht
      exact hg.apart s (hperm.mem_iff.mp hs) t (hperm.mem_iff.mp ht)
  have himage : ∀ ω x, g₀.image ω x = shift (exchange q₁ q₂) (g.image ω x) := by
    intro ω x
    funext z
    show sumOver g.spiders _ (pins g.inputs L x z) = _
    rw [pins_exchange hLnodup hperm ho₁ ho₂]
    rfl
  obtain ⟨g₁, hok₁, h₁, hline₁⟩ := setQubit_alike hcons₀ (hcontains (List.mem_of_getElem? ho₂))
    (Float.ofNat q₁)
  obtain ⟨g₂, hok₂, h₂, hline₂⟩ := setQubit_alike h₁.consistent
    ((h₁.contains_eq o₁).trans (hcontains (List.mem_of_getElem? ho₁))) (Float.ofNat q₂)
  have hlike := h₁.trans h₂
  refine ⟨g₂, ?_, ?_⟩
  · rw [swapOutputs, ho₁, ho₂]
    show (do
      let g ← g₀.setQubit o₂ (Float.ofNat q₁)
      g.setQubit o₁ (Float.ofNat q₂)) = _
    rw [hok₁]
    exact hok₂
  constructor
  case drawn => exact hlike.drawn hdrawn
  case inputs_eq => exact hlike.inputs_eq
  case length_outputs =>
    rw [hlike.outputs_eq]
    exact hperm.length_eq
  case scalar_eq =>
    rw [hlike.scalar_eq]
    simp [hg₀]
  case vertexCount_eq => exact hlike.vertexCount_eq
  case edgeCount_eq => exact hlike.edgeCount_eq
  case size_le => exact hlike.size_eq.trans_le
  case bounded =>
    rw [hlike.scalar_eq]
    exact id
  case ruled =>
    intro hr
    refine ⟨fun {q v} hv => ?_, fun {q v} hv => ?_⟩
    · rw [hlike.inputs_eq] at hv
      have hapart := hnodup.2.2 v (List.mem_of_getElem? hv)
      rw [hline₂, if_neg (hapart o₁ (List.mem_of_getElem? ho₁)), hline₁,
        if_neg (hapart o₂ (List.mem_of_getElem? ho₂))]
      exact hr.input_line hv
    · rw [hlike.outputs_eq] at hv
      exact swap_output_line hnodup.2.1 hr ho₁ ho₂ hq hline₁ hline₂ hv
  case image_turn =>
    intro x
    rw [hlike.turn_eq, hlike.image_eq]
    exact himage _ x
  case exists_local =>
    intro ω _
    have hmem : ∀ {q}, q < g.outputs.length → q ∈ List.range g.outputs.length :=
      List.mem_range.mpr
    have hswap := Gate.act_local (Gate.plain .swap [q₁, q₂]) (by simp [Gate.plain, hq])
    refine ⟨_, hswap.mono ?_, fun x => (hlike.image_eq ω x).trans (himage ω x)⟩
    intro q hq
    rcases List.mem_pair.mp hq with rfl | rfl
    · exact hmem hq₁
    · exact hmem hq₂

end Diagram

end ZX
