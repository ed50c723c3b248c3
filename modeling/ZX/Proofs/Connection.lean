import Mathlib
import ZX.Proofs.Absorption
import ZX.Proofs.Arena.Frame

/-!
# One more edge

`connect` adds one edge and absorbs it where the diagram would have a loop or parallel edges. The map
of its result is the sum for the diagram with the factor of one more edge in every summand.
-/
namespace ZX

open Finset Function

namespace Diagram

variable {g g' g'' : Diagram} {s t u v : ℕ} {e : EdgeKind} {V : Finset ℕ}

/-- The sum of all summands with the factor of one more edge between `s` and `t`. -/
noncomputable def totalWithEdge (g : Diagram) (s t : ℕ) (e : EdgeKind) (β : ℕ → Bool) : ℂ :=
  sumOver g.spiders (fun a => g.mass g.support g.turn a * (g.tinted s t e).factor (a s) (a t)) β

theorem Recast.support_eq (h : Recast g g') : g'.support = g.support := by
  ext v
  rw [mem_support, mem_support, h.contains_eq]

theorem Recast.spiders_eq (h : Recast g g') : g'.spiders = g.spiders := by
  ext v
  exact h.mem_spiders

/-- An absorbed factor stands in every summand. -/
theorem Absorbs.total_eq {f : (ℕ → Bool) → ℂ} (h : Absorbs g.support g f g') (β : ℕ → Bool) :
    g'.total g'.turn β = sumOver g.spiders (fun a => g.mass g.support g.turn a * f a) β := by
  obtain ⟨μ, -, hturn, hmass⟩ := h.mass_eq
  rw [total, h.support_eq, h.spiders_eq]
  refine sumOver_congr fun a _ => ?_
  rw [← hmass]
  exact mass_congr rfl (fun _ _ _ _ => rfl) hturn fun _ _ => rfl

/-- The ends of the new edge are spiders where it has to be absorbed. -/
def Connectable (g : Diagram) (s t : ℕ) : Prop :=
  s = t ∨ g.connected s t = true → g.kind? s ≠ some .boundary ∧ g.kind? t ≠ some .boundary

instance (g : Diagram) (s t : ℕ) : Decidable (g.Connectable s t) :=
  inferInstanceAs (Decidable (_ → _))

theorem connect_absorbs_edge (h : g.Consistent) (hs : g.contains s) (ht : g.contains t)
    (hspiders : g.Connectable s t) (e : EdgeKind) :
    Ends (g.connect s t e) (fun g' => Absorbs g.support g
      (fun a => (g.tinted s t e).factor (a s) (a t)) g' ∧
        ∀ a b, ¬IsPair s t a b → g'.edgeKind? a b = g.edgeKind? a b) (· = .overflow) := by
  have hs' := mem_support.mpr hs
  have ht' := mem_support.mpr ht
  by_cases hclash : s = t ∨ g.connected s t = true
  · obtain ⟨k, hk⟩ := exists_kind? hs
    obtain ⟨l, hl⟩ := exists_kind? ht
    obtain ⟨hkb, hlb⟩ := hspiders hclash
    rw [hk, Ne, Option.some_inj] at hkb
    rw [hl, Ne, Option.some_inj] at hlb
    exact connect_absorbs h hk hkb hl hlb hs' ht' e
  · obtain ⟨hst, hfree⟩ := not_or.mp hclash
    have hnone : g.edgeKind? s t = none := Option.not_isSome_iff_eq_none.mp hfree
    obtain ⟨g', hg', hset⟩ := connect_of_none h hst hs ht hnone e
    refine Ends.of_exists_ok ⟨g', hg', hset.absorbs_new h hs' ht' hst hnone, fun a b hab => ?_⟩
    rw [hset.edgeKind?_eq, if_neg hab]

/-- Connecting two vertices changes their edge, the phase of the first and the exponent of the scalar
at most, keeps the diagram simple and multiplies the factor of one more edge into the sum, be it a
loop, a parallel edge or a new one. It fails only where a word runs out. -/
theorem connect_exact (h : g.Consistent) (hs : g.contains s) (ht : g.contains t)
    (hspiders : g.Connectable s t) (e : EdgeKind) :
    (∃ g', g.connect s t e = .ok g' ∧ g'.Consistent ∧ Confined s t g g' ∧
      (∀ a b, ¬IsPair s t a b → g'.edgeKind? a b = g.edgeKind? a b) ∧
      (∀ β, g'.total g'.turn β = g.totalWithEdge s t e β) ∧
      ∀ x y, g'.amplitude x y = g.totalWithEdge s t e (g.ends x y)) ∨
    g.connect s t e = .error .overflow ∧ g.Strained s := by
  obtain ⟨g', hg', habsorbs, hbeside⟩ | hover :=
    (connect_absorbs_edge h hs ht hspiders e).ok_or_error
  · have hconfined := ((connect_absorbed g s t e).of_eq_ok hg').toConfined
    refine .inl ⟨g', hg', habsorbs.consistent, hconfined, hbeside, habsorbs.total_eq,
      fun x y => ?_⟩
    have hends : g'.ends x y = g.ends x y := by
      funext v
      rw [ends, ends, hconfined.inputs_eq, hconfined.outputs_eq]
    rw [amplitude, hends]
    exact habsorbs.total_eq _
  · exact .inr ⟨hover, (connect_absorbed g s t e).2 _ hover rfl⟩

/-- A red and a green spider on a plain edge, between two ends. -/
def lock : Diagram where
  slots := #[
    some ⟨⟨.boundary, Phase.zero, 0, 0⟩, [(1, .plain)]⟩,
    some ⟨⟨.x, Phase.quarter, 0, 1⟩, [(2, .plain), (0, .plain)]⟩,
    some ⟨⟨.z, Phase.eighth, 0, 2⟩, [(3, .hadamard), (1, .plain)]⟩,
    some ⟨⟨.boundary, Phase.zero, 0, 3⟩, [(2, .hadamard)]⟩]
  holes := []
  inputs := [0]
  outputs := [3]
  vertexCount := 4
  edgeCount := 3
  scalar := Scalar.one

theorem connect_exact_lock : lock.Consistent ∧ lock.contains 1 ∧ lock.contains 2 ∧
    lock.Connectable 1 2 ∧ ∃ g', lock.connect 1 2 .hadamard = .ok g' ∧ g'.Consistent ∧
      g'.edgeKind? 1 2 = some .hadamard ∧ g'.phase? 1 = some Phase.negQuarter ∧
      g'.scalar.sqrt2Pow = -1 ∧ ∀ β, g'.total g'.turn β = lock.totalWithEdge 1 2 .hadamard β := by
  have hg : lock.Consistent := by decide +kernel
  have hs : lock.contains 1 := by decide +kernel
  have ht : lock.contains 2 := by decide +kernel
  have hspiders : lock.Connectable 1 2 := by decide +kernel
  have hresult : (lock.connect 1 2 .hadamard).toOption.any fun g' =>
      g'.edgeKind? 1 2 = some .hadamard ∧ g'.phase? 1 = some Phase.negQuarter ∧
        g'.scalar.sqrt2Pow = -1 := by decide +kernel
  obtain ⟨g₁, hg₁, hchanged⟩ := exists_ok_of_any hresult
  obtain ⟨g', hg', hcons, -, -, htotal, -⟩ | ⟨hover, -⟩ := connect_exact hg hs ht hspiders .hadamard
  · cases hg₁.symm.trans hg'
    obtain ⟨hedge, hphase, hpow⟩ := of_decide_eq_true hchanged
    exact ⟨hg, hs, ht, hspiders, g₁, hg₁, hcons, hedge, hphase, hpow, htotal⟩
  · cases hg₁.symm.trans hover

/-- A spider with the least scalar that a word holds. -/
def faint : Diagram where
  slots := #[some ⟨⟨.z, Phase.zero, 0, 0⟩, []⟩]
  holes := []
  inputs := []
  outputs := []
  vertexCount := 1
  edgeCount := 0
  scalar := ⟨-2147483648, Phase.zero⟩

/-- A Hadamard loop takes another factor `1/sqrt(2)`, for which there is no room. -/
theorem connect_overflows_faint : faint.Consistent ∧ faint.contains 0 ∧ faint.Connectable 0 0 ∧
    faint.connect 0 0 .hadamard = .error .overflow := by
  refine ⟨by decide +kernel, by decide +kernel, by decide +kernel, ?_⟩
  rfl

end Diagram

end ZX
