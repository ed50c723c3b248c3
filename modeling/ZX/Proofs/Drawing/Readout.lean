import Mathlib
import ZX.Proofs.Extraction.Residue
import ZX.Proofs.Rule.Identity
import ZX.Proofs.Unitary

/-!
# Reading the qubits off a diagram

The summand of a diagram is a state whose qubits are the vertices. Summing over the spiders and
reading every qubit at the vertex that holds it gives a state of the qubits. Operators on a vertex
that holds a qubit become operators on the qubit. A new vertex behind such a vertex takes the qubit
over, at the price of the operator of the wire between the two.
-/
namespace ZX

open Finset Function

namespace State

variable {e : EdgeKind} {p q : ℕ} {ψ : State} {f : (ℕ → Bool) → ℂ} {qs : List ℕ}

/-- The operator of a wire: the identity or a Hadamard. -/
noncomputable def cross (e : EdgeKind) (q : ℕ) (ψ : State) : State := fun z =>
  e.factor (z q) false * ψ (update z q false) + e.factor (z q) true * ψ (update z q true)

@[simp] theorem cross_plain (q : ℕ) (ψ : State) : cross .plain q ψ = ψ := by
  funext z
  have hz : update z q (z q) = z := update_eq_self q z
  cases hb : z q <;> rw [hb] at hz <;> simp [cross, EdgeKind.factor, hb, hz]

theorem local_cross (hq : q ∈ qs) : Local qs (cross e q) := by
  cases e with
  | plain =>
      rw [funext (cross_plain q)]
      exact .id
  | hadamard => exact .hadamard hq

/-- A function of the bits that does not look at one of them. -/
def Ignores (f : State) (q : ℕ) : Prop := ∀ z b, f (update z q b) = f z

theorem Ignores.weigh (hf : Ignores f q) (hψ : Ignores ψ q) : Ignores (weigh f ψ) q := by
  intro z b
  rw [State.weigh, hf, hψ]
  rfl

theorem Ignores.cross (hψ : Ignores ψ q) (hpq : p ≠ q) : Ignores (cross e p ψ) q := by
  intro z b
  simp only [State.cross, update_of_ne hpq, update_comm hpq.symm, hψ _ b]

theorem Ignores.rotate {ω : ℂ} (hψ : Ignores ψ q) (hpq : p ≠ q) : Ignores (rotate ω p ψ) q :=
  Ignores.weigh (fun z b => by rw [update_of_ne hpq]) hψ

theorem cross_weigh (hf : Ignores f q) : cross e q (weigh f ψ) = weigh f (cross e q ψ) := by
  funext z
  simp only [cross, weigh, hf _ _]
  ring

theorem weigh_weigh (f f' : (ℕ → Bool) → ℂ) (ψ : State) :
    weigh f (weigh f' ψ) = weigh f' (weigh f ψ) := by
  funext z
  simp only [weigh]
  ring

end State

open State

/-! ## Readouts -/

/-- The state of the qubits that a state of the vertices gives: the vertices in `S` are summed over,
the inputs read `x`, and the `q`-th vertex of `A` is read by qubit `q`. -/
noncomputable def readout (S : Finset ℕ) (inputs A : List ℕ) (x : ℕ → Bool) (φ : State) : State :=
  fun z => sumOver S φ (pins inputs A x z)

section Readout

variable {S : Finset ℕ} {inputs A : List ℕ} {x z : ℕ → Bool} {φ : State} {e : EdgeKind}
  {i j q s t v out : ℕ}

theorem pins_update (hA : A.Nodup) (hq : A[q]? = some v) (hv : v ∉ inputs) (b : Bool) :
    pins inputs A x (update z q b) = update (pins inputs A x z) v b := by
  have hlt := (List.getElem?_eq_some_iff.mp hq).1
  funext u
  by_cases hu : u = v
  · rw [hu, pins_held hA hq hv, update_self, update_self]
  · rw [update_of_ne hu]
    refine pins_congr (N := (· = v)) (update_of_ne (by omega) _ _) (fun i w hi hw => ?_) hu
    refine update_of_ne ?_ _ _
    rintro rfl
    exact hw (Option.some.inj (hi.symm.trans hq))

theorem readout_cross (hA : A.Nodup) (hq : A[q]? = some v) (hv : v ∉ inputs) (hvS : v ∉ S) :
    readout S inputs A x (cross e v φ) = cross e q (readout S inputs A x φ) := by
  funext z
  have hsplit : ∀ a, (∀ u, u ∉ S → a u = pins inputs A x z u) → cross e v φ a =
      e.factor (z q) false * φ (update a v false) + e.factor (z q) true * φ (update a v true) := by
    intro a ha
    rw [cross, ha v hvS, pins_held hA hq hv]
  rw [readout, sumOver_congr hsplit, sumOver_add, sumOver_mul_left, sumOver_mul_left,
    sumOver_update hvS, sumOver_update hvS, ← pins_update hA hq hv, ← pins_update hA hq hv]
  rfl

/-- A factor that depends on two vertices that hold qubits. -/
theorem readout_weigh (hA : A.Nodup) (hi : A[i]? = some s) (hj : A[j]? = some t)
    (hs : s ∉ inputs) (ht : t ∉ inputs) (hsS : s ∉ S) (htS : t ∉ S) (f : Bool → Bool → ℂ) :
    readout S inputs A x (weigh (fun a => f (a s) (a t)) φ) =
      weigh (fun z => f (z i) (z j)) (readout S inputs A x φ) := by
  funext z
  have hpull : ∀ a, (∀ u, u ∉ S → a u = pins inputs A x z u) →
      weigh (fun a => f (a s) (a t)) φ a = f (z i) (z j) * φ a := by
    intro a ha
    rw [weigh, ha s hsS, ha t htS, pins_held hA hi hs, pins_held hA hj ht]
  rw [readout, sumOver_congr hpull, sumOver_mul_left]
  rfl

theorem readout_rotate (hA : A.Nodup) (hq : A[q]? = some v) (hv : v ∉ inputs) (hvS : v ∉ S)
    (ω : ℂ) : readout S inputs A x (rotate ω v φ) = rotate ω q (readout S inputs A x φ) :=
  readout_weigh hA hq hq hv hv hvS hvS fun b _ => spin ω b

theorem readout_const (c : ℂ) :
    readout S inputs A x (weigh (fun _ => c) φ) = c • readout S inputs A x φ :=
  funext fun _ => sumOver_mul_left c

/-- The vertex that held the qubit is summed over from now on, and a new vertex holds the qubit. -/
theorem readout_release (hA : A.Nodup) (hq : A[q]? = some v) (hv : v ∉ inputs) (hvS : v ∉ S)
    (hout : out ∉ inputs) (houtA : out ∉ A) (houtS : out ∉ S)
    (hφ : Ignores φ out) :
    readout (insert v S) inputs (A.set q out) x
        (weigh (fun a => e.factor (a out) (a v)) φ) =
      cross e q (readout S inputs A x φ) := by
  have hlt := (List.getElem?_eq_some_iff.mp hq).1
  have hvA : v ∈ A := List.mem_of_getElem? hq
  have hvout : v ≠ out := ne_of_mem_of_not_mem hvA houtA
  have hA' : (A.set q out).Nodup := hA.set houtA
  have hq' : (A.set q out)[q]? = some out := List.getElem?_set_self hlt
  have hback : (A.set q out).set q v = A := by
    obtain ⟨_, rfl⟩ := List.getElem?_eq_some_iff.mp hq
    rw [List.set_set, List.set_getElem_self]
  have hvA' : v ∉ A.set q out := by
    rw [mem_set_iff hA hq]
    tauto
  funext z
  have hbranch : ∀ b, sumOver S (fun a => weigh (fun a => e.factor (a out) (a v)) φ (update a v b))
      (pins inputs (A.set q out) x z) =
        e.factor (z q) b * readout S inputs A x φ (update z q b) := by
    intro b
    have hpull : ∀ a, (∀ u, u ∉ S → a u = pins inputs (A.set q out) x z u) →
        weigh (fun a => e.factor (a out) (a v)) φ (update a v b) =
          e.factor (z q) b * φ (update a v b) := by
      intro a ha
      rw [weigh, update_self, update_of_ne hvout.symm, ha out houtS, pins_held hA' hq' hout]
    rw [sumOver_congr hpull, sumOver_mul_left, sumOver_update hvS, readout]
    congr 1
    refine sumOver_congr_off (N := (· = out)) (fun a a' haa => ?_) fun u hu => ?_
    · rw [← hφ a' (a out)]
      refine congrArg φ (funext fun u => ?_)
      by_cases hu : u = out
      · rw [hu, update_self]
      · rw [update_of_ne hu, haa u hu]
    · rw [update_pins hA' hq' hv hvA' hu, hback]
  rw [readout, sumOver_insert hvS, sumOver_add, hbranch, hbranch]
  rfl

end Readout

/-! ## The image of a basis state -/

namespace Diagram

variable {g : Diagram} {ω ω' : ℕ → ℂ}

/-- The weights `ω` on the spiders, and 1 on the boundaries. -/
def restrain (g : Diagram) (ω : ℕ → ℂ) (v : ℕ) : ℂ :=
  if g.kind? v = some .boundary then 1 else ω v

/-- The state that comes out of the diagram for the input bits `x`, when its spiders have the
weights `ω`. -/
noncomputable def image (g : Diagram) (ω : ℕ → ℂ) (x : ℕ → Bool) : State :=
  readout g.spiders g.inputs g.outputs x (g.mass g.support (g.restrain ω))

theorem mass_ignores {v : ℕ} {V : Finset ℕ} (hv : v ∉ V) : Ignores (g.mass V ω) v := fun _ b =>
  mass_congr rfl (fun _ _ _ _ => rfl) (fun _ _ => rfl) (update_eq_of_mem hv b)

/-- A boundary contributes its edge. -/
theorem mass_update_boundary {b w : ℕ} {e : EdgeKind} (hg : g.Consistent)
    (hb : g.kind? b = some .boundary) (hhang : g.HangsOn b w e) (a : ℕ → Bool) (c : Bool) :
    g.mass g.support (g.restrain ω) (update a b c) =
      (g.tinted b w e).factor c (a w) * g.mass (g.support.erase b) (g.restrain ω) a := by
  have hbw : g.edgeKind? b w = some e := by rw [hhang, if_pos rfl]
  have hw : w ∈ g.support.erase b := mem_erase.mpr
    ⟨(hg.ne_of_edgeKind? hbw).symm, mem_support.mpr (hg.contains_far hbw)⟩
  have hone : g.restrain ω b = 1 := if_pos hb
  conv_lhs => rw [← insert_erase (mem_support.mpr (contains_of_kind? hb))]
  rw [mass_insert_update hg (notMem_erase b _), hone, spin_one, one_mul,
    around_of_single hw fun u _ => hhang u]

/-- The operator of a wire on a boundary becomes part of its edge. -/
theorem cross_mass_boundary {b w : ℕ} {e : EdgeKind} (hg : g.Consistent)
    (hb : g.kind? b = some .boundary) (hhang : g.HangsOn b w e) (κ : EdgeKind) (a : ℕ → Bool)
    (c : Bool) :
    cross κ b (g.mass g.support (g.restrain ω)) (update a b c) =
      (κ.through (g.tinted b w e)).factor c (a w) *
        g.mass (g.support.erase b) (g.restrain ω) a := by
  rw [cross, update_self, update_idem, update_idem, mass_update_boundary hg hb hhang,
    mass_update_boundary hg hb hhang, ← EdgeKind.sum_factor, EdgeKind.factor_comm _ c false,
    EdgeKind.factor_comm _ c true]
  ring

theorem image_congr (h : ∀ v ∈ g.spiders, ω' v = ω v) (x : ℕ → Bool) :
    g.image ω' x = g.image ω x := by
  have hrestrain : ∀ v ∈ g.support, g.restrain ω' v = g.restrain ω v := by
    intro v hv
    unfold restrain
    split
    case isTrue => rfl
    case isFalse hk => exact h v (mem_spiders.mpr ⟨mem_support.mp hv, hk⟩)
  funext z
  exact total_congr hrestrain

theorem image_turn (g : Diagram) (x y : ℕ → Bool) : g.image g.turn x y = g.amplitude x y := by
  refine total_congr fun v _ => ?_
  unfold restrain
  split
  case isTrue hk => exact (turn_of_boundary hk).symm
  case isFalse => rfl

/-- Whatever unit weights its spiders have, the diagram denotes a map that gates can perform. -/
def Rigid (g : Diagram) : Prop := ∀ ω : ℕ → ℂ, (∀ v, ‖ω v‖ = 1) →
  ∃ A, Local (List.range g.outputs.length) A ∧ ∀ x, g.image ω x = A (ket g.outputs.length x)

end Diagram

end ZX
