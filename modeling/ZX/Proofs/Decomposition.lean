import Mathlib
import ZX.Proofs.Drawing.Network

/-!
# Circuits over basic gates

Every gate that fits the register is replaced by basic gates that act as it does. The replacements
of a circuit stand one behind the other, so the circuit of basic gates has the map of the circuit,
without a phase of its own, and a circuit of basic gates is its own decomposition.
-/
namespace ZX

open State

namespace Gate

variable {gate : Gate} {k : ℕ}

/-- The basic gates of a gate, or none if it lacks qubits. -/
def pieces (gate : Gate) : List Gate := gate.basicGates.toOption.getD []

theorem pieces_eq {gates : List Gate} (h : gate.basicGates = .ok gates) : gate.pieces = gates := by
  rw [pieces, h]
  rfl

theorem pieces_of_isBasic (h : gate.IsBasic) : gate.pieces = [gate] :=
  pieces_eq (basicGates_of_isBasic h)

theorem basicGates_eq (h : gate.Fits k) : gate.basicGates = .ok gate.pieces := by
  obtain ⟨gates, hok, -⟩ := exists_basicGates h
  rw [pieces_eq hok, hok]

theorem pieces_fit (h : gate.Fits k) : ∀ p ∈ gate.pieces, p.Fits k ∧ p.IsBasic := by
  obtain ⟨gates, hok, hfits, -⟩ := exists_basicGates h
  rwa [pieces_eq hok]

theorem actAll_pieces (h : gate.Fits k) (ψ : State) : actAll gate.pieces ψ = gate.act ψ := by
  obtain ⟨gates, hok, -, hact⟩ := exists_basicGates h
  rw [pieces_eq hok, hact]

/-- The networks have the lengths that are counted without building them. -/
theorem length_of_basicGates {gates : List Gate} (h : gate.basicGates = .ok gates) :
    gates.length = gate.basicCount := by
  unfold basicGates at h
  unfold basicCount
  split at h
  case h_1 hkind _ =>
    obtain rfl := Except.ok.inj h
    rw [hkind]
    rfl
  case h_2 hkind _ =>
    obtain rfl := Except.ok.inj h
    rw [hkind]
    rfl
  case h_3 => cases h
  case h_4 => cases h
  case h_5 hccz htoffoli _ _ =>
    obtain rfl := Except.ok.inj h
    split
    case h_1 hkind => exact absurd hkind hccz
    case h_2 hkind => exact absurd hkind htoffoli
    case h_3 => rfl

theorem length_pieces (h : gate.Fits k) : gate.pieces.length = gate.basicCount :=
  length_of_basicGates (basicGates_eq h)

end Gate

open Gate

theorem flatMap_pieces_of_isBasic {gates : List Gate} (h : ∀ gate ∈ gates, gate.IsBasic) :
    gates.flatMap pieces = gates := by
  induction gates with
  | nil => rfl
  | cons gate gates ih =>
      rw [List.flatMap_cons, pieces_of_isBasic (h gate List.mem_cons_self),
        ih fun p hp => h p (List.mem_cons_of_mem gate hp), List.singleton_append]

/-- Every gate acts as its pieces do, so the whole list does. -/
theorem actAll_flatMap_pieces {gates : List Gate} {k : ℕ} (h : ∀ gate ∈ gates, gate.Fits k)
    (ψ : State) : actAll (gates.flatMap pieces) ψ = actAll gates ψ := by
  induction gates generalizing ψ with
  | nil => rfl
  | cons gate gates ih =>
      rw [List.flatMap_cons, actAll_append, actAll_pieces (h gate List.mem_cons_self), actAll_cons,
        ih fun p hp => h p (List.mem_cons_of_mem gate hp)]

namespace Circuit

variable {c : Circuit}

theorem toBasic_eq (h : ∀ gate ∈ c.gates, gate.Fits c.width) :
    c.toBasic = .ok { c with gates := c.gates.flatMap pieces } := by
  have hrun : c.gates.mapM Gate.basicGates = .ok (c.gates.map pieces) :=
    mapM_eq_ok fun gate hgate => basicGates_eq (h gate hgate)
  rw [toBasic, hrun, List.flatMap_def]
  rfl

/-- Decomposition succeeds on every circuit whose gates fit it, and is exact: the basic gates act as
the circuit does, as many as were counted, and a second decomposition finds nothing to do. -/
theorem toBasic_exact (c : Circuit) (hfits : ∀ gate ∈ c.gates, gate.Fits c.width) :
    ∃ basic, c.toBasic = .ok basic ∧ basic.width = c.width ∧ basic.globalPhase = c.globalPhase ∧
      (∀ ψ, basic.act ψ = c.act ψ) ∧
      (∀ gate ∈ basic.gates, gate.Fits c.width ∧ gate.kind ≠ .ccz ∧ gate.kind ≠ .toffoli) ∧
      basic.gates.length = (c.gates.map Gate.basicCount).sum ∧ basic.toBasic = .ok basic := by
  set basic : Circuit := { c with gates := c.gates.flatMap pieces }
  have hgates : ∀ gate ∈ basic.gates, gate.Fits c.width ∧ gate.IsBasic := by
    intro p hp
    obtain ⟨gate, hgate, hpiece⟩ := List.mem_flatMap.mp hp
    exact pieces_fit (hfits gate hgate) p hpiece
  refine ⟨basic, toBasic_eq hfits, rfl, rfl, fun ψ => ?_, hgates, ?_, ?_⟩
  · rw [act, act, actAll_flatMap_pieces hfits]
  · have hlength : c.gates.map (fun gate => gate.pieces.length) = c.gates.map Gate.basicCount :=
      List.map_congr_left fun gate hgate => length_pieces (hfits gate hgate)
    rw [List.length_flatMap, hlength]
  · rw [toBasic_eq (c := basic) fun gate hgate => (hgates gate hgate).1,
      flatMap_pieces_of_isBasic fun gate hgate => (hgates gate hgate).2]

/-- Both networks, with their wires out of order in a register with a wire to spare. -/
def braid : Circuit :=
  ⟨5, Phase.eighth, [.plain .toffoli [4, 0, 2], .plain .unknown [9, 9], .plain .ccz [2, 4, 1]]⟩

theorem toBasic_exact_braid :
    ∃ basic, braid.toBasic = .ok basic ∧ basic.width = 5 ∧ basic.gates.length = 29 ∧
      (∀ ψ, basic.act ψ = braid.act ψ) ∧ basic.toBasic = .ok basic := by
  obtain ⟨basic, hok, hwidth, -, hact, -, hlength, hagain⟩ := toBasic_exact braid (by decide)
  exact ⟨basic, hok, hwidth, hlength, hact, hagain⟩

end Circuit

end ZX
