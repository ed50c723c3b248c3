import Mathlib
import ZX.Proofs.Extraction.Emission

/-!
# The shape of extracted circuits

The scan for Hadamards that cancel misses none: a Hadamard that waits for a partner is in the table
of the scan, so the next Hadamard on its qubit is reported. Where a clean-up ends, both of its rules
have no place, so there is neither a rotation by nothing nor a pair of Hadamards, and a second
clean-up changes nothing.
-/
namespace ZX

namespace Circuit

variable {gates before : List Gate} {g : Gate} {q i j : ℕ}

/-! ## The scan finds every pair -/

theorem Cancels.of_append (h : Cancels (before ++ [g]) q i j) :
    Cancels before q i j ∨ IsHadamard g q ∧ Waits before q i := by
  obtain ⟨x, hx, hhad⟩ := h.left
  obtain ⟨y, hy, hhad'⟩ := h.right
  have hlt := h.lt
  have hj : j < before.length + 1 := by
    simpa using (List.getElem?_eq_some_iff.mp hy).1
  have hold : ∀ m < before.length, (before ++ [g])[m]? = before[m]? := fun m hm =>
    List.getElem?_append_left hm
  rw [hold i (by omega)] at hx
  obtain hjlt | rfl : j < before.length ∨ j = before.length := by omega
  · rw [hold j hjlt] at hy
    refine .inl ⟨hlt, ⟨x, hx, hhad⟩, ⟨y, hy, hhad'⟩, fun m z hi hm hz => ?_⟩
    exact h.between m z hi hm ((hold m (by omega)).trans hz)
  · have hyg : y = g := by simpa using hy.symm
    refine .inr ⟨hyg ▸ hhad', ⟨x, hx, hhad⟩, fun m z hi hz => ?_⟩
    have hm := (List.getElem?_eq_some_iff.mp hz).1
    exact h.between m z hi hm ((hold m hm).trans hz)

theorem Waits.of_append (h : Waits (before ++ [g]) q i) :
    IsHadamard g q ∨ q ∉ g.qubits ∧ Waits before q i := by
  obtain ⟨x, hx, hhad⟩ := h.left
  have hi : i < before.length + 1 := by
    simpa using (List.getElem?_eq_some_iff.mp hx).1
  obtain hilt | rfl : i < before.length ∨ i = before.length := by omega
  · rw [List.getElem?_append_left hilt] at hx
    refine .inr ⟨h.after before.length g hilt (by simp), ⟨x, hx, hhad⟩, fun m z hm hz => ?_⟩
    have hmlt := (List.getElem?_eq_some_iff.mp hz).1
    exact h.after m z hm ((List.getElem?_append_left hmlt).trans hz)
  · have hxg : x = g := by simpa using hx.symm
    exact .inl (hxg ▸ hhad)

/-- Where the scan reports nothing there is nothing to report. The table of the scan has an entry for
every Hadamard that waits among the gates before. -/
theorem not_cancels_of_hadamardPairs (width : ℕ) (rest before : List Gate)
    (waiting : List (ℕ × ℕ)) (hbelow : ∀ g ∈ rest, ∀ q, IsHadamard g q → q < width)
    (hwaiting : ∀ q i, Waits before q i → ∃ k, (q, k) ∈ waiting)
    (hbefore : ∀ q i j, ¬Cancels before q i j)
    (hnil : hadamardPairs width before.length waiting rest = []) (q i j : ℕ) :
    ¬Cancels (before ++ rest) q i j := by
  induction rest generalizing before waiting with
  | nil =>
      rw [List.append_nil]
      exact hbefore q i j
  | cons g rest ih =>
      have hsplit : before ++ g :: rest = (before ++ [g]) ++ rest := by simp
      have hlength : before.length + 1 = (before ++ [g]).length := by simp
      have hrest : ∀ x ∈ rest, ∀ q, IsHadamard x q → q < width := fun x hx =>
        hbelow x (List.mem_cons_of_mem g hx)
      rw [hsplit]
      unfold hadamardPairs at hnil
      dsimp only at hnil
      split at hnil
      case h_1 p hkind hqubits =>
        have hg : IsHadamard g p := ⟨hkind, hqubits⟩
        rw [if_pos (hbelow g List.mem_cons_self p hg)] at hnil
        split at hnil
        case h_1 => cases hnil
        case h_2 hlookup =>
          rw [hlength] at hnil
          have hnone : ∀ k, (p, k) ∉ waiting := fun k hk => by
            simpa using List.lookup_eq_none_iff.mp hlookup (p, k) hk
          refine ih _ _ hrest ?_ ?_ hnil
          · intro q' i' hw
            obtain hhad | ⟨-, hw⟩ := hw.of_append
            · obtain rfl : p = q' := by simpa [hqubits] using hhad.2
              exact ⟨_, List.mem_cons_self⟩
            · obtain ⟨k, hk⟩ := hwaiting q' i' hw
              exact ⟨k, List.mem_cons_of_mem _ hk⟩
          · intro q' i' j' hc
            obtain hc | ⟨hhad, hw⟩ := hc.of_append
            · exact hbefore q' i' j' hc
            · obtain rfl : p = q' := by simpa [hqubits] using hhad.2
              obtain ⟨k, hk⟩ := hwaiting p i' hw
              exact hnone k hk
      case h_2 hother =>
        have hno : ∀ q', ¬IsHadamard g q' := fun q' hhad => hother q' hhad.1 hhad.2
        rw [hlength] at hnil
        refine ih _ _ hrest ?_ ?_ hnil
        · intro q' i' hw
          obtain ⟨hnot, hw⟩ := hw.of_append.resolve_left (hno q')
          obtain ⟨k, hk⟩ := hwaiting q' i' hw
          exact ⟨k, List.mem_filter.mpr ⟨hk, by simpa using hnot⟩⟩
        · intro q' i' j' hc
          exact hbefore q' i' j' (hc.of_append.resolve_right fun h => hno q' h.1)

/-! ## Clean circuits -/

/-- No rotation by nothing and no two Hadamards that cancel. -/
structure Clean (c : Circuit) : Prop where
  no_rotation : ∀ g ∈ c.gates, g.isZeroRotation = false
  no_pair : ∀ q i j, ¬Cancels c.gates q i j

theorem zeroRotations_eq_nil {c : Circuit} :
    c.zeroRotations = [] ↔ ∀ g ∈ c.gates, g.isZeroRotation = false := by
  rw [zeroRotations, List.filterMap_eq_nil_iff]
  constructor
  · intro h g hg
    obtain ⟨i, hi⟩ := List.getElem?_of_mem hg
    have hnone := h (g, i) (List.mem_zipIdx_iff_getElem?.mpr hi)
    simpa using hnone
  · rintro h ⟨g, i⟩ hmem
    have hg := List.mem_of_getElem? (List.mem_zipIdx_iff_getElem?.mp hmem)
    simp [h g hg]

theorem waitingPairs_eq_ok {c : Circuit} {pairs : List (ℕ × ℕ)} :
    c.waitingPairs = .ok pairs ↔ c.width * 16 < 2 ^ 63 ∧ hadamardPairs c.width 0 [] c.gates = pairs := by
  unfold waitingPairs checkTable
  split
  · rename_i hfits
    exact ⟨fun h => ⟨hfits, Except.ok.inj h⟩, fun h => congrArg Except.ok h.2⟩
  · rename_i hfits
    constructor
    · intro h
      cases h
    · intro h
      exact absurd h.1 hfits

theorem Clean.cleanup_eq {c : Circuit} (h : c.Clean) (hfits : c.width * 16 < 2 ^ 63) :
    c.cleanup.outcome = .ok (false, c) := by
  have hzero : (Rule.zeroRotation.fixedPoint c).outcome = .ok (false, c) :=
    Rule.fixedPoint_eq_false.mpr ⟨rfl, congrArg Except.ok (zeroRotations_eq_nil.mpr h.no_rotation)⟩
  have hnil : hadamardPairs c.width 0 [] c.gates = [] := by
    refine List.eq_nil_iff_forall_not_mem.mpr fun p hp => ?_
    obtain ⟨q, hq⟩ := hadamardPairs_cancels c.width c.gates [] [] (by simp) p hp
    exact h.no_pair q p.1 p.2 hq
  have hpair : (Rule.hadamardPair.fixedPoint c).outcome = .ok (false, c) :=
    Rule.fixedPoint_eq_false.mpr ⟨rfl, waitingPairs_eq_ok.mpr ⟨hfits, hnil⟩⟩
  rw [cleanup, Run.outcome_bind, hzero]
  show (Rule.hadamardPair.fixedPoint c >>= _).outcome = _
  rw [Run.outcome_bind, hpair]
  rfl

/-- A circuit whose Hadamards fit its width is clean after a clean-up. -/
theorem clean_of_cleanup {c d : Circuit} {b : Bool} (h : c.cleanup.outcome = .ok (b, d))
    (hbelow : ∀ g ∈ d.gates, ∀ q, IsHadamard g q → q < d.width) :
    d.Clean ∧ d.width * 16 < 2 ^ 63 := by
  obtain ⟨⟨b₁, c₁⟩, hzero, h⟩ := Run.exists_of_bind_eq_ok h
  obtain ⟨⟨b₂, c₂⟩, hpair, h⟩ := Run.exists_of_bind_eq_ok h
  cases h
  have hrotations : c₁.zeroRotations = [] := Except.ok.inj (Rule.batches_no_place hzero)
  obtain ⟨hfits, hnil⟩ := waitingPairs_eq_ok.mp (Rule.batches_no_place hpair)
  have hsub := (Rule.hadamardPair_sublist c₁).of_eq_ok hpair
  refine ⟨⟨fun g hg => zeroRotations_eq_nil.mp hrotations g (hsub.mem hg), fun q i j => ?_⟩, hfits⟩
  refine not_cancels_of_hadamardPairs d.width d.gates [] [] hbelow ?_ ?_ hnil q i j
  · rintro q i ⟨⟨g, hg, -⟩, -⟩
    cases hg
  · rintro q i j ⟨-, ⟨g, hg, -⟩, -, -⟩
    cases hg

/-! ## Normal forms -/

/-- Every gate has the arity of its kind and acts on distinct qubits of the circuit. -/
def Proper (c : Circuit) : Prop :=
  ∀ gate ∈ c.gates, (∀ n ∈ gate.kind.arity, gate.qubits.length = n) ∧ gate.qubits.Nodup ∧
    ∀ q ∈ gate.qubits, q < c.width

instance (c : Circuit) : Decidable c.Proper :=
  inferInstanceAs (Decidable (∀ gate ∈ c.gates, (∀ n ∈ gate.kind.arity, gate.qubits.length = n) ∧
    gate.qubits.Nodup ∧ ∀ q ∈ gate.qubits, q < c.width))

theorem Proper.of_trims {c d : Circuit} (h : c.Proper) (ht : c.Trims d) : d.Proper := by
  intro gate hgate
  rw [ht.width_eq]
  exact h gate (ht.subset gate hgate)

theorem Trims.circuitAct_eq {c d : Circuit} (h : c.Trims d) (ψ : State) : d.act ψ = c.act ψ := by
  rw [act, act, h.phase_eq, h.act_eq]

/-- A clean-up leads to a normal form: what is left of the gates has the same linear map and has
neither a rotation by nothing nor two Hadamards that cancel. The flag tells whether a gate went, and
a second clean-up changes nothing. Only a circuit whose table of waiting Hadamards does not fit the
memory cannot be cleaned. -/
theorem cleanup_normalises (c : Circuit) (hc : c.Proper) :
    (c.width * 16 < 2 ^ 63 → ∃ changed d, c.cleanup.outcome = .ok (changed, d) ∧
      d.gates.Sublist c.gates ∧ d.width = c.width ∧ d.globalPhase = c.globalPhase ∧
      (∀ ψ, d.act ψ = c.act ψ) ∧
      (∀ gate ∈ d.gates, gate.isZeroRotation = false) ∧ (∀ q i j, ¬Cancels d.gates q i j) ∧
      (changed = true ↔ d ≠ c) ∧
      d.cleanup.outcome = .ok (false, d)) ∧
    (2 ^ 63 ≤ c.width * 16 → c.cleanup.outcome = .error .tooLarge) := by
  have hnodup : ∀ gate ∈ c.gates, gate.qubits.Nodup := fun gate hgate => (hc gate hgate).2.1
  have hends := cleanup_ends c hnodup
  cases hrun : c.cleanup.outcome with
  | error e =>
      obtain ⟨rfl, hlarge⟩ := hends.2 e hrun
      exact ⟨fun hfits => absurd hfits (Nat.not_lt.mpr hlarge), fun _ => rfl⟩
  | ok r =>
      obtain ⟨changed, d⟩ := r
      obtain ⟨htrims, hfits⟩ := hends.of_eq_ok hrun
      refine ⟨fun _ => ⟨changed, d, rfl, ?_⟩, fun hlarge => absurd hfits (Nat.not_lt.mpr hlarge)⟩
      have hbelow : ∀ gate ∈ d.gates, ∀ q, IsHadamard gate q → q < d.width :=
        fun gate hgate q hhad => (hc.of_trims htrims gate hgate).2.2 q (by simp [hhad.2])
      obtain ⟨hclean, hdfits⟩ := clean_of_cleanup hrun hbelow
      refine ⟨c.cleanup_sublist.of_eq_ok hrun, htrims.width_eq, htrims.phase_eq,
        htrims.circuitAct_eq, hclean.no_rotation, hclean.no_pair, cleanup_changed_iff hnodup hrun,
        hclean.cleanup_eq hdfits⟩

/-- Hadamards on two qubits, those on the second around a rotation by nothing. -/
def nested : Circuit where
  width := 2
  globalPhase := Phase.quarter
  gates := [.plain .had [0], .plain .had [1], .plain .had [0], .plain .had [0],
    ⟨.xPhase, [1], Phase.zero⟩, .plain .had [1], .plain .cnot [0, 1]]

theorem cleanup_normalises_nested : nested.Proper ∧
    ∃ d, nested.cleanup.outcome = .ok (true, d) ∧ d.gates.Sublist nested.gates ∧
      (∀ ψ, d.act ψ = nested.act ψ) ∧ (∀ q i j, ¬Cancels d.gates q i j) ∧
      d.cleanup.outcome = .ok (false, d) := by
  have hproper : nested.Proper := by decide
  obtain ⟨changed, d, hok, hsub, -, -, hact, hrotations, hpairs, hchanged, hagain⟩ :=
    (cleanup_normalises nested hproper).1 (by decide)
  -- The rotation by nothing has gone.
  have hne : d ≠ nested := by
    rintro rfl
    exact absurd (hrotations ⟨.xPhase, [1], Phase.zero⟩ (by decide)) (by decide)
  obtain rfl := hchanged.mpr hne
  exact ⟨hproper, d, hok, hsub, hact, hpairs, hagain⟩

/-- The table for `2^60` qubits would need `2^63` bytes. -/
theorem cleanup_fails_wide : (empty (2 ^ 60)).Proper ∧
    (empty (2 ^ 60)).cleanup.outcome = .error .tooLarge := by
  constructor <;> decide +kernel

end Circuit

namespace Diagram

variable {g : Diagram} {options : ExtractionOptions} {c : Circuit} {left : Diagram}

/-! ## Extracted circuits -/

/-- The circuit is the one that the clean-up left, up to its global phase. -/
theorem exists_cleanup (hk : g.inputs.length = g.outputs.length)
    (hclean : options.cleanup = true) (h : (g.extract options).outcome = .ok (c, left)) :
    ∃ (emitted d : Circuit) (b : Bool), emitted.cleanup.outcome = .ok (b, d) ∧
      d.width = c.width ∧ d.gates = c.gates := by
  rw [extract_eq hk (width_of_extract_eq_ok hk h)] at h
  obtain ⟨w, -, h⟩ := Run.exists_of_bind_eq_ok h
  obtain ⟨⟨count, w₁⟩, -, h⟩ := Run.exists_of_bind_eq_ok h
  obtain ⟨w₂, -, h⟩ := Run.exists_of_ite_eq_ok h
  obtain ⟨⟨b, d⟩, hd, h⟩ := Run.exists_of_ite_eq_ok h
  rw [if_pos hclean] at hd
  obtain ⟨-, -, h⟩ := Run.exists_of_bind_eq_ok h
  cases h
  exact ⟨w₂.circuit, d, b, mapError_eq_ok.mp hd, rfl, rfl⟩

/-- An extracted circuit consists of rotations and Hadamards on one qubit and of controlled nots and
controlled phases on two distinct qubits, all among the qubits of the outputs. After a clean-up it
has no rotation by nothing and no two Hadamards that cancel, and another clean-up leaves it as it
is. -/
theorem extract_shape (hg : g.WellFormed) (hk : g.inputs.length = g.outputs.length)
    (h : (g.extract options).outcome = .ok (c, left)) :
    (∀ gate ∈ c.gates,
      (∃ q < g.outputs.length, gate.qubits = [q] ∧ (gate.kind = .zPhase ∨ gate.kind = .had)) ∨
      ∃ a < g.outputs.length, ∃ b < g.outputs.length, a ≠ b ∧ gate.qubits = [a, b] ∧
        (gate.kind = .cnot ∨ gate.kind = .cz)) ∧
    (options.cleanup = true →
      (∀ gate ∈ c.gates, gate.isZeroRotation = false) ∧
      (∀ q i j, ¬Circuit.Cancels c.gates q i j) ∧ c.cleanup.outcome = .ok (false, c)) := by
  have hwidth := width_of_extract_eq_ok hk h
  obtain ⟨w₁, hprep⟩ := exists_prepared hk hwidth h
  obtain ⟨w, hw⟩ := exists_normalised hprep
  have hc := (extract_ends hg hk hwidth hw).of_eq_ok h
  have htidy := hc.tidy
  rw [outputs_normalised hg hw] at htidy
  constructor
  · intro gate hgate
    obtain ⟨hnodup, hlt⟩ := htidy gate hgate
    have hnative := ((g.extract_spends options).of_eq_ok h).1 gate hgate
    cases hnative with
    | rotation q p => exact .inl ⟨q, hlt q (by simp), rfl, .inl rfl⟩
    | had q => exact .inl ⟨q, hlt q (by simp [Gate.plain]), rfl, .inr rfl⟩
    | cnot a b =>
        exact .inr ⟨a, hlt a (by simp [Gate.plain]), b, hlt b (by simp [Gate.plain]),
          by simpa [Gate.plain] using hnodup, rfl, .inl rfl⟩
    | cz a b =>
        exact .inr ⟨a, hlt a (by simp [Gate.plain]), b, hlt b (by simp [Gate.plain]),
          by simpa [Gate.plain] using hnodup, rfl, .inr rfl⟩
  · intro hclean
    obtain ⟨emitted, d, b, hd, hdwidth, hdgates⟩ := exists_cleanup hk hclean h
    have hbelow : ∀ gate ∈ d.gates, ∀ q, Circuit.IsHadamard gate q → q < d.width := by
      intro gate hgate q hhad
      have hq := (htidy gate (hdgates ▸ hgate)).2 q (by simp [hhad.2])
      have hwide : g.outputs.length ≤ c.width := by
        rw [hc.width_eq, extractionWidth]
        split <;> omega
      omega
    obtain ⟨hclean, hfits⟩ := Circuit.clean_of_cleanup hd hbelow
    rw [hdwidth] at hfits
    have hcclean : c.Clean := ⟨hdgates ▸ hclean.no_rotation, hdgates ▸ hclean.no_pair⟩
    exact ⟨hcclean.no_rotation, hcclean.no_pair, hcclean.cleanup_eq hfits⟩

theorem extract_shape_braid : ∃ c left, (braid.extract {}).outcome = .ok (c, left) ∧
    (∀ gate ∈ c.gates,
      (∃ q < 2, gate.qubits = [q] ∧ (gate.kind = .zPhase ∨ gate.kind = .had)) ∨
      (gate.qubits = [0, 1] ∨ gate.qubits = [1, 0]) ∧ (gate.kind = .cnot ∨ gate.kind = .cz)) ∧
    (∀ gate ∈ c.gates, gate.isZeroRotation = false) ∧
    c.cleanup.outcome = .ok (false, c) := by
  obtain ⟨⟨c, left⟩, hok⟩ := braid_extract
  obtain ⟨hgates, hclean⟩ := extract_shape braid_wellFormed rfl hok
  obtain ⟨hrotations, -, hagain⟩ := hclean rfl
  refine ⟨c, left, hok, fun gate hgate => ?_, hrotations, hagain⟩
  obtain hsingle | ⟨a, ha, b, hb, hab, hqubits, hkind⟩ := hgates gate hgate
  · exact .inl hsingle
  · replace ha : a < 2 := ha
    replace hb : b < 2 := hb
    have hcases : a = 0 ∧ b = 1 ∨ a = 1 ∧ b = 0 := by omega
    rcases hcases with ⟨rfl, rfl⟩ | ⟨rfl, rfl⟩
    · exact .inr ⟨.inl hqubits, hkind⟩
    · exact .inr ⟨.inr hqubits, hkind⟩

end Diagram

end ZX
