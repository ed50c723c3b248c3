import Mathlib
import ZX.Extraction.Round
import ZX.Proofs.Extraction.Residue
import ZX.Proofs.Matrix.Steps

/-!
# Row steps as gates

The edges between the vertices of some qubits and other vertices form a matrix. Its contribution to
the residue is a sign for each pair of bits that an entry 1 couples. A row step changes the signs
just as exclusive ors between the bits of the rows would, so the step can be taken on the edges if
controlled nots are put in front.
-/
namespace ZX

open Finset Function State

/-! ## Signs -/

/-- The sign of the row bits `b` against the column bits `c`. -/
def coupling (n w : ℕ) (M : BitMatrix) (b c : ℕ → Bool) : ℂ :=
  ∏ i ∈ range n, ∏ j ∈ range w, if M i j && b i && c j then -1 else 1

theorem coupling_congr {n w : ℕ} {M : BitMatrix} {b b' c c' : ℕ → Bool} (hb : ∀ i < n, b i = b' i)
    (hc : ∀ j < w, c j = c' j) : coupling n w M b c = coupling n w M b' c' := by
  refine prod_congr rfl fun i hi => prod_congr rfl fun j hj => ?_
  rw [hb i (mem_range.mp hi), hc j (mem_range.mp hj)]

attribute [local instance] atLeastTwo_two in
/-- The magnitude that goes with the signs. -/
noncomputable def magnitude (n w : ℕ) (M : BitMatrix) : ℝ :=
  ∏ i ∈ range n, ∏ j ∈ range w, if M i j then (√2)⁻¹ else 1

theorem magnitude_pos (n w : ℕ) (M : BitMatrix) : 0 < magnitude n w M := by
  refine prod_pos fun i _ => prod_pos fun j _ => ?_
  split
  · exact inv_pos.mpr (Real.sqrt_pos.mpr (by norm_num))
  · exact one_pos

namespace RowStep

/-- The bits of the rows that see the old signs in the new matrix. -/
def onRowBits : RowStep → (ℕ → Bool) → ℕ → Bool
  | .swap r s => exchange r s
  | .add s t => toggle s (· t)

variable {n w : ℕ} {step : RowStep} {M : BitMatrix} {b c : ℕ → Bool}

theorem coupling_onBits (h : step.Within n) :
    coupling n w (step.onBits M) b c = coupling n w M (step.onRowBits b) c := by
  cases step with
  | swap r s =>
      obtain ⟨hr, hs, hrs⟩ := h
      refine prod_equiv (Equiv.swap r s) (fun i => ?_) fun i _ => ?_
      · simp only [mem_range]
        rw [Equiv.swap_apply_def]
        split_ifs with h1 h2 <;> omega
      · have hbit : exchange r s b (Equiv.swap r s i) = b i := by
          rw [exchange_apply, Equiv.swap_apply_self]
        refine prod_congr rfl fun j _ => ?_
        rw [onBits_swap, onRowBits, hbit]
  | add s t =>
      obtain ⟨hs, ht, hst⟩ := h
      set e := ∏ j ∈ range w, if M s j && b t && c j then (-1 : ℂ) else 1 with he
      -- Both sides have one row more than the old signs: row `s` with the bit of row `t`.
      have hleft : ∀ i ∈ range n, (∏ j ∈ range w,
          if (RowStep.add s t).onBits M i j && b i && c j then (-1 : ℂ) else 1) =
            (∏ j ∈ range w, if M i j && b i && c j then -1 else 1) * if i = t then e else 1 := by
        intro i _
        by_cases hi : i = t
        · subst hi
          rw [if_pos rfl, he, ← prod_mul_distrib]
          refine prod_congr rfl fun j _ => ?_
          simp only [onBits_add, if_true]
          cases M i j <;> cases M s j <;> cases b i <;> cases c j <;> simp
        · simp only [onBits_add, if_neg hi, mul_one]
      have hright : ∀ i ∈ range n, (∏ j ∈ range w,
          if M i j && (RowStep.add s t).onRowBits b i && c j then (-1 : ℂ) else 1) =
            (∏ j ∈ range w, if M i j && b i && c j then -1 else 1) * if i = s then e else 1 := by
        intro i _
        by_cases hi : i = s
        · subst hi
          rw [if_pos rfl, he, ← prod_mul_distrib]
          refine prod_congr rfl fun j _ => ?_
          simp only [onRowBits, toggle, update_self]
          cases M i j <;> cases b i <;> cases b t <;> cases c j <;> simp
        · simp only [onRowBits, toggle, update_of_ne hi, if_neg hi, mul_one]
      rw [coupling, coupling, prod_congr rfl hleft, prod_congr rfl hright, prod_mul_distrib,
        prod_mul_distrib, prod_ite_eq', prod_ite_eq', if_pos (mem_range.mpr hs),
        if_pos (mem_range.mpr ht)]

theorem onRowBits_onRowBits (h : step.Within n) (b : ℕ → Bool) :
    step.onRowBits (step.onRowBits b) = b := by
  funext i
  cases step with
  | swap r s =>
      obtain ⟨-, -, hrs⟩ := h
      by_cases h1 : i = s
      · simp [onRowBits, exchange, h1, update_of_ne hrs]
      · by_cases h2 : i = r
        · simp [onRowBits, exchange, h2, update_of_ne hrs]
        · simp [onRowBits, exchange, h1, h2]
  | add s t =>
      obtain ⟨-, -, hst⟩ := h
      by_cases h1 : i = s
      · subst h1
        simp [onRowBits, toggle, update_of_ne hst.symm]
      · simp [onRowBits, toggle, h1]

/-! ## Gates -/

/-- The gates that a step puts in front, row `i` being qubit `qs i`. -/
def gates (qs : ℕ → ℕ) : RowStep → List Gate
  | .add s t => [.plain .cnot [qs t, qs s]]
  | .swap r s => [.plain .cnot [qs r, qs s], .plain .cnot [qs s, qs r], .plain .cnot [qs r, qs s]]

/-- The gates of later steps come first. -/
def allGates (qs : ℕ → ℕ) : List RowStep → List Gate
  | [] => []
  | step :: steps => allGates qs steps ++ step.gates qs

/-- The step between the rows with other names. -/
def rename (qs : ℕ → ℕ) : RowStep → RowStep
  | .swap r s => .swap (qs r) (qs s)
  | .add s t => .add (qs s) (qs t)

theorem Within.rename {qs : ℕ → ℕ} {k : ℕ} (h : step.Within n) (hqs : Set.InjOn qs (Set.Iio n))
    (hk : ∀ i < n, qs i < k) : (step.rename qs).Within k := by
  cases step with
  | swap r s => exact ⟨hk r h.1, hk s h.2.1, fun hc => h.2.2 (hqs h.1 h.2.1 hc)⟩
  | add s t => exact ⟨hk s h.1, hk t h.2.1, fun hc => h.2.2 (hqs h.1 h.2.1 hc)⟩

theorem onRowBits_rename {qs : ℕ → ℕ} (h : step.Within n) (hqs : Set.InjOn qs (Set.Iio n))
    (z : ℕ → Bool) {i : ℕ} (hi : i < n) :
    (step.rename qs).onRowBits z (qs i) = step.onRowBits (fun i => z (qs i)) i := by
  cases step with
  | swap r s =>
      obtain ⟨hr, hs, -⟩ := h
      simp only [RowStep.rename, onRowBits, exchange]
      by_cases h1 : i = s
      · simp [h1]
      · have h1' : qs i ≠ qs s := fun hc => h1 (hqs hi hs hc)
        by_cases h2 : i = r
        · subst h2
          simp [h1, h1']
        · have h2' : qs i ≠ qs r := fun hc => h2 (hqs hi hr hc)
          simp [h1, h1', h2, h2']
  | add s t =>
      obtain ⟨hs, ht, -⟩ := h
      simp only [RowStep.rename, onRowBits, toggle]
      by_cases h1 : i = s
      · simp [h1]
      · have h1' : qs i ≠ qs s := fun hc => h1 (hqs hi hs hc)
        simp [h1, h1']

theorem onRowBits_rename_of_ne {qs : ℕ → ℕ} (h : step.Within n) (z : ℕ → Bool) {p : ℕ}
    (hp : ∀ i < n, p ≠ qs i) : (step.rename qs).onRowBits z p = z p := by
  cases step with
  | swap r s =>
      obtain ⟨hr, hs, -⟩ := h
      rw [RowStep.rename, onRowBits, exchange, update_of_ne (hp s hs), update_of_ne (hp r hr)]
  | add s t => exact update_of_ne (hp s h.1) _ _

/-- The gates of a step exchange valuations, as the step does with the bits of its rows. -/
theorem actAll_gates_eq {qs : ℕ → ℕ} (h : step.Within n) (hqs : Set.InjOn qs (Set.Iio n))
    (ψ : State) : actAll (step.gates qs) ψ = shift (step.rename qs).onRowBits ψ := by
  cases step with
  | swap r s =>
      obtain ⟨hr, hs, hrs⟩ := h
      have hne : qs r ≠ qs s := fun hc => hrs (hqs hr hs hc)
      exact (shift_exchange hne ψ).symm
  | add s t => rfl

/-- A step acts on states by its exclusive ors, on the qubits of its rows. -/
theorem actAll_gates {qs : ℕ → ℕ} (h : step.Within n) (hqs : Set.InjOn qs (Set.Iio n)) (ψ : State)
    (z : ℕ → Bool) : ∃ z', actAll (step.gates qs) ψ z = ψ z' ∧
      (∀ i < n, z' (qs i) = step.onRowBits (fun i => z (qs i)) i) ∧
      ∀ p, (∀ i < n, p ≠ qs i) → z' p = z p := by
  refine ⟨(step.rename qs).onRowBits z, ?_, fun i hi => onRowBits_rename h hqs z hi,
    fun p hp => onRowBits_rename_of_ne h z hp⟩
  rw [actAll_gates_eq h hqs]
  rfl

theorem gates_tidy {qs : ℕ → ℕ} {k : ℕ} (h : step.Within n) (hqs : Set.InjOn qs (Set.Iio n))
    (hk : ∀ i < n, qs i < k) :
    ∀ gate ∈ step.gates qs, gate.qubits.Nodup ∧ ∀ q ∈ gate.qubits, q < k := by
  cases step with
  | swap r s =>
      obtain ⟨hr, hs, hrs⟩ := h
      have hne : qs r ≠ qs s := fun hc => hrs (hqs hr hs hc)
      simp [gates, Gate.plain, hne, hne.symm, hk r hr, hk s hs]
  | add s t =>
      obtain ⟨hs, ht, hst⟩ := h
      have hne : qs s ≠ qs t := fun hc => hst (hqs hs ht hc)
      simp [gates, Gate.plain, hne.symm, hk s hs, hk t ht]

theorem allGates_tidy {qs : ℕ → ℕ} {k : ℕ} {steps : List RowStep} (h : ∀ s ∈ steps, s.Within n)
    (hqs : Set.InjOn qs (Set.Iio n)) (hk : ∀ i < n, qs i < k) :
    ∀ gate ∈ allGates qs steps, gate.qubits.Nodup ∧ ∀ q ∈ gate.qubits, q < k := by
  induction steps with
  | nil => simp [allGates]
  | cons s steps ih =>
      intro gate hgate
      obtain hgate | hgate := List.mem_append.mp hgate
      · exact ih (fun t ht => h t (List.mem_cons_of_mem s ht)) gate hgate
      · exact gates_tidy (h s List.mem_cons_self) hqs hk gate hgate

/-- Recording a step puts its gates in front. -/
theorem apply_frontierGates (h : step.Within n) {qubits : List ℕ} (hlen : qubits.length = n)
    (c : Circuit) :
    step.apply (⟨c, qubits⟩ : FrontierGates) =
      .ok ⟨{ c with gates := step.gates (fun i => qubits.getD i 0) ++ c.gates }, qubits⟩ := by
  have hat : ∀ i < n, (at? qubits i : Except Fault ℕ) = .ok (qubits.getD i 0) := by
    intro i hi
    rw [← hlen] at hi
    rw [at?, List.getElem?_eq_getElem hi, List.getD_eq_getElem _ _ hi]
    rfl
  cases step with
  | swap r s =>
      obtain ⟨hr, hs, -⟩ := h
      show (at? qubits r >>= fun a => at? qubits s >>= fun b => _) = _
      rw [hat r hr, hat s hs]
      rfl
  | add s t =>
      obtain ⟨hs, ht, -⟩ := h
      show (at? qubits t >>= fun a => at? qubits s >>= fun b => _) = _
      rw [hat s hs, hat t ht]
      rfl

theorem replay_frontierGates {steps : List RowStep} (h : ∀ s ∈ steps, s.Within n)
    {qubits : List ℕ} (hlen : qubits.length = n) (c : Circuit) :
    replay steps (⟨c, qubits⟩ : FrontierGates) =
      .ok ⟨{ c with gates := allGates (fun i => qubits.getD i 0) steps ++ c.gates }, qubits⟩ := by
  induction steps generalizing c with
  | nil => rfl
  | cons s steps ih =>
      rw [replay_cons, apply_frontierGates (h s List.mem_cons_self) hlen]
      refine (ih (fun t ht => h t (List.mem_cons_of_mem s ht)) _).trans ?_
      rw [allGates, List.append_assoc]

end RowStep

/-! ## The matrix between two lists of vertices -/

namespace Diagram

/-- `g` is `bare` with the edges of a matrix between the listed rows and columns, all of them
Hadamard edges. -/
structure Wired (bare : Diagram) (rows cols : List ℕ) (M : BitMatrix) (g : Diagram) : Prop where
  consistent : g.Consistent
  data?_eq : ∀ v, g.data? v = bare.data? v
  inputs_eq : g.inputs = bare.inputs
  outputs_eq : g.outputs = bare.outputs
  scalar_eq : g.scalar = bare.scalar
  entry_eq : ∀ i j r c, rows[i]? = some r → cols[j]? = some c →
    g.edgeKind? r c = if M i j then some .hadamard else none
  other_eq : ∀ s t, ¬(s ∈ rows ∧ t ∈ cols) → ¬(s ∈ cols ∧ t ∈ rows) →
    g.edgeKind? s t = bare.edgeKind? s t

variable {bare g g' : Diagram} {rows cols A : List ℕ} {M M' : BitMatrix} {k : ℕ} {x z : ℕ → Bool}
  {a : ℕ → Bool}

theorem injOn_getD {l : List ℕ} (hl : l.Nodup) :
    Set.InjOn (fun i => l.getD i 0) (Set.Iio l.length) := by
  intro i hi j hj hij
  have hilt : i < l.length := hi
  have hjlt : j < l.length := hj
  simp only [List.getD_eq_getElem _ _ hilt, List.getD_eq_getElem _ _ hjlt] at hij
  exact hl.getElem_inj_iff.mp hij

theorem prod_toFinset_getD {l : List ℕ} (hl : l.Nodup) (f : ℕ → ℂ) :
    ∏ v ∈ l.toFinset, f v = ∏ i ∈ range l.length, f (l.getD i 0) := by
  symm
  refine prod_nbij (fun i => l.getD i 0) (fun i hi => ?_) ?_ (fun v hv => ?_) fun i _ => rfl
  · have hlt := mem_range.mp hi
    rw [List.mem_toFinset, List.getD_eq_getElem _ _ hlt]
    exact List.getElem_mem hlt
  · rw [coe_range]
    exact injOn_getD hl
  · obtain ⟨i, hi, rfl⟩ := List.mem_iff_getElem.mp (List.mem_toFinset.mp hv)
    exact ⟨i, by simpa using hi, by simp [hi]⟩

namespace Wired

theorem kind?_eq (h : Wired bare rows cols M g) (v : ℕ) : g.kind? v = bare.kind? v := by
  rw [kind?, kind?, h.data?_eq]

theorem turn_eq (h : Wired bare rows cols M g) (v : ℕ) : g.turn v = bare.turn v := by
  rw [turn, turn, h.kind?_eq, phase?, phase?, h.data?_eq]

theorem contains_eq (h : Wired bare rows cols M g) (v : ℕ) : g.contains v = bare.contains v := by
  rw [contains_eq_data?_isSome, contains_eq_data?_isSome, h.data?_eq]

theorem support_eq (h : Wired bare rows cols M g) : g.support = bare.support := by
  ext v
  rw [mem_support, mem_support, h.contains_eq]

theorem spiders_eq (h : Wired bare rows cols M g) : g.spiders = bare.spiders := by
  ext v
  rw [mem_spiders, mem_spiders, h.contains_eq, h.kind?_eq]

theorem mass_eq (h : Wired bare rows cols M g) (hbare : Wired bare rows cols (fun _ _ => false) bare)
    (hgreen : ∀ v, bare.kind? v ≠ some .x) (hrows : rows.Nodup) (hcols : cols.Nodup)
    (hdisj : List.Disjoint rows cols) (hr : ∀ r ∈ rows, bare.contains r = true)
    (hc : ∀ c ∈ cols, bare.contains c = true) :
    g.mass g.support g.turn a = magnitude rows.length cols.length M *
      (bare.mass bare.support bare.turn a *
        coupling rows.length cols.length M (fun i => a (rows.getD i 0)) fun j => a (cols.getD j 0)) := by
  have hgreen' : ∀ v, g.kind? v ≠ some .x := fun v => by
    rw [h.kind?_eq]
    exact hgreen v
  obtain ⟨X, hX, hX'⟩ := Diagram.exists_mass_eq (R := rows.toFinset) (C := cols.toFinset)
    (V := bare.support) h.consistent hbare.consistent
    (fun r hmem => mem_support.mpr (hr r (List.mem_toFinset.mp hmem)))
    (fun c hmem => mem_support.mpr (hc c (List.mem_toFinset.mp hmem)))
    (by
      rw [disjoint_left]
      intro v h1 h2
      exact hdisj (List.mem_toFinset.mp h1) (List.mem_toFinset.mp h2))
    (by rw [h.scalar_eq]) (fun s t h1 h2 => by
      rw [wire?_of_green hgreen, wire?_of_green hgreen']
      simp only [List.mem_toFinset] at h1 h2
      exact (h.other_eq s t h1 h2).symm) bare.turn a
  have hentry : ∀ {g : Diagram} {M : BitMatrix}, Wired bare rows cols M g →
      ∀ i ∈ range rows.length, ∀ j ∈ range cols.length,
        g.edgeKind? (rows.getD i 0) (cols.getD j 0) = if M i j then some .hadamard else none := by
    intro g M hg i hi j hj
    rw [mem_range] at hi hj
    refine hg.entry_eq i j _ _ ?_ ?_
    · rw [List.getElem?_eq_getElem hi, List.getD_eq_getElem _ _ hi]
    · rw [List.getElem?_eq_getElem hj, List.getD_eq_getElem _ _ hj]
  have hone : ∏ r ∈ rows.toFinset, ∏ c ∈ cols.toFinset,
      linkFactor (bare.wire? r c) (a r) (a c) = 1 := by
    rw [prod_toFinset_getD hrows]
    refine prod_eq_one fun i hi => ?_
    rw [prod_toFinset_getD hcols]
    refine prod_eq_one fun j hj => ?_
    rw [wire?_of_green hgreen, hentry hbare i hi j hj]
    rfl
  have hsigns : ∏ r ∈ rows.toFinset, ∏ c ∈ cols.toFinset, linkFactor (g.wire? r c) (a r) (a c) =
      magnitude rows.length cols.length M *
        coupling rows.length cols.length M (fun i => a (rows.getD i 0)) fun j => a (cols.getD j 0) := by
    rw [prod_toFinset_getD hrows, magnitude, coupling, Complex.ofReal_prod, ← prod_mul_distrib]
    refine prod_congr rfl fun i hi => ?_
    rw [prod_toFinset_getD hcols, Complex.ofReal_prod, ← prod_mul_distrib]
    refine prod_congr rfl fun j hj => ?_
    rw [wire?_of_green hgreen', hentry h i hi j hj]
    cases M i j with
    | false => simp
    | true =>
        simp only [if_true, linkFactor_some, EdgeKind.factor, Bool.true_and, Complex.ofReal_inv]
        ring
  rw [hone, mul_one] at hX'
  have hturn : g.turn = bare.turn := funext h.turn_eq
  rw [h.support_eq, hturn, hX, hX', hsigns]
  ring

end Wired

/-- The residue without the magnitude of the matrix; the rows take their bits from the qubits
`qs 0`, `qs 1` and so on. -/
noncomputable def relay (bare : Diagram) (A cols : List ℕ) (n : ℕ) (qs : ℕ → ℕ) (M : BitMatrix)
    (x : ℕ → Bool) : State := fun z =>
  sumOver (bare.spiders \ A.toFinset)
    (fun a => bare.mass bare.support bare.turn a *
      coupling n cols.length M (fun i => z (qs i)) fun j => a (cols.getD j 0))
    (pins bare.inputs A x z)

/-- The rows of the matrix hold the qubits `qs 0`, `qs 1` and so on, and have no other edges. -/
structure Rowed (bare : Diagram) (A rows cols : List ℕ) (qs : ℕ → ℕ) : Prop where
  wired : Wired bare rows cols (fun _ _ => false) bare
  green : ∀ v, bare.kind? v ≠ some .x
  nodup : A.Nodup
  nodup_rows : rows.Nodup
  nodup_cols : cols.Nodup
  disjoint : List.Disjoint rows cols
  contains_cols : ∀ c ∈ cols, bare.contains c = true
  contains_rows : ∀ r ∈ rows, bare.contains r = true
  holds : ∀ i r, rows[i]? = some r → A[qs i]? = some r
  bare_row : ∀ r ∈ rows, bare.Bare r
  not_input : ∀ r ∈ rows, r ∉ bare.inputs

namespace Rowed

variable {qs : ℕ → ℕ} (h : Rowed bare A rows cols qs)
include h

theorem injOn : Set.InjOn qs (Set.Iio rows.length) := by
  intro i hi j hj hij
  have hi' := h.holds i _ (List.getElem?_eq_getElem hi)
  have hj' := h.holds j _ (List.getElem?_eq_getElem hj)
  rw [hij, hj'] at hi'
  exact (h.nodup_rows.getElem_inj_iff.mp (Option.some.inj hi')).symm

theorem lt (i : ℕ) (hi : i < rows.length) : qs i < A.length :=
  (List.getElem?_eq_some_iff.mp (h.holds i _ (List.getElem?_eq_getElem hi))).1

theorem residue_eq (hg : Wired bare rows cols M g) (x : ℕ → Bool) :
    g.residue A x = (magnitude rows.length cols.length M : ℂ) •
      bare.relay A cols rows.length qs M x := by
  funext z
  rw [residue, hg.spiders_eq, hg.inputs_eq, Pi.smul_apply, smul_eq_mul, relay, ← sumOver_mul_left]
  refine sumOver_congr fun a ha => ?_
  rw [hg.mass_eq h.wired h.green h.nodup_rows h.nodup_cols h.disjoint h.contains_rows
    h.contains_cols]
  have hbits : ∀ i < rows.length, a (rows.getD i 0) = z (qs i) := by
    intro i hi
    have hrow : rows[i]? = some (rows.getD i 0) := by
      rw [List.getElem?_eq_getElem hi, List.getD_eq_getElem _ _ hi]
    have hmem := List.mem_of_getElem? hrow
    have hpin := List.mem_of_getElem? (h.holds i _ hrow)
    rw [ha _ fun hc => (mem_sdiff.mp hc).2 (List.mem_toFinset.mpr hpin), pins_held h.nodup (h.holds i _ hrow) (h.not_input _ hmem)]
  rw [coupling_congr hbits fun _ _ => rfl]

/-- The bits of the rows count in the signs only. -/
theorem relay_congr {b b' : ℕ → Bool} (hlen : b' A.length = b A.length)
    (hb : ∀ p, (∀ i < rows.length, p ≠ qs i) → b' p = b p) (c : ℕ → Bool) (M : BitMatrix) :
    sumOver (bare.spiders \ A.toFinset)
        (fun a => bare.mass bare.support bare.turn a *
          coupling rows.length cols.length M c fun j => a (cols.getD j 0))
        (pins bare.inputs A x b') =
      sumOver (bare.spiders \ A.toFinset)
        (fun a => bare.mass bare.support bare.turn a *
          coupling rows.length cols.length M c fun j => a (cols.getD j 0))
        (pins bare.inputs A x b) := by
  refine sumOver_congr_off (N := (· ∈ rows)) (fun a a' haa => ?_) fun v hv => ?_
  · have hmass : bare.mass bare.support bare.turn a = bare.mass bare.support bare.turn a' :=
      mass_congr_bare h.wired.consistent fun v hv => haa v fun hmem => hv (h.bare_row v hmem)
    have hcol : ∀ j < cols.length, a (cols.getD j 0) = a' (cols.getD j 0) := by
      intro j hj
      refine haa _ fun hmem => h.disjoint hmem ?_
      rw [List.getD_eq_getElem _ _ hj]
      exact List.getElem_mem hj
    rw [hmass, coupling_congr (fun _ _ => rfl) hcol]
  · refine pins_congr (N := (· ∈ rows)) hlen (fun p r hp hr => hb p fun i hi hc => hr ?_) hv
    have hrow := h.holds i _ (List.getElem?_eq_getElem hi)
    rw [← hc, hp] at hrow
    exact Option.some.inj hrow ▸ List.getElem_mem hi

theorem relay_step {step : RowStep} (hstep : step.Within rows.length) (M : BitMatrix)
    (x : ℕ → Bool) :
    bare.relay A cols rows.length qs M x =
      actAll (step.gates qs) (bare.relay A cols rows.length qs (step.onBits M) x) := by
  funext z
  obtain ⟨z', hact, hrow, hother⟩ := RowStep.actAll_gates hstep h.injOn
    (bare.relay A cols rows.length qs (step.onBits M) x) z
  have hsigns : ∀ c, coupling rows.length cols.length (step.onBits M) (fun i => z' (qs i)) c =
      coupling rows.length cols.length M (fun i => z (qs i)) c := by
    intro c
    rw [coupling_congr hrow fun _ _ => rfl, RowStep.coupling_onBits hstep,
      RowStep.onRowBits_onRowBits hstep]
  rw [hact, relay, relay]
  simp only [hsigns]
  refine (h.relay_congr (hother _ fun i hi hc => ?_) hother _ M).symm
  have := h.lt i hi
  omega

theorem relay_steps {steps : List RowStep} (hsteps : ∀ s ∈ steps, s.Within rows.length)
    (M : BitMatrix) (x : ℕ → Bool) :
    bare.relay A cols rows.length qs M x =
      actAll (RowStep.allGates qs steps)
        (bare.relay A cols rows.length qs (RowStep.runBits steps M) x) := by
  induction steps generalizing M with
  | nil => rfl
  | cons s steps ih =>
      rw [h.relay_step (hsteps s List.mem_cons_self),
        ih (fun t ht => hsteps t (List.mem_cons_of_mem s ht)), RowStep.allGates, actAll_append,
        RowStep.runBits_cons]

/-- Row steps on the edges put their gates in front of the residue. -/
theorem leads {steps : List RowStep} (hsteps : ∀ s ∈ steps, s.Within rows.length)
    (hg : Wired bare rows cols M g) (hg' : Wired bare rows cols (RowStep.runBits steps M) g')
    (hk : A.length = k) : Leads k g A (RowStep.allGates qs steps) g' A := by
  have htidy := RowStep.allGates_tidy hsteps h.injOn fun i hi => hk ▸ h.lt i hi
  constructor
  case tidy => exact htidy
  case exists_eq =>
    have hpos := magnitude_pos rows.length cols.length M
    have hpos' := magnitude_pos rows.length cols.length (RowStep.runBits steps M)
    refine ⟨_, div_pos hpos hpos', fun x => ?_⟩
    rw [h.residue_eq hg, h.residue_eq hg', h.relay_steps hsteps,
      actAll_smul fun gate hgate => (htidy gate hgate).1, smul_smul, Complex.ofReal_div,
      div_mul_cancel₀]
    exact Complex.ofReal_ne_zero.mpr hpos'.ne'

end Rowed

end Diagram

end ZX
