import Mathlib
import ZX.Proofs.Extraction.Relay
import ZX.Proofs.Matrix.RowSpace
import ZX.Proofs.Unitary

/-!
# Row steps and the circuits they record

A list of row steps multiplies a matrix over two elements from the left by one matrix `E`. Recorded by
a circuit, the same steps map the bits of the qubits linearly, each step by its transpose. Gates that
are appended act in the order of the steps and come to the inverse transpose of `E`; those that are
appended for the undone list, and those that are put in front, act in the opposite order and come to
the transpose.
-/
namespace ZX

open Matrix Function State ByteMatrix

variable {n w : ℕ} {step : RowStep} {steps : List RowStep}

/-! ## The matrix of a list of steps -/

/-- The first `n` rows and `w` columns over two elements. -/
def table (n w : ℕ) (M : BitMatrix) : Matrix (Fin n) (Fin w) (ZMod 2) := of fun i j => vector (M i) j

theorem table_apply (M : BitMatrix) (i : Fin n) (j : Fin w) : table n w M i j = vector (M i) j := rfl

namespace RowStep

/-- The elementary matrix of a step. -/
def matrix (n : ℕ) : RowStep → Matrix (Fin n) (Fin n) (ZMod 2)
  | .swap a b => if h : a < n ∧ b < n then Matrix.swap (ZMod 2) ⟨a, h.1⟩ ⟨b, h.2⟩ else 1
  | .add s t => if h : s < n ∧ t < n then transvection ⟨t, h.2⟩ ⟨s, h.1⟩ 1 else 1

/-- Later steps stand further to the left. -/
def product (n : ℕ) : List RowStep → Matrix (Fin n) (Fin n) (ZMod 2)
  | [] => 1
  | step :: steps => product n steps * step.matrix n

theorem matrix_swap {a b : ℕ} (ha : a < n) (hb : b < n) :
    (RowStep.swap a b).matrix n = Matrix.swap (ZMod 2) ⟨a, ha⟩ ⟨b, hb⟩ := dif_pos ⟨ha, hb⟩

theorem matrix_add {s t : ℕ} (hs : s < n) (ht : t < n) :
    (RowStep.add s t).matrix n = transvection ⟨t, ht⟩ ⟨s, hs⟩ 1 := dif_pos ⟨hs, ht⟩

theorem matrix_mul_self (h : step.Within n) : step.matrix n * step.matrix n = 1 := by
  cases step with
  | swap a b =>
      rw [matrix_swap h.1 h.2.1]
      exact Matrix.swap_mul_self _ _
  | add s t =>
      obtain ⟨hs, ht, hst⟩ := h
      have hne : (⟨t, ht⟩ : Fin n) ≠ ⟨s, hs⟩ := fun hc => hst (Fin.mk.inj hc).symm
      have htwo : (1 : ZMod 2) + 1 = 0 := by decide
      rw [matrix_add hs ht, transvection_mul_transvection_same _ _ hne, htwo, transvection_zero]

theorem matrix_inv (h : step.Within n) : (step.matrix n)⁻¹ = step.matrix n :=
  Matrix.inv_eq_left_inv (matrix_mul_self h)

theorem isUnit_product (h : ∀ s ∈ steps, s.Within n) : IsUnit (product n steps) := by
  induction steps with
  | nil => exact isUnit_one
  | cons s steps ih =>
      have hs := matrix_mul_self (h s List.mem_cons_self)
      exact (ih fun s' hs' => h s' (List.mem_cons_of_mem s hs')).mul ⟨⟨_, _, hs, hs⟩, rfl⟩

theorem table_onBits (h : step.Within n) (M : BitMatrix) :
    table n w (step.onBits M) = step.matrix n * table n w M := by
  ext i j
  cases step with
  | swap a b =>
      obtain ⟨ha, hb, -⟩ := h
      rw [matrix_swap ha hb, Matrix.swap, PEquiv.toMatrix_toPEquiv_mul, Matrix.submatrix_apply,
        table_apply, table_apply, ← Fin.val_injective.swap_apply]
      rfl
  | add s t =>
      obtain ⟨hs, ht, -⟩ := h
      rw [matrix_add hs ht, table_apply]
      by_cases hit : i = ⟨t, ht⟩
      · rw [hit, transvection_mul_apply_same, one_mul, table_apply, table_apply, ← Pi.add_apply,
          ← vector_xor]
        refine congrArg (vector · j) (funext fun k => ?_)
        rw [onBits_add, if_pos rfl]
      · rw [transvection_mul_apply_of_ne _ _ _ _ hit, table_apply]
        refine congrArg (vector · j) (funext fun k => ?_)
        rw [onBits_add, if_neg fun hc => hit (Fin.ext hc)]

theorem table_runBits (h : ∀ s ∈ steps, s.Within n) (M : BitMatrix) :
    table n w (runBits steps M) = product n steps * table n w M := by
  induction steps generalizing M with
  | nil => rw [runBits_nil, product, Matrix.one_mul]
  | cons s steps ih =>
      rw [runBits_cons, ih fun s' hs' => h s' (List.mem_cons_of_mem s hs'),
        table_onBits (h s List.mem_cons_self), product, Matrix.mul_assoc]

/-- Replaying the steps multiplies every binary matrix of `n` rows by `E`. -/
def Multiplies (n : ℕ) (steps : List RowStep) (E : Matrix (Fin n) (Fin n) (ZMod 2)) : Prop :=
  ∀ (w : ℕ) (m : ByteMatrix), m.Shape n w →
    ∃ m', replay steps m = .ok m' ∧ m'.Shape n w ∧ table n w m'.bit = E * table n w m.bit

theorem multiplies_product (h : ∀ s ∈ steps, s.Within n) : Multiplies n steps (product n steps) := by
  intro w m hm
  obtain ⟨m', hrun, hm', hbits⟩ := hm.replay h
  exact ⟨m', hrun, hm', by rw [hbits, table_runBits h]⟩

end RowStep

/-! ## Any binary matrix -/

namespace ByteMatrix

def ofBits (n w : ℕ) (M : BitMatrix) : ByteMatrix :=
  ⟨Array.ofFn fun i : Fin n => Array.ofFn fun j : Fin w => if M i j then 1 else 0⟩

theorem shape_ofBits (M : BitMatrix) : (ofBits n w M).Shape n w := by
  rw [shape_iff]
  refine ⟨⟨Array.size_ofFn, fun row hrow => ?_⟩, fun row hrow x hx => ?_⟩
  · obtain ⟨i, rfl⟩ := Array.mem_ofFn.mp hrow
    exact Array.size_ofFn
  · obtain ⟨i, rfl⟩ := Array.mem_ofFn.mp hrow
    obtain ⟨j, rfl⟩ := Array.mem_ofFn.mp hx
    cases M i j <;> simp

theorem table_ofBits (M : BitMatrix) : table n w (ofBits n w M).bit = table n w M := by
  ext i j
  have hbit : (ofBits n w M).bit i j = M i j := by
    simp only [bit, ofBits, Array.getElem?_ofFn, i.isLt, j.isLt, dite_true, Option.bind_some]
    cases M i j <;> rfl
  rw [table_apply, table_apply, vector, vector, hbit]

end ByteMatrix

/-- The steps determine the matrix. -/
theorem RowStep.Multiplies.unique {E E' : Matrix (Fin n) (Fin n) (ZMod 2)}
    (h : Multiplies n steps E) (h' : Multiplies n steps E') : E' = E := by
  obtain ⟨m, hrun, _, htable⟩ := h n _ (shape_ofBits fun i j => i == j)
  obtain ⟨m', hrun', _, htable'⟩ := h' n _ (shape_ofBits fun i j => i == j)
  have hone : table n n (fun i j => i == j) = 1 := by
    ext i j
    rw [table_apply, Matrix.one_apply, vector]
    simp [Fin.ext_iff]
  obtain rfl : m = m' := Except.ok.inj (hrun.symm.trans hrun')
  rw [table_ofBits, hone, Matrix.mul_one] at htable htable'
  exact htable'.symm.trans htable

/-! ## Linear maps of the bits -/

/-- The bits of the qubits `qs` as a vector. -/
def bitsAt (qs : Fin n → ℕ) (x : ℕ → Bool) : Fin n → ZMod 2 := fun i => vector x (qs i)

/-- The operator takes basis states to basis states. It multiplies the bits of the qubits `qs` by `F`
and leaves the other bits alone. -/
def Realises (A : State → State) (qs : Fin n → ℕ) (F : Matrix (Fin n) (Fin n) (ZMod 2)) : Prop :=
  ∀ (k : ℕ) (x : ℕ → Bool), (∀ i, qs i < k) →
    ∃ y, A (ket k x) = ket k y ∧ bitsAt qs y = F *ᵥ bitsAt qs x ∧ ∀ p, (∀ i, p ≠ qs i) → y p = x p

namespace Realises

variable {A B : State → State} {qs : Fin n → ℕ} {F G : Matrix (Fin n) (Fin n) (ZMod 2)}

theorem refl (qs : Fin n → ℕ) : Realises id qs 1 := fun _ x _ =>
  ⟨x, rfl, (Matrix.one_mulVec _).symm, fun _ _ => rfl⟩

theorem comp (hB : Realises B qs G) (hA : Realises A qs F) :
    Realises (fun ψ => B (A ψ)) qs (G * F) := by
  intro k x hk
  obtain ⟨y, hy, hbits, hothers⟩ := hA k x hk
  obtain ⟨z, hz, hbits', hothers'⟩ := hB k y hk
  refine ⟨z, ?_, ?_, ?_⟩
  · show B (A (ket k x)) = ket k z
    rw [hy, hz]
  · rw [hbits', hbits, Matrix.mulVec_mulVec]
  · intro p hp
    rw [hothers' p hp, hothers p hp]

/-- Every output is the product. -/
theorem bitsAt_eq (hA : Realises A qs F) {k : ℕ} (hk : ∀ i, qs i < k) {x y : ℕ → Bool}
    (hy : A (ket k x) = ket k y) : bitsAt qs y = F *ᵥ bitsAt qs x := by
  obtain ⟨y', hy', hbits, -⟩ := hA k x hk
  have hket : ket k y = ket k y' := hy.symm.trans hy'
  have hagree : ∀ q < k, y q = y' q := by
    have hone : ket k y' y = 1 := by rw [← hket, ket_self]
    exact of_not_not fun hc => zero_ne_one ((if_neg hc).symm.trans hone)
  rw [← hbits]
  funext i
  rw [bitsAt, bitsAt, vector, vector, hagree (qs i) (hk i)]

end Realises

namespace RowStep

variable {qs : Fin n → ℕ} {f : RowStep → State → State}

/-- One step after the other: their product is the inverse transpose. -/
theorem realises_foldl (h : ∀ s ∈ steps, s.Within n)
    (hf : ∀ s ∈ steps, Realises (f s) qs (s.matrix n)ᵀ) :
    Realises (fun ψ => steps.foldl (fun ψ s => f s ψ) ψ) qs ((product n steps)⁻¹)ᵀ := by
  induction steps with
  | nil =>
      rw [product, inv_one, Matrix.transpose_one]
      exact .refl qs
  | cons s steps ih =>
      rw [product, Matrix.mul_inv_rev, matrix_inv (h s List.mem_cons_self), Matrix.transpose_mul]
      have hrest := ih (fun t ht => h t (List.mem_cons_of_mem s ht))
        fun t ht => hf t (List.mem_cons_of_mem s ht)
      exact hrest.comp (hf s List.mem_cons_self)

/-- The last step first: their product is the transpose. -/
theorem realises_foldr (hf : ∀ s ∈ steps, Realises (f s) qs (s.matrix n)ᵀ) :
    Realises (fun ψ => steps.foldr f ψ) qs (product n steps)ᵀ := by
  induction steps with
  | nil =>
      rw [product, Matrix.transpose_one]
      exact .refl qs
  | cons s steps ih =>
      rw [product, Matrix.transpose_mul]
      have hrest := ih fun t ht => hf t (List.mem_cons_of_mem s ht)
      exact (hf s List.mem_cons_self).comp hrest

end RowStep

/-! ## The map of a step -/

/-- An exchange of valuations that is its own inverse takes basis states to basis states. -/
theorem State.shift_ket {π : (ℕ → Bool) → ℕ → Bool} {k : ℕ} (hπ : ∀ z, π (π z) = z)
    (hk : ∀ z z' : ℕ → Bool, (∀ q < k, z q = z' q) → ∀ q < k, π z q = π z' q) (x : ℕ → Bool) :
    shift π (ket k x) = ket k (π x) := by
  funext z
  refine if_congr ⟨fun h q hq => ?_, fun h q hq => ?_⟩ rfl rfl
  · have hback := hk (π z) x h q hq
    rwa [hπ] at hback
  · have hback := hk z (π x) h q hq
    rwa [hπ] at hback

namespace RowStep

theorem onRowBits_congr {k : ℕ} (h : step.Within k) {z z' : ℕ → Bool} (hz : ∀ q < k, z q = z' q) :
    ∀ q < k, step.onRowBits z q = step.onRowBits z' q := by
  intro q hq
  cases step with
  | swap a b =>
      rw [onRowBits, exchange_apply, exchange_apply]
      apply hz
      rw [Equiv.swap_apply_def]
      split_ifs
      · exact h.2.1
      · exact h.1
      · exact hq
  | add s t =>
      simp only [onRowBits, toggle]
      by_cases hqs : q = s
      · subst hqs
        rw [update_self, update_self, hz q hq, hz t h.2.1]
      · rw [update_of_ne hqs, update_of_ne hqs, hz q hq]

/-- A step maps the bits of its rows by its transpose. -/
theorem bitsAt_onRowBits (h : step.Within n) (b : ℕ → Bool) :
    bitsAt (fun i : Fin n => (i : ℕ)) (step.onRowBits b) =
      (step.matrix n)ᵀ *ᵥ bitsAt (fun i => (i : ℕ)) b := by
  funext i
  cases step with
  | swap r s =>
      obtain ⟨hr, hs, -⟩ := h
      rw [matrix_swap hr hs, Matrix.transpose_swap, Matrix.swap_mulVec, Function.comp_apply]
      rw [bitsAt, bitsAt, ← Fin.val_injective.swap_apply, vector, vector, onRowBits, exchange_apply]
  | add s t =>
      obtain ⟨hs, ht, -⟩ := h
      have htranspose : (transvection (⟨t, ht⟩ : Fin n) ⟨s, hs⟩ (1 : ZMod 2))ᵀ =
          transvection ⟨s, hs⟩ ⟨t, ht⟩ 1 := by
        rw [transvection, transvection, Matrix.transpose_add, Matrix.transpose_one,
          Matrix.transpose_single]
      rw [matrix_add hs ht, htranspose, transvection, Matrix.add_mulVec, Matrix.one_mulVec,
        Pi.add_apply, Matrix.single_mulVec, one_mul]
      by_cases his : i = ⟨s, hs⟩
      · subst his
        have hxor := congrFun (vector_xor b fun _ => b t) s
        rw [update_self]
        refine Eq.trans ?_ hxor
        rw [bitsAt, vector, vector, onRowBits, toggle, update_self]
      · rw [update_of_ne his, Pi.zero_apply, add_zero, bitsAt, bitsAt, vector, vector, onRowBits,
          toggle, update_of_ne fun hc => his (Fin.ext hc)]

theorem realises_shift {qs : ℕ → ℕ} (h : step.Within n) (hqs : Set.InjOn qs (Set.Iio n)) :
    Realises (shift (step.rename qs).onRowBits) (fun i : Fin n => qs i) (step.matrix n)ᵀ := by
  intro k x hk
  have hwithin : (step.rename qs).Within k := h.rename hqs fun i hi => hk ⟨i, hi⟩
  refine ⟨(step.rename qs).onRowBits x, ?_, ?_, ?_⟩
  · exact shift_ket (onRowBits_onRowBits hwithin) (fun z z' => onRowBits_congr hwithin) x
  · refine Eq.trans (funext fun i => ?_) (bitsAt_onRowBits h fun i => x (qs i))
    rw [bitsAt, bitsAt, vector, vector, onRowBits_rename h hqs x i.isLt]
  · intro p hp
    exact onRowBits_rename_of_ne h x fun i hi => hp ⟨i, hi⟩

/-! ## Gates in front -/

theorem actAll_allGates (qs : ℕ → ℕ) (steps : List RowStep) (ψ : State) :
    actAll (allGates qs steps) ψ = steps.foldr (fun s => actAll (s.gates qs)) ψ := by
  induction steps with
  | nil => rfl
  | cons s steps ih => rw [allGates, actAll_append, ih, List.foldr_cons]

theorem realises_allGates {qs : ℕ → ℕ} (h : ∀ s ∈ steps, s.Within n)
    (hqs : Set.InjOn qs (Set.Iio n)) :
    Realises (actAll (allGates qs steps)) (fun i : Fin n => qs i) (product n steps)ᵀ := by
  rw [funext (actAll_allGates qs steps)]
  refine realises_foldr fun s hs => ?_
  rw [funext (actAll_gates_eq (h s hs) hqs)]
  exact realises_shift (h s hs) hqs

theorem kind_of_mem_gates {qs : ℕ → ℕ} {gate : Gate} (h : gate ∈ step.gates qs) :
    gate.kind = .cnot := by
  cases step with
  | swap r s =>
      simp only [gates, List.mem_cons, List.not_mem_nil, or_false] at h
      obtain rfl | rfl | rfl := h <;> rfl
  | add s t => rw [List.mem_singleton.mp h, Gate.plain]

theorem kind_of_mem_allGates {qs : ℕ → ℕ} {gate : Gate} (h : gate ∈ allGates qs steps) :
    gate.kind = .cnot := by
  induction steps with
  | nil => exact absurd h List.not_mem_nil
  | cons s steps ih =>
      obtain h | h := List.mem_append.mp h
      · exact ih h
      · exact kind_of_mem_gates h

/-! ## Appended gates -/

/-- The gate that a circuit appends for a step. -/
def gate : RowStep → Gate
  | .swap r s => .plain .swap [r, s]
  | .add s t => .plain .cnot [t, s]

theorem gate_kind (step : RowStep) : step.gate.kind = .cnot ∨ step.gate.kind = .swap := by
  cases step with
  | swap r s => exact .inr rfl
  | add s t => exact .inl rfl

theorem replay_circuit (steps : List RowStep) (c : Circuit) :
    replay steps c = .ok { c with gates := c.gates ++ steps.map gate } := by
  induction steps generalizing c with
  | nil =>
      rw [List.map_nil, List.append_nil]
      rfl
  | cons s steps ih =>
      have happly : s.apply c = .ok { c with gates := c.gates ++ [s.gate] } := by cases s <;> rfl
      rw [replay_cons, happly]
      refine (ih _).trans ?_
      rw [List.map_cons, List.append_assoc]
      rfl

theorem realises_gate (h : step.Within n) :
    Realises step.gate.act (fun i : Fin n => (i : ℕ)) (step.matrix n)ᵀ := by
  have hact : step.gate.act = shift (step.rename id).onRowBits := by cases step <;> rfl
  rw [hact]
  exact realises_shift h (Set.injOn_id _)

/-- The circuit of the steps alone. -/
def circuit (n : ℕ) (steps : List RowStep) : Circuit :=
  { Circuit.empty n with gates := steps.map gate }

theorem replay_empty (n : ℕ) (steps : List RowStep) :
    replay steps (Circuit.empty n) = .ok (circuit n steps) := replay_circuit steps _

theorem circuit_act (n : ℕ) (steps : List RowStep) (ψ : State) :
    (circuit n steps).act ψ = steps.foldl (fun ψ s => s.gate.act ψ) ψ := by
  rw [Circuit.act, circuit, Circuit.empty, Phase.unit_zero, one_smul, actAll, List.foldl_map]

theorem realises_circuit (h : ∀ s ∈ steps, s.Within n) :
    Realises (circuit n steps).act (fun i : Fin n => (i : ℕ)) ((product n steps)⁻¹)ᵀ := by
  rw [funext (circuit_act n steps)]
  exact realises_foldl h fun s hs => realises_gate (h s hs)

theorem realises_circuit_reverse (h : ∀ s ∈ steps, s.Within n) :
    Realises (circuit n steps.reverse).act (fun i : Fin n => (i : ℕ)) (product n steps)ᵀ := by
  have hact : (circuit n steps.reverse).act = fun ψ => steps.foldr (fun s => s.gate.act) ψ := by
    funext ψ
    rw [circuit_act, List.foldl_reverse]
  rw [hact]
  exact realises_foldr fun s hs => realises_gate (h s hs)

/-- What the appended gates do to the bits makes up for what the steps do to a matrix. -/
theorem transpose_mulVec_of_circuit (h : ∀ s ∈ steps, s.Within n) {M : BitMatrix} {x y : ℕ → Bool}
    (hy : (circuit n steps).act (ket n x) = ket n y) :
    (table n w (runBits steps M))ᵀ *ᵥ bitsAt (fun i => (i : ℕ)) y =
      (table n w M)ᵀ *ᵥ bitsAt (fun i => (i : ℕ)) x := by
  have hcancel : (product n steps)ᵀ * ((product n steps)⁻¹)ᵀ = 1 := by
    rw [← Matrix.transpose_mul, Matrix.nonsing_inv_mul _ ((isUnit_iff_isUnit_det _).mp
      (isUnit_product h)), Matrix.transpose_one]
  rw [(realises_circuit h).bitsAt_eq (fun i => i.isLt) hy, table_runBits h, Matrix.transpose_mul,
    Matrix.mulVec_mulVec, Matrix.mul_assoc, hcancel, Matrix.mul_one]

/-- One matrix stands for the steps. The circuit that replays them maps bits by its inverse transpose,
the circuit that undoes them and the gates that are put in front map bits by its transpose. -/
theorem exists_unique_parity_matrix (h : ∀ s ∈ steps, s.Within n) :
    ∃ E : Matrix (Fin n) (Fin n) (ZMod 2),
      Multiplies n steps E ∧ (∀ E', Multiplies n steps E' → E' = E) ∧ IsUnit E ∧
      (∃ c : Circuit, replay steps (Circuit.empty n) = .ok c ∧ c.width = n ∧
        (∀ gate ∈ c.gates, gate.kind = .cnot ∨ gate.kind = .swap) ∧
        Realises c.act (fun i : Fin n => (i : ℕ)) (E⁻¹)ᵀ ∧
        ∀ (w : ℕ) (m : ByteMatrix), m.Shape n w → ∃ m', replay steps m = .ok m' ∧
          ∀ x y, c.act (ket n x) = ket n y →
            (table n w m'.bit)ᵀ *ᵥ bitsAt (fun i => (i : ℕ)) y =
              (table n w m.bit)ᵀ *ᵥ bitsAt (fun i => (i : ℕ)) x) ∧
      (∃ c : Circuit, undo steps (Circuit.empty n) = .ok c ∧ c.width = n ∧
        (∀ gate ∈ c.gates, gate.kind = .cnot ∨ gate.kind = .swap) ∧
        Realises c.act (fun i : Fin n => (i : ℕ)) Eᵀ) ∧
      ∀ (c : Circuit) (qubits : List ℕ), qubits.length = n → qubits.Nodup →
        ∃ front, replay steps (⟨c, qubits⟩ : FrontierGates) =
            .ok ⟨{ c with gates := front ++ c.gates }, qubits⟩ ∧
          (∀ gate ∈ front, gate.kind = .cnot) ∧
          Realises (actAll front) (fun i : Fin n => qubits.getD i 0) Eᵀ := by
  have hkinds : ∀ steps' : List RowStep, ∀ gate ∈ (circuit n steps').gates,
      gate.kind = .cnot ∨ gate.kind = .swap := by
    intro steps' gate hgate
    obtain ⟨s, _, rfl⟩ := List.mem_map.mp hgate
    exact gate_kind s
  refine ⟨product n steps, multiplies_product h, fun E' hE' => (multiplies_product h).unique hE',
    isUnit_product h, ?_, ?_, ?_⟩
  · refine ⟨circuit n steps, replay_empty n steps, rfl, hkinds steps, realises_circuit h, ?_⟩
    intro w m hm
    obtain ⟨m', hrun, _, hbits⟩ := hm.replay h
    refine ⟨m', hrun, fun x y hy => ?_⟩
    rw [hbits]
    exact transpose_mulVec_of_circuit h hy
  · exact ⟨circuit n steps.reverse, replay_empty n steps.reverse, rfl, hkinds steps.reverse,
      realises_circuit_reverse h⟩
  · intro c qubits hlen hnodup
    have hqs : Set.InjOn (fun i => qubits.getD i 0) (Set.Iio n) := hlen ▸ Diagram.injOn_getD hnodup
    exact ⟨_, replay_frontierGates h hlen c, fun gate => kind_of_mem_allGates,
      realises_allGates h hqs⟩

/-- A list whose matrix differs from its transpose and from its inverse. -/
def crossed : List RowStep := [.swap 0 2, .add 0 1, .add 2 0]

theorem exists_unique_parity_matrix_crossed :
    (∀ s ∈ crossed, s.Within 3) ∧
      Multiplies 3 crossed !![1, 0, 1; 0, 1, 1; 1, 0, 0] ∧
      (∃ c, replay crossed (Circuit.empty 3) = .ok c ∧
        Realises c.act (fun i : Fin 3 => (i : ℕ)) (!![1, 0, 1; 0, 1, 1; 1, 0, 0]⁻¹)ᵀ) ∧
      ∃ front, replay crossed (⟨Circuit.empty 8, [4, 1, 7]⟩ : FrontierGates) =
          .ok ⟨{ Circuit.empty 8 with gates := front ++ [] }, [4, 1, 7]⟩ ∧
        Realises (actAll front) (fun i : Fin 3 => [4, 1, 7].getD i 0)
          !![1, 0, 1; 0, 1, 1; 1, 0, 0]ᵀ := by
  have hwithin : ∀ s ∈ crossed, s.Within 3 := by decide
  have hproduct : product 3 crossed = !![1, 0, 1; 0, 1, 1; 1, 0, 0] := by decide +kernel
  obtain ⟨E, hE, hunique, -, ⟨c, hc, -, -, hact, -⟩, -, hfront⟩ :=
    exists_unique_parity_matrix hwithin
  obtain rfl : !![1, 0, 1; 0, 1, 1; 1, 0, 0] = E := by
    rw [← hproduct]
    exact hunique _ (multiplies_product hwithin)
  obtain ⟨front, hrun, -, hrealises⟩ := hfront (Circuit.empty 8) [4, 1, 7] rfl (by decide)
  exact ⟨hwithin, hE, ⟨c, hc, hact⟩, front, hrun, hrealises⟩

end RowStep

end ZX
