import Mathlib
import ZX.Qasm.Expansion
import ZX.Proofs.Drawing.Network
import ZX.Proofs.Qasm.Read

/-!
# Printed circuits read back

A circuit with at least one gate is read back from its text up to the global phase, as long as the
names of its qubits fit a table. A circuit without gates loses its qubits: they get their names with
the first statement.
-/
namespace ZX

/-- A gate that the circuit language can write on `n` qubits: one of a known kind that acts on
distinct qubits, with an angle only where its kind has one. -/
structure Gate.Writable (n : ℕ) (g : Gate) : Prop where
  known : g.kind ≠ .unknown
  fits : g.Fits n
  phase : g.kind.isRotation = false → g.phase = Phase.zero

namespace Gate

instance (n : ℕ) (g : Gate) : Decidable (g.Writable n) :=
  decidable_of_iff
    (g.kind ≠ .unknown ∧ g.Fits n ∧ (g.kind.isRotation = false → g.phase = Phase.zero))
    ⟨fun h => ⟨h.1, h.2.1, h.2.2⟩, fun h => ⟨h.known, h.fits, h.phase⟩⟩

namespace Writable

variable {n : ℕ} {g : Gate}

theorem arity (h : g.Writable n) : g.kind.arity = some g.qubits.length := by
  obtain ⟨k, hk⟩ : ∃ k, g.kind.arity = some k := by
    have hknown := h.known
    cases hkind : g.kind <;> simp_all [GateKind.arity]
  rw [hk, (h.fits k hk).1]

theorem nodup (h : g.Writable n) : g.qubits.Nodup := (h.fits _ h.arity).2.1

theorem below (h : g.Writable n) {q : ℕ} (hq : q ∈ g.qubits) : q < n :=
  (h.fits _ h.arity).2.2 q hq

theorem qubits_ne_nil (h : g.Writable n) : g.qubits ≠ [] := by
  intro hnil
  have harity := h.arity
  rw [hnil] at harity
  cases hkind : g.kind <;> simp [hkind, GateKind.arity] at harity

end Writable

end Gate

/-! ## Angles -/

namespace Ratio

variable {m n : ℤ}

theorem mul_intCast (h : int64 (m * n) = .ok (m * n)) :
    Ratio.mul m n = .ok ((m * n : ℤ) : ℚ) := by
  have hmake := make_num_den ((m * n : ℤ) : ℚ)
  unfold Ratio.mul
  simp only [Rat.num_intCast, Rat.den_intCast, Nat.cast_one, Int.gcd_one_right, Int.gcd_one_left,
    Int.ediv_one, h] at hmake ⊢
  exact hmake

theorem mul_of_zero (y : ℚ) : Ratio.mul 0 y = .ok 0 := by
  have hden : (y.den : ℤ) ≠ 0 := by exact_mod_cast y.den_nz
  unfold Ratio.mul
  simp only [Rat.num_zero, Rat.den_zero, Nat.cast_one, Int.gcd_zero_left, Int.natAbs_natCast,
    Int.gcd_one_left, Int.ediv_one, Int.zero_ediv, zero_mul, Int.ediv_self hden]
  rfl

theorem add_intCast (h : int64 (m + n) = .ok (m + n)) :
    Ratio.add m n = .ok ((m + n : ℤ) : ℚ) := by
  have hmake := make_num_den ((m + n : ℤ) : ℚ)
  unfold Ratio.add
  simp only [Rat.num_intCast, Rat.den_intCast, if_true, h] at hmake ⊢
  exact hmake

theorem div?_intCast (hn : n ≠ 0) : Ratio.div? m n = .ok (make? m n) := by
  unfold Ratio.div?
  simp only [Rat.num_intCast, Rat.den_intCast, Int.cast_eq_zero, hn, if_false, if_true]
  rfl

end Ratio

namespace Qasm

namespace Value

theorem ofWord_of_lt {n : ℕ} (h : n < 2 ^ 63) : ofWord n = ofRat ((n : ℤ) : ℚ) := by
  rw [ofWord, if_pos h]

/-- An integer times a sum with integer coefficients. -/
theorem mul_ofRat {m k l : ℤ} (hk : int64 (m * k) = .ok (m * k))
    (hl : int64 (m * l) = .ok (m * l)) :
    mul (ofRat m) ⟨k, l⟩ = .ok ⟨((m * k : ℤ) : ℚ), ((m * l : ℤ) : ℚ)⟩ := by
  have hrational : Ratio.add ((m * k : ℤ) : ℚ) 0 = .ok ((m * k : ℤ) : ℚ) := by
    have h := Ratio.add_intCast (m := m * k) (n := 0) (by rw [add_zero, hk])
    rwa [add_zero, Int.cast_zero] at h
  have hpi : Ratio.add 0 ((m * l : ℤ) : ℚ) = .ok ((m * l : ℤ) : ℚ) := by
    have h := Ratio.add_intCast (m := 0) (n := m * l) (by rw [zero_add, hl])
    rwa [zero_add, Int.cast_zero] at h
  simp only [mul, ofRat, Ratio.mul_of_zero, Ratio.mul_intCast hk, Ratio.mul_intCast hl, checked,
    hrational, hpi, bind, Except.bind, pure, Except.pure]

/-- A phase is its numerator divided by its denominator. -/
theorem div_ofRat (p : Phase) :
    div ⟨0, (p.num : ℚ)⟩ (ofRat ((p.den : ℤ) : ℚ)) = .ok ⟨0, p.halfTurns⟩ := by
  have hden : (p.den : ℤ) ≠ 0 := by exact_mod_cast p.halfTurns.den_nz
  have hzero : quotient 0 ((p.den : ℤ) : ℚ) = .ok 0 := by
    have hmake : Ratio.make? 0 (p.den : ℤ) = some 0 := by
      rw [Ratio.make?, Ratio.make, if_neg hden, if_pos (.inl rfl), Rat.zero_divInt]
      rfl
    have h := Ratio.div?_intCast (m := 0) hden
    rw [Int.cast_zero, hmake] at h
    rw [quotient, h]
    rfl
  have hquotient : quotient (p.num : ℚ) ((p.den : ℤ) : ℚ) = .ok p.halfTurns := by
    have hmake : Ratio.make? p.num (p.den : ℤ) = some p.halfTurns := by
      rw [Ratio.make?, Phase.num, Phase.den, Ratio.make_num_den]
      rfl
    rw [quotient, Ratio.div?_intCast hden, hmake]
    rfl
  have hnonzero : (ofRat ((p.den : ℤ) : ℚ)).isZero = false := by
    have hden' : ((p.den : ℤ) : ℚ) ≠ 0 := Int.cast_ne_zero.mpr hden
    rw [isZero, ofRat, decide_eq_false hden', Bool.false_and]
  rw [div, hnonzero]
  simp only [Bool.false_eq_true, if_false, ofRat, if_true, hzero, hquotient]
  rfl

end Value

theorem Expr.eval_ofPhase (p : Phase) (env : List (String × Value)) :
    (Expr.ofPhase p).eval env = .ok ⟨0, p.halfTurns⟩ := by
  have hden : p.den < 2 ^ 63 := p.fits
  have habs : p.num.natAbs ≤ p.den := by
    have h := p.abs_num_le
    rw [Int.abs_eq_natAbs] at h
    exact_mod_cast h
  have hfits : ∀ m : ℤ, m.natAbs ≤ p.den → int64 m = .ok m := fun m hm =>
    int64_eq_ok.mpr ⟨by omega, rfl⟩
  -- The sign is an operator, so the numerator is read as the negation of its absolute value.
  have hnum : (if p.num < 0 then Expr.neg (.int p.num.natAbs) else .int p.num.natAbs).eval env =
      .ok (Value.ofRat p.num) := by
    have hword := Value.ofWord_of_lt (lt_of_le_of_lt habs hden)
    split
    · rename_i hneg
      have hsign : (p.num.natAbs : ℤ) * -1 = p.num := by omega
      have h := Value.mul_ofRat (m := p.num.natAbs) (k := -1) (l := 0)
        (hfits _ (by omega)) (hfits _ (by omega))
      have hone : Value.ofRat (-1) = ⟨((-1 : ℤ) : ℚ), ((0 : ℤ) : ℚ)⟩ := by simp [Value.ofRat]
      rw [Expr.eval, Expr.eval, pure_bind, hword, Value.neg, hone, h, hsign, mul_zero,
        Int.cast_zero, Value.ofRat]
    · rename_i hneg
      rw [Expr.eval, hword, Int.natAbs_of_nonneg (not_lt.mp hneg)]
      rfl
  have hmul : Value.mul (Value.ofRat p.num) Value.pi = .ok ⟨0, (p.num : ℚ)⟩ := by
    have h := Value.mul_ofRat (m := p.num) (k := 0) (l := 1)
      (hfits _ (by omega)) (hfits _ (by omega))
    rw [mul_zero, mul_one, Int.cast_zero, Int.cast_one] at h
    exact h
  show Value.combine Value.div (Value.combine Value.mul (Expr.eval env _) (.ok Value.pi))
    (.ok (Value.ofWord p.den)) = _
  rw [hnum, Value.ofWord_of_lt hden]
  show Value.combine Value.div (Value.mul (Value.ofRat p.num) Value.pi) _ = _
  rw [hmul]
  exact Value.div_ofRat p

/-! ## Calls of gates without a body

The numbering of the gates is a hash table that a proof does not evaluate. It does not matter here,
since no gate calls another whatever their numbers are.
-/

namespace CallGraph

/-- Where no gate calls another, none is marked. -/
theorem follow_of_calls_eq_nil {g : CallGraph} (h : ∀ v, g.calls.getD v [] = []) (n : ℕ)
    (marked : Array Bool) (work : List ℕ) : g.follow n marked work = marked := by
  induction n generalizing work with
  | zero => rfl
  | succ n ih =>
      cases work with
      | nil => rfl
      | cons v work =>
          rw [follow, h v]
          exact ih work

theorem reach_of_calls_eq_nil {g : CallGraph} (h : ∀ v, g.calls.getD v [] = []) :
    g.reach = fun _ => Array.replicate g.calls.size false :=
  funext fun _ => follow_of_calls_eq_nil h _ _ _

theorem groups_of_calls_eq_nil {g : CallGraph} (h : ∀ v, g.calls.getD v [] = []) :
    g.groups = 0 := by
  have hleads : ∀ v w, (((Array.range g.calls.size).map g.reach).getD v #[]).getD w false =
      false := by
    intro v w
    rw [reach_of_calls_eq_nil h]
    by_cases hv : v < g.calls.size <;> by_cases hw : w < g.calls.size <;> simp [hv, hw]
  simp only [groups, hleads, List.filter_false, List.countP_nil]

/-- A gate without a body calls nothing. -/
theorem ofGates_calls {gates : List GateDefinition} (h : ∀ d ∈ gates, d.body = none) (v : ℕ) :
    (ofGates gates).calls.getD v [] = [] := by
  unfold ofGates
  refine List.foldlRecOn (motive := fun calls : Array (List ℕ) => calls.getD v [] = []) gates _
    ?_ ?_
  · rw [Array.getD_eq_getD_getElem?, Array.getElem?_replicate]
    split <;> rfl
  · intro calls hcalls d hd
    simp only [h d hd, Option.getD_none, List.flatMap_nil, List.filterMap_nil, List.nil_append]
    split
    · rw [Array.getD_eq_getD_getElem?] at hcalls ⊢
      rw [Array.getElem?_modify]
      simpa using hcalls
    · exact hcalls

end CallGraph

/-! ## The checks -/

namespace Program

/-- The definitions of the gates that every program knows. -/
def standard : List GateDefinition := gates standardGates

variable (c : Circuit)

theorem gates_ofCircuit : gates (ofCircuit c ++ standardGates) = standard := by
  simp [gates, ofCircuit, standard, List.filterMap_map]

theorem statements_ofCircuit :
    statements (ofCircuit c ++ standardGates) = c.gates.map Statement.ofGate := by
  simp [statements, ofCircuit, standardGates, List.filterMap_map]

theorem registers_ofCircuit :
    registers (ofCircuit c ++ standardGates) = [⟨"q", .quantum, c.width⟩] := by
  simp [registers, ofCircuit, standardGates, List.filterMap_map]

end Program

theorem body_of_mem_standard : ∀ d ∈ Program.standard, d.body = none := by
  simp [Program.standard, Program.gates, Program.standardGates]

theorem findGate?_standard {k : GateKind} {n : ℕ} (h : k.arity = some n) :
    ∃ d, findGate? Program.standard k.name = some d ∧
      d.parameters.length = (if k.isRotation then 1 else 0) ∧ d.arguments.length = n ∧
      d.body = none := by
  cases k <;> cases h <;> exact ⟨_, rfl, rfl, rfl, rfl⟩

namespace Scope

/-- What a printed circuit on `n` qubits can refer to. -/
def ofWidth (n : ℕ) : Scope := ⟨Program.standard, [⟨"q", .quantum, n⟩], []⟩

/-- Single elements always have matching sizes. -/
theorem matchingErrors_of_forall_one {sizes : List (Except Error ℕ)} (h : ∀ x ∈ sizes, x = .ok 1) :
    matchingErrors sizes = [] := by
  induction sizes with
  | nil => rfl
  | cons x sizes ih =>
      obtain rfl := h x List.mem_cons_self
      exact ih fun y hy => h y (List.mem_cons_of_mem _ hy)

theorem exprErrors_ofPhase (s : Scope) (p : Phase) : s.exprErrors (.ofPhase p) = [] := by
  unfold Expr.ofPhase
  split <;> rfl

theorem statementErrors_ofGate {n : ℕ} {g : Gate} (h : g.Writable n) :
    (ofWidth n).statementErrors (.ofGate g) = .ok [] := by
  obtain ⟨d, hfind, hparameters, harguments, -⟩ := findGate?_standard h.arity
  have hsizes : matchingErrors ((g.qubits.map Operand.ofQubit).map
      ((ofWidth n).operandSize .quantum)) = [] := by
    refine matchingErrors_of_forall_one fun x hx => ?_
    simp only [List.map_map, List.mem_map, Function.comp_apply] at hx
    obtain ⟨q, hq, rfl⟩ := hx
    simp [operandSize, register?, ofWidth, Operand.ofQubit, h.below hq]
  have hlength : (if g.kind.isRotation then [Expr.ofPhase g.phase] else []).length =
      d.parameters.length := by
    rw [hparameters]
    split <;> rfl
  have hangle : (if g.kind.isRotation then [Expr.ofPhase g.phase] else []).flatMap
      (ofWidth n).exprErrors = [] := by
    split
    · rw [List.flatMap_singleton, exprErrors_ofPhase]
    · rfl
  unfold Statement.ofGate
  rw [statementErrors, hsizes, hangle, arityErrors,
    show (ofWidth n).gates = Program.standard from rfl, hfind]
  simp [hlength, harguments, pure, Except.pure]

end Scope

theorem errors_ofCircuit {c : Circuit} (hpos : 0 < c.width)
    (hgates : ∀ g ∈ c.gates, g.Writable c.width) :
    Program.errors (Program.ofCircuit c ++ Program.standardGates) = .ok [] := by
  have htop : (Scope.ofWidth c.width).statementsErrors (c.gates.map Statement.ofGate) =
      .ok [] := by
    have hall : ∀ s ∈ c.gates.map Statement.ofGate,
        (Scope.ofWidth c.width).statementErrors s = .ok [] := by
      intro s hs
      obtain ⟨g, hg, rfl⟩ := List.mem_map.mp hs
      exact Scope.statementErrors_ofGate (hgates g hg)
    rw [Scope.statementsErrors, mapM_eq_ok hall]
    simp [bind, Except.bind, pure, Except.pure]
  have hbodies : (Program.standard.mapM fun d =>
      (d.scope Program.standard).statementsErrors (d.body.getD [])) =
      .ok (Program.standard.map fun _ => []) := by
    refine mapM_eq_ok fun d hd => ?_
    rw [body_of_mem_standard d hd]
    rfl
  have hdefinitions : checkDefinitions [] Program.standard = [] := by decide
  have hregisters : checkRegisters [] [⟨"q", .quantum, c.width⟩] = [] := by
    simp [checkRegisters, Nat.ne_of_gt hpos]
  have hgroups : (CallGraph.ofGates Program.standard).groups = 0 :=
    CallGraph.groups_of_calls_eq_nil (CallGraph.ofGates_calls body_of_mem_standard)
  unfold Program.errors
  rw [Program.gates_ofCircuit, Program.registers_ofCircuit, Program.statements_ofCircuit]
  simp only [hdefinitions, hregisters, hgroups]
  rw [← Scope.ofWidth, htop, hbodies]
  simp [bind, Except.bind, pure, Except.pure]

/-! ## The gates -/

namespace Environment

/-- What the names of a printed circuit on `n` qubits stand for. -/
def ofWidth (n : ℕ) : Environment := ⟨Program.standard, [("q", ⟨0, n⟩)], []⟩

theorem operand_ofQubit (n q : ℕ) : (ofWidth n).operand (.ofQubit q) = .ok ⟨q, 1⟩ := by
  show Except.ok (BitRange.mk (0 + q) 1) = _
  rw [zero_add]

theorem select_singles (qs : List ℕ) (k : ℕ) : select (qs.map fun q => ⟨q, 1⟩) k = qs := by
  simp [select, Function.comp_def]

theorem repetitions_singles {qs : List ℕ} (h : qs ≠ []) :
    repetitions (qs.map fun q => ⟨q, 1⟩) = 1 := by
  cases qs with
  | nil => exact absurd rfl h
  | cons q qs =>
    have hone : ∀ rs : List ℕ, (rs.map fun q => (⟨q, 1⟩ : BitRange)).foldl
        (fun n r => max n r.size) 1 = 1 := by
      intro rs
      induction rs with
      | nil => rfl
      | cons r rs ih => exact ih
    exact hone qs

theorem primitive_ofGate {n : ℕ} {g : Gate} (h : g.Writable n) :
    primitive (GateKind.ofName g.kind.name)
      (if g.kind.isRotation then [⟨0, g.phase.halfTurns⟩] else []) g.qubits = .ok [g] := by
  have hkind : GateKind.ofName g.kind.name = g.kind := by cases g.kind <;> rfl
  have hangle : Value.toPhase ⟨0, g.phase.halfTurns⟩ = .ok g.phase := by
    rw [Value.toPhase, if_pos rfl, Phase.ofRat_halfTurns]
    rfl
  unfold primitive
  rw [eraseDups_of_nodup h.nodup, if_neg (not_not.mpr rfl), hkind]
  cases hrotation : g.kind.isRotation with
  | true =>
      rw [if_pos rfl]
      simp only [hangle]
      rfl
  | false =>
      show Except.ok [Gate.plain g.kind g.qubits] = _
      rw [Gate.plain, ← h.phase hrotation]

theorem expand_ofGate {n : ℕ} {g : Gate} (h : g.Writable n) (depth : ℕ) :
    expand (depth + 1) (ofWidth n) (.ofGate g) = .ok [g] := by
  obtain ⟨d, hfind, -, -, hbody⟩ := findGate?_standard h.arity
  have hvalues : (if g.kind.isRotation then [Expr.ofPhase g.phase] else []).mapM (Expr.eval []) =
      .ok (if g.kind.isRotation then [⟨0, g.phase.halfTurns⟩] else []) := by
    split
    · rw [List.mapM_cons, Expr.eval_ofPhase]
      rfl
    · rfl
  have hranges : (g.qubits.map Operand.ofQubit).mapM (ofWidth n).operand =
      .ok (g.qubits.map fun q => ⟨q, 1⟩) := by
    rw [List.mapM_map]
    exact mapM_eq_ok fun q _ => operand_ofQubit n q
  have hblocks : (List.range (repetitions (g.qubits.map fun q => ⟨q, 1⟩))).mapM (fun k =>
      primitive (GateKind.ofName g.kind.name)
        (if g.kind.isRotation then [⟨0, g.phase.halfTurns⟩] else [])
        (select (g.qubits.map fun q => ⟨q, 1⟩) k)) = .ok [[g]] := by
    rw [repetitions_singles h.qubits_ne_nil]
    rw [List.range_one, List.mapM_cons, select_singles, primitive_ofGate h]
    rfl
  unfold Statement.ofGate
  rw [expand, show (ofWidth n).parameters = [] from rfl, hvalues, hranges]
  simp only [show (ofWidth n).gates = Program.standard from rfl, hfind, hbody]
  show (_ >>= fun blocks : List (List Gate) => pure blocks.flatten) = Except.ok [g]
  rw [hblocks]
  rfl

end Environment

theorem toCircuit_ofCircuit {c : Circuit} (hword : c.width < 2 ^ 64)
    (hgates : ∀ g ∈ c.gates, g.Writable c.width) :
    Program.toCircuit (Program.ofCircuit c ++ Program.standardGates) =
      if c.gates = [] then .ok (Circuit.empty 0)
      else if c.width * 32 < 2 ^ 63 then .ok { c with globalPhase := Phase.zero }
      else .error (.fault .tooLarge) := by
  have hlayout : Program.layout 0 [⟨"q", .quantum, c.width⟩] =
      .ok ([("q", ⟨0, c.width⟩)], c.width) := by
    rw [Program.layout, Nat.zero_add, nat64, if_pos hword]
    rfl
  have hblocks : (c.gates.map Statement.ofGate).mapM
      ((Environment.ofWidth c.width).expand (Program.standard.length + 1)) =
      .ok (c.gates.map fun g => [g]) := by
    rw [List.mapM_map]
    exact mapM_eq_ok fun g hg => Environment.expand_ofGate (hgates g hg) _
  have hquantum : [Register.mk "q" .quantum c.width].filter (·.kind = .quantum) =
      [⟨"q", .quantum, c.width⟩] := rfl
  unfold Program.toCircuit
  rw [Program.registers_ofCircuit, Program.statements_ofCircuit, Program.gates_ofCircuit, hquantum,
    hlayout]
  by_cases hnil : c.gates = []
  -- Without a statement the layout is thrown away, and with it the width.
  · rw [if_pos hnil, hnil]
    rfl
  · rw [if_neg hnil]
    obtain ⟨s, ss, hcons⟩ := List.exists_cons_of_ne_nil (mt List.map_eq_nil_iff.mp hnil)
    rw [hcons]
    show (do
      Value.unchecked (Program.checkNames c.width)
      Value.unchecked (Program.checkNames 0)
      let blocks ← (s :: ss).mapM
        ((Environment.ofWidth c.width).expand (Program.standard.length + 1))
      return { Circuit.empty c.width with gates := blocks.flatten }) = _
    rw [← hcons, hblocks, Program.checkNames, checkTable]
    split
    · show Except.ok (Circuit.mk c.width Phase.zero (c.gates.map fun g => [g]).flatten) = _
      rw [← List.flatMap_def, List.flatMap_singleton']
    · rfl

/-- A printed circuit passes all checks. -/
theorem readCircuit_toQasm {c : Circuit} (headerRequired : Bool) (hpos : 0 < c.width)
    (hword : c.width < 2 ^ 64) (hgates : ∀ g ∈ c.gates, g.Writable c.width) :
    readCircuit headerRequired c.toQasm =
      Program.toCircuit (Program.ofCircuit c ++ Program.standardGates) := by
  have hqubits : ∀ g ∈ c.gates, ∀ q ∈ g.qubits, q < 2 ^ 64 := fun g hg q hq =>
    lt_trans ((hgates g hg).below hq) hword
  unfold readCircuit
  rw [Program.read_toQasm headerRequired hword hqubits]
  simp only [Except.mapError, Value.unchecked, errors_ofCircuit hpos hgates, bind, Except.bind]

end Qasm

namespace Circuit

/-- The text of a circuit with gates gives back the circuit without its global phase, and the only
obstacle is a table of names that is too large. The text of a circuit without gates gives the
circuit without qubits. -/
theorem ofQasm_toQasm {c : Circuit} (hpos : 0 < c.width) (hword : c.width < 2 ^ 64)
    (hgates : ∀ g ∈ c.gates, g.Writable c.width) :
    ofQasm c.toQasm =
      if c.gates = [] then .ok (empty 0)
      else if c.width * 32 < 2 ^ 63 then .ok { c with globalPhase := Phase.zero }
      else .error (.fault .tooLarge) := by
  rw [ofQasm, Qasm.readCircuit_toQasm false hpos hword hgates,
    Qasm.toCircuit_ofCircuit hword hgates]

/-- A circuit with a comment for its global phase, a negative angle and a gate on three qubits. -/
def spiral : Circuit :=
  ⟨3, Phase.quarter, [⟨.zPhase, [2], Phase.negEighth⟩, .plain .toffoli [2, 0, 1],
    ⟨.xPhase, [0], Phase.one⟩, .plain .sdg [1]]⟩

theorem ofQasm_toQasm_spiral :
    (0 < spiral.width ∧ spiral.width < 2 ^ 64 ∧ ∀ g ∈ spiral.gates, g.Writable spiral.width) ∧
      ofQasm spiral.toQasm = .ok { spiral with globalPhase := Phase.zero } := by
  have hgates : ∀ g ∈ spiral.gates, g.Writable spiral.width := by decide
  exact ⟨⟨by decide, by decide, hgates⟩, ofQasm_toQasm (by decide) (by decide) hgates⟩

/-- One qubit without a gate is lost. -/
theorem ofQasm_toQasm_gateless :
    ofQasm (empty 1).toQasm = .ok (empty 0) ∧
      empty 0 ≠ { empty 1 with globalPhase := Phase.zero } := by
  have hgates : ∀ g ∈ (empty 1).gates, g.Writable (empty 1).width := by decide
  refine ⟨?_, by decide⟩
  rw [ofQasm, Qasm.readCircuit_toQasm false (by decide) (by decide) hgates,
    Qasm.toCircuit_ofCircuit (by decide) hgates]
  rfl

end Circuit

end ZX
