import Mathlib
import ZX.Qasm.Reader
import ZX.Proofs.Qasm.Scan

/-!
# Reading a printed circuit

Every part of a printed circuit is read from the front of a list of tokens and leaves the tokens
behind it as they are. The readers of lists are bounded by the number of tokens in the program, and
no list has more items than tokens.
-/
namespace ZX.Qasm

/-! ## The program of a circuit -/

def Operand.ofQubit (q : ℕ) : Operand := ⟨"q", some q⟩

/-- The angle as it is written: numerator times pi, divided by the denominator. -/
def Expr.ofPhase (p : Phase) : Expr :=
  .binary .div (.binary .mul
    (if p.num < 0 then .neg (.int p.num.natAbs) else .int p.num.natAbs) .pi) (.int p.den)

def Statement.ofGate (g : Gate) : Statement :=
  .call g.kind.name (if g.kind.isRotation then [.ofPhase g.phase] else [])
    (g.qubits.map Operand.ofQubit)

def Program.ofCircuit (c : Circuit) : Program :=
  .includeFile "qelib1.inc" :: .quantum "q" c.width ::
    c.gates.map fun g => .statement (.ofGate g)

namespace Reader

variable {α β : Type} {ts rest : List Token}

theorem bind_of_eq_ok {x : Reader α} {f : α → Reader β} {a : α} (h : x ts = .ok (a, rest)) :
    (x >>= f) ts = f a rest := by
  simp only [bind, h]

/-! ## Operands and angles -/

theorem operand_ofQubit (q : ℕ) (rest : List Token) :
    operand (Token.operand q ++ rest) = .ok (.ofQubit q, rest) := rfl

theorem moreItems_operands {qs : List ℕ} {n : ℕ} (h : qs.length ≤ n) (rest : List Token) :
    moreItems operand n
        (qs.flatMap (fun q => .symbol .comma :: Token.operand q) ++ .symbol .semicolon :: rest) =
      .ok (qs.map .ofQubit, .symbol .semicolon :: rest) := by
  induction qs generalizing n with
  | nil => cases n <;> rfl
  | cons q qs ih =>
      cases n with
      | zero => exact absurd h (by simp)
      | succ n =>
          have htail := ih (Nat.le_of_succ_le_succ h)
          rw [List.flatMap_cons, List.append_assoc]
          show (operand >>= fun a => moreItems operand n >>= fun as => pure (a :: as))
            (Token.operand q ++ _) = _
          rw [bind_of_eq_ok (operand_ofQubit q _), bind_of_eq_ok htail]
          rfl

theorem operands_ofQubit {qs : List ℕ} {n : ℕ} (h : qs.length ≤ n + 1) (rest : List Token) :
    operands n (Token.operands qs ++ .symbol .semicolon :: rest) =
      .ok (qs.map .ofQubit, .symbol .semicolon :: rest) := by
  cases qs with
  | nil => rfl
  | cons q qs =>
      rw [Token.operands, List.append_assoc]
      show (operand >>= fun a => moreItems operand n >>= fun as => pure (a :: as))
        (Token.operand q ++ _) = _
      rw [bind_of_eq_ok (operand_ofQubit q _),
        bind_of_eq_ok (moreItems_operands (Nat.le_of_succ_le_succ h) rest)]
      rfl

theorem expr_ofPhase (p : Phase) (rest : List Token) :
    expr (Token.quotient p ++ .symbol .rightParen :: rest) =
      .ok (.ofPhase p, .symbol .rightParen :: rest) := by
  unfold Token.quotient Expr.ofPhase
  split <;> rfl

theorem expressions_ofPhase (p : Phase) (n : ℕ) (rest : List Token) :
    expressions n (Token.quotient p ++ .symbol .rightParen :: rest) =
      .ok ([.ofPhase p], .symbol .rightParen :: rest) := by
  have hmore : moreItems expr n (.symbol .rightParen :: rest) =
      .ok ([], .symbol .rightParen :: rest) := by
    cases n <;> rfl
  have hitems : items expr n (Token.quotient p ++ .symbol .rightParen :: rest) =
      .ok ([.ofPhase p], .symbol .rightParen :: rest) := by
    unfold items
    rw [bind_of_eq_ok (expr_ofPhase p rest), bind_of_eq_ok hmore]
    rfl
  rw [← hitems]
  unfold Token.quotient
  split <;> rfl

theorem parenthesised_angle (p : Phase) (n : ℕ) (rest : List Token) :
    parenthesised (expressions n) (Token.angle p ++ rest) = .ok ([.ofPhase p], rest) := by
  rw [Token.angle, List.cons_append, List.append_assoc]
  show (expressions n >>= fun xs => symbol .rightParen >>= fun _ => pure xs)
    (Token.quotient p ++ .symbol .rightParen :: rest) = _
  rw [bind_of_eq_ok (expressions_ofPhase p n rest)]
  rfl

theorem parameters_gate (g : Gate) (n : ℕ) (rest : List Token) :
    parenthesised (expressions n) ((if g.kind.isRotation then Token.angle g.phase else []) ++
        (Token.operands g.qubits ++ .symbol .semicolon :: rest)) =
      .ok (if g.kind.isRotation then [.ofPhase g.phase] else [],
        Token.operands g.qubits ++ .symbol .semicolon :: rest) := by
  by_cases hrotation : g.kind.isRotation
  · rw [if_pos hrotation, if_pos hrotation]
    exact parenthesised_angle g.phase n _
  · rw [if_neg hrotation, if_neg hrotation, List.nil_append]
    cases g.qubits <;> rfl

/-! ## Gates -/

theorem statement_ofGate {g : Gate} {n : ℕ} (h : g.qubits.length ≤ n + 1) (rest : List Token) :
    statement (n + 1) (Token.gate g ++ rest) = .ok (.ofGate g, rest) := by
  rw [Token.gate, List.cons_append, List.append_assoc, List.append_assoc]
  show (parenthesised (expressions n) >>= fun parameters => operands n >>= fun targets =>
    symbol .semicolon >>= fun _ => pure (Statement.call g.kind.name parameters targets))
      ((if g.kind.isRotation then Token.angle g.phase else []) ++
        (Token.operands g.qubits ++ .symbol .semicolon :: rest)) = _
  rw [bind_of_eq_ok (parameters_gate g n rest), bind_of_eq_ok (operands_ofQubit h rest)]
  rfl

theorem length_le_length_operands (qs : List ℕ) : qs.length ≤ (Token.operands qs).length := by
  cases qs with
  | nil => rfl
  | cons q qs =>
      simp only [Token.operands, Token.operand, List.length_append, List.length_cons,
        List.length_flatMap]
      simp
      omega

theorem length_qubits_lt (g : Gate) : g.qubits.length < (Token.gate g).length := by
  have h := length_le_length_operands g.qubits
  simp only [Token.gate, List.length_cons, List.length_append]
  omega

theorem declarations_cons {t : Token} {n : ℕ} {d : Declaration} {ds : Program}
    (hd : declaration (n + 1) (t :: ts) = .ok (d, rest))
    (hds : declarations n rest = .ok (ds, [])) :
    declarations (n + 1) (t :: ts) = .ok (d :: ds, []) := by
  show (declaration (n + 1) >>= fun d => declarations n >>= fun ds => pure (d :: ds)) (t :: ts) = _
  rw [bind_of_eq_ok hd, bind_of_eq_ok hds]
  rfl

theorem declaration_ofGate {g : Gate} {n : ℕ} (h : g.qubits.length ≤ n + 1) (rest : List Token) :
    declaration (n + 1) (Token.gate g ++ rest) = .ok (.statement (.ofGate g), rest) := by
  show (statement (n + 1) >>= fun s => pure (Declaration.statement s)) (Token.gate g ++ rest) = _
  rw [bind_of_eq_ok (statement_ofGate h rest)]
  rfl

/-- The bound on the number of declarations is also one on the length of their lists. -/
theorem declarations_ofGates {gates : List Gate} {n : ℕ}
    (h : (gates.flatMap Token.gate).length < n) :
    declarations n (gates.flatMap Token.gate) =
      .ok (gates.map fun g => .statement (.ofGate g), []) := by
  induction gates generalizing n with
  | nil =>
      obtain ⟨n, rfl⟩ := Nat.exists_eq_succ_of_ne_zero (Nat.ne_zero_of_lt h)
      rfl
  | cons g gates ih =>
      obtain ⟨n, rfl⟩ := Nat.exists_eq_succ_of_ne_zero (Nat.ne_zero_of_lt h)
      rw [List.flatMap_cons, List.length_append] at h
      have hg := length_qubits_lt g
      have hfirst := declaration_ofGate (g := g) (n := n) (by omega) (gates.flatMap Token.gate)
      have hrest := ih (n := n) (by omega)
      rw [List.flatMap_cons]
      exact declarations_cons hfirst hrest

/-! ## Programs -/

theorem program_ofCircuit (c : Circuit) (headerRequired : Bool) :
    program headerRequired (Token.circuit c) = .ok (.ofCircuit c, []) := by
  obtain ⟨n, hn⟩ : ∃ n, (Token.circuit c).length + 1 = n + 2 :=
    ⟨(Token.circuit c).length - 1, by simp [Token.circuit]⟩
  have hgates : declarations n (c.gates.flatMap Token.gate) =
      .ok (c.gates.map fun g => .statement (.ofGate g), []) := by
    refine declarations_ofGates ?_
    simp only [Token.circuit, List.length_append, List.length_cons] at hn
    omega
  have hstart : program headerRequired (Token.circuit c) =
      declarations ((Token.circuit c).length + 1) (.keyword .includeFile :: .text "qelib1.inc" ::
        .symbol .semicolon :: .keyword .quantumRegister ::
          (Token.operand c.width ++ .symbol .semicolon :: c.gates.flatMap Token.gate)) := rfl
  rw [hstart, hn]
  exact declarations_cons rfl (declarations_cons rfl hgates)

end Reader

/-- A printed circuit reads as the program that lists its gates. -/
theorem Program.read_toQasm {c : Circuit} (headerRequired : Bool) (hwidth : c.width < 2 ^ 64)
    (hqubits : ∀ g ∈ c.gates, ∀ q ∈ g.qubits, q < 2 ^ 64) :
    Program.read headerRequired c.toQasm = .ok (.ofCircuit c) := by
  unfold Program.read
  rw [Token.scan_toQasm hwidth hqubits, Reader.program_ofCircuit]
  rfl

end ZX.Qasm
