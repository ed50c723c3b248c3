import ZX.Qasm.CallGraph
import ZX.Qasm.Error
import ZX.Qasm.Program

/-!
# Well-formed programs

All errors of a program in a fixed order: gate definitions, registers, statements, gate bodies,
groups of recursive gates. Inside a gate body the arguments are quantum registers of one element.
-/
namespace ZX.Qasm

-- Powers of numbers are those of the core library.
attribute [local instance(high)] instPowNat

inductive RegisterKind where
  | quantum
  | classical
deriving DecidableEq, Repr

structure Register where
  name : String
  kind : RegisterKind
  size : Nat
deriving DecidableEq, Repr

/-- The names a statement can refer to. -/
structure Scope where
  gates : List GateDefinition
  registers : List Register
  parameters : List String

namespace Program

/-- Declared registers in order. -/
def registers (p : Program) : List Register :=
  p.filterMap fun
    | .quantum name size => some ⟨name, .quantum, size⟩
    | .classical name size => some ⟨name, .classical, size⟩
    | _ => none

end Program

/-- One error for each element that stands in the list before. -/
def repeats (e : Error) : List String → List Error
  | [] => []
  | x :: xs => (if xs.contains x then [e] else []) ++ repeats e xs

/-- Errors of gate definitions, given the names defined before. -/
def checkDefinitions (known : List String) : List GateDefinition → List Error
  | [] => []
  | d :: ds =>
      if known.contains d.name then .repeatedGate :: checkDefinitions known ds
      else
        repeats .repeatedArgument d.arguments ++ repeats .repeatedParameter d.parameters
          ++ checkDefinitions (d.name :: known) ds

/-- Errors of register declarations, given the names declared before. -/
def checkRegisters (known : List String) : List Register → List Error
  | [] => []
  | r :: rs =>
      (if r.size = 0 then [.emptyRegister] else [])
        ++ (if known.contains r.name then [.repeatedRegister] else [])
        ++ checkRegisters (r.name :: known) rs

namespace Scope

/-- The last declaration of a register counts. -/
def register? (s : Scope) (name : String) : Option Register :=
  s.registers.reverse.find? (·.name = name)

/-- The number of elements an operand stands for, or what is wrong with it. -/
def operandSize (s : Scope) (kind : RegisterKind) (o : Operand) : Except Error Nat :=
  match s.register? o.register with
  | none => .error .undefinedRegister
  | some r =>
      if r.kind ≠ kind then .error .operandType
      else
        match o.index with
        | none => .ok r.size
        | some i => if i < r.size then .ok 1 else .error .registerIndex

def operandErrors (sizes : List (Except Error Nat)) : List Error :=
  sizes.filterMap fun
    | .error e => some e
    | .ok _ => none

/-- Compares sizes with the first one that is not one. -/
def sizeErrorsFrom (reference : Nat) : List (Except Error Nat) → List Error
  | [] => []
  | .error _ :: rest => sizeErrorsFrom reference rest
  | .ok n :: rest =>
      if reference = 1 then sizeErrorsFrom n rest
      else if 1 < n ∧ n ≠ reference then .operandSizes :: sizeErrorsFrom reference rest
      else sizeErrorsFrom reference rest

/-- Errors of operands whose sizes have to agree. -/
def matchingErrors (sizes : List (Except Error Nat)) : List Error :=
  operandErrors sizes ++ sizeErrorsFrom 1 sizes

def exprErrors (s : Scope) : Expr → List Error
  | .parameter name => if s.parameters.contains name then [] else [.undefinedParameter]
  | .neg e => s.exprErrors e
  | .binary _ l r => s.exprErrors l ++ s.exprErrors r
  | .apply _ e => s.exprErrors e
  | .pi | .int _ | .real _ _ => []

def arityErrors (s : Scope) (gate : String) (parameters : List Expr) (operands : List Operand) :
    List Error :=
  match findGate? s.gates gate with
  | none => [.undefinedGate]
  | some d =>
      (if parameters.length ≠ d.parameters.length then [.parameterArity] else [])
        ++ (if operands.length ≠ d.arguments.length then [.argumentArity] else [])

/-- A comparison needs a value below two to the size, a power that has to fit a word. -/
def comparisonErrors (size : Except Error Nat) (value : Nat) : Except Fault (List Error) :=
  match size with
  | .error _ => .ok []
  | .ok n =>
      if 64 ≤ n then .error .overflow
      else if 2 ^ n ≤ value then .ok [.comparisonSize]
      else .ok []

def statementErrors (s : Scope) : Statement → Except Fault (List Error)
  | .unitary theta phi lambda target =>
      return operandErrors [s.operandSize .quantum target]
        ++ [theta, phi, lambda].flatMap s.exprErrors
  | .controlledNot control target =>
      return matchingErrors ([control, target].map (s.operandSize .quantum))
  | .measure source target =>
      return matchingErrors [s.operandSize .quantum source, s.operandSize .classical target]
  | .reset target => return operandErrors [s.operandSize .quantum target]
  | .barrier targets => return operandErrors (targets.map (s.operandSize .quantum))
  | .call gate parameters operands =>
      return s.arityErrors gate parameters operands
        ++ matchingErrors (operands.map (s.operandSize .quantum))
        ++ parameters.flatMap s.exprErrors
  | .condition register value body => do
      let size := s.operandSize .classical register
      let inner ← s.statementErrors body
      return operandErrors [size] ++ inner ++ (← comparisonErrors size value)

def statementsErrors (s : Scope) (statements : List Statement) : Except Fault (List Error) :=
  return (← statements.mapM s.statementErrors).flatten

end Scope

def GateDefinition.scope (gates : List GateDefinition) (d : GateDefinition) : Scope :=
  ⟨gates, d.arguments.map fun a => ⟨a, .quantum, 1⟩, d.parameters⟩

namespace Program

/-- All errors of a program. -/
def errors (p : Program) : Except Fault (List Error) := do
  let gates := p.gates
  let scope : Scope := ⟨gates, p.registers, []⟩
  let top ← scope.statementsErrors p.statements
  let bodies ← gates.mapM fun d => (d.scope gates).statementsErrors (d.body.getD [])
  return checkDefinitions [] gates ++ checkRegisters [] p.registers ++ top ++ bodies.flatten
    ++ List.replicate (CallGraph.ofGates gates).groups .recursion

end Program

end ZX.Qasm
