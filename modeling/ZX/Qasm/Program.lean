import ZX.Qasm.Token

/-!
# Programs of the circuit language

Declarations and statements as they are written, before any check.
-/
namespace ZX.Qasm

inductive BinaryOp where
  | add
  | sub
  | mul
  | div
  | pow
deriving DecidableEq, Repr

inductive Expr where
  | pi
  | int (n : Nat)
  | real (digits places : Nat)
  | parameter (name : String)
  | neg (e : Expr)
  | binary (op : BinaryOp) (l r : Expr)
  | apply (f : Function) (e : Expr)
deriving DecidableEq, Repr

/-- A whole register or one of its elements. -/
structure Operand where
  register : String
  index : Option Nat
deriving DecidableEq, Repr

inductive Statement where
  | unitary (theta phi lambda : Expr) (target : Operand)
  | controlledNot (control target : Operand)
  | measure (source target : Operand)
  | reset (target : Operand)
  | barrier (targets : List Operand)
  | call (gate : String) (parameters : List Expr) (operands : List Operand)
  | condition (register : Operand) (value : Nat) (body : Statement)
deriving Repr

/-- A gate; one without a body stands for itself. -/
structure GateDefinition where
  name : String
  parameters : List String
  arguments : List String
  body : Option (List Statement)
deriving Repr

inductive Declaration where
  | includeFile (path : String)
  | quantum (name : String) (size : Nat)
  | classical (name : String) (size : Nat)
  | gate (definition : GateDefinition)
  | statement (s : Statement)
deriving Repr

abbrev Program := List Declaration

namespace Program

def gates (p : Program) : List GateDefinition :=
  p.filterMap fun
    | .gate d => some d
    | _ => none

def statements (p : Program) : List Statement :=
  p.filterMap fun
    | .statement s => some s
    | _ => none

end Program

/-- The first definition of a gate. -/
def findGate? (gates : List GateDefinition) (name : String) : Option GateDefinition :=
  gates.find? (·.name = name)

end ZX.Qasm
