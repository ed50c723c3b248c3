import ZX.Fault

/-!
# Errors of the circuit language

A text can fail to parse, to be well typed, or to be a list of supported gates. The errors of one
text are reported together.
-/
namespace ZX.Qasm

inductive Error where
  | unexpectedToken
  | invalidToken
  | unexpectedEnd
  | repeatedGate
  | repeatedArgument
  | repeatedParameter
  | emptyRegister
  | repeatedRegister
  | undefinedGate
  | parameterArity
  | argumentArity
  | undefinedRegister
  | operandType
  | registerIndex
  | operandSizes
  | undefinedParameter
  | comparisonSize
  | recursion
  | linearization
  | unreadableFile
deriving DecidableEq, Repr

def Error.message : Error → String
  | .unexpectedToken => "unexpected token"
  | .invalidToken => "invalid token"
  | .unexpectedEnd => "unexpected eof"
  | .repeatedGate => "multiple definition of gate"
  | .repeatedArgument => "multiple definition of argument"
  | .repeatedParameter => "multiple definition of parameter"
  | .emptyRegister => "zero-size register declaration"
  | .repeatedRegister => "multiple definition of register"
  | .undefinedGate => "undefined gate"
  | .parameterArity => "incorrect parameter arity"
  | .argumentArity => "incorrect argument arity"
  | .undefinedRegister => "undefined register"
  | .operandType => "mismatched operand type"
  | .registerIndex => "invalid register index"
  | .operandSizes => "mismatched operand sizes"
  | .undefinedParameter => "undefined parameter"
  | .comparisonSize => "invalid comparison size"
  | .recursion => "recursive definitions"
  | .linearization => "linearization error"
  | .unreadableFile => "can't read file - io error"

/-- Why a text gave no circuit. -/
inductive Failure where
  | errors (es : List Error)
  | fault (f : Fault)
deriving DecidableEq, Repr

/-- All messages, each with a comma behind it. -/
def Error.report (es : List Error) : String := String.join (es.map fun e => e.message ++ ", ")

end ZX.Qasm
