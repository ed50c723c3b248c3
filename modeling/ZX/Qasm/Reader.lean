import ZX.Qasm.Error
import ZX.Qasm.Program

/-!
# Reading programs

A reader takes tokens from the front of a list. It fails at the first token that no program can
have there, and the error says whether that token is valid or missing.
-/
namespace ZX.Qasm

abbrev Reader (α : Type) := List Token → Except Error (α × List Token)

namespace Reader

instance : Monad Reader where
  pure a := fun ts => .ok (a, ts)
  bind x f := fun ts =>
    match x ts with
    | .ok (a, rest) => f a rest
    | .error e => .error e

/-- The error of a list whose first token has no place. -/
def errorAt : List Token → Error
  | [] => .unexpectedEnd
  | .invalid :: _ => .invalidToken
  | _ => .unexpectedToken

def fail {α : Type} : Reader α := fun ts => .error (errorAt ts)

def peek : Reader (Option Token) := fun ts => .ok (ts.head?, ts)

def drop : Reader Unit := fun ts => .ok ((), ts.tail)

def expect (t : Token) : Reader Unit := fun ts =>
  if ts.head? = some t then .ok ((), ts.tail) else .error (errorAt ts)

def symbol (s : Symbol) : Reader Unit := expect (.symbol s)

def name : Reader String := fun
  | .name s :: rest => .ok (s, rest)
  | ts => .error (errorAt ts)

def int : Reader Nat := fun
  | .int n :: rest => .ok (n, rest)
  | ts => .error (errorAt ts)

def text : Reader String := fun
  | .text s :: rest => .ok (s, rest)
  | ts => .error (errorAt ts)

/-! ## Expressions -/

/-- What waits for an operand while an expression is read. -/
inductive Frame where
  | paren (f : Option Function)
  | neg
  | binary (op : BinaryOp) (left : Expr)

/-- How tightly an operator binds. -/
def binding : BinaryOp → Nat
  | .add | .sub => 1
  | .mul | .div => 2
  | .pow => 3

/-- Finishes the waiting operators that bind at least as tightly as the level. A sign binds like a
product. -/
def reduce (level : Nat) (e : Expr) : List Frame → Expr × List Frame
  | .neg :: stack => if level ≤ 2 then reduce level (.neg e) stack else (e, .neg :: stack)
  | .binary op l :: stack =>
      if level ≤ binding op then reduce level (.binary op l e) stack
      else (e, .binary op l :: stack)
  | stack => (e, stack)

def close (f : Option Function) (e : Expr) : Expr :=
  match f with
  | some f => .apply f e
  | none => e

def operator? : Symbol → Option BinaryOp
  | .plus => some .add
  | .minus => some .sub
  | .star => some .mul
  | .slash => some .div
  | .caret => some .pow
  | _ => none

/-- Waiting operators under a new one. A power waits for the power to its right. -/
def shift (op : BinaryOp) (e : Expr) (stack : List Frame) : List Frame :=
  match op with
  | .pow => .binary .pow e :: stack
  | _ =>
      let (l, rest) := reduce (binding op) e stack
      .binary op l :: rest

/-- Reads an expression with operators waiting on a stack. The operand is the expression read last,
if the next token has to be an operator. -/
def exprFrom (stack : List Frame) : Option Expr → Reader Expr
  | none, .symbol .minus :: ts => exprFrom (.neg :: stack) none ts
  | none, .symbol .leftParen :: ts => exprFrom (.paren none :: stack) none ts
  | none, .keyword (.function f) :: .symbol .leftParen :: ts =>
      exprFrom (.paren (some f) :: stack) none ts
  | none, .keyword (.function _) :: ts => .error (errorAt ts)
  | none, .keyword .pi :: ts => exprFrom stack (some .pi) ts
  | none, .int n :: ts => exprFrom stack (some (.int n)) ts
  | none, .real m k :: ts => exprFrom stack (some (.real m k)) ts
  | none, .name s :: ts => exprFrom stack (some (.parameter s)) ts
  | none, ts => .error (errorAt ts)
  | some e, .symbol s :: ts =>
      match operator? s with
      | some op => exprFrom (shift op e stack) none ts
      | none =>
          match reduce 0 e stack, s with
          | (e, .paren f :: rest), .rightParen => exprFrom rest (some (close f e)) ts
          | (e, []), _ => .ok (e, .symbol s :: ts)
          | _, _ => .error (errorAt (.symbol s :: ts))
  | some e, ts =>
      match reduce 0 e stack with
      | (e, []) => .ok (e, ts)
      | _ => .error (errorAt ts)

def expr : Reader Expr := exprFrom [] none

/-! ## Lists -/

/-- Items behind commas, at most so many. -/
def moreItems {α : Type} (item : Reader α) : Nat → Reader (List α)
  | 0 => pure []
  | n + 1 => do
      match ← peek with
      | some (.symbol .comma) =>
          drop
          let a ← item
          return a :: (← moreItems item n)
      | _ => return []

/-- Items with commas between them, at most so many behind the first. -/
def items {α : Type} (item : Reader α) (bound : Nat) : Reader (List α) := do
  let a ← item
  return a :: (← moreItems item bound)

def operand : Reader Operand := do
  let register ← name
  match ← peek with
  | some (.symbol .leftBracket) =>
      drop
      let i ← int
      symbol .rightBracket
      return ⟨register, some i⟩
  | _ => return ⟨register, none⟩

/-- A possibly empty list of items that start with a name. -/
def namedItems {α : Type} (item : Reader α) (bound : Nat) : Reader (List α) := do
  match ← peek with
  | some (.name _) => items item bound
  | _ => return []

def operands (bound : Nat) : Reader (List Operand) := namedItems operand bound

def names (bound : Nat) : Reader (List String) := namedItems name bound

/-- A list in parentheses, if there is one. -/
def parenthesised {α : Type} (content : Reader (List α)) : Reader (List α) := do
  match ← peek with
  | some (.symbol .leftParen) =>
      drop
      let xs ← content
      symbol .rightParen
      return xs
  | _ => return []

def expressions (bound : Nat) : Reader (List Expr) := do
  match ← peek with
  | some (.symbol .rightParen) => return []
  | _ => items expr bound

/-! ## Statements and declarations -/

/-- A statement, where the argument bounds its conditions and the length of its lists. -/
def statement : Nat → Reader Statement
  | 0 => fail
  | bound + 1 => do
      match ← peek with
      | some (.keyword .unitary) =>
          drop
          symbol .leftParen
          let theta ← expr
          symbol .comma
          let phi ← expr
          symbol .comma
          let lambda ← expr
          symbol .rightParen
          let target ← operand
          symbol .semicolon
          return .unitary theta phi lambda target
      | some (.keyword .controlledNot) =>
          drop
          let control ← operand
          symbol .comma
          let target ← operand
          symbol .semicolon
          return .controlledNot control target
      | some (.keyword .measure) =>
          drop
          let source ← operand
          symbol .arrow
          let target ← operand
          symbol .semicolon
          return .measure source target
      | some (.keyword .reset) =>
          drop
          let target ← operand
          symbol .semicolon
          return .reset target
      | some (.keyword .barrier) =>
          drop
          let targets ← operands bound
          symbol .semicolon
          return .barrier targets
      | some (.name gate) =>
          drop
          let parameters ← parenthesised (expressions bound)
          let targets ← operands bound
          symbol .semicolon
          return .call gate parameters targets
      | some (.keyword .condition) =>
          drop
          symbol .leftParen
          let register ← operand
          symbol .equal
          let value ← int
          symbol .rightParen
          return .condition register value (← statement bound)
      | _ => fail

/-- Statements up to a closing brace, at most so many. -/
def body : Nat → Reader (List Statement)
  | 0 => fail
  | n + 1 => do
      match ← peek with
      | some (.symbol .rightBrace) =>
          drop
          return []
      | _ =>
          let s ← statement n
          return s :: (← body n)

/-- A register declaration; a register without a size has one element. -/
def register : Reader (String × Nat) := do
  let r ← operand
  symbol .semicolon
  return (r.register, r.index.getD 1)

/-- A declaration, where the argument bounds the length of what it contains. -/
def declaration (bound : Nat) : Reader Declaration := do
  match ← peek with
  | some (.keyword .includeFile) =>
      drop
      let path ← text
      symbol .semicolon
      return .includeFile path
  | some (.keyword .quantumRegister) =>
      drop
      let (r, size) ← register
      return .quantum r size
  | some (.keyword .classicalRegister) =>
      drop
      let (r, size) ← register
      return .classical r size
  | some (.keyword .bodilessGate) =>
      drop
      let gate ← name
      let parameters ← parenthesised (names bound)
      let arguments ← names bound
      symbol .semicolon
      return .gate ⟨gate, parameters, arguments, none⟩
  | some (.keyword .gateDefinition) =>
      drop
      let gate ← name
      let parameters ← parenthesised (names bound)
      let arguments ← names bound
      symbol .leftBrace
      let statements ← body bound
      return .gate ⟨gate, parameters, arguments, some statements⟩
  | _ => return .statement (← statement bound)

/-- Declarations up to the end, at most so many. -/
def declarations : Nat → Reader Program
  | 0 => fail
  | n + 1 => do
      match ← peek with
      | none => return []
      | some _ =>
          let d ← declaration (n + 1)
          return d :: (← declarations n)

/-- A program. The version line may be missing unless it is required. -/
def program (headerRequired : Bool) : Reader Program := fun ts => (do
  match ← peek with
  | some .header =>
      drop
      symbol .semicolon
  | _ => if headerRequired then fail else pure ()
  declarations (ts.length + 1)) ts

end Reader

/-- The program of a text. -/
def Program.read (headerRequired : Bool) (source : String) : Except Error Program :=
  return (← Reader.program headerRequired (Token.scan source.toList)).1

end ZX.Qasm
