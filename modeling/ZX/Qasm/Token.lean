/-!
# Tokens of the circuit language

The longest token wins. Blanks are space, tab, line feed and form feed; a comment runs from two
slashes through the end of its line. A character that starts no token ends the list with
`Token.invalid`, since no reader goes past it.
-/
namespace ZX.Qasm

-- Powers of numbers are those of the core library.
attribute [local instance(high)] instPowNat

inductive Function where
  | sin
  | cos
  | tan
  | exp
  | ln
  | sqrt
deriving DecidableEq, Repr

inductive Keyword where
  | includeFile
  | quantumRegister
  | classicalRegister
  | gateDefinition
  | bodilessGate
  | measure
  | reset
  | barrier
  | condition
  | unitary
  | controlledNot
  | pi
  | function (f : Function)
deriving DecidableEq, Repr

def Keyword.ofName? : String → Option Keyword
  | "include" => some .includeFile
  | "qreg" => some .quantumRegister
  | "creg" => some .classicalRegister
  | "gate" => some .gateDefinition
  | "opaque" => some .bodilessGate
  | "measure" => some .measure
  | "reset" => some .reset
  | "barrier" => some .barrier
  | "if" => some .condition
  | "U" => some .unitary
  | "CX" => some .controlledNot
  | "pi" => some .pi
  | "sin" => some (.function .sin)
  | "cos" => some (.function .cos)
  | "tan" => some (.function .tan)
  | "exp" => some (.function .exp)
  | "ln" => some (.function .ln)
  | "sqrt" => some (.function .sqrt)
  | _ => none

inductive Symbol where
  | leftParen
  | rightParen
  | leftBrace
  | rightBrace
  | leftBracket
  | rightBracket
  | equal
  | semicolon
  | comma
  | caret
  | star
  | slash
  | plus
  | minus
  | arrow
deriving DecidableEq, Repr

inductive Token where
  /-- The version line, without its semicolon. -/
  | header
  | keyword (k : Keyword)
  | symbol (s : Symbol)
  | name (s : String)
  | int (n : Nat)
  /-- The number `digits / 10^places`. -/
  | real (digits places : Nat)
  | text (s : String)
  | invalid
deriving DecidableEq, Repr

namespace Token

def isBlank (c : Char) : Bool := c = ' ' || c = '\t' || c = '\n' || c = '\x0c'

def isLineEnd (c : Char) : Bool := c = '\n' || c = '\r'

def isNameStart (c : Char) : Bool := c.isAlpha || c = '_'

def isNameChar (c : Char) : Bool := c.isAlphanum || c = '_'

def ofName (cs : List Char) : Token :=
  match Keyword.ofName? (String.ofList cs) with
  | some k => .keyword k
  | none => .name (String.ofList cs)

def ofDigits (cs : List Char) : Nat := cs.foldl (fun n c => 10 * n + (c.toNat - '0'.toNat)) 0

/-- A symbol and the text behind it. -/
def symbol? : List Char → Option (Symbol × List Char)
  | '=' :: '=' :: rest => some (.equal, rest)
  | '-' :: '>' :: rest => some (.arrow, rest)
  | '(' :: rest => some (.leftParen, rest)
  | ')' :: rest => some (.rightParen, rest)
  | '\x7b' :: rest => some (.leftBrace, rest)
  | '\x7d' :: rest => some (.rightBrace, rest)
  | '[' :: rest => some (.leftBracket, rest)
  | ']' :: rest => some (.rightBracket, rest)
  | ';' :: rest => some (.semicolon, rest)
  | ',' :: rest => some (.comma, rest)
  | '^' :: rest => some (.caret, rest)
  | '*' :: rest => some (.star, rest)
  | '/' :: rest => some (.slash, rest)
  | '+' :: rest => some (.plus, rest)
  | '-' :: rest => some (.minus, rest)
  | _ => none

theorem length_of_symbol? {cs rest : List Char} {s : Symbol} (h : symbol? cs = some (s, rest)) :
    rest.length < cs.length := by
  unfold symbol? at h
  split at h <;> cases h <;> simp only [List.length_cons] <;> omega

theorem length_dropWhile (p : Char → Bool) (cs : List Char) :
    (cs.dropWhile p).length ≤ cs.length := by
  induction cs with
  | nil => simp
  | cons c cs ih =>
      rw [List.dropWhile_cons]
      split
      · simp only [List.length_cons]; omega
      · exact Nat.le_refl _

/-- A number that starts with the given digits, and the text behind it. A fraction needs a digit
after the point, and an integer has to fit an unsigned 64-bit word. -/
def number (digits rest : List Char) : Token × List Char :=
  let whole (rest : List Char) : Token × List Char :=
    let n := ofDigits digits
    (if n < 2 ^ (64 : Nat) then .int n else .invalid, rest)
  match rest with
  | '.' :: tail =>
      let fraction := tail.takeWhile Char.isDigit
      if fraction.isEmpty then whole rest
      else (.real (ofDigits (digits ++ fraction)) fraction.length, tail.dropWhile Char.isDigit)
  | _ => whole rest

theorem length_number (digits rest : List Char) : (number digits rest).2.length ≤ rest.length := by
  unfold number
  split
  · rename_i tail
    have h := length_dropWhile Char.isDigit tail
    simp only
    split
    · exact Nat.le_refl _
    · simp only [List.length_cons]; omega
  · exact Nat.le_refl _

/-- A comment starts here; the text behind its first slash follows. -/
def startsComment (c : Char) (rest : List Char) : Bool := c = '/' && rest.head? = some '/'

/-- The words of the version line, behind its first. -/
def version : List Char := [' ', '2', '.', '0']

set_option linter.unusedVariables false in
/-- The tokens of a text. -/
def scan (cs : List Char) : List Token :=
  match cs with
  | [] => []
  | c :: rest =>
      if isBlank c then
        scan rest
      else if startsComment c rest then
        scan ((rest.dropWhile (!isLineEnd ·)).dropWhile isLineEnd)
      else if isNameStart c then
        let name := c :: rest.takeWhile isNameChar
        let behind := rest.dropWhile isNameChar
        if name = "OPENQASM".toList ∧ version.isPrefixOf behind then
          .header :: scan (behind.drop version.length)
        else
          ofName name :: scan behind
      else if c.isDigit then
        let digits := c :: rest.takeWhile Char.isDigit
        let behind := rest.dropWhile Char.isDigit
        (number digits behind).1 :: scan (number digits behind).2
      else if c = '"' then
        match h : rest.dropWhile (· ≠ '"') with
        | _ :: behind => .text (String.ofList (rest.takeWhile (· ≠ '"'))) :: scan behind
        | [] => [.invalid]
      else
        match h : symbol? (c :: rest) with
        | some (s, behind) => .symbol s :: scan behind
        | none => [.invalid]
termination_by cs.length
decreasing_by
  all_goals simp only [List.length_cons]
  · omega
  · have h1 := length_dropWhile isLineEnd (rest.dropWhile (!isLineEnd ·))
    have h2 := length_dropWhile (!isLineEnd ·) rest
    omega
  · have h1 := length_dropWhile isNameChar rest
    simp only [List.length_drop]
    omega
  · have h1 := length_dropWhile isNameChar rest
    omega
  · have h1 := length_number (c :: rest.takeWhile Char.isDigit) (rest.dropWhile Char.isDigit)
    have h2 := length_dropWhile Char.isDigit rest
    omega
  · have h1 := length_dropWhile (· ≠ '"') rest
    rw [h] at h1
    simp only [List.length_cons] at h1
    omega
  · have h1 := length_of_symbol? h
    simpa using h1

end Token

end ZX.Qasm
