import ZX.Fault

/-!
# Machine ranges

Exact integers, checked against the range of the machine word that holds them. A computation
states its value in the integers and names the word each intermediate result has to fit.

Memory is unlimited but for the addresses. Three kinds of tables are checked before they are built:
those with an entry for every qubit, or for every pair of qubits, those whose size is named in a
call, and the table of the slots of a diagram. Lists that grow with what is written into them, such
as the gates of a circuit, the links of a vertex and the matrices of the rounds, are taken to fit.
-/
namespace ZX

-- Powers of numbers are those of the core library.
attribute [local instance(high)] instPowNat

/-- The value itself, if it fits a signed word of 64 bits. -/
def int64 (n : Int) : Except Fault Int :=
  if -2 ^ (63 : Nat) ≤ n ∧ n < 2 ^ (63 : Nat) then .ok n else .error .overflow

/-- The value itself, if it fits a signed word of 32 bits. -/
def int32 (n : Int) : Except Fault Int :=
  if -2 ^ (31 : Nat) ≤ n ∧ n < 2 ^ (31 : Nat) then .ok n else .error .overflow

/-- The value itself, if it fits an unsigned word of 64 bits. -/
def nat64 (n : Nat) : Except Fault Nat :=
  if n < 2 ^ (64 : Nat) then .ok n else .error .overflow

/-- A difference of counts, which must not fall below zero. -/
def natSub (a b : Nat) : Except Fault Nat :=
  if b ≤ a then .ok (a - b) else .error .underflow

/-- A table of `n` entries of so many bytes each, whose size in bytes has to fit a signed word. -/
def checkTable (n bytes : Nat) : Except Fault Unit :=
  if n * bytes < 2 ^ (63 : Nat) then .ok () else .error .tooLarge

/-- One more entry for a table of `n`. A table that is filled one by one has room for a power of two
of entries, and asks for twice as much when it is full. -/
def checkPush (n bytes : Nat) : Except Fault Unit := checkTable (2 ^ (n.log2 + 1)) bytes

theorem int64_eq_ok {n m : Int} :
    int64 n = .ok m ↔ (-2 ^ (63 : Nat) ≤ n ∧ n < 2 ^ (63 : Nat)) ∧ n = m := by
  unfold int64; split <;> grind

theorem int32_eq_ok {n m : Int} :
    int32 n = .ok m ↔ (-2 ^ (31 : Nat) ≤ n ∧ n < 2 ^ (31 : Nat)) ∧ n = m := by
  unfold int32; split <;> grind

theorem natSub_eq_ok {a b m : Nat} : natSub a b = .ok m ↔ b ≤ a ∧ a - b = m := by
  unfold natSub; split <;> grind

theorem checkTable_eq_ok {n bytes : Nat} :
    checkTable n bytes = .ok () ↔ n * bytes < 2 ^ (63 : Nat) := by
  unfold checkTable; split <;> simp_all

theorem checkTable_eq_error {n bytes : Nat} {e : Fault} :
    checkTable n bytes = .error e ↔ e = .tooLarge ∧ 2 ^ (63 : Nat) ≤ n * bytes := by
  unfold checkTable; split <;> grind

/-- The result of a look-up, which must exist. -/
def inRange {α : Type _} : Option α → Except Fault α
  | some x => .ok x
  | none => .error .outOfRange

@[simp] theorem inRange_eq_ok {α : Type _} {o : Option α} {x : α} :
    inRange o = .ok x ↔ o = some x := by
  cases o <;> simp [inRange]

/-- The element at a position, which must exist. -/
def at? {α : Type _} (xs : List α) (i : Nat) : Except Fault α := inRange xs[i]?

theorem at?_eq_ok {α : Type _} {xs : List α} {i : Nat} {x : α} :
    at? xs i = .ok x ↔ xs[i]? = some x := inRange_eq_ok

end ZX
