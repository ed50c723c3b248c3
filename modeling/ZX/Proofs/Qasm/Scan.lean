import Mathlib
import ZX.Circuit.Basic
import ZX.Qasm.Token
import ZX.Proofs.Angle

/-!
# Scanning a printed circuit

The text of a circuit is scanned from the front. A token that is spelled out is read back as long as
the text behind it does not extend it, and what follows a name or a number in a printed circuit is
always a blank, a bracket or an operator.
-/
namespace ZX.Qasm.Token

variable {c : Char} {cs rest : List Char} {p : Char → Bool} {s : Symbol}

/-! ## Single tokens -/

/-- A text that does not start with a character of a class. -/
def Stops (p : Char → Bool) (rest : List Char) : Prop := ∀ c ∈ rest.head?, p c = false

theorem stops_cons (h : p c = false) : Stops p (c :: rest) := by
  intro d hd
  cases hd
  exact h

theorem takeWhile_append_of_stops (hcs : ∀ c ∈ cs, p c = true) (hrest : Stops p rest) :
    (cs ++ rest).takeWhile p = cs := by
  rw [List.takeWhile_append_of_pos hcs]
  cases rest with
  | nil => simp
  | cons d rest => simp [hrest d rfl]

theorem dropWhile_append_of_stops (hcs : ∀ c ∈ cs, p c = true) (hrest : Stops p rest) :
    (cs ++ rest).dropWhile p = rest := by
  rw [List.dropWhile_append_of_pos hcs]
  cases rest with
  | nil => simp
  | cons d rest => simp [hrest d rfl]

theorem scan_blank (h : isBlank c = true) : scan (c :: rest) = scan rest := by
  rw [scan, if_pos h]

theorem scan_symbol (hc : (isBlank c || isNameStart c || c.isDigit || c = '"') = false)
    (hcomment : startsComment c rest = false) (hsymbol : symbol? (c :: rest) = some (s, rest)) :
    scan (c :: rest) = .symbol s :: scan rest := by
  simp only [Bool.or_eq_false_iff, decide_eq_false_iff_not] at hc
  obtain ⟨⟨⟨hblank, hname⟩, hdigit⟩, hquote⟩ := hc
  rw [scan]
  simp only [hblank, hcomment, hname, hdigit, hquote, Bool.false_eq_true, if_false]
  split
  · rename_i s' behind h
    cases hsymbol.symm.trans h
    rfl
  · rename_i h
    cases hsymbol.symm.trans h

/-- The characters that are a symbol whatever stands behind them. -/
def marks : List (Char × Symbol) :=
  [('(', .leftParen), (')', .rightParen), ('[', .leftBracket), (']', .rightBracket),
    (';', .semicolon), (',', .comma), ('*', .star)]

theorem scan_mark (c : Char) (s : Symbol) (h : (c, s) ∈ marks) :
    scan (c :: rest) = .symbol s :: scan rest := by
  simp only [marks, List.mem_cons, Prod.mk.injEq, List.not_mem_nil, or_false] at h
  rcases h with ⟨rfl, rfl⟩ | ⟨rfl, rfl⟩ | ⟨rfl, rfl⟩ | ⟨rfl, rfl⟩ | ⟨rfl, rfl⟩ | ⟨rfl, rfl⟩ |
    ⟨rfl, rfl⟩ <;> exact scan_symbol (by decide) rfl rfl

theorem isNameStart_of_isDigit (h : c.isDigit = true) : isNameStart c = false := by
  rw [Bool.eq_false_iff]
  intro hname
  simp only [isNameStart, Char.isAlpha, Char.isUpper, Char.isLower, Char.isDigit, Bool.or_eq_true,
    Bool.and_eq_true, decide_eq_true_iff, ge_iff_le, UInt32.le_iff_toNat_le] at h hname
  rcases hname with (hname | hname) | rfl
  · simp at h hname
    omega
  · simp at h hname
    omega
  · revert h
    decide

/-- What starts a name or a number is not skipped. -/
theorem not_skipped (rest : List Char) (h : (isNameStart c || c.isDigit) = true) :
    isBlank c = false ∧ startsComment c rest = false := by
  constructor
  · rw [Bool.eq_false_iff]
    intro hblank
    simp only [isBlank, Bool.or_eq_true, decide_eq_true_iff] at hblank
    rcases hblank with ((rfl | rfl) | rfl) | rfl <;> revert h <;> decide
  · rw [Bool.eq_false_iff]
    intro hcomment
    simp only [startsComment, Bool.and_eq_true, decide_eq_true_iff] at hcomment
    obtain ⟨rfl, -⟩ := hcomment
    revert h
    decide

theorem scan_name (hc : isNameStart c = true) (hcs : ∀ x ∈ cs, isNameChar x = true)
    (hrest : Stops isNameChar rest) (hheader : c :: cs ≠ "OPENQASM".toList) :
    scan (c :: (cs ++ rest)) = ofName (c :: cs) :: scan rest := by
  obtain ⟨hblank, hcomment⟩ := not_skipped (cs ++ rest) (Bool.or_eq_true_iff.mpr (.inl hc))
  rw [scan]
  simp only [hblank, hcomment, hc, Bool.false_eq_true, if_false, if_true,
    takeWhile_append_of_stops hcs hrest, dropWhile_append_of_stops hcs hrest, hheader, false_and]

/-- A name other than that of the language. -/
def isWord (s : String) : Bool :=
  match s.toList with
  | [] => false
  | c :: cs => isNameStart c && cs.all isNameChar && c :: cs ≠ "OPENQASM".toList

theorem scan_word {s : String} (hs : isWord s = true) (hrest : Stops isNameChar rest) :
    scan (s.toList ++ rest) = ofName s.toList :: scan rest := by
  unfold isWord at hs
  split at hs
  · cases hs
  · rename_i c cs h
    simp only [Bool.and_eq_true, List.all_eq_true, decide_eq_true_iff] at hs
    rw [h]
    exact scan_name hs.1.1 hs.1.2 hrest hs.2

/-- The text behind an integer neither extends it nor makes a fraction of it. -/
theorem scan_digits {n : ℕ} (hn : n < 2 ^ 64) (hrest : Stops (fun c => c.isDigit || c = '.') rest) :
    scan (Nat.toDigits 10 n ++ rest) = .int n :: scan rest := by
  have hdigits : ∀ c ∈ Nat.toDigits 10 n, c.isDigit = true := fun c hc =>
    Nat.isDigit_of_mem_toDigits (by decide) (by decide) hc
  have hvalue : ofDigits (Nat.toDigits 10 n) = n :=
    Nat.ofDigitChars_toDigits (by decide) (by decide)
  have hstops : Stops Char.isDigit rest := fun c hc => by
    have h := hrest c hc
    simp only [Bool.or_eq_false_iff] at h
    exact h.1
  have hnumber : number (Nat.toDigits 10 n) rest = (.int n, rest) := by
    -- Only a point behind the digits leads to anything but an integer.
    unfold number
    split
    · rename_i tail
      have h := hrest '.' rfl
      simp at h
    · simp only [hvalue, if_pos hn]
  cases hsplit : Nat.toDigits 10 n with
  | nil => exact absurd hsplit Nat.toDigits_ne_nil
  | cons c cs =>
      rw [hsplit] at hdigits hnumber
      have hc : c.isDigit = true := hdigits c List.mem_cons_self
      have hcs : ∀ x ∈ cs, x.isDigit = true := fun x hx => hdigits x (List.mem_cons_of_mem c hx)
      have hname := isNameStart_of_isDigit hc
      obtain ⟨hblank, hcomment⟩ := not_skipped (cs ++ rest)
        (Bool.or_eq_true_iff.mpr (.inr hc))
      rw [List.cons_append, scan]
      simp only [hblank, hcomment, hname, hc, Bool.false_eq_true, if_false, if_true,
        takeWhile_append_of_stops hcs hstops, dropWhile_append_of_stops hcs hstops, hnumber]

theorem scan_header : scan ("OPENQASM".toList ++ (version ++ rest)) = .header :: scan rest := by
  have hcs : ∀ x ∈ "PENQASM".toList, isNameChar x = true := by simp [isNameChar]
  have hstops : Stops isNameChar (version ++ rest) := stops_cons (by decide)
  have hprefix : version.isPrefixOf (version ++ rest) = true :=
    List.isPrefixOf_iff_prefix.mpr (List.prefix_append _ _)
  have hheader : 'O' :: "PENQASM".toList = "OPENQASM".toList ∧
      version.isPrefixOf (version ++ rest) = true := ⟨rfl, hprefix⟩
  show scan ('O' :: ("PENQASM".toList ++ (version ++ rest))) = _
  obtain ⟨hblank, hcomment⟩ := not_skipped (c := 'O')
    ("PENQASM".toList ++ (version ++ rest)) (by decide)
  have hstart : isNameStart 'O' = true := by decide
  rw [scan]
  simp only [hblank, hcomment, hstart, Bool.false_eq_true, if_false, if_true,
    takeWhile_append_of_stops hcs hstops, dropWhile_append_of_stops hcs hstops]
  rw [if_pos hheader, List.drop_left]

theorem scan_text (hcs : ∀ x ∈ cs, x ≠ '"') :
    scan ('"' :: (cs ++ '"' :: rest)) = .text (String.ofList cs) :: scan rest := by
  have hcs : ∀ x ∈ cs, decide (x ≠ '"') = true := fun x hx => decide_eq_true (hcs x hx)
  have hstops : Stops (fun x => decide (x ≠ '"')) ('"' :: rest) := stops_cons (by decide)
  have hdrop := dropWhile_append_of_stops hcs hstops
  rw [scan, if_neg (by decide), if_neg (by simp [startsComment]), if_neg (by decide),
    if_neg (by decide), if_pos rfl]
  split
  · rename_i d behind h
    cases hdrop.symm.trans h
    rw [takeWhile_append_of_stops hcs hstops]
  · rename_i h
    cases hdrop.symm.trans h

theorem scan_comment (hcs : ∀ x ∈ cs, isLineEnd x = false) (hrest : Stops isLineEnd rest) :
    scan ('/' :: '/' :: (cs ++ '\n' :: rest)) = scan rest := by
  have hline : ∀ x ∈ '/' :: cs, (!isLineEnd x) = true := by
    intro x hx
    obtain rfl | hx := List.mem_cons.mp hx
    · decide
    · simp [hcs x hx]
  have hstops : Stops (fun x => !isLineEnd x) ('\n' :: rest) := stops_cons (by decide)
  have hfeed : ∀ x ∈ ['\n'], isLineEnd x = true := by simp [isLineEnd]
  have hend : (['\n'] ++ rest).dropWhile isLineEnd = rest := dropWhile_append_of_stops hfeed hrest
  rw [scan, if_neg (by decide), if_pos (by simp [startsComment]),
    show '/' :: (cs ++ '\n' :: rest) = ('/' :: cs) ++ '\n' :: rest from rfl,
    dropWhile_append_of_stops hline hstops, ← List.singleton_append, hend]

/-! ## Printed circuits -/

/-- The tokens of one qubit as an operand. -/
def operand (q : ℕ) : List Token :=
  [.name "q", .symbol .leftBracket, .int q, .symbol .rightBracket]

def operands : List ℕ → List Token
  | [] => []
  | q :: qs => operand q ++ qs.flatMap fun q => .symbol .comma :: operand q

/-- The tokens of an angle: its numerator times pi, divided by its denominator. -/
def quotient (p : Phase) : List Token :=
  (if p.num < 0 then [.symbol .minus] else []) ++
    [.int p.num.natAbs, .symbol .star, .keyword .pi, .symbol .slash, .int p.den]

def angle (p : Phase) : List Token :=
  .symbol .leftParen :: (quotient p ++ [.symbol .rightParen])

def gate (g : Gate) : List Token :=
  .name g.kind.name :: ((if g.kind.isRotation then angle g.phase else []) ++
    (operands g.qubits ++ [.symbol .semicolon]))

/-- The tokens of a printed circuit. -/
def circuit (c : Circuit) : List Token :=
  [.header, .symbol .semicolon, .keyword .includeFile, .text "qelib1.inc", .symbol .semicolon,
    .keyword .quantumRegister] ++ (operand c.width ++ .symbol .semicolon :: c.gates.flatMap gate)

theorem toList_natToString (n : ℕ) : (toString n).toList = Nat.toDigits 10 n := by simp

theorem toList_intToString (n : ℤ) :
    (toString n).toList = (if n < 0 then ['-'] else []) ++ Nat.toDigits 10 n.natAbs := by
  cases n <;> simp [toString, Int.repr]

theorem scan_operand {q : ℕ} (hq : q < 2 ^ 64) :
    scan ((s!"q[{q}]").toList ++ rest) = operand q ++ scan rest := by
  have htext : (s!"q[{q}]").toList = "q".toList ++ '[' :: (Nat.toDigits 10 q ++ [']']) := by
    simp [toString]
  have hname : ofName "q".toList = .name "q" := rfl
  rw [htext]
  simp only [List.append_assoc, List.cons_append, List.nil_append]
  rw [scan_word (by decide) (stops_cons (by decide)), hname, scan_mark '[' .leftBracket (by decide),
    scan_digits hq (stops_cons (by decide)), scan_mark ']' .rightBracket (by decide)]
  rfl

theorem scan_operands {qs : List ℕ} (hqs : ∀ q ∈ qs, q < 2 ^ 64) :
    scan ((", ".intercalate (qs.map fun q => s!"q[{q}]")).toList ++ rest) =
      operands qs ++ scan rest := by
  rw [String.toList_intercalate, List.map_map, show ", ".toList = [',', ' '] from rfl]
  cases qs with
  | nil => simp [operands]
  | cons q qs =>
      induction qs generalizing q with
      | nil =>
          have h : scan ((s!"q[{q}]").toList ++ rest) = operand q ++ scan rest :=
            scan_operand (hqs q List.mem_cons_self)
          simpa [operands] using h
      | cons q' qs ih =>
          have htail := ih q' fun x hx => hqs x (List.mem_cons_of_mem q hx)
          simp only [List.map_cons, List.intercalate_cons_cons, Function.comp_apply,
            List.append_assoc] at htail ⊢
          rw [scan_operand (hqs q List.mem_cons_self), List.cons_append, List.cons_append,
            List.nil_append, scan_mark ',' .comma (by decide), scan_blank (by decide), htail]
          simp [operands]

/-- The digits of a number, which neither continue a comment nor an arrow. -/
theorem exists_toDigits_eq (n : ℕ) :
    ∃ d ds, Nat.toDigits 10 n = d :: ds ∧ d.isDigit = true := by
  cases h : Nat.toDigits 10 n with
  | nil => exact absurd h Nat.toDigits_ne_nil
  | cons d ds =>
      have hd : d ∈ Nat.toDigits 10 n := h ▸ List.mem_cons_self
      exact ⟨d, ds, rfl, Nat.isDigit_of_mem_toDigits (by decide) (by decide) hd⟩

theorem scan_slash {n : ℕ} : scan ('/' :: (Nat.toDigits 10 n ++ rest)) =
    .symbol .slash :: scan (Nat.toDigits 10 n ++ rest) := by
  obtain ⟨d, ds, hdigits, hd⟩ := exists_toDigits_eq n
  have hcomment : startsComment '/' (Nat.toDigits 10 n ++ rest) = false := by
    have hne : d ≠ '/' := by
      rintro rfl
      revert hd
      decide
    simp [hdigits, startsComment, hne]
  exact scan_symbol (by decide) hcomment rfl

theorem scan_minus {n : ℕ} : scan ('-' :: (Nat.toDigits 10 n ++ rest)) =
    .symbol .minus :: scan (Nat.toDigits 10 n ++ rest) := by
  obtain ⟨d, ds, hdigits, hd⟩ := exists_toDigits_eq n
  have hne : d ≠ '>' := by
    rintro rfl
    revert hd
    decide
  refine scan_symbol (by decide) rfl ?_
  rw [hdigits, List.cons_append]
  unfold symbol?
  split <;> simp_all

theorem scan_angle (p : Phase) :
    scan ((s!"({p.num}*pi/{p.den})").toList ++ rest) = angle p ++ scan rest := by
  have hden : p.den < 2 ^ 64 := lt_trans p.fits (by decide)
  have hnum : p.num.natAbs < 2 ^ 64 := by
    have h := p.abs_num_le
    rw [Int.abs_eq_natAbs] at h
    omega
  have htext : (s!"({p.num}*pi/{p.den})").toList = '(' :: ((if p.num < 0 then ['-'] else []) ++
      (Nat.toDigits 10 p.num.natAbs ++ '*' :: ("pi".toList ++ '/' ::
        (Nat.toDigits 10 p.den ++ [')'])))) := by
    simp only [String.toList_append, toList_intToString, toList_natToString, List.append_assoc]
    rfl
  have hpi : ofName "pi".toList = .keyword .pi := rfl
  -- A sign is a token of its own, which could only be mistaken for an arrow.
  have hsign : ∀ behind, scan ((if p.num < 0 then ['-'] else []) ++
      (Nat.toDigits 10 p.num.natAbs ++ behind)) =
      (if p.num < 0 then [.symbol .minus] else []) ++
        scan (Nat.toDigits 10 p.num.natAbs ++ behind) := by
    intro behind
    split
    · exact scan_minus
    · rfl
  rw [htext]
  simp only [List.append_assoc, List.cons_append, List.nil_append]
  rw [scan_mark '(' .leftParen (by decide), hsign, scan_digits hnum (stops_cons (by decide)),
    scan_mark '*' .star (by decide), scan_word (by decide) (stops_cons (by decide)), hpi,
    scan_slash, scan_digits hden (stops_cons (by decide)), scan_mark ')' .rightParen (by decide)]
  simp [angle, quotient]

theorem scan_gate {g : Gate} (hqs : ∀ q ∈ g.qubits, q < 2 ^ 64) :
    scan ((g.render ++ ";\n").toList ++ rest) = gate g ++ scan rest := by
  have hword : isWord g.kind.name = true := by cases g.kind <;> decide
  have hname : ofName g.kind.name.toList = .name g.kind.name := by cases g.kind <;> rfl
  have hangle : ∀ behind, Stops isNameChar ((if g.kind.isRotation then
      s!"({g.phase.num}*pi/{g.phase.den})" else "").toList ++ ' ' :: behind) := by
    intro behind
    split
    · simp only [String.toList_append]
      exact stops_cons (by decide)
    · exact stops_cons (by decide)
  have hangle' : ∀ behind, scan ((if g.kind.isRotation then
      s!"({g.phase.num}*pi/{g.phase.den})" else "").toList ++ behind) =
      (if g.kind.isRotation then angle g.phase else []) ++ scan behind := by
    intro behind
    split
    · exact scan_angle g.phase
    · rfl
  unfold Gate.render
  simp only [String.toList_append, List.append_assoc, show " ".toList = [' '] from rfl,
    show ";\n".toList = [';', '\n'] from rfl, List.cons_append, List.nil_append]
  rw [scan_word hword (hangle _), hname, hangle', scan_blank (by decide), scan_operands hqs,
    scan_mark ';' .semicolon (by decide), scan_blank (by decide)]
  simp [gate]

theorem scan_gates {gates : List Gate} (h : ∀ g ∈ gates, ∀ q ∈ g.qubits, q < 2 ^ 64) :
    scan (String.join (gates.map fun g => g.render ++ ";\n")).toList = gates.flatMap gate := by
  rw [String.toList_join]
  induction gates with
  | nil => simp [scan]
  | cons g gates ih =>
      simp only [List.map_cons, List.flatMap_cons]
      rw [scan_gate (h g List.mem_cons_self), ih fun g' hg' => h g' (List.mem_cons_of_mem g hg')]

theorem isLineEnd_of_mem_toDigits {n : ℕ} (h : c ∈ Nat.toDigits 10 n) : isLineEnd c = false := by
  have hc : c.isDigit = true := Nat.isDigit_of_mem_toDigits (by decide) (by decide) h
  rw [Bool.eq_false_iff]
  intro hend
  simp only [isLineEnd, Bool.or_eq_true, decide_eq_true_iff] at hend
  rcases hend with rfl | rfl <;> revert hc <;> decide

theorem isLineEnd_of_mem_intToString {n : ℤ} (h : c ∈ (toString n).toList) :
    isLineEnd c = false := by
  rw [toList_intToString, List.mem_append] at h
  rcases h with hsign | hdigit
  · split at hsign
    · obtain rfl := List.mem_singleton.mp hsign
      decide
    · cases hsign
  · exact isLineEnd_of_mem_toDigits hdigit

theorem isLineEnd_of_mem_render {r : ℚ} (h : c ∈ (Ratio.render r).toList) :
    isLineEnd c = false := by
  unfold Ratio.render at h
  split at h
  · exact isLineEnd_of_mem_intToString h
  · simp only [String.toList_append, List.mem_append] at h
    rcases h with (hnum | hslash) | hden
    · exact isLineEnd_of_mem_intToString hnum
    · obtain rfl := List.mem_singleton.mp hslash
      decide
    · rw [toList_natToString] at hden
      exact isLineEnd_of_mem_toDigits hden

/-- The global phase is a comment and leaves no token. -/
theorem scan_globalPhase (p : Phase) (hrest : Stops isLineEnd rest) :
    scan ((if p.isZero then "" else "// global phase: " ++ p.render ++ "*pi\n").toList ++ rest) =
      scan rest := by
  split
  · rfl
  · have htext : ("// global phase: " ++ p.render ++ "*pi\n").toList = '/' :: '/' ::
        ((" global phase: ".toList ++ (p.render.toList ++ "*pi".toList)) ++ ['\n']) := by
      simp only [String.toList_append, List.append_assoc]
      rfl
    have hline : ∀ x ∈ " global phase: ".toList ++ (p.render.toList ++ "*pi".toList),
        isLineEnd x = false := by
      intro x hx
      simp only [List.mem_append] at hx
      rcases hx with hx | hx | hx
      · revert x
        simp [isLineEnd]
      · exact isLineEnd_of_mem_render hx
      · revert x
        simp [isLineEnd]
    rw [htext, List.cons_append, List.cons_append, List.append_assoc _ ['\n']]
    exact scan_comment hline hrest

theorem scan_register {width : ℕ} (hwidth : width < 2 ^ 64) :
    scan ((s!"qreg q[{width}];\n").toList ++ rest) =
      .keyword .quantumRegister :: (operand width ++ .symbol .semicolon :: scan rest) := by
  have htext : (s!"qreg q[{width}];\n").toList =
      "qreg".toList ++ ' ' :: ((s!"q[{width}]").toList ++ [';', '\n']) := by
    simp only [String.toList_append, List.append_assoc]
    rfl
  have hname : ofName "qreg".toList = .keyword .quantumRegister := rfl
  rw [htext]
  simp only [List.append_assoc, List.cons_append, List.nil_append]
  rw [scan_word (by decide) (stops_cons (by decide)), hname, scan_blank (by decide),
    scan_operand hwidth, scan_mark ';' .semicolon (by decide), scan_blank (by decide)]

/-- Every printed circuit is scanned into the tokens that it was printed from. -/
theorem scan_toQasm {c : Circuit} (hwidth : c.width < 2 ^ 64)
    (hqubits : ∀ g ∈ c.gates, ∀ q ∈ g.qubits, q < 2 ^ 64) :
    scan c.toQasm.toList = circuit c := by
  have htext : "OPENQASM 2.0;\ninclude \"qelib1.inc\";\n".toList =
      "OPENQASM".toList ++ (version ++ ';' :: '\n' :: ("include".toList ++ ' ' :: '"' ::
        ("qelib1.inc".toList ++ '"' :: [';', '\n']))) := rfl
  have hname : ofName "include".toList = .keyword .includeFile := rfl
  have hpath : ∀ x ∈ "qelib1.inc".toList, x ≠ '"' := by simp
  unfold Circuit.toQasm Circuit.body
  rw [String.toList_append, String.toList_append, String.toList_append, htext]
  simp only [List.append_assoc, List.cons_append, List.nil_append]
  rw [scan_header, scan_mark ';' .semicolon (by decide), scan_blank (by decide),
    scan_word (by decide) (stops_cons (by decide)), hname, scan_blank (by decide), scan_text hpath,
    scan_mark ';' .semicolon (by decide), scan_blank (by decide), scan_globalPhase _ ?_,
    scan_register hwidth, scan_gates hqubits]
  · rfl
  · rw [String.toList_append, String.toList_append, List.append_assoc, List.append_assoc]
    exact stops_cons (by decide)

end ZX.Qasm.Token
