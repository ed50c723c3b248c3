import Mathlib
import ZX.Proofs.Meaning
import ZX.Proofs.Outcome
import ZX.Tensor.Basic

/-!
# Reading tensors by indices

An entry is read by the list of its indices, one bit for each axis and the first axis first. Every
operation on tensors is described by what is read afterwards, so that no later argument computes
with positions.

The entries that matter here are exact complex numbers, which take no storage and never round.
-/
namespace ZX

/-! ## Exact numbers -/

/-- A complex number, exactly. -/
structure ExactComplex where
  value : ℂ

namespace ExactComplex

attribute [local instance] atLeastTwo_two in
/-- A tensor of exact numbers may have any rank. -/
noncomputable instance : Amplitude ExactComplex where
  zero := ⟨0⟩
  one := ⟨1⟩
  add z w := ⟨z.value + w.value⟩
  sub z w := ⟨z.value - w.value⟩
  mul z w := ⟨z.value * w.value⟩
  ofPhase p := ⟨p.unit⟩
  ofScalar s := ⟨s.value⟩
  invSqrt2 := ⟨1 / (√2 : ℝ)⟩
  checkRank _ := .ok ()

@[simp] theorem value_zero : (0 : ExactComplex).value = 0 := rfl

@[simp] theorem value_one : (1 : ExactComplex).value = 1 := rfl

@[simp] theorem value_add (z w : ExactComplex) : (z + w).value = z.value + w.value := rfl

@[simp] theorem value_sub (z w : ExactComplex) : (z - w).value = z.value - w.value := rfl

@[simp] theorem value_mul (z w : ExactComplex) : (z * w).value = z.value * w.value := rfl

@[simp] theorem value_ofPhase (p : Phase) :
    (Amplitude.ofPhase p : ExactComplex).value = p.unit := rfl

@[simp] theorem value_ofScalar (s : Scalar) :
    (Amplitude.ofScalar s : ExactComplex).value = s.value := rfl

@[simp] theorem value_invSqrt2 :
    (Amplitude.invSqrt2 : ExactComplex).value = 1 / ((√2 : ℝ) : ℂ) := rfl

@[simp] theorem checkRank_eq (n : ℕ) : Amplitude.checkRank ExactComplex n = .ok () := rfl

end ExactComplex

namespace Tensor

/-! ## Positions -/

/-- The position with the given indices, the first of which weighs most. -/
def position : List Bool → ℕ
  | [] => 0
  | b :: bits => (if b then 2 ^ bits.length else 0) + position bits

theorem position_lt (bits : List Bool) : position bits < 2 ^ bits.length := by
  induction bits with
  | nil => exact Nat.one_pos
  | cons b bits ih =>
      rw [position, List.length_cons, pow_succ]
      split <;> omega

theorem position_append (bits bits' : List Bool) :
    position (bits ++ bits') = position bits * 2 ^ bits'.length + position bits' := by
  induction bits with
  | nil => simp [position]
  | cons b bits ih =>
      rw [List.cons_append, position, position, ih, List.length_append, pow_add]
      split <;> ring

theorem position_append_div (bits bits' : List Bool) :
    position (bits ++ bits') / 2 ^ bits'.length = position bits := by
  rw [position_append, Nat.mul_comm, Nat.mul_add_div (Nat.two_pow_pos _),
    Nat.div_eq_of_lt (position_lt bits'), Nat.add_zero]

theorem position_append_mod (bits bits' : List Bool) :
    position (bits ++ bits') % 2 ^ bits'.length = position bits' := by
  rw [position_append, Nat.mul_comm, Nat.mul_add_mod, Nat.mod_eq_of_lt (position_lt bits')]

theorem axisBit_position {bits : List Bool} {axis : ℕ} {b : Bool} (h : bits[axis]? = some b) :
    axisBit bits.length (position bits) axis = b := by
  induction bits generalizing axis with
  | nil => cases h
  | cons c bits ih =>
      have hlt := position_lt bits
      rw [axisBit, position]
      cases axis with
      | zero =>
          obtain rfl := Option.some.inj h
          have hlow : (position bits).testBit bits.length = false := Nat.testBit_lt_two_pow hlt
          rw [List.length_cons, Nat.add_sub_cancel, Nat.sub_zero]
          cases c with
          | false => simpa using hlow
          | true => simp [Nat.testBit_two_pow_add_eq, hlow]
      | succ axis =>
          have hrest : axisBit bits.length (position bits) axis = b := ih h
          have haxis : axis < bits.length := Nat.lt_of_succ_lt_succ (List.getElem?_eq_some_iff.mp h).1
          have hplace : (c :: bits).length - 1 - (axis + 1) = bits.length - 1 - axis := by
            rw [List.length_cons]
            omega
          rw [hplace, ← hrest, axisBit]
          cases c with
          | false => simp
          | true =>
              have hbelow : bits.length - 1 - axis < bits.length := by omega
              simp [Nat.testBit_two_pow_add_gt hbelow]

/-- What the indices on some axes are can be read off the position. -/
theorem all_axisBit {bits : List Bool} {axes : List ℕ} (hlt : ∀ i ∈ axes, i < bits.length)
    (p : Bool → Bool) :
    axes.all (fun i => p (axisBit bits.length (position bits) i)) =
      axes.all fun i => bits[i]?.any p := by
  rw [Bool.eq_iff_iff, List.all_eq_true, List.all_eq_true]
  refine forall₂_congr fun i hi => ?_
  have hget := List.getElem?_eq_getElem (hlt i hi)
  rw [axisBit_position hget, hget, Option.any_some]

theorem insertIdx_append_length {α : Type} (front back : List α) (a : α) :
    (front ++ back).insertIdx front.length a = front ++ a :: back := by
  induction front with
  | nil => rfl
  | cons x front ih => rw [List.cons_append, List.length_cons, List.insertIdx_succ_cons, ih,
      List.cons_append]

/-- Inserting an index cuts the position at the stride of its axis. -/
theorem insertBit_position {bits : List Bool} {axis : ℕ} (h : axis ≤ bits.length) (b : Bool) :
    insertBit (stride (bits.length + 1) axis) (position bits) b =
      position (bits.insertIdx axis b) := by
  set front := bits.take axis
  set back := bits.drop axis with hback
  have hsplit : bits = front ++ back := (List.take_append_drop axis bits).symm
  have hinsert : bits.insertIdx axis b = front ++ b :: back := by
    rw [← insertIdx_append_length, List.length_take, Nat.min_eq_left h, ← hsplit]
  have hstride : stride (bits.length + 1) axis = 2 ^ back.length := by
    rw [stride, Nat.one_shiftLeft, hback, List.length_drop, Nat.add_sub_cancel]
  rw [hstride, hinsert, insertBit, hsplit, position_append_div, position_append_mod, position_append,
    position, List.length_cons, pow_succ]
  ring

/-! ## Entries after each operation -/

variable {K : Type} [Amplitude K] {t : Tensor K} {bits : List Bool} {axis : ℕ}

/-- The entry with the given indices. -/
def read (t : Tensor K) (bits : List Bool) : K := t.entry (position bits)

theorem read_ofFn {rank : ℕ} (h : bits.length = rank) (f : ℕ → K) :
    (ofFn rank f).read bits = f (position bits) := by
  have hlt : position bits < 2 ^ rank := h ▸ position_lt bits
  rw [read, entry, ofFn, Array.getElem?_ofFn, dif_pos hlt]
  rfl

theorem read_update (h : bits.length = t.rank) (f : ℕ → K) :
    (t.update f).read bits = f (position bits) := read_ofFn h f

theorem read_unit : (unit : Tensor K).read [] = 1 := read_ofFn rfl _

theorem read_scale (h : bits.length = t.rank) (x : K) :
    (t.scale x).read bits = t.read bits * x := read_update h _

theorem read_weigh (h : bits.length = t.rank) (factor : ℕ → K) :
    (t.weigh factor).read bits = t.read bits * factor (position bits) := read_update h _

theorem read_addAxis (h : bits.length = t.rank) (factor : Option K) (b : Bool) :
    (t.addAxis factor).read (b :: bits) =
      match b, factor with
      | true, some x => t.read bits * x
      | _, _ => t.read bits := by
  have hlt : position bits < 2 ^ t.rank := h ▸ position_lt bits
  rw [addAxis, read_ofFn (by rw [List.length_cons, h]), position, h]
  cases b with
  | false =>
      rw [if_neg Bool.false_ne_true, Nat.zero_add, if_pos hlt]
      rfl
  | true =>
      rw [if_pos rfl, if_neg (by omega), Nat.add_sub_cancel_left]
      cases factor <;> rfl

theorem read_sumAxis (h : bits.length + 1 = t.rank) (haxis : axis < t.rank) :
    (t.sumAxis axis).read bits =
      t.read (bits.insertIdx axis false) + t.read (bits.insertIdx axis true) := by
  rw [sumAxis, read_ofFn (by omega), ← h, insertBit_position (by omega),
    insertBit_position (by omega)]
  rfl

/-- Distinct axes that exist pass the check, if the small tensor on them can be stored. -/
theorem checkAxes_eq_ok {axes : List ℕ} {repeated : Fault} (hlt : ∀ i ∈ axes, i < t.rank)
    (hnodup : axes.Nodup) (hrank : Amplitude.checkRank K axes.length = .ok ()) :
    t.checkAxes axes repeated = .ok () := by
  have hany : axes.any (t.rank ≤ ·) = false := by
    rw [List.any_eq_false]
    intro i hi
    have := hlt i hi
    simpa using this
  rw [checkAxes, hany, if_neg Bool.false_ne_true, hrank, eraseDups_of_nodup hnodup]
  exact if_neg (not_not.mpr rfl)

theorem deltaAt_eq {axes : List ℕ} (hlt : ∀ i ∈ axes, i < t.rank) (hnodup : axes.Nodup)
    (hrank : Amplitude.checkRank K axes.length = .ok ()) :
    t.deltaAt axes = .ok (t.weigh fun x =>
      if axes.all (axisBit t.rank x ·) || axes.all (!axisBit t.rank x ·) then 1 else 0) := by
  rw [deltaAt, checkAxes_eq_ok hlt hnodup hrank]
  rfl

theorem exists_deltaAt {axes : List ℕ} (hlt : ∀ i ∈ axes, i < t.rank) (hnodup : axes.Nodup)
    (hrank : Amplitude.checkRank K axes.length = .ok ()) :
    ∃ t', t.deltaAt axes = .ok t' ∧ t'.rank = t.rank ∧ ∀ bits : List Bool, bits.length = t.rank →
      t'.read bits = t.read bits *
        if axes.all (bits[·]?.any id) || axes.all (bits[·]?.any (!·)) then 1 else 0 := by
  refine ⟨_, deltaAt_eq hlt hnodup hrank, rfl, fun bits hbits => ?_⟩
  rw [← hbits] at hlt
  rw [read_weigh hbits, ← all_axisBit hlt, ← all_axisBit hlt, hbits]
  rfl

theorem phaseAt_eq {axes : List ℕ} (p : Phase) (hlt : ∀ i ∈ axes, i < t.rank)
    (hnodup : axes.Nodup) (hrank : Amplitude.checkRank K axes.length = .ok ()) :
    t.phaseAt p axes = .ok (t.weigh fun x =>
      if axes.all (axisBit t.rank x ·) then Amplitude.ofPhase p else 1) := by
  rw [phaseAt, checkAxes_eq_ok hlt hnodup hrank]
  rfl

theorem exists_phaseAt {axes : List ℕ} (p : Phase) (hlt : ∀ i ∈ axes, i < t.rank)
    (hnodup : axes.Nodup) (hrank : Amplitude.checkRank K axes.length = .ok ()) :
    ∃ t', t.phaseAt p axes = .ok t' ∧ t'.rank = t.rank ∧ ∀ bits : List Bool, bits.length = t.rank →
      t'.read bits = t.read bits * if axes.all (bits[·]?.any id) then Amplitude.ofPhase p else 1 := by
  refine ⟨_, phaseAt_eq p hlt hnodup hrank, rfl, fun bits hbits => ?_⟩
  rw [← hbits] at hlt
  rw [read_weigh hbits, ← all_axisBit hlt, hbits]
  rfl

end Tensor

end ZX
