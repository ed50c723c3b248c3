import Mathlib
import ZX.Proofs.Tensor.Entries
import ZX.Proofs.Transposition
import ZX.Tensor.Circuit

/-!
# Gates on tensors

With the indices on all but the first `n` axes fixed, a tensor is a state of `n` qubits. Every
operation of a gate acts on these states as the gate itself does. A run of gates acts by all of them,
and the places of the axes in storage are permuted by the swaps among them.
-/
namespace ZX

open Finset Function State

namespace Tensor

/-! ## Positions of changed indices -/

variable {bits bits' : List Bool} {axis a b : ℕ}

/-- Raising an index moves the position by the stride of its axis. -/
theorem position_set_true (h : bits[axis]? = some false) :
    position (bits.set axis true) = position bits + stride bits.length axis := by
  obtain ⟨hlt, hget⟩ := List.getElem?_eq_some_iff.mp h
  obtain ⟨front, back, rfl, rfl⟩ : ∃ front back : List Bool, bits = front ++ false :: back ∧
      axis = front.length := by
    refine ⟨bits.take axis, bits.drop (axis + 1), ?_, by rw [List.length_take]; omega⟩
    rw [← hget, List.getElem_cons_drop, List.take_append_drop]
  have hset : (front ++ false :: back).set front.length true = front ++ true :: back := by simp
  have hstride : stride (front ++ false :: back).length front.length = 2 ^ back.length := by
    rw [stride, Nat.one_shiftLeft, List.length_append, List.length_cons]
    congr 1
    omega
  rw [hset, hstride, position_append, position_append, position, position]
  simp only [List.length_cons, if_true, Bool.false_eq_true, if_false]
  omega

theorem testBit_position (bits : List Bool) (k : ℕ) :
    (position bits).testBit k = bits.reverse[k]?.getD false := by
  by_cases hk : k < bits.length
  · have haxis : bits.length - 1 - k < bits.length := by omega
    have hbit := axisBit_position (List.getElem?_eq_getElem haxis)
    have hplace : bits.length - 1 - (bits.length - 1 - k) = k := by omega
    rw [axisBit, hplace] at hbit
    rw [hbit, List.getElem?_reverse hk, List.getElem?_eq_getElem haxis, Option.getD_some]
  · have hlt : position bits < 2 ^ k :=
      (position_lt bits).trans_le (Nat.pow_le_pow_right Nat.two_pos (by omega))
    rw [Nat.testBit_lt_two_pow hlt, List.getElem?_eq_none (by rw [List.length_reverse]; omega),
      Option.getD_none]

/-- A position determines the indices. -/
theorem eq_of_position_eq (hlength : bits.length = bits'.length)
    (h : position bits = position bits') : bits = bits' := by
  refine List.reverse_injective (List.ext_getElem (by simpa using hlength) fun k hk hk' => ?_)
  have hbit := congrArg (Nat.testBit · k) h
  simpa only [testBit_position, List.getElem?_eq_getElem hk, List.getElem?_eq_getElem hk',
    Option.getD_some] using hbit

/-- Every position has indices. -/
theorem exists_position {rank i : ℕ} (h : i < 2 ^ rank) :
    ∃ bits : List Bool, bits.length = rank ∧ position bits = i := by
  induction rank generalizing i with
  | zero => exact ⟨[], rfl, by rw [position]; omega⟩
  | succ rank ih =>
      rw [pow_succ] at h
      by_cases hi : i < 2 ^ rank
      · obtain ⟨bits, hlength, rfl⟩ := ih hi
        exact ⟨false :: bits, by rw [List.length_cons, hlength], by simp [position]⟩
      · obtain ⟨bits, hlength, hposition⟩ := ih (i := i - 2 ^ rank) (by omega)
        refine ⟨true :: bits, by rw [List.length_cons, hlength], ?_⟩
        rw [position, if_pos rfl, hlength, hposition]
        omega

theorem swapBits_position (ha : a < bits.length) (hb : b < bits.length)
    (hlength : bits'.length = bits.length) (h : ∀ i, bits'[i]? = bits[Equiv.swap a b i]?) :
    swapBits bits.length a b (position bits) = position bits' := by
  have hbit_a := axisBit_position (List.getElem?_eq_getElem ha)
  have hbit_b := axisBit_position (List.getElem?_eq_getElem hb)
  rw [swapBits, hbit_a, hbit_b]
  split
  · rename_i hsame
    refine congrArg position (List.ext_getElem? fun i => ?_)
    rw [h, Equiv.swap_apply_def]
    split_ifs with hia hib
    · rw [hia, List.getElem?_eq_getElem ha, List.getElem?_eq_getElem hb, hsame]
    · rw [hib, List.getElem?_eq_getElem ha, List.getElem?_eq_getElem hb, hsame]
    · rfl
  · rename_i hdiffer
    have hopposite : bits[a] = !bits[b] := Bool.eq_not.mpr hdiffer
    refine Nat.eq_of_testBit_eq fun k => ?_
    rw [Nat.testBit_xor, Nat.testBit_xor, stride, stride, Nat.one_shiftLeft, Nat.one_shiftLeft,
      Nat.testBit_two_pow, Nat.testBit_two_pow, testBit_position, testBit_position]
    by_cases hk : k < bits.length
    · have hplace_a : bits.length - 1 - a = k ↔ bits.length - 1 - k = a := by omega
      have hplace_b : bits.length - 1 - b = k ↔ bits.length - 1 - k = b := by omega
      rw [List.getElem?_reverse hk, List.getElem?_reverse (hlength ▸ hk), hlength, h,
        Equiv.swap_apply_def]
      simp only [hplace_a, hplace_b]
      split_ifs with hia hib
      · have hab : a ≠ b := fun hab => hdiffer (by simp only [hab])
        rw [hia, List.getElem?_eq_getElem ha, List.getElem?_eq_getElem hb]
        simp [hab, hopposite]
      · have hab : b ≠ a := fun hab => hdiffer (by simp only [hab])
        rw [hib, List.getElem?_eq_getElem ha, List.getElem?_eq_getElem hb]
        simp [hab, hopposite]
      · simp [hia, hib]
    · rw [List.getElem?_eq_none (by rw [List.length_reverse]; omega),
        List.getElem?_eq_none (by rw [List.length_reverse]; omega)]
      have hout_a : bits.length - 1 - a ≠ k := by omega
      have hout_b : bits.length - 1 - b ≠ k := by omega
      simp [hout_a, hout_b]

/-! ## Words -/

/-- The first `n` bits of a valuation, as indices. -/
def word (n : ℕ) (x : ℕ → Bool) : List Bool := (List.range n).map x

variable {n : ℕ} {x y : ℕ → Bool}

@[simp] theorem length_word (n : ℕ) (x : ℕ → Bool) : (word n x).length = n := by simp [word]

theorem length_word_append {zs : List Bool} {rank : ℕ} (h : n + zs.length = rank) (x : ℕ → Bool) :
    (word n x ++ zs).length = rank := by rw [List.length_append, length_word, h]

theorem word_succ (n : ℕ) (x : ℕ → Bool) : word (n + 1) x = word n x ++ [x n] := by
  simp [word, List.range_succ]

theorem word_congr (h : ∀ q < n, x q = y q) : word n x = word n y :=
  List.map_congr_left fun q hq => h q (List.mem_range.mp hq)

theorem word_inj : word n x = word n y ↔ ∀ q < n, x q = y q := by
  simp [word, List.map_inj_left]

theorem getElem?_word_append (hi : axis < n) (x : ℕ → Bool) (zs : List Bool) :
    (word n x ++ zs)[axis]? = some (x axis) := by
  rw [List.getElem?_append_left (by rwa [length_word])]
  simp [word, hi]

theorem getElem?_word_append_of_le (hi : n ≤ axis) (x : ℕ → Bool) (zs : List Bool) :
    (word n x ++ zs)[axis]? = zs[axis - n]? := by
  rw [List.getElem?_append_right (by rwa [length_word]), length_word]

theorem set_word_append (hi : axis < n) (x : ℕ → Bool) (zs : List Bool) (c : Bool) :
    (word n x ++ zs).set axis c = word n (Function.update x axis c) ++ zs := by
  refine List.ext_getElem? fun i => ?_
  rw [List.getElem?_set]
  by_cases hin : i < n
  · rw [getElem?_word_append hin, getElem?_word_append hin]
    by_cases hia : axis = i
    · subst hia
      simp
      omega
    · rw [if_neg hia, update_of_ne (Ne.symm hia)]
  · rw [if_neg (by omega), getElem?_word_append_of_le (by omega),
      getElem?_word_append_of_le (by omega)]

/-- Exchanged bits are exchanged indices. -/
theorem getElem?_word_exchange (ha : a < n) (hb : b < n) (x : ℕ → Bool) (zs : List Bool) (i : ℕ) :
    (word n (exchange a b x) ++ zs)[i]? = (word n x ++ zs)[Equiv.swap a b i]? := by
  by_cases hin : i < n
  · have hswap : Equiv.swap a b i < n := by
      rw [Equiv.swap_apply_def]
      split_ifs <;> assumption
    rw [getElem?_word_append hin, getElem?_word_append hswap, exchange_apply]
  · rw [Equiv.swap_apply_of_ne_of_ne (by omega) (by omega),
      getElem?_word_append_of_le (by omega), getElem?_word_append_of_le (by omega)]

theorem exists_word (h : bits.length = n) : ∃ x, bits = word n x := by
  refine ⟨fun i => bits[i]?.getD false, List.ext_getElem (by simp [h]) fun i hi _ => ?_⟩
  simp [word, hi]

/-- Indices on twice as many axes are two words. -/
theorem exists_words (h : bits.length = 2 * n) : ∃ x y, bits = word n x ++ word n y := by
  have hfront : (bits.take n).length = n := by rw [List.length_take]; omega
  have hback : (bits.drop n).length = n := by rw [List.length_drop]; omega
  obtain ⟨x, hx⟩ := exists_word hfront
  obtain ⟨y, hy⟩ := exists_word hback
  exact ⟨x, y, by rw [← hx, ← hy, List.take_append_drop]⟩

/-! ## Whole tensors -/

/-- The entries and the places are as many as the rank says. -/
structure Whole {K : Type} (t : Tensor K) : Prop where
  size_eq : t.entries.size = 2 ^ t.rank
  length_order : t.order.length = t.rank

theorem whole_ofFn {K : Type} (rank : ℕ) (f : ℕ → K) : (ofFn rank f).Whole :=
  ⟨Array.size_ofFn, List.length_range⟩

theorem Whole.update {K : Type} {t : Tensor K} (h : t.Whole) (f : ℕ → K) : (t.update f).Whole :=
  ⟨Array.size_ofFn, h.length_order⟩

/-- Whole tensors are equal if they have the same entries in the same places. -/
theorem Whole.ext {K : Type} [Amplitude K] {t u : Tensor K} (ht : t.Whole) (hu : u.Whole)
    (hrank : t.rank = u.rank) (horder : t.order = u.order)
    (hread : ∀ bits : List Bool, bits.length = t.rank → t.read bits = u.read bits) : t = u := by
  have hentries : t.entries = u.entries := by
    refine Array.ext (by rw [ht.size_eq, hu.size_eq, hrank]) fun i hi hi' => ?_
    obtain ⟨bits, hlength, rfl⟩ := exists_position (ht.size_eq ▸ hi)
    have h := hread bits hlength
    rwa [read, read, entry, entry, Array.getElem?_eq_getElem hi, Array.getElem?_eq_getElem hi',
      Option.getD_some, Option.getD_some] at h
  cases t
  cases u
  simp_all

/-! ## Operations as operators -/

variable {t t' t'' : Tensor ExactComplex} {A B : State → State} {σ τ : Equiv.Perm ℕ}

/-- The state of the first `n` axes, with the indices `zs` on the others. -/
noncomputable def column (t : Tensor ExactComplex) (n : ℕ) (zs : List Bool) : State :=
  fun x => (t.read (word n x ++ zs)).value

/-- On the first `n` axes the entries have been acted on by `A`, and the axes have the places that
`σ` finds. -/
structure Acts (n : ℕ) (A : State → State) (σ : Equiv.Perm ℕ) (t t' : Tensor ExactComplex) :
    Prop where
  rank_eq : t'.rank = t.rank
  whole : t'.Whole
  order_eq : ∀ i, t'.order[i]? = t.order[σ i]?
  column_eq : ∀ zs : List Bool, n + zs.length = t.rank → t'.column n zs = A (t.column n zs)

theorem Acts.refl (h : t.Whole) : Acts n id 1 t t := ⟨rfl, h, fun _ => rfl, fun _ _ => rfl⟩

theorem Acts.trans (h : Acts n A σ t t') (h' : Acts n B τ t' t'') :
    Acts n (fun ψ => B (A ψ)) (σ * τ) t t'' where
  rank_eq := h'.rank_eq.trans h.rank_eq
  whole := h'.whole
  order_eq i := by rw [h'.order_eq, h.order_eq, Equiv.Perm.mul_apply]
  column_eq zs hzs := by rw [h'.column_eq zs (hzs.trans h.rank_eq.symm), h.column_eq zs hzs]

theorem phaseAt_acts (h : t.Whole) (hn : n ≤ t.rank) {axes : List ℕ} (hlt : ∀ q ∈ axes, q < n)
    (hnodup : axes.Nodup) (p : Phase) :
    ∃ t', t.phaseAt p axes = .ok t' ∧ Acts n (controlled p.unit axes) 1 t t' := by
  refine ⟨_, phaseAt_eq p (fun q hq => (hlt q hq).trans_le hn) hnodup rfl, rfl, h.update _,
    fun _ => rfl, fun zs hzs => funext fun x => ?_⟩
  have hlength := length_word_append hzs x
  have hall : axes.all (axisBit t.rank (position (word n x ++ zs)) ·) = axes.all x := by
    rw [← hlength, Bool.eq_iff_iff, List.all_eq_true, List.all_eq_true]
    refine forall₂_congr fun q hq => ?_
    rw [axisBit_position (getElem?_word_append (hlt q hq) x zs)]
  rw [column, read_weigh hlength, hall, controlled, State.weigh, ExactComplex.value_mul, mul_comm]
  cases axes.all x <;> rfl

theorem hadamardAt_acts (h : t.Whole) (hn : n ≤ t.rank) {q : ℕ} (hq : q < n) :
    ∃ t', t.hadamardAt q = .ok t' ∧ Acts n (State.hadamard q) 1 t t' := by
  refine ⟨_, if_pos (hq.trans_le hn), rfl, h.update _, fun _ => rfl, fun zs hzs => ?_⟩
  funext x
  have hlength := length_word_append hzs x
  have hbit := axisBit_position (getElem?_word_append hq x zs)
  -- the two positions that are mixed, from the lower one
  have hstep : position (word n (Function.update x q true) ++ zs) =
      position (word n (Function.update x q false) ++ zs) + stride t.rank q := by
    have hlow : (word n (Function.update x q false) ++ zs)[q]? = some false := by
      rw [getElem?_word_append hq, update_self]
    have hraise := position_set_true hlow
    rwa [set_word_append hq, update_idem, length_word_append hzs] at hraise
  have hx : Function.update x q (x q) = x := update_eq_self q x
  rw [hlength] at hbit
  rw [column, read_update hlength, hbit, State.hadamard, column, column, read, read, hstep]
  cases hb : x q with
  | false =>
      rw [hb] at hx
      rw [hx]
      simp [EdgeKind.factor]
      ring
  | true =>
      rw [hb] at hx
      rw [hx] at hstep
      rw [hstep, Nat.add_sub_cancel]
      simp [EdgeKind.factor]
      ring

theorem getElem?_swapPlaces {places : List ℕ} (ha : a < places.length) (hb : b < places.length)
    (i : ℕ) : (swapPlaces places a b)[i]? = places[Equiv.swap a b i]? := by
  rw [swapPlaces, List.getElem?_eq_getElem ha, List.getElem?_eq_getElem hb, Equiv.swap_apply_def]
  simp only [List.getElem?_set, List.length_set]
  grind

theorem length_swapPlaces (places : List ℕ) (a b : ℕ) :
    (swapPlaces places a b).length = places.length := by
  unfold swapPlaces
  split <;> simp

theorem swapAxes_acts (h : t.Whole) (hn : n ≤ t.rank) (ha : a < n) (hb : b < n) :
    ∃ t', t.swapAxes a b = .ok t' ∧ Acts n (shift (exchange a b)) (Equiv.swap a b) t t' := by
  have ha' : a < t.rank := ha.trans_le hn
  have hb' : b < t.rank := hb.trans_le hn
  refine ⟨_, if_pos ⟨ha', hb'⟩, rfl, ⟨Array.size_ofFn, ?_⟩,
    getElem?_swapPlaces (h.length_order ▸ ha') (h.length_order ▸ hb'), fun zs hzs => ?_⟩
  · exact (length_swapPlaces _ a b).trans h.length_order
  · funext x
    have hlength := length_word_append hzs
    have hswap := swapBits_position (hlength x ▸ ha') (hlength x ▸ hb')
      ((hlength (exchange a b x)).trans (hlength x).symm) (getElem?_word_exchange ha hb x zs)
    rw [hlength] at hswap
    rw [column, shift, column, read, read, ← hswap]
    exact congrArg _ (read_update (hlength x) fun i => t.entry (swapBits t.rank a b i))

/-! ## Gates -/

theorem applyGate_eq {K : Type} [Amplitude K] (t : Tensor K) (g : Gate) : t.applyGate g =
    match g.kind.sort with
    | .diagonal => t.phaseAt g.angle g.qubits
    | .hadamard => do t.hadamardAt (← at? g.qubits 0)
    | .conjugated place => t.conjugatedPhase g.angle g.qubits place
    | .exchange => do t.swapAxes (← at? g.qubits 0) (← at? g.qubits 1)
    | .idle => return t := by
  obtain ⟨kind, qubits, phase⟩ := g
  cases kind <;> rfl

theorem conjugatedPhase_acts (h : t.Whole) (hn : n ≤ t.rank) {qubits : List ℕ}
    (hlt : ∀ q ∈ qubits, q < n) (hnodup : qubits.Nodup) {place q : ℕ}
    (hq : qubits[place]? = some q) (p : Phase) :
    ∃ t', t.conjugatedPhase p qubits place = .ok t' ∧ Acts n
      (fun ψ => State.hadamard q (controlled p.unit qubits (State.hadamard q ψ))) 1 t t' := by
  have hqn : q < n := hlt q (List.mem_of_getElem? hq)
  obtain ⟨t₁, ht₁, h₁⟩ := hadamardAt_acts h hn hqn
  obtain ⟨t₂, ht₂, h₂⟩ := phaseAt_acts h₁.whole (h₁.rank_eq ▸ hn) hlt hnodup p
  have h₁₂ := h₁.trans h₂
  obtain ⟨t₃, ht₃, h₃⟩ := hadamardAt_acts h₂.whole (h₁₂.rank_eq ▸ hn) hqn
  refine ⟨t₃, ?_, h₁₂.trans h₃⟩
  have hat : at? qubits place = .ok q := inRange_eq_ok.mpr hq
  rw [conjugatedPhase, hat]
  show (do (← (← t.hadamardAt q).phaseAt p qubits).hadamardAt q) = _
  rw [ht₁]
  show (do (← t₁.phaseAt p qubits).hadamardAt q) = _
  rw [ht₂]
  exact ht₃

end Tensor

/-- The places that a gate exchanges. -/
def Gate.swapping (g : Gate) : Equiv.Perm ℕ :=
  match g.kind, g.qubits with
  | .swap, [a, b] => Equiv.swap a b
  | _, _ => 1

theorem Gate.swapping_of_ne {g : Gate} (h : g.kind.sort ≠ .exchange) : g.swapping = 1 := by
  unfold swapping
  split
  · rename_i hkind _
    exact absurd (by rw [hkind]; rfl) h
  · rfl

theorem Gate.Fits.swapping_of_le {g : Gate} {k i : ℕ} (h : g.Fits k) (hi : k ≤ i) :
    g.swapping i = i := by
  unfold Gate.swapping
  split
  · rename_i a b hkind hqs
    obtain ⟨-, -, hlt⟩ := h 2 (by rw [hkind]; rfl)
    have ha := hlt a (by simp [hqs])
    have hb := hlt b (by simp [hqs])
    exact Equiv.swap_apply_of_ne_of_ne (by omega) (by omega)
  · rfl

namespace Tensor

variable {n : ℕ} {t : Tensor ExactComplex}

/-- A gate that fits acts on a tensor by its matrix. -/
theorem applyGate_acts {g : Gate} (hg : g.Fits n) (h : t.Whole) (hn : n ≤ t.rank) :
    ∃ t', t.applyGate g = .ok t' ∧ Acts n g.act g.swapping t t' := by
  rw [applyGate_eq]
  cases hg.performs with
  | diagonal hsort hnodup hlt hact =>
      rw [hsort, hact, Gate.swapping_of_ne (by simp [hsort])]
      exact phaseAt_acts h hn hlt hnodup _
  | hadamard q hsort hqs hq hact =>
      rw [hsort, hact, hqs, Gate.swapping_of_ne (by simp [hsort])]
      exact hadamardAt_acts h hn hq
  | conjugated place q hsort hnodup hlt hq hact =>
      rw [hsort, hact, Gate.swapping_of_ne (by simp [hsort])]
      exact conjugatedPhase_acts h hn hlt hnodup hq _
  | exchange a b hsort hqs hab ha hb hact =>
      have hkind : g.kind = .swap := by
        cases hk : g.kind <;> simp [hk, GateKind.sort] at hsort ⊢
      have hswapping : g.swapping = Equiv.swap a b := by simp [Gate.swapping, hkind, hqs]
      rw [hsort, hact, hqs, hswapping]
      exact swapAxes_acts h hn ha hb
  | idle hsort hact =>
      rw [hsort, hact, Gate.swapping_of_ne (by simp [hsort])]
      exact ⟨t, rfl, .refl h⟩

theorem applyGates_acts {gates : List Gate} (hgates : ∀ gate ∈ gates, gate.Fits n) (h : t.Whole)
    (hn : n ≤ t.rank) : ∃ t', gates.foldlM applyGate t = .ok t' ∧
      Acts n (actAll gates) (gates.map Gate.swapping).prod t t' := by
  induction gates generalizing t with
  | nil => exact ⟨t, rfl, .refl h⟩
  | cons gate gates ih =>
      obtain ⟨t₁, ht₁, h₁⟩ := applyGate_acts (hgates gate List.mem_cons_self) h hn
      obtain ⟨t₂, ht₂, h₂⟩ := ih (fun g hg => hgates g (List.mem_cons_of_mem gate hg)) h₁.whole
        (h₁.rank_eq ▸ hn)
      refine ⟨t₂, ?_, ?_⟩
      · rw [List.foldlM_cons, ht₁]
        exact ht₂
      · rw [List.map_cons, List.prod_cons]
        exact h₁.trans h₂

/-! ## Circuits -/

theorem exists_ident (n : ℕ) : ∃ t : Tensor ExactComplex, ident n = .ok t ∧ t.Whole ∧
    t.rank = 2 * n ∧ t.InOrder ∧ ∀ y, t.column n (word n y) = ket n y := by
  refine ⟨_, rfl, whole_ofFn _ _, rfl, rfl, fun y => funext fun x => ?_⟩
  have hlength : (word n x ++ word n y).length = 2 * n := by simp [two_mul]
  have hdiv := position_append_div (word n x) (word n y)
  have hmod := position_append_mod (word n x) (word n y)
  rw [length_word] at hdiv hmod
  have hiff : position (word n x) = position (word n y) ↔ ∀ q < n, x q = y q := by
    rw [← word_inj]
    exact ⟨eq_of_position_eq (by simp), congrArg position⟩
  rw [column, read_ofFn hlength, hdiv, hmod, ket]
  simp only [hiff]
  split <;> rfl

end Tensor

namespace Circuit

variable {c : Circuit}

/-- The places of the wires that the swaps of a circuit lead to, the last gate first. -/
def crossing (c : Circuit) : Equiv.Perm ℕ := (c.gates.reverse.map Gate.swapping).prod

/-- The swaps lead every wire back to its place. -/
def Uncrossed (c : Circuit) : Prop := ∀ q < c.width, c.crossing q = q

instance (c : Circuit) : Decidable c.Uncrossed := inferInstanceAs (Decidable (∀ _ < _, _))

open Tensor

/-- The tensor has the entries of the matrix of the circuit, and its axes have the places that the
swaps lead to. -/
structure Tabulated (c : Circuit) (t : Tensor ExactComplex) : Prop where
  whole : t.Whole
  rank_eq : t.rank = 2 * c.width
  order_eq : ∀ i, t.order[i]? = (List.range (2 * c.width))[c.crossing i]?
  read_eq : ∀ x y, (t.read (word c.width x ++ word c.width y)).value = c.amplitude c.width x y

theorem exists_toTensor (hfits : ∀ gate ∈ c.gates, gate.Fits c.width) :
    ∃ t, c.toTensor ExactComplex = .ok t ∧ c.Tabulated t := by
  obtain ⟨t₀, ht₀, hwhole, hrank, hinOrder, hident⟩ := exists_ident c.width
  obtain ⟨t₁, ht₁, hacts⟩ := applyGates_acts
    (fun gate hgate => hfits gate (List.mem_reverse.mp hgate)) hwhole (by omega)
  have hrun : c.toTensor ExactComplex =
      if c.globalPhase.isZero then .ok t₁ else .ok (t₁.scale (Amplitude.ofPhase c.globalPhase)) := by
    rw [toTensor, ht₀]
    show (do
      let t ← c.gates.reverse.foldlM applyGate t₀
      if c.globalPhase.isZero then return t
      else return t.scale (Amplitude.ofPhase c.globalPhase)) = _
    rw [ht₁]
    rfl
  have hread : ∀ x y, (t₁.read (word c.width x ++ word c.width y)).value =
      actAll c.gates (ket c.width x) y := by
    intro x y
    have hcolumn := congrFun (hacts.column_eq (word c.width y) (by simp [hrank, two_mul])) x
    rwa [hident, actAll_reverse_ket hfits] at hcolumn
  have horder : ∀ i, t₁.order[i]? = (List.range (2 * c.width))[c.crossing i]? := by
    intro i
    rw [hacts.order_eq, hinOrder, hrank]
    rfl
  by_cases hzero : c.globalPhase.isZero
  · refine ⟨t₁, hrun.trans (if_pos hzero), hacts.whole, hacts.rank_eq.trans hrank, horder,
      fun x y => ?_⟩
    rw [hread, amplitude, act, of_decide_eq_true hzero, Phase.unit_zero, one_smul]
  · refine ⟨_, hrun.trans (if_neg hzero), hacts.whole.update _, hacts.rank_eq.trans hrank, horder,
      fun x y => ?_⟩
    have hlength : (word c.width x ++ word c.width y).length = t₁.rank := by
      simp [hacts.rank_eq, hrank, two_mul]
    rw [read_scale hlength, ExactComplex.value_mul, hread, mul_comm]
    rfl

theorem crossing_of_le (hfits : ∀ gate ∈ c.gates, gate.Fits c.width) {i : ℕ} (hi : c.width ≤ i) :
    c.crossing i = i := by
  have hprod : ∀ gates : List Gate, (∀ gate ∈ gates, gate.Fits c.width) →
      (gates.map Gate.swapping).prod i = i := by
    intro gates hgates
    induction gates with
    | nil => rfl
    | cons gate gates ih =>
        rw [List.map_cons, List.prod_cons, Equiv.Perm.mul_apply,
          ih fun g hg => hgates g (List.mem_cons_of_mem gate hg)]
        exact (hgates gate List.mem_cons_self).swapping_of_le hi
  exact hprod _ fun gate hgate => hfits gate (List.mem_reverse.mp hgate)

theorem Tabulated.inOrder_iff {t : Tensor ExactComplex} (h : c.Tabulated t)
    (hfits : ∀ gate ∈ c.gates, gate.Fits c.width) : t.InOrder ↔ c.Uncrossed := by
  rw [InOrder, h.rank_eq]
  constructor
  · intro hinOrder q hq
    have hplace := h.order_eq q
    rw [hinOrder, List.getElem?_range (by omega)] at hplace
    obtain ⟨_, heq⟩ := List.getElem?_eq_some_iff.mp hplace.symm
    rwa [List.getElem_range] at heq
  · intro huncrossed
    refine List.ext_getElem? fun i => ?_
    have hfixed : c.crossing i = i := by
      by_cases hi : i < c.width
      · exact huncrossed i hi
      · exact crossing_of_le hfits (Nat.not_lt.mp hi)
    rw [h.order_eq, hfixed]

end Circuit

end ZX
