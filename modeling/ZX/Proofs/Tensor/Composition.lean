import Mathlib
import ZX.Proofs.Tensor.Action

/-!
# Plugging tensors together

Plugging multiplies the entries of two tensors and sums the shared axes away one by one, which gives
the sum over all words on these axes. For the tensors of two circuits this is the product of their
matrices, so it is the tensor of the circuits in a row. Only a tensor whose axes are in order can be
plugged, and the axes of the tensor of a circuit are in order just if its swaps cancel.
-/
namespace ZX

open Finset Function State

namespace Tensor

/-- An axis is summed away so many times. -/
def sumAxes {K : Type} [Amplitude K] (t : Tensor K) (axis k : ℕ) : Tensor K :=
  (List.range k).foldl (fun r _ => r.sumAxis axis) t

theorem sumAxes_succ {K : Type} [Amplitude K] (t : Tensor K) (axis k : ℕ) :
    t.sumAxes axis (k + 1) = (t.sumAxes axis k).sumAxis axis := by
  rw [sumAxes, List.range_succ, List.foldl_append]
  rfl

variable {n p q : ℕ} {t u : Tensor ExactComplex} {xs zs : List Bool}

/-- This sums over all words on the axes that start there. -/
theorem read_sumAxes (hrank : t.rank = p + n + q) {k : ℕ} (hk : k ≤ n) :
    (t.sumAxes p k).rank = p + n + q - k ∧ ∀ xs ws : List Bool, xs.length = p →
      ws.length = n - k + q → ∀ β, ((t.sumAxes p k).read (xs ++ ws)).value =
        sumOver (range k) (fun y => (t.read (xs ++ word k y ++ ws)).value) β := by
  induction k with
  | zero => exact ⟨hrank, fun xs ws _ _ β => by simp [sumAxes, word]⟩
  | succ k ih =>
      obtain ⟨ihrank, ihread⟩ := ih (by omega)
      rw [sumAxes_succ]
      refine ⟨?_, fun xs ws hxs hws β => ?_⟩
      · show (t.sumAxes p k).rank - 1 = _
        omega
      · have hinsert : ∀ b, (xs ++ ws).insertIdx p b = xs ++ b :: ws := fun b => by
          rw [← hxs, insertIdx_append_length]
        have hword : ∀ y b, word (k + 1) (Function.update y k b) = word k y ++ [b] := fun y b => by
          rw [word_succ, update_self, word_congr fun q hq => update_of_ne hq.ne _ _]
        have hlength : ∀ b, (b :: ws).length = n - k + q := fun b => by
          rw [List.length_cons]
          omega
        rw [read_sumAxis (by rw [List.length_append]; omega) (by omega), hinsert, hinsert,
          ExactComplex.value_add, ihread xs _ hxs (hlength _) β, ihread xs _ hxs (hlength _) β,
          range_add_one, sumOver_insert notMem_range_self, ← sumOver_add]
        simp only [hword, List.append_assoc, List.singleton_append]

theorem sumAxes_inOrder (ht : t.Whole) (hinOrder : t.InOrder) (axis k : ℕ) :
    (t.sumAxes axis k).Whole ∧ (t.sumAxes axis k).InOrder := by
  cases k with
  | zero => exact ⟨ht, hinOrder⟩
  | succ k =>
      rw [sumAxes_succ, sumAxis]
      exact ⟨whole_ofFn _ _, rfl⟩

/-- The products of the entries that agree on the shared axes. -/
theorem read_product {K : Type} [Amplitude K] (t : Tensor K) {u : Tensor K} (xs : List Bool)
    {ys zs : List Bool} (hu : u.rank = ys.length + zs.length) :
    (ofFn (xs.length + ys.length + zs.length) fun i =>
      t.entry (i / 2 ^ zs.length) * u.entry (i % 2 ^ u.rank)).read (xs ++ ys ++ zs) =
      t.read (xs ++ ys) * u.read (ys ++ zs) := by
  have hright : position (xs ++ ys ++ zs) % 2 ^ u.rank = position (ys ++ zs) := by
    rw [List.append_assoc, hu, ← List.length_append, position_append_mod]
  rw [read_ofFn (by simp [Nat.add_assoc]), position_append_div, hright]
  rfl

/-- Plugging sums over the words on the shared axes. -/
theorem exists_plug (ht : t.rank = p + n) (hu : u.rank = n + q) (htorder : t.InOrder)
    (huorder : u.InOrder) : ∃ r, t.plug n u = .ok r ∧ r.Whole ∧ r.rank = p + q ∧ r.InOrder ∧
      ∀ xs zs : List Bool, xs.length = p → zs.length = q → ∀ β, (r.read (xs ++ zs)).value =
        sumOver (range n) (fun y => (t.read (xs ++ word n y)).value *
          (u.read (word n y ++ zs)).value) β := by
  set product : Tensor ExactComplex :=
    ofFn (p + n + q) fun i => t.entry (i / 2 ^ q) * u.entry (i % 2 ^ u.rank) with hproduct
  have hplug : t.plug n u = .ok (product.sumAxes p n) := by
    have htotal : t.rank + u.rank - n = p + n + q := by omega
    have hlow : t.rank - n = p := by omega
    have hhigh : u.rank - n = q := by omega
    have hfine : ¬(u.rank < n ∨ ¬t.InOrder ∨ ¬u.InOrder) := by
      simp only [htorder, huorder, not_true, or_false]
      omega
    rw [plug, natSub_eq_ok.mpr ⟨by omega, htotal⟩]
    show (if t.rank < n then _ else _) = _
    rw [if_neg (by omega), if_neg hfine, hlow, hhigh]
    rfl
  obtain ⟨hwhole, hinOrder⟩ := sumAxes_inOrder (whole_ofFn _ _) rfl p n (t := product)
  obtain ⟨hrank, hread⟩ := read_sumAxes (t := product) (p := p) (n := n) (q := q) rfl le_rfl
  refine ⟨_, hplug, hwhole, by omega, hinOrder, fun xs zs hxs hzs β => ?_⟩
  rw [hread xs zs hxs (by omega) β]
  refine sumOver_congr fun y _ => ?_
  have hrank : u.rank = (word n y).length + zs.length := by rw [length_word, hu, hzs]
  have hentry := read_product t xs hrank
  rw [length_word, hxs, hzs] at hentry
  rw [hproduct, hentry, ExactComplex.value_mul]

/-- A tensor in order with the sums over the shared words as entries is what plugging gives. -/
theorem plug_eq_ok {r : Tensor ExactComplex} (ht : t.rank = 2 * n) (hu : u.rank = 2 * n)
    (htorder : t.InOrder) (huorder : u.InOrder) (hwhole : r.Whole) (hrank : r.rank = 2 * n)
    (horder : r.InOrder) (hread : ∀ x z, (r.read (word n x ++ word n z)).value =
      sumOver (range n) (fun y => (t.read (word n x ++ word n y)).value *
        (u.read (word n y ++ word n z)).value) z) : t.plug n u = .ok r := by
  obtain ⟨r', hr', hwhole', hrank', horder', hread'⟩ :=
    exists_plug (ht.trans (two_mul n)) (hu.trans (two_mul n)) htorder huorder
  have hranks : r'.rank = r.rank := by omega
  have hplaces : r'.order = r.order := by rw [horder', horder, hranks]
  rw [hr', hwhole'.ext hwhole hranks hplaces fun bits hbits => ?_]
  obtain ⟨x, z, rfl⟩ := exists_words (hbits.trans (hranks.trans hrank))
  have hvalue := (hread' _ _ (length_word n x) (length_word n z) z).trans (hread x z).symm
  exact congrArg ExactComplex.mk hvalue

theorem plug_of_not_inOrder (ht : n ≤ t.rank) (h : ¬(t.InOrder ∧ u.InOrder)) :
    t.plug n u = .error .tensorShape := by
  have hbad : u.rank < n ∨ ¬t.InOrder ∨ ¬u.InOrder := .inr (not_and_or.mp h)
  rw [plug, natSub_eq_ok.mpr ⟨by omega, rfl⟩]
  show (if t.rank < n then _ else _) = _
  rw [if_neg (by omega), if_pos hbad]
  rfl

end Tensor

namespace Circuit

open Tensor

variable {c d e : Circuit} {t u : Tensor ExactComplex}

/-- Two circuits in a row, up to the way in which their phases are added. -/
structure Appended (c d e : Circuit) : Prop where
  widths_eq : c.width = d.width
  width_eq : e.width = c.width
  gates_eq : e.gates = c.gates ++ d.gates
  unit_eq : e.globalPhase.unit = c.globalPhase.unit * d.globalPhase.unit

theorem append_ends (hwidth : c.width = d.width) : Ends (c.append d) (Appended c d)
    fun f => f = .overflow ∧ c.globalPhase.add d.globalPhase = .error .overflow := by
  rw [append, if_pos hwidth, extend]
  obtain ⟨r, hr, hunit⟩ | hover := (Phase.add_ends c.globalPhase d.globalPhase).ok_or_error
  · rw [hr]
    exact Ends.ok_iff.mpr ⟨hwidth, rfl, rfl, hunit⟩
  · rw [hover]
    exact Ends.error_iff.mpr ⟨rfl, rfl⟩

namespace Appended

theorem fits (h : Appended c d e) (hc : ∀ gate ∈ c.gates, gate.Fits c.width)
    (hd : ∀ gate ∈ d.gates, gate.Fits d.width) : ∀ gate ∈ e.gates, gate.Fits e.width := by
  rw [h.gates_eq, h.width_eq]
  intro gate hgate
  rcases List.mem_append.mp hgate with hgate | hgate
  · exact hc gate hgate
  · exact h.widths_eq ▸ hd gate hgate

/-- The matrix of two circuits in a row is the product of their matrices. -/
theorem amplitude_eq (h : Appended c d e) (hd : ∀ gate ∈ d.gates, gate.Fits d.width)
    (x z : ℕ → Bool) : e.amplitude d.width x z =
      sumOver (range d.width) (fun y => c.amplitude d.width x y * d.amplitude d.width y z) z := by
  rw [amplitude, act, h.unit_eq, h.gates_eq, Pi.smul_apply, actAll_append_ket hd, smul_eq_mul,
    ← sumOver_mul_left]
  refine sumOver_congr fun y _ => ?_
  simp only [amplitude, act, Pi.smul_apply, smul_eq_mul]
  ring

/-- The swaps of the second circuit follow those of the first, so they stand on the left. -/
theorem crossing_eq (h : Appended c d e) : e.crossing = d.crossing * c.crossing := by
  rw [crossing, h.gates_eq, List.reverse_append, List.map_append, List.prod_append]
  rfl

theorem uncrossed (h : Appended c d e) (hc : c.Uncrossed) (hd : d.Uncrossed) : e.Uncrossed := by
  intro q hq
  rw [h.width_eq] at hq
  rw [h.crossing_eq, Equiv.Perm.mul_apply, hc q hq, hd q (h.widths_eq ▸ hq)]

variable {r : Tensor ExactComplex}

/-- So the tensor of two circuits in a row is the product of their tensors. -/
theorem read_eq (h : Appended c d e) (hd : ∀ gate ∈ d.gates, gate.Fits d.width)
    (ht : c.Tabulated t) (hu : d.Tabulated u) (hr : e.Tabulated r) (x z : ℕ → Bool) :
    (r.read (word c.width x ++ word c.width z)).value =
      sumOver (range c.width) (fun y => (t.read (word c.width x ++ word c.width y)).value *
        (u.read (word c.width y ++ word c.width z)).value) z := by
  have htread := ht.read_eq
  have hrread := hr.read_eq x z
  rw [h.width_eq, h.widths_eq] at hrread
  rw [h.widths_eq] at htread ⊢
  simp only [htread, hu.read_eq]
  rw [hrread, h.amplitude_eq hd]

theorem plug_eq (h : Appended c d e) (hc : ∀ gate ∈ c.gates, gate.Fits c.width)
    (hd : ∀ gate ∈ d.gates, gate.Fits d.width) (ht : c.Tabulated t) (hu : d.Tabulated u)
    (hr : e.Tabulated r) (hcun : c.Uncrossed) (hdun : d.Uncrossed) : t.plug c.width u = .ok r := by
  have hurank : u.rank = 2 * c.width := by rw [hu.rank_eq, h.widths_eq]
  have hrrank : r.rank = 2 * c.width := by rw [hr.rank_eq, h.width_eq]
  exact plug_eq_ok ht.rank_eq hurank ((ht.inOrder_iff hc).mpr hcun) ((hu.inOrder_iff hd).mpr hdun)
    hr.whole hrrank ((hr.inOrder_iff (h.fits hc hd)).mpr (h.uncrossed hcun hdun))
    (h.read_eq hd ht hu hr)

end Appended

theorem toTensor_empty (n : ℕ) :
    (empty n).toTensor ExactComplex = (Tensor.ident n : Except Fault (Tensor ExactComplex)) := rfl

/-- The tensor of a circuit has the entries of its matrix. The tensor of two circuits in a row is the
product of their tensors, and it is what plugging gives if the swaps of each circuit cancel;
otherwise the axes of a tensor are out of order and plugging fails. Circuits of one width are
appended unless the sum of their phases does not fit its words. -/
theorem toTensor_compose (hwidth : c.width = d.width)
    (hc : ∀ gate ∈ c.gates, gate.Fits c.width) (hd : ∀ gate ∈ d.gates, gate.Fits d.width) :
    ∃ t u, c.toTensor ExactComplex = .ok t ∧ d.toTensor ExactComplex = .ok u ∧
      t.rank = 2 * c.width ∧ u.rank = 2 * c.width ∧
      (∀ x y, (t.read (word c.width x ++ word c.width y)).value = c.amplitude c.width x y) ∧
      (∀ x y, (u.read (word c.width x ++ word c.width y)).value = d.amplitude c.width x y) ∧
      (empty c.width).toTensor ExactComplex = Tensor.ident c.width ∧
      (¬(c.Uncrossed ∧ d.Uncrossed) → t.plug c.width u = .error .tensorShape) ∧
      ((∃ e r, c.append d = .ok e ∧ e.toTensor ExactComplex = .ok r ∧
        (∀ x z, (r.read (word c.width x ++ word c.width z)).value =
          sumOver (range c.width) (fun y => (t.read (word c.width x ++ word c.width y)).value *
            (u.read (word c.width y ++ word c.width z)).value) z) ∧
        (c.Uncrossed ∧ d.Uncrossed → t.plug c.width u = .ok r)) ∨
      c.append d = .error .overflow ∧
        c.globalPhase.add d.globalPhase = .error .overflow) := by
  obtain ⟨t, ht, htab⟩ := exists_toTensor hc
  obtain ⟨u, hu, hutab⟩ := exists_toTensor hd
  have hrank := htab.rank_eq
  refine ⟨t, u, ht, hu, hrank, hwidth ▸ hutab.rank_eq, htab.read_eq, hwidth ▸ hutab.read_eq,
    toTensor_empty _, fun hcrossed => ?_, ?_⟩
  · refine plug_of_not_inOrder (by omega) ?_
    rwa [htab.inOrder_iff hc, hutab.inOrder_iff hd]
  · cases happend : c.append d with
    | error f =>
        obtain ⟨rfl, hover⟩ := (append_ends hwidth).2 f happend
        exact .inr ⟨rfl, hover⟩
    | ok e =>
        have he := (append_ends hwidth).of_eq_ok happend
        obtain ⟨r, hr, hrtab⟩ := exists_toTensor (he.fits hc hd)
        exact .inl ⟨e, r, rfl, hr, he.read_eq hd htab hutab hrtab,
          fun ⟨hcun, hdun⟩ => he.plug_eq hc hd htab hutab hrtab hcun hdun⟩

/-- A wire that is swapped twice, and a rotation between. -/
def weave : Circuit :=
  ⟨3, Phase.quarter, [.plain .had [0], .plain .swap [0, 2], ⟨.xPhase, [2], Phase.eighth⟩,
    .plain .swap [2, 0], .plain .cnot [0, 1]]⟩

/-- Three swaps of neighbours that make one swap, which is undone. -/
def plait : Circuit :=
  ⟨3, Phase.eighth, [.plain .swap [0, 1], .plain .swap [1, 2], .plain .swap [0, 1],
    .plain .toffoli [2, 1, 0], .plain .swap [0, 2], .plain .s [1]]⟩

theorem toTensor_compose_weave : weave.width = plait.width ∧
    (∀ gate ∈ weave.gates, gate.Fits weave.width) ∧ (∀ gate ∈ plait.gates, gate.Fits plait.width) ∧
    ∃ t u e r, weave.toTensor ExactComplex = .ok t ∧ plait.toTensor ExactComplex = .ok u ∧
      weave.append plait = .ok e ∧ e.toTensor ExactComplex = .ok r ∧ t.plug 3 u = .ok r := by
  have hwidth : weave.width = plait.width := rfl
  have hc : ∀ gate ∈ weave.gates, gate.Fits weave.width := by decide +kernel
  have hd : ∀ gate ∈ plait.gates, gate.Fits plait.width := by decide +kernel
  have huncrossed : weave.Uncrossed ∧ plait.Uncrossed := by decide +kernel
  have happend : (weave.append plait).toOption.any fun _ => true := by decide +kernel
  obtain ⟨e, he, -⟩ := exists_ok_of_any happend
  obtain ⟨t, u, ht, hu, -, -, -, -, -, -, ⟨e', r, he', hr, -, hplug⟩ | ⟨hover, -⟩⟩ :=
    toTensor_compose hwidth hc hd
  · exact ⟨hwidth, hc, hd, t, u, e', r, ht, hu, he', hr, hplug huncrossed⟩
  · cases he.symm.trans hover

/-- A single swap. -/
def crossover : Circuit := ⟨2, Phase.zero, [.plain .swap [0, 1]]⟩

/-- Followed by nothing it stays as it is, but its tensor cannot be plugged into the identity. -/
theorem plug_fails_crossover : (∀ gate ∈ crossover.gates, gate.Fits crossover.width) ∧
    crossover.append (empty 2) = .ok crossover ∧ ∃ t u, crossover.toTensor ExactComplex = .ok t ∧
      (empty 2).toTensor ExactComplex = .ok u ∧ t.plug 2 u = .error .tensorShape := by
  have hfits : ∀ gate ∈ crossover.gates, gate.Fits crossover.width := by decide +kernel
  have hcrossed : ¬crossover.Uncrossed := by decide +kernel
  obtain ⟨t, ht, htab⟩ := exists_toTensor hfits
  obtain ⟨u, hu, -⟩ := exists_ident 2
  refine ⟨hfits, by decide +kernel, t, u, ht, hu, plug_of_not_inOrder ?_ fun h => ?_⟩
  · rw [htab.rank_eq]
    decide
  · exact hcrossed ((htab.inOrder_iff hfits).mp h.1)

end Circuit

end ZX
