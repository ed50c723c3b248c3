import Mathlib
import ZX.Proofs.Extraction.Shape

/-!
# Batches of any matches

A rule on circuits can be handed matches that it has not found: old ones, repeated ones, some that
overlap, some beyond the end, in any order. Every match is tested on the circuit before the batch. The
positions of those that pass go together, which comes to the same as removing them one by one from
the back, and the linear map stays.
-/
namespace ZX

open Circuit

variable {P P' : ℕ → Bool} {gates : List Gate} {c : Circuit}

/-! ## Removing from the back -/

/-- A position before all those that have gone is still that of its gate. -/
theorem keep_eraseIdx {s p : ℕ} (hP : ∀ i ≤ p, P (s + i) = false)
    (hP' : ∀ m, P' m = (P m || m == s + p)) : (keep P s gates).eraseIdx p = keep P' s gates := by
  induction gates generalizing s p with
  | nil => rfl
  | cons g gates ih =>
      have hs : P s = false := hP 0 (Nat.zero_le p)
      rw [keep_cons, hs, if_neg Bool.false_ne_true, keep_cons, hP', hs, Bool.false_or]
      cases p with
      | zero =>
          have hself : (s == s + 0) = true := beq_self_eq_true s
          rw [if_pos hself, List.eraseIdx_cons_zero]
          refine keep_congr fun i _ => ?_
          rw [hP', beq_false_of_ne (by omega), Bool.or_false]
      | succ p =>
          rw [beq_false_of_ne (by omega), if_neg Bool.false_ne_true, List.eraseIdx_cons_succ]
          refine congrArg (g :: ·) (ih (fun i hi => ?_) fun m => ?_)
          · rw [Nat.add_right_comm, Nat.add_assoc]
            exact hP (i + 1) (by omega)
          · rw [hP', Nat.add_right_comm, Nat.add_assoc]

theorem foldr_eraseIdx {ps : List ℕ} (h : ps.Pairwise (· < ·)) :
    ps.foldr (fun i gates => gates.eraseIdx i) gates = keep (fun i => decide (i ∈ ps)) 0 gates := by
  induction ps with
  | nil => exact keep_false.symm
  | cons p ps ih =>
      obtain ⟨hlt, hps⟩ := List.pairwise_cons.mp h
      rw [List.foldr_cons, ih hps]
      refine keep_eraseIdx (fun i hi => ?_) fun m => ?_
      · rw [Nat.zero_add]
        exact decide_eq_false fun hmem => absurd (hlt i hmem) (Nat.not_lt.mpr hi)
      · rw [Bool.eq_iff_iff]
        simp [or_comm]

namespace Circuit

/-- `d` is `c` without the gates at the listed positions. -/
structure Removes (c : Circuit) (ps : List ℕ) (d : Circuit) : Prop where
  increasing : ps.Pairwise (· < ·)
  lt_length : ∀ i ∈ ps, i < c.gates.length
  width_eq : d.width = c.width
  phase_eq : d.globalPhase = c.globalPhase
  gates_eq : d.gates = keep (fun i => decide (i ∈ ps)) 0 c.gates
  from_back : ps.foldr (fun i gates => gates.eraseIdx i) c.gates = d.gates
  sublist : d.gates.Sublist c.gates

theorem exists_removes {dropped : Std.HashSet ℕ}
    (h : ∀ i, dropped.contains i = true → i < c.gates.length) :
    ∃ ps, c.Removes ps (c.dropGates dropped) ∧ ∀ i, i ∈ ps ↔ dropped.contains i = true := by
  have hmem : ∀ i, i ∈ (List.range c.gates.length).filter dropped.contains ↔
      dropped.contains i = true := by
    intro i
    rw [List.mem_filter, List.mem_range]
    exact and_iff_right_of_imp (h i)
  have hsorted : ((List.range c.gates.length).filter dropped.contains).Pairwise (· < ·) :=
    List.pairwise_lt_range.filter _
  have hkeep : (c.dropGates dropped).gates =
      keep (fun i => decide (i ∈ (List.range c.gates.length).filter dropped.contains)) 0 c.gates := by
    refine keep_congr fun i _ => ?_
    rw [Bool.eq_iff_iff, decide_eq_true_iff, hmem]
  exact ⟨_, ⟨hsorted, fun i hi => List.mem_range.mp (List.mem_of_mem_filter hi), rfl, rfl, hkeep,
    (foldr_eraseIdx hsorted).trans hkeep.symm, keep_sublist⟩, hmem⟩

/-! ## The test of a pair -/

theorem cancels_of_any_eq_false {q i j : ℕ} {g g' : Gate} (hlt : i < j) (hi : gates[i]? = some g)
    (hg : IsHadamard g q) (hj : gates[j]? = some g') (hg' : IsHadamard g' q)
    (hnone : gates.toArray.any (·.qubits.contains q) (i + 1) j = false) : Cancels gates q i j := by
  refine ⟨hlt, ⟨g, hi, hg⟩, ⟨g', hj, hg'⟩, fun m x him hmj hm hq => ?_⟩
  obtain ⟨hmlt, hget⟩ := List.getElem?_eq_some_iff.mp hm
  have hany : gates.toArray.any (·.qubits.contains q) (i + 1) j = true := by
    refine Array.any_iff_exists.mpr ⟨m, hmlt, him, hmj, ?_⟩
    rw [List.getElem_toArray, hget]
    exact List.contains_iff_mem.mpr hq
  rw [hnone] at hany
  exact Bool.false_ne_true hany

/-- Every pair of positions can be tested where each Hadamard has a qubit. -/
theorem tested_of_arity (h : ∀ g ∈ gates, g.kind = .had → ∃ q, g.qubits = [q]) (p : ℕ × ℕ) :
    Tested gates p := by
  obtain ⟨i, j⟩ := p
  suffices hanswer : ∃ b, isHadamardPair gates.toArray i j = .ok b ∧
      (b = true → ∃ q, Cancels gates q i j) by
    obtain ⟨b, htest, hb⟩ := hanswer
    refine ⟨b, htest, hb, fun ⟨q, hq⟩ => ?_⟩
    exact Except.ok.inj (htest.symm.trans (isHadamardPair_of_cancels hq))
  unfold isHadamardPair
  rw [List.getElem?_toArray, List.getElem?_toArray]
  split
  case h_1 g g' hi hj =>
    split
    case isTrue => exact ⟨false, rfl, fun hb => absurd hb Bool.false_ne_true⟩
    case isFalse hpair =>
      simp only [not_or, Nat.not_le, ne_eq, not_not] at hpair
      obtain ⟨hlt, hkind, hkind', hqubits⟩ := hpair
      obtain ⟨q, hq⟩ := h g (List.mem_of_getElem? hi) hkind
      rw [hq]
      refine ⟨!gates.toArray.any (·.qubits.contains q) (i + 1) j, rfl, fun hb => ⟨q, ?_⟩⟩
      exact cancels_of_any_eq_false hlt hi ⟨hkind, hq⟩ hj ⟨hkind', hqubits.symm.trans hq⟩
        ((Bool.not_eq_true' _).mp hb)
  case h_2 => exact ⟨false, rfl, fun hb => absurd hb Bool.false_ne_true⟩

theorem Proper.tested (hc : c.Proper) (p : ℕ × ℕ) : Tested c.gates p := by
  refine tested_of_arity (fun gate hgate hkind => ?_) p
  exact List.length_eq_one_iff.mp ((hc gate hgate).1 1 (by rw [hkind]; rfl))

theorem Covers.lt_length {found : List (ℕ × ℕ)} {taken : ℕ → Prop} {i : ℕ}
    (hgreedy : Greedy (fun p => ∃ q, Cancels gates q p.1 p.2) found taken)
    (h : Covers found taken i) : i < gates.length := by
  obtain ⟨k, p, hp, htaken, hi⟩ := h
  obtain ⟨⟨q, hq⟩, -⟩ := (hgreedy k p hp).mp htaken
  obtain ⟨g, hright, -⟩ := hq.right
  have hlt : p.2 < gates.length := (List.getElem?_eq_some_iff.mp hright).1
  have horder := hq.lt
  omega

/-! ## Both rules -/

/-- Whatever the matches, the rules on circuits remove the listed rotations by nothing, and the
Hadamards of the listed pairs that are taken in turn. They never fail, and the linear map is the
same. -/
theorem exists_removes_of_matches (c : Circuit) (hc : c.Proper) :
    (∀ found : List ℕ, ∃ ps d, Rule.zeroRotation.act c found = .ok d ∧ c.Removes ps d ∧
      (∀ i, i ∈ ps ↔ i ∈ found ∧ ∃ g, c.gates[i]? = some g ∧ g.isZeroRotation = true) ∧
      ∀ ψ, d.act ψ = c.act ψ) ∧
    ∀ found : List (ℕ × ℕ), ∃ ps d taken, Rule.hadamardPair.act c found = .ok d ∧ c.Removes ps d ∧
      Greedy (fun p => ∃ q, Cancels c.gates q p.1 p.2) found taken ∧
      (∀ i, i ∈ ps ↔ Covers found taken i) ∧ ∀ ψ, d.act ψ = c.act ψ := by
  constructor
  · intro found
    obtain ⟨dropped, hok, hdropped, htrims⟩ := Rule.zeroRotation_act c found
    have hlt : ∀ i, dropped.contains i = true → i < c.gates.length := by
      intro i hi
      obtain ⟨-, g, hget, -⟩ := (hdropped i).mp hi
      exact (List.getElem?_eq_some_iff.mp hget).1
    obtain ⟨ps, hremoves, hps⟩ := exists_removes hlt
    exact ⟨ps, _, hok, hremoves, fun i => (hps i).trans (hdropped i), htrims.circuitAct_eq⟩
  · intro found
    obtain ⟨dropped, taken, hok, hgreedy, hdropped, htrims⟩ := Rule.hadamardPair_act
      (fun gate hgate => (hc gate hgate).2.1) fun p (_ : p ∈ found) => hc.tested p
    have hlt : ∀ i, dropped.contains i = true → i < c.gates.length := fun i hi =>
      Covers.lt_length hgreedy ((hdropped i).mp hi)
    obtain ⟨ps, hremoves, hps⟩ := exists_removes hlt
    exact ⟨ps, _, taken, hok, hremoves, hgreedy, fun i => (hps i).trans (hdropped i),
      htrims.circuitAct_eq⟩

/-- Three Hadamards in a row and two rotations by nothing. -/
def crowded : Circuit where
  width := 2
  globalPhase := Phase.quarter
  gates := [.plain .had [0], ⟨.xPhase, [1], Phase.zero⟩, .plain .had [0], .plain .had [0],
    ⟨.zPhase, [1], Phase.zero⟩, .plain .cnot [0, 1]]

theorem exists_removes_of_matches_crowded : crowded.Proper ∧
    (∃ ps d, Rule.zeroRotation.act crowded [4, 1, 9, 4, 0] = .ok d ∧ crowded.Removes ps d ∧
      1 ∈ ps ∧ 4 ∈ ps ∧ 0 ∉ ps ∧ ∀ ψ, d.act ψ = crowded.act ψ) ∧
    ∃ ps d, Rule.hadamardPair.act crowded [(2, 3), (0, 2), (3, 2), (2, 3), (3, 9)] = .ok d ∧
      crowded.Removes ps d ∧ 2 ∈ ps ∧ 3 ∈ ps ∧ 0 ∉ ps ∧ ∀ ψ, d.act ψ = crowded.act ψ := by
  have hproper : crowded.Proper := by decide
  obtain ⟨hzero, hpair⟩ := exists_removes_of_matches crowded hproper
  obtain ⟨ps, d, hok, hremoves, hps, hact⟩ := hzero [4, 1, 9, 4, 0]
  obtain ⟨ps', d', taken, hok', hremoves', hgreedy, hps', hact'⟩ :=
    hpair [(2, 3), (0, 2), (3, 2), (2, 3), (3, 9)]
  have hcancels : Cancels crowded.gates 0 2 3 :=
    ⟨by decide, ⟨_, rfl, rfl, rfl⟩, ⟨_, rfl, rfl, rfl⟩, fun m g hm hm' => by omega⟩
  have hfirst : taken 0 := (hgreedy 0 (2, 3) rfl).mpr
    ⟨⟨0, hcancels⟩, fun k' _ hk' => absurd hk' (Nat.not_lt_zero k')⟩
  -- the second pair cancels as well, but shares a position with the first one
  have hsecond : ¬taken 1 := fun h =>
    (((hgreedy 1 (0, 2) rfl).mp h).2 0 (2, 3) (by decide) hfirst rfl).2.2.1 rfl
  refine ⟨hproper, ⟨ps, d, hok, hremoves, ?_, ?_, ?_, hact⟩, ps', d', hok', hremoves',
    (hps' 2).mpr ⟨0, _, rfl, hfirst, .inl rfl⟩, (hps' 3).mpr ⟨0, _, rfl, hfirst, .inr rfl⟩, ?_, hact'⟩
  · rw [hps, ← Option.any_eq_true]
    decide
  · rw [hps, ← Option.any_eq_true]
    decide
  · rw [hps, ← Option.any_eq_true]
    decide
  · rw [hps']
    intro ⟨k, p, hp, htaken, hi⟩
    obtain ⟨hk, rfl⟩ := List.getElem?_eq_some_iff.mp hp
    have hone : ∀ k : Fin 5, (0 = [(2, 3), (0, 2), (3, 2), (2, 3), (3, 9)][k].1 ∨
        0 = [(2, 3), (0, 2), (3, 2), (2, 3), (3, 9)][k].2) → k = 1 := by decide
    obtain rfl : k = 1 := congrArg Fin.val (hone ⟨k, hk⟩ hi)
    exact hsecond htaken

end Circuit

end ZX
