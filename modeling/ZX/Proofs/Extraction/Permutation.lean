import Mathlib
import ZX.Extraction.Basic
import ZX.Proofs.Extraction.Rounds

/-!
# The last permutation

When the rest is empty, every spider that holds a qubit is tied to an input. What is left of the
diagram is a permutation of the qubits, times the sums over the isolated spiders. The matrix between
the spiders and the inputs is a permutation matrix, whose reduction consists of swaps, and the swaps
undo the permutation.
-/
namespace ZX

open Finset State

/-! ## Swaps and permutation matrices -/

/-- The valuations that read `x` along the entries of the matrix. -/
noncomputable def matching (k : ℕ) (M : BitMatrix) (x : ℕ → Bool) : State := fun z =>
  if ∀ i < k, ∀ j < k, M i j = true → z i = x j then 1 else 0

namespace RowStep

variable {k : ℕ} {M : BitMatrix} {x : ℕ → Bool} {steps : List RowStep}

/-- Swaps of the first `k` rows. -/
def IsSwap (k : ℕ) (step : RowStep) : Prop := ∃ a b, step = .swap a b ∧ a < k ∧ b < k ∧ a ≠ b

theorem IsSwap.within {step : RowStep} (h : step.IsSwap k) : step.Within k := by
  obtain ⟨a, b, rfl, ha, hb, hab⟩ := h
  exact ⟨ha, hb, hab⟩

theorem swap_lt {a b : ℕ} (ha : a < k) (hb : b < k) : ∀ i < k, Equiv.swap a b i < k := by
  intro i hi
  rw [Equiv.swap_apply_def]
  split_ifs <;> assumption

theorem matching_onBits {step : RowStep} (h : step.IsSwap k) (z : ℕ → Bool) :
    matching k (step.onBits M) x (step.onRowBits z) = matching k M x z := by
  obtain ⟨a, b, rfl, ha, hb, hab⟩ := h
  have hlt := swap_lt ha hb
  have hiff : (∀ i < k, ∀ j < k, onBits (.swap a b) M i j = true → exchange a b z i = x j) ↔
      ∀ i < k, ∀ j < k, M i j = true → z i = x j := by
    simp only [exchange_apply, onBits_swap]
    constructor
    · intro h i hi j hj hM
      have := h (Equiv.swap a b i) (hlt i hi) j hj
      rw [Equiv.swap_apply_self] at this
      exact this hM
    · intro h i hi j hj hM
      exact h _ (hlt i hi) j hj hM
  rw [matching, matching, onRowBits]
  exact if_congr hiff rfl rfl

theorem matching_congr {z z' : ℕ → Bool} (h : ∀ i < k, z' i = z i) :
    matching k M x z' = matching k M x z := by
  refine if_congr ?_ rfl rfl
  refine forall₂_congr fun i hi => ?_
  rw [h i hi]

/-- The gates of swaps lead from the state of one matrix to that of the other. -/
theorem actAll_matching {qs : ℕ → ℕ} (hqs : ∀ i < k, qs i = i) (h : ∀ s ∈ steps, s.IsSwap k) :
    actAll (allGates qs steps) (matching k (runBits steps M) x) = matching k M x := by
  induction steps generalizing M with
  | nil => rfl
  | cons s steps ih =>
      have hs := h s List.mem_cons_self
      have hinj : Set.InjOn qs (Set.Iio k) := by
        intro i hi j hj hij
        rwa [hqs i hi, hqs j hj] at hij
      rw [runBits_cons, allGates, actAll_append, ih fun t ht => h t (List.mem_cons_of_mem s ht)]
      funext z
      obtain ⟨z', hact, hrow, -⟩ := actAll_gates hs.within hinj (matching k (s.onBits M) x) z
      rw [hact, ← matching_onBits hs z]
      refine matching_congr fun i hi => ?_
      have hz := hrow i hi
      obtain ⟨a, b, rfl, ha, hb, -⟩ := hs
      rw [hqs i hi] at hz
      rw [hz, onRowBits, exchange_apply, exchange_apply, hqs _ (swap_lt ha hb i hi)]

theorem matching_one : matching k (ByteMatrix.permutationBits k 1) x = ket k x := by
  funext z
  refine if_congr ?_ rfl rfl
  simp only [ByteMatrix.permutationBits, Equiv.Perm.coe_one, id, Bool.and_eq_true,
    decide_eq_true_eq, beq_iff_eq]
  constructor
  · intro h q hq
    exact h q hq q hq ⟨hq, rfl⟩
  · intro h i hi j hj hij
    rw [← hij.2]
    exact h i hi

end RowStep

namespace Diagram

variable {g D : Diagram} {A N inputs : List ℕ} {F : List FrontierEntry} {x z : ℕ → Bool}
  {s t u v : ℕ} {e : EdgeKind}

/-! ## Tied pairs -/

/-- The far end of the first edge. -/
def mate (D : Diagram) (v : ℕ) : ℕ := ((D.linksAt v).map Prod.fst).headD 0

theorem mate_of_hangsOn (hD : D.Consistent) (h : D.HangsOn v u e) : D.mate v = u := by
  rw [mate, hD.hangsOn_iff.mp h]
  rfl

/-- The listed vertices and the inputs hang on each other in pairs. -/
structure Paired (D : Diagram) (A inputs : List ℕ) : Prop where
  nodup : A.Nodup
  nodup_inputs : inputs.Nodup
  length_eq : A.length = inputs.length
  anchor : ∀ v ∈ A, D.mate v ∈ inputs ∧ D.mate (D.mate v) = v ∧ D.HangsOn v (D.mate v) .plain
  input : ∀ b ∈ inputs, D.mate b ∈ A ∧ D.mate (D.mate b) = b ∧ D.HangsOn b (D.mate b) .plain

/-- With as many inputs as outputs and an empty rest, all wires have ended. -/
theorem Laid.paired (h : Laid g ∅ A N F D) (hg : g.WellFormed)
    (hk : g.inputs.length = g.outputs.length) : Paired D A g.inputs := by
  have hnodup : g.inputs.Nodup := (List.nodup_append.mp hg.nodup_ends).1
  have hsub : g.inputs ⊆ F.map Prod.snd := by
    intro b hb
    obtain ⟨q, hq⟩ := h.done b hb (notMem_empty b)
    exact List.mem_map.mpr ⟨(q, b), hq, rfl⟩
  have hlen : F.length = A.length := by
    have := congrArg List.length h.fst_eq
    simpa using this
  -- There are as many entries as inputs, so all entries are inputs.
  have hperm : g.inputs.Perm (F.map Prod.snd) := by
    refine (hnodup.subperm hsub).perm_of_length_le ?_
    rw [List.length_map, hlen, h.length_eq, hk]
  have htied : ∀ {q w}, (q, w) ∈ F → ∃ v, A[q]? = some v ∧ Tied g ∅ D v w := by
    intro q w hw
    obtain ⟨v, hv, heq | htied⟩ := h.entry hw
    · have hin : w ∈ g.inputs := hperm.mem_iff.mpr (List.mem_map.mpr ⟨(q, w), hw, rfl⟩)
      exact absurd (heq ▸ hin) (h.notMem_inputs hg (List.mem_of_getElem? hv))
    · exact ⟨v, hv, htied⟩
  have hpair : ∀ {v b}, Tied g ∅ D v b → D.mate v = b ∧ D.mate b = v := fun ht =>
    ⟨mate_of_hangsOn h.consistent ht.hangs_back, mate_of_hangsOn h.consistent ht.hangs⟩
  refine ⟨h.nodup, hnodup, h.length_eq.trans hk.symm, fun v hv => ?_, fun b hb => ?_⟩
  · obtain ⟨q, hq⟩ := List.mem_iff_getElem?.mp hv
    have hqF : q ∈ F.map Prod.fst := by
      rw [h.fst_eq, List.mem_range]
      exact (List.getElem?_eq_some_iff.mp hq).1
    obtain ⟨⟨_, b⟩, hmem, rfl⟩ := List.mem_map.mp hqF
    obtain ⟨v', hv', ht⟩ := htied hmem
    cases hq.symm.trans hv'
    rw [(hpair ht).1, (hpair ht).2]
    exact ⟨ht.input, rfl, ht.hangs_back⟩
  · obtain ⟨q, hq⟩ := h.done b hb (notMem_empty b)
    obtain ⟨v, hv, ht⟩ := htied hq
    rw [(hpair ht).2, (hpair ht).1]
    exact ⟨List.mem_of_getElem? hv, rfl, ht.hangs⟩

namespace Paired

/-- The permutation that takes the position of a spider to the position of its input. -/
def crossing (h : Paired D A inputs) : Equiv.Perm ℕ where
  toFun i := if i < A.length then inputs.idxOf (D.mate (A.getD i 0)) else i
  invFun j := if j < A.length then A.idxOf (D.mate (inputs.getD j 0)) else j
  left_inv i := by
    by_cases hi : i < A.length
    · obtain ⟨hin, hback, -⟩ := h.anchor A[i] (List.getElem_mem hi)
      have hlt := List.idxOf_lt_length_of_mem hin
      dsimp only
      rw [if_pos hi, List.getD_eq_getElem _ _ hi, if_pos (h.length_eq ▸ hlt),
        List.getD_eq_getElem _ _ hlt, List.getElem_idxOf, hback,
        h.nodup.idxOf_getElem i hi]
    · simp only [hi, if_false]
  right_inv j := by
    by_cases hj : j < A.length
    · have hj' : j < inputs.length := h.length_eq ▸ hj
      obtain ⟨hin, hback, -⟩ := h.input inputs[j] (List.getElem_mem hj')
      have hlt := List.idxOf_lt_length_of_mem hin
      dsimp only
      rw [if_pos hj, List.getD_eq_getElem _ _ hj', if_pos hlt, List.getD_eq_getElem _ _ hlt,
        List.getElem_idxOf, hback,
        h.nodup_inputs.idxOf_getElem j hj']
    · simp only [hj, if_false]

theorem crossing_of_lt (h : Paired D A inputs) {i : ℕ} (hi : A[i]? = some v) :
    h.crossing i = inputs.idxOf (D.mate v) := by
  obtain ⟨hlt, rfl⟩ := List.getElem?_eq_some_iff.mp hi
  show (if i < A.length then _ else _) = _
  rw [if_pos hlt, List.getD_eq_getElem _ _ hlt]

theorem crossing_of_le (h : Paired D A inputs) (i : ℕ) (hi : A.length ≤ i) : h.crossing i = i :=
  if_neg (Nat.not_lt.mpr hi)

theorem crossing_lt (h : Paired D A inputs) {i : ℕ} (hi : i < A.length) :
    h.crossing i < A.length := by
  rw [h.crossing_of_lt (List.getElem?_eq_getElem hi), h.length_eq]
  exact List.idxOf_lt_length_of_mem (h.anchor _ (List.getElem_mem hi)).1

/-- The matrix between the spiders and the inputs is that of the permutation. -/
theorem bit_eq (h : Paired D A inputs) {m : ByteMatrix} (hm : m.Shape A.length inputs.length)
    (hbit : ∀ i j r c, A[i]? = some r → inputs[j]? = some c → m.bit i j = D.connected r c) :
    m.bit = ByteMatrix.permutationBits A.length h.crossing := by
  funext i j
  rw [ByteMatrix.permutationBits]
  by_cases hi : i < A.length
  · have hA := List.getElem?_eq_getElem hi
    obtain ⟨hin, -, hhang⟩ := h.anchor A[i] (List.getElem_mem hi)
    rw [h.crossing_of_lt hA]
    by_cases hj : j < inputs.length
    · have hconn : D.connected A[i] inputs[j] = (inputs[j] == D.mate A[i]) := by
        rw [connected, hhang inputs[j]]
        by_cases heq : inputs[j] = D.mate A[i] <;> simp [heq]
      have hidx : (inputs[j] == D.mate A[i]) = (inputs.idxOf (D.mate A[i]) == j) := by
        rw [Bool.eq_iff_iff, beq_iff_eq, beq_iff_eq]
        constructor
        · intro heq
          rw [← heq, h.nodup_inputs.idxOf_getElem j hj]
        · intro heq
          simp only [← heq, List.getElem_idxOf]
      rw [hbit i j _ _ hA (List.getElem?_eq_getElem hj), hconn, hidx]
      simp [hi]
    · have hlt := List.idxOf_lt_length_of_mem hin
      have hne : inputs.idxOf (D.mate A[i]) ≠ j := by omega
      have hzero : m.bit i j = false := Bool.eq_false_iff.mpr fun hc => hj (hm.lt_of_bit hc).2
      simp [hzero, hne]
  · have hzero : m.bit i j = false := Bool.eq_false_iff.mpr fun hc => hi (hm.lt_of_bit hc).1
    simp [hzero, hi]

theorem matching_iff (h : Paired D A inputs) {k : ℕ} (hlen : A.length = k) :
    (∀ i < k, ∀ j < k, ByteMatrix.permutationBits k h.crossing i j = true → z i = x j) ↔
      ∀ i < k, z i = x (h.crossing i) := by
  subst hlen
  simp only [ByteMatrix.permutationBits, Bool.and_eq_true, decide_eq_true_eq, beq_iff_eq]
  constructor
  · intro hz i hi
    exact hz i hi _ (h.crossing_lt hi) ⟨hi, rfl⟩
  · intro hz i hi j hj hij
    rw [hz i hi, hij.2]

end Paired

/-! ## What is left of the diagram -/

theorem sumOver_spins (S : Finset ℕ) (ω : ℕ → ℂ) (β : ℕ → Bool) :
    sumOver S (fun a => ∏ v ∈ S, spin (ω v) (a v)) β = ∏ v ∈ S, (1 + ω v) := by
  rw [prod_one_add, sumOver]
  refine sum_congr rfl fun T hT => ?_
  have hTS := mem_powerset.mp hT
  have hspin : ∀ v ∈ S, spin (ω v) (assign S T β v) = if v ∈ T then ω v else 1 := by
    intro v hv
    by_cases hvT : v ∈ T <;> simp [assign, hv, hvT]
  rw [prod_congr rfl hspin, prod_ite_mem, inter_eq_right.mpr hTS]

namespace Laid

/-- Once the rest is empty, the spiders that hold no qubit are the isolated ones. -/
theorem spiders_sdiff_eq (h : Laid g ∅ A N F D) (hg : g.Normal) :
    D.spiders \ A.toFinset = g.isolated := by
  ext v
  rw [mem_sdiff, mem_spiders, List.mem_toFinset]
  constructor
  · intro hv
    obtain ⟨⟨hcont, hk⟩, hvA⟩ := hv
    rw [h.kind?_eq hcont] at hk
    obtain hA | hU | hin | hout | hiso := (h.contains_iff v).mp hcont
    · exact absurd hA hvA
    · exact absurd hU (notMem_empty v)
    · exact absurd (hg.kind?_input hin) hk
    · exact absurd (hg.kind?_output hout) hk
    · exact hiso
  · intro hiso
    have hcont : D.contains v = true := (h.contains_iff v).mpr (.inr (.inr (.inr (.inr hiso))))
    refine ⟨⟨hcont, ?_⟩, fun hc => (h.left v hc).2 hiso⟩
    rw [h.kind?_eq hcont]
    exact (mem_spiders.mp (mem_filter.mp hiso).1).2

/-- Only isolated spiders have a phase left. -/
theorem turn_eq_one (h : Laid g ∅ A N F D) (hg : g.Normal) (hv : v ∈ D.support)
    (hiso : v ∉ g.isolated) : D.turn v = 1 := by
  by_cases hvA : v ∈ A
  · exact turn_of_phase_zero (h.phase?_eq v hvA)
  · refine turn_of_boundary ?_
    by_contra hk
    refine hiso ?_
    rw [← h.spiders_sdiff_eq hg]
    exact mem_sdiff.mpr ⟨mem_spiders.mpr ⟨mem_support.mp hv, hk⟩, fun hc =>
      hvA (List.mem_toFinset.mp hc)⟩

theorem prod_spin_eq (h : Laid g ∅ A N F D) (hg : g.Normal) (a : ℕ → Bool) :
    ∏ v ∈ D.support, spin (D.turn v) (a v) = ∏ v ∈ g.isolated, spin (g.turn v) (a v) := by
  have hcont : ∀ v ∈ g.isolated, D.contains v = true := fun v hv =>
    (h.contains_iff v).mpr (.inr (.inr (.inr (.inr hv))))
  refine (prod_subset_one_on_sdiff (fun v hv => mem_support.mpr (hcont v hv)) (fun v hv => ?_)
    fun v hv => ?_).symm
  · obtain ⟨hv, hiso⟩ := mem_sdiff.mp hv
    rw [h.turn_eq_one hg hv hiso, spin_one]
  · have hsame : D.turn v = g.turn v := by
      rw [turn, turn, h.kind?_eq (hcont v hv), phase?, phase?,
        h.data?_eq v (fun hc => (h.left v hc).2 hv) (hcont v hv)]
    rw [hsame]

/-- Every edge that is left joins a spider to its input. -/
theorem edge_paired (h : Laid g ∅ A N F D) (hp : Paired D A g.inputs)
    (he : D.edgeKind? s t = some e) :
    e = .plain ∧ ((s ∈ A ∧ t = D.mate s) ∨ t ∈ A ∧ s = D.mate t) := by
  by_cases hs : s ∈ A
  · obtain ⟨heq, rfl⟩ := (hp.anchor s hs).2.2.eq_of_edgeKind? he
    exact ⟨rfl, .inl ⟨hs, heq⟩⟩
  · by_cases ht : t ∈ A
    · obtain ⟨heq, rfl⟩ := (hp.anchor t ht).2.2.eq_of_edgeKind?
        ((h.consistent.edgeKind?_comm t s).trans he)
      exact ⟨rfl, .inr ⟨ht, heq⟩⟩
    · exact absurd (h.rest_edge he hs ht).1 (notMem_empty s)

/-- The bits agree along the edges if and only if the permutation takes one valuation to the
other. -/
theorem agree_iff (h : Laid g ∅ A N F D) (hp : Paired D A g.inputs) {a : ℕ → Bool}
    (hanchor : ∀ i v, A[i]? = some v → a v = z i)
    (hinput : ∀ b ∈ g.inputs, a b = x (g.inputs.idxOf b)) :
    (∀ s t, D.connected s t = true → a s = a t) ↔ ∀ i < A.length, z i = x (hp.crossing i) := by
  have hmate : ∀ i v, A[i]? = some v → a (D.mate v) = x (hp.crossing i) := by
    intro i v hi
    rw [hinput _ (hp.anchor v (List.mem_of_getElem? hi)).1, hp.crossing_of_lt hi]
  constructor
  · intro hall i hi
    have hA := List.getElem?_eq_getElem hi
    rw [← hanchor i _ hA, ← hmate i _ hA]
    refine hall _ _ ?_
    rw [connected, (hp.anchor _ (List.getElem_mem hi)).2.2, if_pos rfl]
    rfl
  · intro hall
    have hends : ∀ v ∈ A, a v = a (D.mate v) := by
      intro v hv
      obtain ⟨i, hi⟩ := List.mem_iff_getElem?.mp hv
      rw [hanchor i v hi, hmate i v hi]
      exact hall i (List.getElem?_eq_some_iff.mp hi).1
    intro s t hconn
    obtain ⟨e, he⟩ := Option.isSome_iff_exists.mp hconn
    obtain ⟨-, ⟨hs, rfl⟩ | ⟨ht, rfl⟩⟩ := h.edge_paired hp he
    · exact hends s hs
    · exact (hends t ht).symm

/-- What is left is a permutation of the qubits, times the sums over the isolated spiders. -/
theorem residue_eq (h : Laid g ∅ A N F D) (hg : g.Normal) (hp : Paired D A g.inputs)
    (x : ℕ → Bool) :
    D.residue A x = (g.scalar.value * ∏ v ∈ g.isolated, (1 + g.turn v)) •
      matching A.length (ByteMatrix.permutationBits A.length hp.crossing) x := by
  funext z
  have hmass : ∀ a, (∀ v, v ∉ g.isolated → a v = pins g.inputs A x z v) →
      D.mass D.support D.turn a = (g.scalar.value *
        matching A.length (ByteMatrix.permutationBits A.length hp.crossing) x z) *
          ∏ v ∈ g.isolated, spin (g.turn v) (a v) := by
    intro a ha
    have hanchor : ∀ i v, A[i]? = some v → a v = z i := by
      intro i v hi
      have hmem := List.mem_of_getElem? hi
      rw [ha v fun hc => (h.left v hmem).2 hc,
        pins_held h.nodup hi (h.notMem_inputs hg.toWellFormed hmem)]
    have hinput : ∀ b ∈ g.inputs, a b = x (g.inputs.idxOf b) := by
      intro b hb
      rw [ha b fun hc => ?_, pins_input hb]
      exact (mem_spiders.mp (mem_filter.mp hc).1).2 (hg.kind?_input hb)
    have hiff := (hp.matching_iff rfl).trans (h.agree_iff hp hanchor hinput).symm
    rw [mass, pairs_of_plain h.consistent (h.not_red hg.green) (fun he => (h.edge_paired hp he).1)
      hiff, h.prod_spin_eq hg, h.scalar_eq, matching]
    ring
  rw [residue, h.spiders_sdiff_eq hg, h.inputs_eq, sumOver_congr hmass, sumOver_mul_left,
    sumOver_spins, Pi.smul_apply, smul_eq_mul]
  ring

end Laid

end Diagram

namespace Workspace

open Diagram

variable {g D : Diagram} {U : Finset ℕ} {A N : List ℕ} {F : List FrontierEntry} {n : ℕ}
  {w : Workspace}

/-! ## Turning the permutation into swaps -/

theorem outcome_mapM {ε α β : Type} {f : α → Run ε β} {f' : α → β} {l : List α}
    (h : ∀ a ∈ l, (f a).outcome = .ok (f' a)) : (l.mapM f).outcome = .ok (l.map f') := by
  have hloop : ∀ (l : List α) (acc : List β), (∀ a ∈ l, (f a).outcome = .ok (f' a)) →
      (List.mapM.loop f l acc).outcome = .ok (acc.reverse ++ l.map f') := by
    intro l
    induction l with
    | nil => simp [List.mapM.loop]
    | cons a l ih =>
        intro acc h
        rw [List.mapM.loop, Run.outcome_bind, h a List.mem_cons_self]
        refine (ih _ fun b hb => h b (List.mem_cons_of_mem a hb)).trans ?_
        simp
  exact (hloop l [] h).trans (by simp)

/-- The holders of up to `2 ^ 53` qubits are sorted by their lines. -/
theorem sortByQubit_anchors (h : Laid g U A N F D) (hk : A.length ≤ 2 ^ 53) {l : List ℕ}
    (hl : l.Perm A) : sortByQubit D l = .ok A := by
  have hkey : ∀ {p q u v : ℕ}, A[p]? = some u → A[q]? = some v → p < q → D.lineKey u < D.lineKey v := by
    intro p q u v hp hq hpq
    obtain ⟨x, hx, hxline⟩ := h.line p u hp
    obtain ⟨y, hy, hyline⟩ := h.line q v hq
    obtain ⟨d, hd, rfl⟩ := qubit_eq_ok.mp hx
    obtain ⟨d', hd', rfl⟩ := qubit_eq_ok.mp hy
    have hqlt := (List.getElem?_eq_some_iff.mp hq).1
    rw [lineKey, lineKey, hd, hd']
    exact hxline.orderKey_lt hyline hpq (by omega)
  have hsorted : (A.map fun v => (D.lineKey v, v)).Pairwise fun a b => lineOrder a b = true := by
    rw [List.pairwise_map, List.pairwise_iff_getElem]
    intro p q hp hq hpq
    exact lineOrder_iff.mpr
      (.inl (hkey (List.getElem?_eq_getElem hp) (List.getElem?_eq_getElem hq) hpq))
  rw [sortByQubit_eq fun v hv => h.contains_anchor (hl.mem_iff.mp hv),
    mergeSort_lineOrder (hl.map _) hsorted, List.map_map]
  exact congrArg Except.ok (List.map_id A)

theorem permute_swaps {k : ℕ} {steps : List RowStep} {qubits : List ℕ} (hlen : qubits.length = k)
    (h : ∀ s ∈ steps, s.IsSwap k) (w : Workspace) :
    (permute steps qubits w).outcome = .ok { w with circuit := { w.circuit with
      gates := RowStep.allGates (fun i => qubits.getD i 0) steps ++ w.circuit.gates } } := by
  unfold permute
  rw [Run.outcome_foldlM]
  induction steps generalizing w with
  | nil => rfl
  | cons s steps ih =>
      obtain ⟨a, b, rfl, ha, hb, hab⟩ := h s List.mem_cons_self
      have hstep := RowStep.apply_frontierGates (show (RowStep.swap a b).Within k from ⟨ha, hb, hab⟩)
        hlen w.circuit
      rw [List.foldlM_cons]
      simp only [Run.outcome_bind, outcome_lift_except, hstep, Except.mapError]
      refine (ih (fun t ht => h t (List.mem_cons_of_mem _ ht)) _).trans ?_
      rw [RowStep.allGates, List.append_assoc]

/-- A square table is checked by its number of entries. -/
theorem checkSize_square (k : ℕ) :
    ByteMatrix.checkSize k k = if k * k < 2 ^ 63 then .ok () else .error .tooLarge := by
  unfold ByteMatrix.checkSize
  by_cases hsize : k * k < 2 ^ 63
  · have hk : k < 2 ^ 32 := by
      by_contra hge
      have := Nat.mul_le_mul (not_lt.mp hge) (not_lt.mp hge)
      omega
    rw [checkTable_eq_ok.mpr (by omega), checkTable_eq_ok.mpr (by omega),
      checkTable_eq_ok.mpr (by omega), if_pos hsize]
    rfl
  · rw [if_neg hsize, (checkTable_eq_error (n := k * k)).mpr ⟨rfl, by omega⟩]
    cases hrow : checkTable k 1 with
    | error e => rw [(checkTable_eq_error.mp hrow).1]; rfl
    | ok =>
        cases hrows : checkTable k 24 with
        | error e => rw [(checkTable_eq_error.mp hrows).1]; rfl
        | ok => rfl

/-- Once all wires have ended, the inputs are resolved by swaps, which undo the permutation. This
takes a table with an entry for every two qubits. Where there is room for it, there are fewer than
`2 ^ 53` qubits, and the lines tell them apart. -/
theorem resolveInputs_reached (h : Reached g n ∅ A [] w) (hg : g.Normal)
    (hk : g.inputs.length = g.outputs.length) :
    if g.outputs.length * g.outputs.length < 2 ^ 63 then
      ∃ gates, w.resolveInputs.outcome =
          .ok { w with circuit := { w.circuit with gates := gates ++ w.circuit.gates } } ∧
        (∀ gate ∈ gates, gate.qubits.Nodup ∧ ∀ q ∈ gate.qubits, q < g.outputs.length) ∧
        ∀ x, w.diagram.residue A x = (g.scalar.value * ∏ v ∈ g.isolated, (1 + g.turn v)) •
          actAll gates (ket g.outputs.length x)
    else w.resolveInputs.outcome = .error (.fault .tooLarge) := by
  have hp := h.laid.paired hg.toWellFormed hk
  have hcons := h.laid.consistent
  have hlen := h.laid.length_eq
  set found := g.inputs.map w.diagram.mate with hfound
  have hperm : found.Perm A := by
    have hnodup : found.Nodup := by
      refine List.Nodup.map_on (fun a ha b hb hab => ?_) hp.nodup_inputs
      rw [← (hp.input a ha).2.1, hab, (hp.input b hb).2.1]
    refine (hnodup.subperm fun v hv => ?_).perm_of_length_le ?_
    · obtain ⟨b, hb, rfl⟩ := List.mem_map.mp hv
      exact (hp.input b hb).1
    · rw [hfound, List.length_map, hk, hlen]
  have hmates : (g.inputs.mapM w.inputNeighbour).outcome = .ok found := by
    refine outcome_mapM fun b hb => ?_
    obtain ⟨hmem, -, hhang⟩ := hp.input b hb
    have hcont : w.diagram.contains b = true :=
      (h.laid.contains_iff b).mpr (.inr (.inr (.inl hb)))
    rw [inputNeighbour, Run.outcome_bind, outcome_lift_except, neighbours_of_contains hcont,
      hcons.hangsOn_iff.mp hhang]
    rfl
  obtain ⟨sorted, hsort, hperm'⟩ := sortByQubit_perm (D := w.diagram) fun v hv =>
    h.laid.contains_anchor (hperm.mem_iff.mp hv)
  have hsortlen : sorted.length = g.outputs.length := (hperm'.trans hperm).length_eq.trans hlen
  have hcheck := checkSize_square g.outputs.length
  split at hcheck
  case isFalse hsize =>
    rw [if_neg hsize]
    unfold resolveInputs
    simp only [Run.outcome_bind, outcome_lift_except, h.laid.inputs_eq, hmates, Except.mapError,
      Except.bind, hsort, hsortlen, hk, hcheck]
  case isTrue hsize =>
    rw [if_pos hsize]
    have hbound : g.outputs.length ≤ 2 ^ 53 := by
      by_contra hge
      have := Nat.mul_le_mul (not_le.mp hge).le (not_le.mp hge).le
      omega
    obtain rfl : sorted = A := by
      have := sortByQubit_anchors h.laid (hlen ▸ hbound) hperm
      rw [hsort] at this
      exact Except.ok.inj this
    obtain ⟨m, hm, hshape, hbit⟩ := biadjacency_shape hcons (fun v hv =>
      h.laid.contains_anchor hv) hp.nodup_inputs
    have hbits := hp.bit_eq hshape hbit
    rw [← hp.length_eq] at hshape
    obtain ⟨m', steps, helim, hswaps, hrun⟩ :=
      hshape.eliminate_permutation hbits fun r hr => hp.crossing_of_le r hr
    have hrange : ∀ i < sorted.length, (List.range sorted.length).getD i 0 = i := by
      intro i hi
      rw [List.getD_eq_getElem _ _ (by simpa using hi), List.getElem_range]
    refine ⟨RowStep.allGates (fun i => (List.range sorted.length).getD i 0) steps, ?_, ?_, ?_⟩
    · unfold resolveInputs
      simp only [Run.outcome_bind, outcome_lift_except, h.laid.inputs_eq, hmates, Except.mapError,
        Except.bind, hsort, hm, helim, hk]
      rw [hsortlen, hcheck, ← hsortlen]
      exact permute_swaps (by simp) hswaps w
    · refine RowStep.allGates_tidy (fun s hs => RowStep.IsSwap.within (hswaps s hs)) ?_ ?_
      · intro i hi j hj hij
        simp only [hrange i hi, hrange j hj] at hij
        exact hij
      · intro i hi
        rw [hrange i hi, ← hsortlen]
        exact hi
    · intro x
      rw [h.laid.residue_eq hg hp x, ← RowStep.actAll_matching hrange hswaps, ← hbits, hrun,
        RowStep.matching_one, hsortlen]

end Workspace

end ZX
