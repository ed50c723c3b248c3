import Mathlib
import ZX.Proofs.FixedPoint
import ZX.Proofs.State
import ZX.Rule.Cleanup

/-!
# Cleaning keeps the linear map

The gates that a batch keeps are those at positions outside a set. Positions are dropped in steps
that do not change the action of the gates that are kept: a rotation by nothing can always go, and
two Hadamards can go together, because none of the gates between them touches their qubit, whichever
of these gates are still there.
-/
namespace ZX

open State

/-! ## Gates outside a set of positions -/

/-- The gates at positions outside `P`, the first gate standing at position `s`. -/
def keep (P : ℕ → Bool) (s : ℕ) (gates : List Gate) : List Gate :=
  ((gates.zipIdx s).filter fun x => !P x.2).map Prod.fst

variable {P P' : ℕ → Bool} {s : ℕ} {gates : List Gate}

@[simp] theorem keep_nil : keep P s [] = [] := rfl

theorem keep_cons (g : Gate) :
    keep P s (g :: gates) = if P s then keep P (s + 1) gates else g :: keep P (s + 1) gates := by
  cases h : P s <;> simp [keep, h]

theorem keep_append (gates gates' : List Gate) :
    keep P s (gates ++ gates') = keep P s gates ++ keep P (s + gates.length) gates' := by
  simp [keep, List.zipIdx_append]

theorem keep_congr (h : ∀ i < gates.length, P (s + i) = P' (s + i)) :
    keep P s gates = keep P' s gates := by
  induction gates generalizing s with
  | nil => rfl
  | cons g gates ih =>
      have hhead : P s = P' s := h 0 (by simp)
      have htail : keep P (s + 1) gates = keep P' (s + 1) gates := by
        apply ih
        intro i hi
        have hnext := h (i + 1) (by simpa using hi)
        rwa [show s + (i + 1) = s + 1 + i by omega] at hnext
      rw [keep_cons, keep_cons, hhead, htail]

theorem keep_sublist : (keep P s gates).Sublist gates := by
  have hsub : (keep P s gates).Sublist ((gates.zipIdx s).map Prod.fst) :=
    List.filter_sublist.map Prod.fst
  rwa [List.zipIdx_map_fst] at hsub

theorem mem_of_mem_keep {g : Gate} (h : g ∈ keep P s gates) : g ∈ gates := keep_sublist.mem h

theorem length_keep_le : (keep P s gates).length ≤ gates.length := keep_sublist.length_le

theorem length_keep_lt {i : ℕ} (hi : i < gates.length) (hP : P (s + i) = true) :
    (keep P s gates).length < gates.length := by
  have hsplit : gates = gates.take i ++ gates[i] :: gates.drop (i + 1) := by simp
  have hlen : (gates.take i).length = i := by simp; omega
  have hkeep : (keep P s gates).length =
      (keep P s (gates.take i)).length + (keep P (s + i + 1) (gates.drop (i + 1))).length := by
    conv_lhs => rw [hsplit]
    rw [keep_append, hlen, keep_cons, hP, if_pos rfl, List.length_append]
  have hfirst : (keep P s (gates.take i)).length ≤ (gates.take i).length := length_keep_le
  have hlast : (keep P (s + i + 1) (gates.drop (i + 1))).length ≤ (gates.drop (i + 1)).length :=
    length_keep_le
  rw [List.length_drop] at hlast
  omega

theorem keep_false : keep (fun _ => false) s gates = gates := by
  induction gates generalizing s with
  | nil => rfl
  | cons g gates ih => rw [keep_cons, if_neg Bool.false_ne_true, ih]

theorem Circuit.dropGates_eq (c : Circuit) (positions : Std.HashSet ℕ) :
    c.dropGates positions = { c with gates := keep positions.contains 0 c.gates } := rfl

/-! ## Dropping rotations by nothing -/

theorem Gate.act_zeroRotation {g : Gate} (h : g.isZeroRotation = true) : g.act = id := by
  simp only [Gate.isZeroRotation, Bool.and_eq_true] at h
  obtain ⟨hkind, hzero⟩ := h
  have hphase : g.phase.unit = 1 := by
    rw [of_decide_eq_true hzero]
    exact Phase.unit_zero
  have hrotate : ∀ q, rotate 1 q = id := by
    intro q
    funext ψ z
    cases hz : z q <;> simp [rotate, weigh, hz]
  unfold Gate.act
  split <;> simp_all [GateKind.isRotation]
  funext ψ
  exact hadamard_hadamard _ ψ

theorem actAll_keep_of_id
    (h : ∀ i g, gates[i]? = some g → P (s + i) = true → g.act = id) (ψ : State) :
    actAll (keep P s gates) ψ = actAll gates ψ := by
  induction gates generalizing s ψ with
  | nil => rfl
  | cons g gates ih =>
      have htail : ∀ ψ, actAll (keep P (s + 1) gates) ψ = actAll gates ψ := by
        apply ih
        intro i g' hi hP
        exact h (i + 1) g' (by simpa using hi) (by rwa [show s + (i + 1) = s + 1 + i by omega])
      rw [keep_cons]
      split
      case isTrue hP => rw [htail, actAll_cons, h 0 g rfl hP, id]
      case isFalse => rw [actAll_cons, htail, actAll_cons]

/-! ## Dropping two Hadamards -/

theorem actAll_hadamard_comm {q : ℕ} (h : ∀ g ∈ gates, g.qubits.Nodup ∧ q ∉ g.qubits)
    (ψ : State) : actAll gates (hadamard q ψ) = hadamard q (actAll gates ψ) := by
  induction gates generalizing ψ with
  | nil => rfl
  | cons g gates ih =>
      obtain ⟨hnodup, hq⟩ := h g List.mem_cons_self
      rw [actAll_cons, (g.act_local hnodup).hadamard_comm hq]
      exact ih (fun g' hg' => h g' (List.mem_cons_of_mem g hg')) _

namespace Circuit

/-- A gate that is a Hadamard on one qubit. -/
def IsHadamard (g : Gate) (q : ℕ) : Prop := g.kind = .had ∧ g.qubits = [q]

theorem IsHadamard.act {g : Gate} {q : ℕ} (h : IsHadamard g q) : g.act = hadamard q := by
  obtain ⟨hkind, hqubits⟩ := h
  simp [Gate.act, hkind, hqubits]

/-- Positions of two Hadamards on a qubit that no gate between them touches. -/
structure Cancels (gates : List Gate) (q i j : ℕ) : Prop where
  lt : i < j
  left : ∃ g, gates[i]? = some g ∧ IsHadamard g q
  right : ∃ g, gates[j]? = some g ∧ IsHadamard g q
  between : ∀ m g, i < m → m < j → gates[m]? = some g → q ∉ g.qubits

theorem Cancels.exists_split {q i j : ℕ} (h : Cancels gates q i j) :
    ∃ A B C g g', gates = A ++ g :: (B ++ g' :: C) ∧ A.length = i ∧ i + 1 + B.length = j ∧
      IsHadamard g q ∧ IsHadamard g' q ∧ ∀ x ∈ B, q ∉ x.qubits := by
  obtain ⟨g, hi, hg⟩ := h.left
  obtain ⟨g', hj, hg'⟩ := h.right
  have hlt := h.lt
  obtain ⟨hilt, hgi⟩ := List.getElem?_eq_some_iff.mp hi
  obtain ⟨hjlt, hgj⟩ := List.getElem?_eq_some_iff.mp hj
  have hdrop : gates.drop (i + 1) =
      (gates.drop (i + 1)).take (j - (i + 1)) ++ g' :: gates.drop (j + 1) := by
    conv_lhs => rw [← List.take_append_drop (j - (i + 1)) (gates.drop (i + 1))]
    rw [List.drop_drop, show i + 1 + (j - (i + 1)) = j by omega, List.drop_eq_getElem_cons hjlt, hgj]
  refine ⟨gates.take i, (gates.drop (i + 1)).take (j - (i + 1)), gates.drop (j + 1), g, g', ?_, ?_,
    ?_, hg, hg', ?_⟩
  · rw [← hdrop, ← hgi, ← List.drop_eq_getElem_cons hilt, List.take_append_drop]
  · rw [List.length_take]
    omega
  · rw [List.length_take, List.length_drop]
    omega
  · intro x hx
    obtain ⟨m, hm, hget⟩ := List.mem_iff_getElem.mp hx
    have hmj : m < j - (i + 1) := by
      rw [List.length_take] at hm
      omega
    apply h.between (i + 1 + m) x (by omega) (by omega)
    rw [← hget, List.getElem_take, List.getElem_drop, List.getElem?_eq_getElem]

/-- Both Hadamards can be dropped, whatever else has been dropped before. -/
theorem Cancels.actAll_keep {q i j : ℕ} (h : Cancels gates q i j)
    (hnodup : ∀ g ∈ gates, g.qubits.Nodup) (hPi : P i = false) (hPj : P j = false)
    (hP' : ∀ m, P' m = (P m || m == i || m == j)) (ψ : State) :
    actAll (keep P' 0 gates) ψ = actAll (keep P 0 gates) ψ := by
  obtain ⟨A, B, C, g, g', hgates, hA, hB, hg, hg', hbetween⟩ := h.exists_split
  have hsame : ∀ m, m ≠ i → m ≠ j → P' m = P m := by
    intro m hmi hmj
    rw [hP', beq_false_of_ne hmi, beq_false_of_ne hmj, Bool.or_false, Bool.or_false]
  have hP'i : P' i = true := by rw [hP', hPi, beq_self_eq_true, Bool.false_or, Bool.true_or]
  have hP'j : P' j = true := by rw [hP', beq_self_eq_true, Bool.or_true]
  have hkA : keep P' 0 A = keep P 0 A := keep_congr fun m hm => hsame _ (by omega) (by omega)
  have hkB : keep P' (i + 1) B = keep P (i + 1) B :=
    keep_congr fun m hm => hsame _ (by omega) (by omega)
  have hkC : keep P' (j + 1) C = keep P (j + 1) C :=
    keep_congr fun m hm => hsame _ (by omega) (by omega)
  -- what is left of the middle part still avoids the qubit
  have hmiddle : ∀ x ∈ keep P (i + 1) B, x.qubits.Nodup ∧ q ∉ x.qubits := by
    intro x hx
    have hxB := mem_of_mem_keep hx
    exact ⟨hnodup x (by simp [hgates, hxB]), hbetween x hxB⟩
  have hold : keep P 0 gates =
      keep P 0 A ++ g :: (keep P (i + 1) B ++ g' :: keep P (j + 1) C) := by
    rw [hgates, keep_append, hA, Nat.zero_add, keep_cons, hPi, if_neg Bool.false_ne_true,
      keep_append, hB, keep_cons, hPj, if_neg Bool.false_ne_true]
  have hnew : keep P' 0 gates = keep P 0 A ++ (keep P (i + 1) B ++ keep P (j + 1) C) := by
    rw [hgates, keep_append, hA, Nat.zero_add, keep_cons, hP'i, if_pos rfl, keep_append, hB,
      keep_cons, hP'j, if_pos rfl, hkA, hkB, hkC]
  rw [hold, hnew, actAll_append, actAll_append, actAll_append, actAll_cons, actAll_append,
    actAll_cons, hg.act, hg'.act, actAll_hadamard_comm hmiddle, hadamard_hadamard]

/-! ## Finding pairs -/

/-- A Hadamard at position `i` on a qubit that no later gate touches. -/
structure Waits (gates : List Gate) (q i : ℕ) : Prop where
  left : ∃ g, gates[i]? = some g ∧ IsHadamard g q
  after : ∀ m g, i < m → gates[m]? = some g → q ∉ g.qubits

theorem Waits.append {q i : ℕ} (h : Waits gates q i) {g : Gate} (hg : q ∉ g.qubits) :
    Waits (gates ++ [g]) q i := by
  obtain ⟨g', hi, hhad⟩ := h.left
  have hlt := (List.getElem?_eq_some_iff.mp hi).1
  constructor
  · exact ⟨g', by rw [List.getElem?_append_left hlt, hi], hhad⟩
  · intro m x hm hx
    by_cases hmlt : m < gates.length
    · rw [List.getElem?_append_left hmlt] at hx
      exact h.after m x hm hx
    · rw [List.getElem?_append_right (by omega)] at hx
      have hxg : x = g := List.mem_singleton.mp (List.mem_of_getElem? hx)
      rwa [hxg]

theorem waits_append_self {q : ℕ} {g : Gate} (hg : IsHadamard g q) :
    Waits (gates ++ [g]) q gates.length := by
  constructor
  · exact ⟨g, by simp, hg⟩
  · intro m x hm hx
    rw [List.getElem?_eq_none (by simp; omega)] at hx
    exact absurd hx (by simp)

theorem Waits.cancels {q i : ℕ} (h : Waits gates q i) {g : Gate} (hg : IsHadamard g q)
    (rest : List Gate) : Cancels (gates ++ g :: rest) q i gates.length := by
  obtain ⟨g', hi, hhad⟩ := h.left
  have hlt := (List.getElem?_eq_some_iff.mp hi).1
  constructor
  · exact hlt
  · exact ⟨g', by rw [List.getElem?_append_left hlt, hi], hhad⟩
  · exact ⟨g, by simp, hg⟩
  · intro m x hm hml hx
    rw [List.getElem?_append_left hml] at hx
    exact h.after m x hm hx

/-- Every pair that the scan reports cancels. The waiting Hadamards of the gates before the scanned
ones carry the induction. -/
theorem hadamardPairs_cancels (width : ℕ) (rest : List Gate) (before : List Gate)
    (waiting : List (ℕ × ℕ)) (hwaiting : ∀ x ∈ waiting, x.1 < width ∧ Waits before x.1 x.2) :
    ∀ p ∈ hadamardPairs width before.length waiting rest, ∃ q, Cancels (before ++ rest) q p.1 p.2 := by
  induction rest generalizing before waiting with
  | nil => simp [hadamardPairs]
  | cons g rest ih =>
      have hsplit : before ++ g :: rest = (before ++ [g]) ++ rest := by simp
      have hlength : before.length + 1 = (before ++ [g]).length := by simp
      have hothers : ∀ qs : List ℕ, (∀ q ∈ g.qubits, q ∈ qs) →
          ∀ x ∈ waiting.filter (fun x => !qs.contains x.1),
            x.1 < width ∧ Waits (before ++ [g]) x.1 x.2 := by
        intro qs hqs x hx
        rw [List.mem_filter] at hx
        obtain ⟨hlt, hw⟩ := hwaiting x hx.1
        exact ⟨hlt, hw.append fun hmem => by simp [hqs _ hmem] at hx⟩
      unfold hadamardPairs
      intro p hp
      rw [hsplit]
      dsimp only at hp
      split at hp
      case h_1 q hkind hqubits =>
        have hg : IsHadamard g q := ⟨hkind, hqubits⟩
        split at hp
        case isTrue hq =>
          split at hp
          case h_1 i hlookup =>
            rw [List.mem_cons] at hp
            obtain hp | hp := hp
            · subst hp
              obtain ⟨l₁, l₂, hl, _⟩ := List.lookup_eq_some_iff.mp hlookup
              have hw := hwaiting (q, i) (by simp [hl])
              rw [← hsplit]
              exact ⟨q, hw.2.cancels hg rest⟩
            · rw [hlength] at hp
              exact ih _ _ (hothers [q] (by simp [hqubits])) p hp
          case h_2 hlookup =>
            rw [hlength] at hp
            refine ih _ _ ?_ p hp
            intro x hx
            rw [List.mem_cons] at hx
            obtain hx | hx := hx
            · subst hx
              exact ⟨hq, waits_append_self hg⟩
            · obtain ⟨hlt, hw⟩ := hwaiting x hx
              refine ⟨hlt, hw.append fun hmem => ?_⟩
              rw [hqubits, List.mem_singleton] at hmem
              rw [List.lookup_eq_none_iff] at hlookup
              exact absurd hmem.symm (by simpa using hlookup x hx)
        case isFalse hq =>
          rw [hlength] at hp
          refine ih _ _ ?_ p hp
          intro x hx
          obtain ⟨hlt, hw⟩ := hwaiting x hx
          refine ⟨hlt, hw.append fun hmem => ?_⟩
          rw [hqubits, List.mem_singleton] at hmem
          omega
      case h_2 =>
        rw [hlength] at hp
        exact ih _ _ (hothers _ fun q hq => hq) p hp

/-! ## Choosing pairs -/

theorem isHadamardPair_of_cancels {q i j : ℕ} (h : Cancels gates q i j) :
    isHadamardPair gates.toArray i j = .ok true := by
  obtain ⟨g, hi, hkind, hqubits⟩ := h.left
  obtain ⟨g', hj, hkind', hqubits'⟩ := h.right
  have hnone : gates.toArray.any (·.qubits.contains q) (i + 1) j = false := by
    rw [Bool.eq_false_iff]
    intro hany
    obtain ⟨m, hm, hlow, hhigh, hmem⟩ := Array.any_iff_exists.mp hany
    have hget : gates[m]? = some gates.toArray[m] := by
      rw [List.getElem_toArray, List.getElem?_eq_getElem]
    exact h.between m _ hlow hhigh hget (by simpa using hmem)
  have hlt := h.lt
  simp only [isHadamardPair, List.getElem?_toArray, hi, hj, hkind, hkind', hqubits, hqubits',
    ne_eq, not_true_eq_false, or_false, Nat.not_le.mpr hlt, if_false]
  show Except.ok (!gates.toArray.any (·.qubits.contains q) (i + 1) j) = _
  rw [hnone]
  rfl

/-- The test of a pair has an answer, which says whether the pair cancels. -/
def Tested (gates : List Gate) (p : ℕ × ℕ) : Prop :=
  ∃ b, isHadamardPair gates.toArray p.1 p.2 = .ok b ∧ (b = true ↔ ∃ q, Cancels gates q p.1 p.2)

theorem Cancels.tested {q : ℕ} {p : ℕ × ℕ} (h : Cancels gates q p.1 p.2) : Tested gates p :=
  ⟨true, isHadamardPair_of_cancels h, ⟨fun _ => ⟨q, h⟩, fun _ => rfl⟩⟩

/-- Two pairs without a common position. -/
def Apart (p p' : ℕ × ℕ) : Prop := p.1 ≠ p'.1 ∧ p.1 ≠ p'.2 ∧ p.2 ≠ p'.1 ∧ p.2 ≠ p'.2

/-- The entries of a list that are taken when a pair is taken whenever it is valid and apart from all
the pairs taken before it. -/
def Greedy (valid : ℕ × ℕ → Prop) (pairs : List (ℕ × ℕ)) (taken : ℕ → Prop) : Prop :=
  ∀ k p, pairs[k]? = some p →
    (taken k ↔ valid p ∧ ∀ k' p', k' < k → taken k' → pairs[k']? = some p' → Apart p p')

/-- The positions in the entries that are taken. -/
def Covers (pairs : List (ℕ × ℕ)) (taken : ℕ → Prop) (m : ℕ) : Prop :=
  ∃ k p, pairs[k]? = some p ∧ taken k ∧ (m = p.1 ∨ m = p.2)

/-- What is taken of a list whose first entry is taken if it is valid. -/
def takenFrom (first : Prop) (taken : ℕ → Prop) : ℕ → Prop
  | 0 => first
  | k + 1 => taken k

variable {valid valid' : ℕ × ℕ → Prop} {pairs : List (ℕ × ℕ)} {p : ℕ × ℕ} {taken : ℕ → Prop}

/-- The rest of a list sees its first entry only through the pairs that are no longer valid. -/
theorem Greedy.cons (h : Greedy valid' pairs taken)
    (hvalid : ∀ p', valid' p' ↔ valid p' ∧ (valid p → Apart p' p)) :
    Greedy valid (p :: pairs) (takenFrom (valid p) taken) := by
  intro k x hx
  cases k with
  | zero =>
      obtain rfl : p = x := Option.some.inj hx
      exact ⟨fun hp => ⟨hp, fun k' _ hk' => absurd hk' (Nat.not_lt_zero k')⟩, fun hp => hp.1⟩
  | succ k =>
      have hx : pairs[k]? = some x := hx
      refine (h k x hx).trans ((and_congr_left' (hvalid x)).trans ?_)
      rw [and_assoc]
      refine and_congr_right' ⟨?_, ?_⟩
      · intro ⟨hfirst, hrest⟩ k' p' hk' htaken hp'
        cases k' with
        | zero =>
            obtain rfl : p = p' := Option.some.inj hp'
            exact hfirst htaken
        | succ k' => exact hrest k' p' (by omega) htaken hp'
      · intro hall
        exact ⟨fun hp => hall 0 p (by omega) hp rfl,
          fun k' p' hk' htaken hp' => hall (k' + 1) p' (by omega) htaken hp'⟩

theorem covers_cons {first : Prop} {m : ℕ} : Covers (p :: pairs) (takenFrom first taken) m ↔
    first ∧ (m = p.1 ∨ m = p.2) ∨ Covers pairs taken m := by
  constructor
  · intro ⟨k, x, hx, htaken, hm⟩
    cases k with
    | zero =>
        obtain rfl : p = x := Option.some.inj hx
        exact .inl ⟨htaken, hm⟩
    | succ k => exact .inr ⟨k, x, hx, htaken, hm⟩
  · intro h
    cases h with
    | inl h => exact ⟨0, p, rfl, h.1, h.2⟩
    | inr h =>
        obtain ⟨k, x, hx, htaken, hm⟩ := h
        exact ⟨k + 1, x, hx, htaken, hm⟩

/-- Pairs that can still be taken: they cancel, and none of their positions has been chosen. -/
def Free (gates : List Gate) (chosen : Std.HashSet ℕ) (p : ℕ × ℕ) : Prop :=
  (∃ q, Cancels gates q p.1 p.2) ∧ chosen.contains p.1 = false ∧ chosen.contains p.2 = false

theorem choosePairs_cons (hp : Tested gates p) (pairs : List (ℕ × ℕ)) (chosen : Std.HashSet ℕ) :
    (Free gates chosen p → choosePairs gates.toArray (p :: pairs) chosen =
      choosePairs gates.toArray pairs ((chosen.insert p.1).insert p.2)) ∧
    (¬Free gates chosen p → choosePairs gates.toArray (p :: pairs) chosen =
      choosePairs gates.toArray pairs chosen) := by
  obtain ⟨b, htest, hb⟩ := hp
  have hstep : choosePairs gates.toArray (p :: pairs) chosen =
      if b && !chosen.contains p.1 && !chosen.contains p.2 then
        choosePairs gates.toArray pairs ((chosen.insert p.1).insert p.2)
      else choosePairs gates.toArray pairs chosen := by
    rw [choosePairs, htest]
    rfl
  have hfree : (b && !chosen.contains p.1 && !chosen.contains p.2) = true ↔ Free gates chosen p := by
    rw [Bool.and_eq_true, Bool.and_eq_true, Bool.not_eq_true', Bool.not_eq_true', hb, and_assoc]
    rfl
  constructor
  · intro h
    rw [hstep, if_pos (hfree.mpr h)]
  · intro h
    rw [hstep, if_neg fun hc => h (hfree.mp hc)]

theorem contains_insert_insert (chosen : Std.HashSet ℕ) (i j m : ℕ) :
    ((chosen.insert i).insert j).contains m = (chosen.contains m || m == i || m == j) := by
  rw [Std.HashSet.contains_insert, Std.HashSet.contains_insert, Bool.beq_comm (a := m),
    Bool.beq_comm (a := m)]
  cases chosen.contains m <;> cases i == m <;> cases j == m <;> rfl

theorem free_insert_insert {chosen : Std.HashSet ℕ} (p' : ℕ × ℕ) :
    Free gates ((chosen.insert p.1).insert p.2) p' ↔ Free gates chosen p' ∧ Apart p' p := by
  simp only [Free, Apart, contains_insert_insert, Bool.or_eq_false_iff, beq_eq_false_iff_ne]
  tauto

/-- The choice never fails, takes the pairs in turn and drops nothing that matters. -/
theorem choosePairs_ok (hnodup : ∀ g ∈ gates, g.qubits.Nodup) (pairs : List (ℕ × ℕ))
    (hpairs : ∀ p ∈ pairs, Tested gates p) (chosen : Std.HashSet ℕ) :
    ∃ chosen' taken, choosePairs gates.toArray pairs chosen = .ok chosen' ∧
      Greedy (Free gates chosen) pairs taken ∧
      (∀ m, chosen'.contains m = true ↔ chosen.contains m = true ∨ Covers pairs taken m) ∧
      ∀ ψ, actAll (keep chosen'.contains 0 gates) ψ = actAll (keep chosen.contains 0 gates) ψ := by
  induction pairs generalizing chosen with
  | nil =>
      have hnone : Greedy (Free gates chosen) [] fun _ => False := fun k p hp => by simp at hp
      refine ⟨chosen, fun _ => False, rfl, hnone, fun m => ?_, fun ψ => rfl⟩
      exact (or_iff_left fun ⟨_, _, _, htaken, _⟩ => htaken).symm
  | cons p pairs ih =>
      have hrest := ih fun p hp => hpairs p (List.mem_cons_of_mem _ hp)
      obtain ⟨htake, hskip⟩ := choosePairs_cons (hpairs p List.mem_cons_self) pairs chosen
      by_cases hfree : Free gates chosen p
      · obtain ⟨chosen', taken, hok, hgreedy, hcovers, hact⟩ :=
          hrest ((chosen.insert p.1).insert p.2)
        refine ⟨chosen', takenFrom (Free gates chosen p) taken, (htake hfree).trans hok,
          hgreedy.cons fun p' => ?_, fun m => ?_, fun ψ => ?_⟩
        · rw [free_insert_insert, imp_iff_right hfree]
        · rw [hcovers, covers_cons, and_iff_right hfree, contains_insert_insert, Bool.or_eq_true,
            Bool.or_eq_true, beq_iff_eq, beq_iff_eq, or_assoc, or_assoc, or_assoc]
        · obtain ⟨⟨q, hcancels⟩, hi, hj⟩ := hfree
          rw [hact, hcancels.actAll_keep hnodup hi hj (contains_insert_insert chosen p.1 p.2)]
      · obtain ⟨chosen', taken, hok, hgreedy, hcovers, hact⟩ := hrest chosen
        refine ⟨chosen', takenFrom (Free gates chosen p) taken, (hskip hfree).trans hok,
          hgreedy.cons fun p' => ?_, fun m => ?_, hact⟩
        · exact (and_iff_left fun hc => absurd hc hfree).symm
        · have hnot : ¬(Free gates chosen p ∧ (m = p.1 ∨ m = p.2)) := fun hc => hfree hc.1
          rw [hcovers, covers_cons, or_iff_right hnot]

end Circuit

/-! ## The two rules -/

/-- What a batch of either rule changes about a circuit: it drops gates that do not matter. -/
structure Circuit.Trims (c d : Circuit) : Prop where
  width_eq : d.width = c.width
  phase_eq : d.globalPhase = c.globalPhase
  subset : ∀ g ∈ d.gates, g ∈ c.gates
  act_eq : ∀ ψ, actAll d.gates ψ = actAll c.gates ψ

theorem Circuit.Trims.refl (c : Circuit) : c.Trims c := ⟨rfl, rfl, fun _ h => h, fun _ => rfl⟩

theorem Circuit.Trims.trans {c d e : Circuit} (h : c.Trims d) (h' : d.Trims e) : c.Trims e :=
  ⟨h'.width_eq.trans h.width_eq, h'.phase_eq.trans h.phase_eq,
    fun g hg => h.subset g (h'.subset g hg), fun ψ => (h'.act_eq ψ).trans (h.act_eq ψ)⟩

/-- The circuits in which every gate names distinct qubits, on at most so many qubits. -/
def Circuit.Tidy (n : ℕ) (c : Circuit) : Prop :=
  c.width = n ∧ ∀ g ∈ c.gates, g.qubits.Nodup

theorem Circuit.Tidy.of_trims {n : ℕ} {c d : Circuit} (h : c.Tidy n) (ht : c.Trims d) : d.Tidy n :=
  ⟨ht.width_eq.trans h.1, fun g hg => h.2 g (ht.subset g hg)⟩

/-- On any list of positions, the rule drops the rotations by nothing that are listed. -/
theorem Rule.zeroRotation_act (c : Circuit) (found : List ℕ) :
    ∃ dropped : Std.HashSet ℕ, Rule.zeroRotation.act c found = .ok (c.dropGates dropped) ∧
      (∀ i, dropped.contains i = true ↔
        i ∈ found ∧ ∃ g, c.gates[i]? = some g ∧ g.isZeroRotation = true) ∧
      c.Trims (c.dropGates dropped) := by
  have hcontains : ∀ i, (Std.HashSet.ofList (found.filter fun i =>
      c.gates.toArray[i]?.any Gate.isZeroRotation)).contains i = true ↔
      i ∈ found ∧ ∃ g, c.gates[i]? = some g ∧ g.isZeroRotation = true := by
    intro i
    rw [Std.HashSet.contains_ofList, List.contains_iff_mem, List.mem_filter, List.getElem?_toArray,
      Option.any_eq_true]
  refine ⟨_, rfl, hcontains, rfl, rfl, fun g hg => mem_of_mem_keep hg,
    fun ψ => actAll_keep_of_id ?_ ψ⟩
  intro i g hget hdrop
  rw [Nat.zero_add] at hdrop
  obtain ⟨-, g', hget', hzero⟩ := (hcontains i).mp hdrop
  rw [hget] at hget'
  cases hget'
  exact Gate.act_zeroRotation hzero

/-- On any list of pairs that can be tested, the rule drops the Hadamards of those taken in turn. -/
theorem Rule.hadamardPair_act {c : Circuit} (hnodup : ∀ g ∈ c.gates, g.qubits.Nodup)
    {found : List (ℕ × ℕ)} (hfound : ∀ p ∈ found, Circuit.Tested c.gates p) :
    ∃ (dropped : Std.HashSet ℕ) (taken : ℕ → Prop),
      Rule.hadamardPair.act c found = .ok (c.dropGates dropped) ∧
      Circuit.Greedy (fun p => ∃ q, Circuit.Cancels c.gates q p.1 p.2) found taken ∧
      (∀ i, dropped.contains i = true ↔ Circuit.Covers found taken i) ∧
      c.Trims (c.dropGates dropped) := by
  obtain ⟨dropped, taken, hok, hgreedy, hcovers, hact⟩ := Circuit.choosePairs_ok hnodup found hfound ∅
  have hempty : ∀ m, (∅ : Std.HashSet ℕ).contains m = false := fun m => Std.HashSet.contains_empty
  have hfree : Circuit.Free c.gates ∅ = fun p => ∃ q, Circuit.Cancels c.gates q p.1 p.2 := by
    funext p
    exact propext (and_iff_left ⟨hempty _, hempty _⟩)
  refine ⟨dropped, taken, ?_, hfree ▸ hgreedy, fun i => ?_, rfl, rfl,
    fun g hg => mem_of_mem_keep hg, fun ψ => ?_⟩
  · show (do return c.dropGates (← Circuit.choosePairs c.gates.toArray found ∅)) = _
    rw [hok]
    rfl
  · rw [hcovers, hempty, or_iff_right Bool.false_ne_true]
  · rw [Circuit.dropGates_eq, hact]
    refine congrArg (actAll · ψ) ?_
    rw [show (∅ : Std.HashSet ℕ).contains = fun _ => false from funext hempty, keep_false]

theorem Rule.zeroRotation_progress (n : ℕ) :
    Rule.zeroRotation.Progress (Circuit.Tidy n) Circuit.Trims fun _ => False := by
  constructor
  · intro c _
    exact Ends.ok_iff.mpr trivial
  · intro c found hc hplaces hne
    have hfound : c.zeroRotations = found := by injection hplaces
    have hmem : ∀ i ∈ found, ∃ g, c.gates[i]? = some g ∧ g.isZeroRotation = true := by
      intro i hi
      rw [← hfound] at hi
      simp only [Circuit.zeroRotations, List.mem_filterMap, Prod.exists,
        List.mem_zipIdx_iff_getElem?] at hi
      obtain ⟨g, j, hget, hif⟩ := hi
      split at hif
      case isTrue hzero =>
        cases hif
        exact ⟨g, hget, hzero⟩
      case isFalse => cases hif
    obtain ⟨dropped, hok, hcontains, htrims⟩ := Rule.zeroRotation_act c found
    obtain ⟨i, hi⟩ := List.exists_mem_of_ne_nil found hne
    obtain ⟨g, hget, hzero⟩ := hmem i hi
    refine Ends.of_exists_ok ⟨_, hok, hc.of_trims htrims, htrims, ?_⟩
    refine length_keep_lt (i := i) (List.getElem?_eq_some_iff.mp hget).1 ?_
    rw [Nat.zero_add]
    exact (hcontains i).mpr ⟨hi, g, hget, hzero⟩

theorem Rule.hadamardPair_progress (n : ℕ) :
    Rule.hadamardPair.Progress (Circuit.Tidy n) Circuit.Trims
      fun e => e = .tooLarge ∧ 2 ^ 63 ≤ n * 16 := by
  constructor
  · intro c hc
    refine Ends.bind (P := fun _ => True) ?_ fun _ _ => Ends.ok_iff.mpr trivial
    unfold checkTable
    rw [hc.1]
    split
    case isTrue => exact Ends.ok_iff.mpr trivial
    case isFalse h => exact Ends.error_iff.mpr ⟨rfl, Nat.not_lt.mp h⟩
  · intro c found hc hplaces hne
    have hfound : Circuit.hadamardPairs c.width 0 [] c.gates = found := by
      have hplaces : c.waitingPairs = .ok found := hplaces
      unfold Circuit.waitingPairs at hplaces
      cases htable : checkTable c.width 16 with
      | ok u =>
          rw [htable] at hplaces
          injection hplaces
      | error e =>
          rw [htable] at hplaces
          cases hplaces
    have hcancels : ∀ p ∈ found, ∃ q, Circuit.Cancels c.gates q p.1 p.2 := by
      rw [← hfound]
      exact Circuit.hadamardPairs_cancels c.width c.gates [] [] (by simp)
    have htested : ∀ p ∈ found, Circuit.Tested c.gates p := fun p hp =>
      (hcancels p hp).elim fun _ => Circuit.Cancels.tested
    obtain ⟨dropped, taken, hok, hgreedy, hcovers, htrims⟩ := Rule.hadamardPair_act hc.2 htested
    obtain ⟨p, rest, rfl⟩ := List.exists_cons_of_ne_nil hne
    obtain ⟨q, hq⟩ := hcancels p List.mem_cons_self
    obtain ⟨g, hget, _⟩ := hq.left
    -- nothing is taken before the first pair
    have hfirst : taken 0 := (hgreedy 0 p rfl).mpr ⟨⟨q, hq⟩, fun k' _ hk' => absurd hk' (by omega)⟩
    refine Ends.of_exists_ok ⟨_, hok, hc.of_trims htrims, htrims, ?_⟩
    refine length_keep_lt (i := p.1) (List.getElem?_eq_some_iff.mp hget).1 ?_
    rw [Nat.zero_add]
    exact (hcovers p.1).mpr ⟨0, p, rfl, hfirst, .inl rfl⟩

theorem Rule.zeroRotation_settled {n : ℕ} {c : Circuit} (hc : c.Tidy n) :
    Ends (Rule.zeroRotation.fixedPoint c).outcome
      (Rule.zeroRotation.Settled (Circuit.Tidy n) Circuit.Trims c) fun _ => False :=
  fixedPoint_settled (zeroRotation_progress n) Circuit.Trims.refl (fun _ _ _ => .trans) hc

theorem Rule.hadamardPair_settled {n : ℕ} {c : Circuit} (hc : c.Tidy n) :
    Ends (Rule.hadamardPair.fixedPoint c).outcome
      (Rule.hadamardPair.Settled (Circuit.Tidy n) Circuit.Trims c)
      fun e => e = .tooLarge ∧ 2 ^ 63 ≤ n * 16 :=
  fixedPoint_settled (hadamardPair_progress n) Circuit.Trims.refl (fun _ _ _ => .trans) hc

/-- Cleaning drops gates without changing the linear map. It fails exactly when the table of the
waiting Hadamards would be too large. -/
theorem Circuit.cleanup_ends (c : Circuit) (h : ∀ g ∈ c.gates, g.qubits.Nodup) :
    Ends c.cleanup.outcome (fun r => c.Trims r.2 ∧ c.width * 16 < 2 ^ 63)
      fun e => e = .tooLarge ∧ 2 ^ 63 ≤ c.width * 16 := by
  have htidy : c.Tidy c.width := ⟨rfl, h⟩
  unfold Circuit.cleanup
  refine Ends.run_bind ((Rule.zeroRotation_settled htidy).mono (fun _ hx => hx) fun e he => he.elim)
    fun x hx => ?_
  refine Ends.run_bind (Rule.hadamardPair_settled hx.keeps) fun y hy => ?_
  refine Ends.ok_iff.mpr ⟨hx.related.trans hy.related, ?_⟩
  -- The last search for pairs found its table.
  have hplaces : y.2.waitingPairs = .ok [] := hy.no_place
  rw [← hy.keeps.1]
  by_contra hlarge
  rw [Circuit.waitingPairs, checkTable, if_neg hlarge] at hplaces
  cases hplaces

/-- A clean-up reports a change exactly when there was one: a batch of either rule drops a gate. -/
theorem Circuit.cleanup_changed_iff {c d : Circuit} {changed : Bool}
    (hnodup : ∀ g ∈ c.gates, g.qubits.Nodup) (h : c.cleanup.outcome = .ok (changed, d)) :
    changed = true ↔ d ≠ c := by
  obtain ⟨⟨dropped, c₁⟩, hzero, h⟩ := Run.exists_of_bind_eq_ok h
  obtain ⟨⟨cancelled, c₂⟩, hpair, h⟩ := Run.exists_of_bind_eq_ok h
  cases h
  have htidy : c.Tidy c.width := ⟨rfl, hnodup⟩
  have hs₁ := (Rule.zeroRotation_settled htidy).of_eq_ok hzero
  have hs₂ := (Rule.hadamardPair_settled hs₁.keeps).of_eq_ok hpair
  have hle₁ : c₁.gates.length ≤ c.gates.length := hs₁.measure_le
  have hle₂ : d.gates.length ≤ c₁.gates.length := hs₂.measure_le
  constructor
  · rintro hchanged rfl
    rcases Bool.or_eq_true_iff.mp hchanged with rfl | rfl
    · have hlt : d.gates.length < c₁.gates.length := hs₂.measure_lt rfl
      omega
    · have hlt : c₁.gates.length < d.gates.length := hs₁.measure_lt rfl
      omega
  · intro hne
    by_contra hsame
    obtain ⟨rfl, rfl⟩ := Bool.or_eq_false_iff.mp (Bool.eq_false_iff.mpr hsame)
    have hkept₁ := (Rule.fixedPoint_eq_false.mp hzero).1
    have hkept₂ := (Rule.fixedPoint_eq_false.mp hpair).1
    exact hne (hkept₂.trans hkept₁)

end ZX
