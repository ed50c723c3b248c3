import Mathlib
import ZX.Proofs.Rewriting
import ZX.Proofs.State

/-!
# What is left of a diagram during extraction

While a circuit is extracted, every qubit is held by a vertex of the diagram: first by its output,
later by a spider of the frontier. The residue is the map from the inputs to these vertices, seen as
a state of the qubits. `Leads` says that the residue of one diagram is, up to a positive factor, that
of another one behind some gates. Moving a qubit along the only edge of the vertex that holds it,
cutting an edge between two such vertices and tying one to an input lead to smaller diagrams.
-/
namespace ZX

open Finset Function

theorem sumOver_congr_off {S : Finset ℕ} {f : (ℕ → Bool) → ℂ} {β β' : ℕ → Bool} {N : ℕ → Prop}
    (hf : ∀ a a' : ℕ → Bool, (∀ v, ¬N v → a v = a' v) → f a = f a')
    (hβ : ∀ v, ¬N v → β v = β' v) : sumOver S f β = sumOver S f β' := by
  refine sum_congr rfl fun A _ => hf _ _ fun v hv => ?_
  by_cases hS : v ∈ S
  · simp [assign, hS]
  · rw [assign_of_notMem hS, assign_of_notMem hS, hβ v hv]

/-- The bits of the inputs and of the vertices that hold the qubits. -/
def pins (inputs A : List ℕ) (x z : ℕ → Bool) (v : ℕ) : Bool :=
  if v ∈ inputs then x (inputs.idxOf v) else z (A.idxOf v)

section Pins

variable {inputs A : List ℕ} {x z : ℕ → Bool} {q p u v : ℕ}

theorem pins_input (hv : v ∈ inputs) : pins inputs A x z v = x (inputs.idxOf v) := if_pos hv

theorem idxOf_of_getElem? (hA : A.Nodup) (hq : A[q]? = some p) : A.idxOf p = q := by
  obtain ⟨hlt, hget⟩ := List.getElem?_eq_some_iff.mp hq
  rw [← hget]
  exact hA.idxOf_getElem q hlt

/-- Without repetitions, a vertex has one position. -/
theorem eq_of_getElem? {i j : ℕ} (hA : A.Nodup) (hi : A[i]? = some v) (hj : A[j]? = some v) :
    i = j := (idxOf_of_getElem? hA hi).symm.trans (idxOf_of_getElem? hA hj)

theorem pins_held (hA : A.Nodup) (hq : A[q]? = some p) (hp : p ∉ inputs) :
    pins inputs A x z p = z q := by
  rw [pins, if_neg hp, idxOf_of_getElem? hA hq]

/-- Only the vertices that hold the qubits where two valuations differ see the difference. -/
theorem pins_congr {z' : ℕ → Bool} {N : ℕ → Prop} (hlen : z' A.length = z A.length)
    (h : ∀ q p, A[q]? = some p → ¬N p → z' q = z q) (hv : ¬N v) :
    pins inputs A x z' v = pins inputs A x z v := by
  unfold pins
  split
  case isTrue => rfl
  case isFalse =>
    by_cases hmem : v ∈ A
    · have hlt := List.idxOf_lt_length_of_mem hmem
      exact h _ v (by rw [List.getElem?_eq_getElem hlt, List.getElem_idxOf]) hv
    · rw [List.idxOf_eq_length hmem, hlen]

theorem idxOf_set (hA : A.Nodup) (hq : A[q]? = some p) (huA : u ∉ A) (hvp : v ≠ p) (hvu : v ≠ u) :
    (A.set q u).idxOf v = A.idxOf v := by
  obtain ⟨hlt, hget⟩ := List.getElem?_eq_some_iff.mp hq
  by_cases hmem : v ∈ A
  · have hvlt := List.idxOf_lt_length_of_mem hmem
    have hne : q ≠ A.idxOf v := by
      intro heq
      apply hvp
      rw [← hget, ← List.getElem_idxOf hvlt]
      simp only [← heq]
    have hset : (A.set q u)[A.idxOf v]? = some v := by
      rw [List.getElem?_set_ne hne, List.getElem?_eq_getElem hvlt, List.getElem_idxOf]
    exact idxOf_of_getElem? (hA.set huA) hset
  · have hmem' : v ∉ A.set q u := by
      intro hc
      obtain hc | hc := List.mem_or_eq_of_mem_set hc
      · exact hmem hc
      · exact hvu hc
    rw [List.idxOf_eq_length hmem, List.idxOf_eq_length hmem', List.length_set]

theorem mem_set_iff (hA : A.Nodup) (hq : A[q]? = some p) :
    v ∈ A.set q u ↔ v = u ∨ v ∈ A ∧ v ≠ p := by
  have hlt := (List.getElem?_eq_some_iff.mp hq).1
  constructor
  · intro hv
    obtain ⟨i, hi⟩ := List.mem_iff_getElem?.mp hv
    by_cases hiq : q = i
    · subst hiq
      rw [List.getElem?_set_self hlt] at hi
      exact .inl (Option.some.inj hi).symm
    · rw [List.getElem?_set_ne hiq] at hi
      exact .inr ⟨List.mem_of_getElem? hi, fun hvp => hiq (eq_of_getElem? hA hq (hvp ▸ hi))⟩
  · intro hv
    obtain hv | ⟨hv, hvp⟩ := hv
    · exact hv ▸ List.mem_set hlt u
    · obtain ⟨i, hi⟩ := List.mem_iff_getElem?.mp hv
      have hiq : q ≠ i := by
        intro hc
        subst hc
        exact hvp (Option.some.inj (hi.symm.trans hq))
      refine List.mem_of_getElem? (i := i) ?_
      rw [List.getElem?_set_ne hiq, hi]

/-- Moving qubit `q` from `p` to `u` moves its bit; that of `p` is out of control. -/
theorem update_pins (hA : A.Nodup) (hq : A[q]? = some p) (hu : u ∉ inputs) (huA : u ∉ A)
    (hvp : v ≠ p) {b : Bool} :
    update (pins inputs A x z) u b v = pins inputs (A.set q u) x (update z q b) v := by
  have hlt := (List.getElem?_eq_some_iff.mp hq).1
  by_cases hvu : v = u
  · subst hvu
    rw [update_self, pins_held (hA.set huA) (List.getElem?_set_self hlt) hu, update_self]
  · rw [update_of_ne hvu]
    unfold pins
    split
    case isTrue => rfl
    case isFalse =>
      have hne : A.idxOf v ≠ q := by
        intro hc
        have hv : A[A.idxOf v]? = some v := by
          have := hlt
          rw [← hc] at this
          rw [List.getElem?_eq_getElem this, List.getElem_idxOf]
        rw [hc, hq] at hv
        exact hvp (Option.some.inj hv).symm
      rw [idxOf_set hA hq huA hvp hvu, update_of_ne hne]

end Pins

namespace Diagram

variable {g g' g'' : Diagram} {A A' A'' : List ℕ} {q p u v k : ℕ} {e : EdgeKind} {x z : ℕ → Bool}
  {V : Finset ℕ} {a a' : ℕ → Bool}

/-- The map from the inputs to the vertices in `A`, the `q`-th of which holds qubit `q`. -/
noncomputable def residue (g : Diagram) (A : List ℕ) (x : ℕ → Bool) : State := fun z =>
  sumOver (g.spiders \ A.toFinset) (g.mass g.support g.turn) (pins g.inputs A x z)

/-- The residue starts as the whole map, with every qubit at its output. -/
theorem residue_outputs (hg : g.WellFormed) (x y : ℕ → Bool) :
    g.residue g.outputs x y = g.amplitude x y := by
  have hspiders : g.spiders \ g.outputs.toFinset = g.spiders := by
    rw [Finset.sdiff_eq_self_iff_disjoint, disjoint_left]
    intro v hv hout
    rw [List.mem_toFinset] at hout
    exact (mem_spiders.mp hv).2 (hg.kind?_output hout)
  rw [residue, hspiders]
  rfl

/-! ## Vertices that do not matter -/

/-- A vertex without edges and without a phase. -/
def Bare (g : Diagram) (v : ℕ) : Prop := (∀ t, g.edgeKind? v t = none) ∧ g.turn v = 1

/-- The summand does not look at the bits of such vertices. -/
theorem mass_congr_bare (hg : g.Consistent) (h : ∀ v, ¬g.Bare v → a v = a' v) :
    g.mass V g.turn a = g.mass V g.turn a' := by
  have hspin : ∏ v ∈ V, spin (g.turn v) (a v) = ∏ v ∈ V, spin (g.turn v) (a' v) := by
    refine prod_congr rfl fun v _ => ?_
    by_cases hv : g.Bare v
    · rw [hv.2, spin_one, spin_one]
    · rw [h v hv]
  have hpairs : pairs V (fun s t => linkFactor (g.wire? s t) (a s) (a t)) =
      pairs V fun s t => linkFactor (g.wire? s t) (a' s) (a' t) := by
    refine pairs_congr fun s _ t _ _ => ?_
    by_cases hs : g.Bare s
    · rw [wire?, hs.1 t]
      rfl
    · by_cases ht : g.Bare t
      · rw [wire?, hg.edgeKind?_comm, ht.1 s]
        rfl
      · rw [h s hs, h t ht]
  rw [mass, mass, hspin, hpairs]

theorem mass_insert_bare (hg : g.Consistent) (hv : g.Bare v) :
    g.mass (insert v V) g.turn a = g.mass V g.turn a := by
  by_cases hmem : v ∈ V
  · rw [insert_eq_of_mem hmem]
  · have hone : ∏ u ∈ V, linkFactor (g.wire? v u) (a v) (a u) = 1 := by
      refine prod_eq_one fun u _ => ?_
      rw [wire?, hv.1 u]
      rfl
    rw [hg.mass_insert hmem, hv.2, spin_one, hone, one_mul, one_mul]

theorem wire?_of_green (h : ∀ v, g.kind? v ≠ some .x) (s t : ℕ) : g.wire? s t = g.edgeKind? s t := by
  have htint : g.tinted s t = id := by
    funext e
    simp [tinted, isRed, h s, h t]
  rw [wire?, htint, Option.map_id]
  rfl

/-- Plain edges force the bits at their ends to agree. -/
theorem pairs_of_plain (hg : g.Consistent) (hgreen : ∀ v, g.kind? v ≠ some .x)
    (hplain : ∀ {s t e}, g.edgeKind? s t = some e → e = .plain) {a : ℕ → Bool} {c : Prop}
    [Decidable c] (hc : c ↔ ∀ s t, g.connected s t = true → a s = a t) :
    pairs g.support (fun s t => linkFactor (g.wire? s t) (a s) (a t)) = if c then 1 else 0 := by
  have hfactor : ∀ s t, linkFactor (g.wire? s t) (a s) (a t) =
      if g.connected s t = true ∧ a s ≠ a t then 0 else 1 := by
    intro s t
    rw [wire?_of_green hgreen, connected]
    cases he : g.edgeKind? s t with
    | none => simp
    | some e =>
        rw [hplain he]
        by_cases hst : a s = a t <;> simp [EdgeKind.factor, hst]
  simp only [hfactor]
  split
  case isTrue hall =>
    refine prod_eq_one fun s _ => prod_eq_one fun t _ => if_neg ?_
    exact fun hst => hst.2 (hc.mp hall s t hst.1)
  case isFalse hex =>
    simp only [hc, not_forall] at hex
    obtain ⟨s, t, hconn, hne⟩ := hex
    obtain ⟨e, he⟩ := Option.isSome_iff_exists.mp hconn
    have hcomm : g.connected t s = true := by
      rw [connected, hg.edgeKind?_comm]
      exact hconn
    have hs := mem_support.mpr (hg.contains_left he)
    have ht := mem_support.mpr (hg.contains_far he)
    rcases lt_or_gt_of_ne (hg.ne_of_edgeKind? he) with hst | hst
    · exact prod_eq_zero hs (prod_eq_zero (mem_filter.mpr ⟨ht, hst⟩) (if_pos ⟨hconn, hne⟩))
    · exact prod_eq_zero ht (prod_eq_zero (mem_filter.mpr ⟨hs, hst⟩) (if_pos ⟨hcomm, hne ∘ Eq.symm⟩))

/-! ## Moving a qubit -/

/-- A qubit moves from `p` along its edge to the spider `u`, which loses its phase. What held the
qubit before stays behind without edges or is removed. -/
structure Hops (g : Diagram) (p u : ℕ) (e : EdgeKind) (g' : Diagram) : Prop where
  consistent : g'.Consistent
  green : ∀ v, g'.kind? v ≠ some .x
  edge : g.edgeKind? p u = some e
  spider : u ∈ g.spiders
  inputs_eq : g'.inputs = g.inputs
  scalar_eq : g'.scalar = g.scalar
  edgeKind?_eq : ∀ s t, g'.edgeKind? s t = if IsPair p u s t then none else g.edgeKind? s t
  turn_eq : ∀ v, v ≠ u → g'.turn v = g.turn v
  turn_target : g'.turn u = 1
  bare : g'.Bare p
  support_eq : insert p g'.support = g.support
  spiders_eq : g'.spiders = g.spiders.erase p

theorem Hops.mass_eq (h : Hops g p u e g') (hg : g.Consistent)
    (hgreen : ∀ v, g.kind? v ≠ some .x) (a : ℕ → Bool) :
    g.mass g.support g.turn a =
      e.factor (a p) (a u) * spin (g.turn u) (a u) * g'.mass g'.support g'.turn a := by
  have hpu := hg.ne_of_edgeKind? h.edge
  have hpV : p ∈ g.support := mem_support.mpr (hg.contains_left h.edge)
  have huV : u ∈ g.support := spiders_subset g h.spider
  have hturn : g.turn = fun v => (if v = u then g.turn u else 1) * g'.turn v := by
    funext v
    by_cases hv : v = u
    · rw [if_pos hv, hv, h.turn_target, mul_one]
    · rw [if_neg hv, one_mul, h.turn_eq v hv]
  obtain ⟨X, hX, hX'⟩ := Diagram.exists_mass_eq (R := {p}) (C := {u}) hg h.consistent
    (singleton_subset_iff.mpr hpV) (singleton_subset_iff.mpr huV) (disjoint_singleton.mpr hpu)
    (by rw [h.scalar_eq]) (fun s t h1 h2 => by
      rw [wire?_of_green h.green, wire?_of_green hgreen, h.edgeKind?_eq, if_neg]
      simp only [mem_singleton] at h1 h2
      unfold IsPair
      tauto) g'.turn a
  simp only [prod_singleton, wire?_of_green h.green, wire?_of_green hgreen, h.edge] at hX hX'
  rw [h.edgeKind?_eq, if_pos (isPair_self p u)] at hX'
  have hweight : g.mass g.support g.turn a = g.mass g.support g'.turn a * spin (g.turn u) (a u) := by
    rw [← mass_mul_weight huV, ← hturn]
  have hshrink : g'.mass g.support g'.turn a = g'.mass g'.support g'.turn a := by
    rw [← h.support_eq, mass_insert_bare h.consistent h.bare]
  rw [hweight, hX, ← hshrink, hX']
  simp only [linkFactor_some, linkFactor_none]
  ring

theorem Hops.rest_eq (h : Hops g p u e g') (hA : A.Nodup) (hq : A[q]? = some p) (huA : u ∉ A) :
    g.spiders \ A.toFinset = insert u (g'.spiders \ (A.set q u).toFinset) := by
  have hpA : p ∈ A := List.mem_of_getElem? hq
  ext v
  rw [mem_sdiff, List.mem_toFinset, mem_insert, mem_sdiff, List.mem_toFinset, mem_set_iff hA hq,
    h.spiders_eq, mem_erase]
  by_cases hvu : v = u
  · subst hvu
    simp [h.spider, huA]
  · by_cases hvp : v = p
    · simp [hvp, hpA, ne_of_mem_of_not_mem hpA huA]
    · simp [hvu, hvp]

/-- The new bit of the qubit is that of the spider, over which the old residue sums. -/
theorem Hops.residue_eq (h : Hops g p u e g') (hg : g.Consistent)
    (hgreen : ∀ v, g.kind? v ≠ some .x) (hA : A.Nodup) (hq : A[q]? = some p) (hp : p ∉ g.inputs)
    (hu : u ∉ g.inputs) (huA : u ∉ A) (x z : ℕ → Bool) :
    g.residue A x z =
      e.factor (z q) false * g'.residue (A.set q u) x (update z q false) +
        e.factor (z q) true * (g.turn u * g'.residue (A.set q u) x (update z q true)) := by
  have hpu := hg.ne_of_edgeKind? h.edge
  set S := g'.spiders \ (A.set q u).toFinset with hS
  have huS : u ∉ S := by
    rw [hS, mem_sdiff, List.mem_toFinset, mem_set_iff hA hq]
    tauto
  have hpS : p ∉ S := by
    rw [hS, h.spiders_eq, mem_sdiff, mem_erase]
    tauto
  -- The bit of `p` no longer matters after the move, and the bit of `u` is that of the qubit.
  have hbranch : ∀ b, sumOver S (fun a => g.mass g.support g.turn (update a u b))
      (pins g.inputs A x z) =
        e.factor (z q) b * (spin (g.turn u) b * g'.residue (A.set q u) x (update z q b)) := by
    intro b
    have hsplit : ∀ a, (∀ v, v ∉ S → a v = pins g.inputs A x z v) →
        g.mass g.support g.turn (update a u b) =
          e.factor (z q) b * (spin (g.turn u) b * g'.mass g'.support g'.turn (update a u b)) := by
      intro a ha
      rw [h.mass_eq hg hgreen, update_of_ne hpu, update_self, ha p hpS, pins_held hA hq hp]
      ring
    rw [sumOver_congr hsplit, sumOver_mul_left, sumOver_mul_left, sumOver_update huS, residue,
      h.inputs_eq, ← hS]
    refine congrArg (e.factor (z q) b * ·) (congrArg (spin (g.turn u) b * ·) ?_)
    refine sumOver_congr_off (N := (· = p)) (fun a a' haa => ?_) fun v hv => ?_
    · refine mass_congr_bare h.consistent fun v hv => haa v ?_
      intro hvp
      exact hv (hvp ▸ h.bare)
    · exact update_pins hA hq hu huA hv
  rw [residue, h.rest_eq hA hq huA, sumOver_insert huS, sumOver_add, hbranch, hbranch, spin_false,
    spin_true, one_mul]

/-! ## Edges between pinned vertices -/

/-- Changing an edge whose two ends are inputs or hold qubits exchanges its factor. -/
theorem EdgeSet.residue_eq {s t : ℕ} {o : Option EdgeKind} (h : EdgeSet g s t o g')
    (hg : g.Consistent) (hgreen : ∀ v, g.kind? v ≠ some .x) (hs : g.contains s = true)
    (ht : g.contains t = true) (hst : s ≠ t) (hsA : s ∉ g.spiders \ A.toFinset)
    (htA : t ∉ g.spiders \ A.toFinset) (x z : ℕ → Bool) :
    linkFactor o (pins g.inputs A x z s) (pins g.inputs A x z t) * g.residue A x z =
      linkFactor (g.edgeKind? s t) (pins g.inputs A x z s) (pins g.inputs A x z t) *
        g'.residue A x z := by
  have hspiders : g'.spiders = g.spiders := by
    ext v
    exact h.recast.mem_spiders
  have hsupport : g'.support = g.support := by
    ext v
    rw [mem_support, mem_support, h.contains_eq]
  have hturn : g'.turn = g.turn := funext h.turn_eq
  have htint : g.tinted s t = id := by
    funext f
    simp [tinted, isRed, hgreen s, hgreen t]
  rw [residue, residue, hspiders, hsupport, hturn, h.inputs_eq, ← sumOver_mul_left,
    ← sumOver_mul_left]
  refine sumOver_congr fun a ha => ?_
  obtain ⟨X, hX, hX'⟩ := h.exists_mass_eq hg (mem_support.mpr hs) (mem_support.mpr ht) hst g.turn a
  rw [htint, Option.map_id, id] at hX'
  rw [wire?_of_green hgreen] at hX
  rw [hX, hX', ha s hsA, ha t htA]
  ring

/-! ## Gates in front of a residue -/

/-- The residue of `g` is, up to a positive factor, that of `g'` behind the listed gates, which act
on distinct qubits below `k`. -/
structure Leads (k : ℕ) (g : Diagram) (A : List ℕ) (gates : List Gate) (g' : Diagram)
    (A' : List ℕ) : Prop where
  tidy : ∀ gate ∈ gates, gate.qubits.Nodup ∧ ∀ q ∈ gate.qubits, q < k
  exists_eq : ∃ r : ℝ, 0 < r ∧ ∀ x, g.residue A x = (r : ℂ) • actAll gates (g'.residue A' x)

namespace Leads

variable {gates gates' : List Gate}

theorem refl (k : ℕ) (g : Diagram) (A : List ℕ) : Leads k g A [] g A where
  tidy := by simp
  exists_eq := ⟨1, one_pos, fun x => by simp⟩

theorem trans (h : Leads k g A gates g' A') (h' : Leads k g' A' gates' g'' A'') :
    Leads k g A (gates' ++ gates) g'' A'' where
  tidy gate hgate := by
    obtain hgate | hgate := List.mem_append.mp hgate
    · exact h'.tidy gate hgate
    · exact h.tidy gate hgate
  exists_eq := by
    obtain ⟨r, hr, heq⟩ := h.exists_eq
    obtain ⟨r', hr', heq'⟩ := h'.exists_eq
    refine ⟨r * r', mul_pos hr hr', fun x => ?_⟩
    rw [heq, heq', actAll_smul fun gate hgate => (h.tidy gate hgate).1, actAll_append, smul_smul,
      Complex.ofReal_mul]

end Leads

/-- A qubit that moves through a plain edge to a spider takes its phase along. -/
theorem Hops.leads_plain (h : Hops g p u .plain g') (hg : g.Consistent)
    (hgreen : ∀ v, g.kind? v ≠ some .x) (hA : A.Nodup) (hq : A[q]? = some p) (hp : p ∉ g.inputs)
    (hu : u ∉ g.inputs) (huA : u ∉ A) {phase : Phase} (hphase : g.turn u = phase.unit) (hk : q < k) :
    Leads k g A [⟨.zPhase, [q], phase⟩] g' (A.set q u) where
  tidy := by simp [hk]
  exists_eq := by
    refine ⟨1, one_pos, fun x => funext fun z => ?_⟩
    have hz : update z q (z q) = z := update_eq_self q z
    rw [h.residue_eq hg hgreen hA hq hp hu huA, hphase, Complex.ofReal_one, one_smul, actAll_cons,
      actAll_nil]
    show _ = spin phase.unit (z q) * g'.residue (A.set q u) x z
    cases hb : z q <;> rw [hb] at hz <;> simp [EdgeKind.factor, hz]

/-- Through a Hadamard edge it also takes a Hadamard along. -/
theorem Hops.leads_hadamard (h : Hops g p u .hadamard g') (hg : g.Consistent)
    (hgreen : ∀ v, g.kind? v ≠ some .x) (hA : A.Nodup) (hq : A[q]? = some p) (hp : p ∉ g.inputs)
    (hu : u ∉ g.inputs) (huA : u ∉ A) {phase : Phase} (hphase : g.turn u = phase.unit) (hk : q < k) :
    Leads k g A [⟨.zPhase, [q], phase⟩, .plain .had [q]] g' (A.set q u) where
  tidy := by simp [hk, Gate.plain]
  exists_eq := by
    refine ⟨1, one_pos, fun x => funext fun z => ?_⟩
    rw [h.residue_eq hg hgreen hA hq hp hu huA, hphase, Complex.ofReal_one, one_smul, actAll_cons,
      actAll_cons, actAll_nil]
    show _ = State.hadamard q (State.rotate phase.unit q (g'.residue (A.set q u) x)) z
    simp only [State.hadamard, State.rotate, State.weigh, update_self, spin_false, spin_true, one_mul]

/-- A Hadamard edge between the vertices of two qubits is a controlled phase. -/
theorem EdgeSet.leads_cut {i j s t : ℕ} (h : EdgeSet g s t none g') (hg : g.Consistent)
    (hgreen : ∀ v, g.kind? v ≠ some .x) (hA : A.Nodup) (hi : A[i]? = some s) (hj : A[j]? = some t)
    (hs : s ∉ g.inputs) (ht : t ∉ g.inputs) (he : g.edgeKind? s t = some .hadamard) (hk : A.length = k) :
    Leads k g A [.plain .cz [i, j]] g' A where
  tidy := by
    have hij : i ≠ j := by
      intro hc
      subst hc
      exact hg.ne_of_edgeKind? he (Option.some.inj (hi.symm.trans hj))
    have hilt := (List.getElem?_eq_some_iff.mp hi).1
    have hjlt := (List.getElem?_eq_some_iff.mp hj).1
    simp [Gate.plain, hij, ← hk, hilt, hjlt]
  exists_eq := by
    have hpos : (0 : ℝ) < √2 := Real.sqrt_pos.mpr (by norm_num)
    refine ⟨(√2)⁻¹, inv_pos.mpr hpos, fun x => funext fun z => ?_⟩
    have hsA : s ∉ g.spiders \ A.toFinset := by simp [List.mem_of_getElem? hi]
    have htA : t ∉ g.spiders \ A.toFinset := by simp [List.mem_of_getElem? hj]
    have heq := h.residue_eq hg hgreen (hg.contains_left he) (hg.contains_far he)
      (hg.ne_of_edgeKind? he) hsA htA x z
    rw [linkFactor_none, one_mul, he, linkFactor_some, pins_held hA hi hs, pins_held hA hj ht] at heq
    rw [heq, Pi.smul_apply, smul_eq_mul, actAll_cons, actAll_nil]
    show _ = ((√2)⁻¹ : ℝ) * ((if z i && z j then -1 else 1) * g'.residue A x z)
    rw [EdgeKind.factor]
    push_cast
    ring

/-- The bit of a qubit whose vertex is bare does not matter. -/
theorem residue_update_bare (hg : g.Consistent) (hq : A[q]? = some p) (hp : g.Bare p)
    (x z : ℕ → Bool) (b : Bool) :
    g.residue A x (update z q b) = g.residue A x z := by
  have hlt := (List.getElem?_eq_some_iff.mp hq).1
  refine sumOver_congr_off (N := (· = p)) (fun a a' haa => ?_) fun v hv => ?_
  · refine mass_congr_bare hg fun v hv => haa v ?_
    intro hvp
    exact hv (hvp ▸ hp)
  · refine pins_congr (N := (· = p)) (update_of_ne (by omega) _ _) (fun i v hi hvp => ?_) hv
    refine update_of_ne ?_ _ _
    intro hc
    subst hc
    exact hvp (Option.some.inj (hi.symm.trans hq))

/-- A Hadamard edge between the vertex of a qubit, which has no other edge and no phase, and an
input is a plain edge behind a Hadamard. -/
theorem leads_tie {b : ℕ} (h : EdgeSet g p b none g') (h' : EdgeSet g' p b (some .plain) g'')
    (hg : g.Consistent) (hgreen : ∀ v, g.kind? v ≠ some .x) (hA : A.Nodup) (hq : A[q]? = some p)
    (hp : p ∉ g.inputs) (hb : b ∈ g.inputs) (hspider : b ∉ g.spiders)
    (he : g.edgeKind? p b = some .hadamard) (hbare : g'.Bare p) (hk : A.length = k) :
    Leads k g A [.plain .had [q]] g'' A where
  tidy := by
    have hlt := (List.getElem?_eq_some_iff.mp hq).1
    simp [Gate.plain, ← hk, hlt]
  exists_eq := by
    refine ⟨1, one_pos, fun x => funext fun z => ?_⟩
    have hpb := hg.ne_of_edgeKind? he
    have hpA : p ∉ g.spiders \ A.toFinset := by simp [List.mem_of_getElem? hq]
    have hbA : b ∉ g.spiders \ A.toFinset := by simp [hspider]
    have hspiders : g'.spiders = g.spiders := by
      ext v
      exact h.recast.mem_spiders
    have hcut := h.residue_eq hg hgreen (hg.contains_left he) (hg.contains_far he) hpb hpA hbA x z
    rw [linkFactor_none, one_mul, he, linkFactor_some, pins_held hA hq hp] at hcut
    have htied : ∀ y : ℕ → Bool, g''.residue A x y =
        EdgeKind.plain.factor (y q) (pins g.inputs A x y b) * g'.residue A x y := by
      intro y
      have hnew := h'.residue_eq (A := A) h.consistent (fun v => by rw [h.recast.kind?_eq]; exact hgreen v)
        (by rw [h.contains_eq]; exact hg.contains_left he)
        (by rw [h.contains_eq]; exact hg.contains_far he) hpb (by rw [hspiders]; exact hpA)
        (by rw [hspiders]; exact hbA) x y
      rw [h.edgeKind?_eq, if_pos (isPair_self p b), linkFactor_none, one_mul, linkFactor_some,
        h.inputs_eq, pins_held hA hq hp] at hnew
      exact hnew.symm
    rw [Complex.ofReal_one, one_smul, actAll_cons, actAll_nil]
    show _ = State.hadamard q (g''.residue A x) z
    simp only [State.hadamard, htied, update_self, residue_update_bare h.consistent hq hbare]
    rw [hcut, pins_input hb, pins_input hb, pins_input hb]
    cases x (g.inputs.idxOf b) <;> simp [EdgeKind.factor]

end Diagram

end ZX
