import Mathlib
import ZX.Proofs.Arena.Refinement
import ZX.Rule.LocalComplement

/-!
# What parallel edges cost

A second edge between two green spiders is absorbed. Both edges together leave `merge` of them, and
every Hadamard edge that is lost this way costs the first spider half a turn and the scalar a factor
`1/sqrt(2)`. The accounts are kept on labelled graphs: `Adjusts` says by how much the angles and the
exponent change, and the edges are followed pair by pair. Joining a spider to a list of others costs
the sum of what the single edges cost.
-/
namespace ZX

open Function

/-! ## Angles -/

/-- Half a turn, as an angle that is counted in half turns up to whole turns. -/
def halfTurn : AddCircle (2 : ℚ) := ((1 : ℚ) : AddCircle (2 : ℚ))

@[simp] theorem two_nsmul_halfTurn : (2 : ℕ) • halfTurn = 0 := by
  rw [halfTurn, ← AddCircle.coe_nsmul, two_nsmul, one_add_one_eq_two, AddCircle.coe_period]

theorem nsmul_halfTurn_of_even {n : ℕ} (h : Even n) : n • halfTurn = 0 := by
  obtain ⟨m, rfl⟩ := h
  rw [← two_mul, mul_comm, mul_smul, two_nsmul_halfTurn, smul_zero]

namespace Phase

variable {p q : Phase} {r : ℚ}

def angle (p : Phase) : AddCircle (2 : ℚ) := (p.halfTurns : AddCircle (2 : ℚ))

@[simp] theorem angle_zero : zero.angle = 0 := rfl

@[simp] theorem angle_one : one.angle = halfTurn := rfl

theorem angle_of_sameAngle (h : p.SameAngle r) : p.angle = (r : AddCircle (2 : ℚ)) := by
  obtain ⟨n, hn⟩ := h
  rw [angle, hn, AddCircle.coe_add, mul_comm, ← zsmul_eq_mul, AddCircle.coe_zsmul,
    AddCircle.coe_period, smul_zero, add_zero]

/-- Phases are kept within one turn, so their angles tell them apart. -/
theorem angle_injective : Injective angle := by
  rintro ⟨x, hx, hx', _⟩ ⟨y, hy, hy', _⟩ h
  have hzero : ((x - y : ℚ) : AddCircle (2 : ℚ)) = 0 := by
    rw [AddCircle.coe_sub]
    exact sub_eq_zero.mpr h
  obtain ⟨n, hn⟩ := AddCircle.coe_eq_zero_iff (2 : ℚ) |>.mp hzero
  rw [zsmul_eq_mul] at hn
  have hlow : (-1 : ℚ) < n := by linarith
  have hhigh : (n : ℚ) < 1 := by linarith
  obtain rfl : n = 0 := by
    have hlow' : -1 < n := by exact_mod_cast hlow
    have hhigh' : n < 1 := by exact_mod_cast hhigh
    omega
  have hxy : x = y := by
    rw [Int.cast_zero, zero_mul] at hn
    linarith
  subst hxy
  rfl

theorem add_angle (p q : Phase) :
    Ends (p.add q) (fun r => r.angle = p.angle + q.angle) (· = .overflow) := by
  unfold add
  refine (Ratio.add_ends _ _).bind fun r hr => (ofRat_ends r).imp fun s hs => ?_
  rw [angle_of_sameAngle hs, hr, AddCircle.coe_add]
  rfl

theorem neg_angle (p : Phase) : Ends p.neg (fun r => r.angle = -p.angle) (· = .overflow) := by
  unfold neg
  refine (Ratio.neg_ends _).bind fun r hr => (ofRat_ends r).imp fun s hs => ?_
  rw [angle_of_sameAngle hs, hr, AddCircle.coe_neg]
  rfl

end Phase

/-! ## Two edges between green spiders -/

namespace EdgeKind

/-- What two edges between green spiders leave: a plain edge swallows any other, and two Hadamard
edges cancel. -/
def merge : Option EdgeKind → Option EdgeKind → Option EdgeKind
  | none, o => o
  | o, none => o
  | some .hadamard, some .hadamard => none
  | some _, some _ => some .plain

@[simp] theorem none_merge (o : Option EdgeKind) : merge none o = o := rfl

@[simp] theorem merge_none (o : Option EdgeKind) : merge o none = o := by cases o <;> rfl

theorem merge_eq_plain_iff {a b : Option EdgeKind} :
    merge a b = some .plain ↔ a = some .plain ∨ b = some .plain := by
  rcases a with _ | _ | _ <;> rcases b with _ | _ | _ <;> simp [merge]

/-- One for a Hadamard edge, nothing for other pairs. -/
def tally (o : Option EdgeKind) : ℕ := if o = some .hadamard then 1 else 0

/-- The number of Hadamard edges that two edges between green spiders lose. -/
def cost (a b : Option EdgeKind) : ℕ := tally a + tally b - tally (merge a b)

@[simp] theorem tally_none : tally none = 0 := rfl

@[simp] theorem none_cost (o : Option EdgeKind) : cost none o = 0 := by simp [cost]

@[simp] theorem cost_none (o : Option EdgeKind) : cost o none = 0 := by simp [cost]

theorem tally_merge_add_cost (a b : Option EdgeKind) :
    tally (merge a b) + cost a b = tally a + tally b := by
  rcases a with _ | _ | _ <;> rcases b with _ | _ | _ <;> rfl

end EdgeKind

open EdgeKind

/-! ## Changes of angles and of the exponent -/

namespace LabelledGraph

variable {G G' G'' : LabelledGraph} {τ τ' : ℕ → AddCircle (2 : ℚ)} {κ κ' : ℕ} {a b u v : ℕ}
  {e : EdgeKind}

/-- The angle of a vertex; a number without a vertex has none. -/
def angle (G : LabelledGraph) (v : ℕ) : AddCircle (2 : ℚ) :=
  (G.data v).elim 0 fun d => d.phase.angle

/-- The angle of every vertex `v` grows by `τ v` and the exponent of the scalar drops by `κ`. Apart
from the edges, nothing else changes. -/
structure Adjusts (G : LabelledGraph) (τ : ℕ → AddCircle (2 : ℚ)) (κ : ℕ) (G' : LabelledGraph) :
    Prop where
  data_none : ∀ {v}, G.data v = none → G'.data v = none
  data_some : ∀ {v d}, G.data v = some d →
    ∃ p, G'.data v = some { d with phase := p } ∧ p.angle = d.phase.angle + τ v
  inputs_eq : G'.inputs = G.inputs
  outputs_eq : G'.outputs = G.outputs
  scalarPhase_eq : G'.scalar.phase = G.scalar.phase
  sqrt2Pow_eq : G'.scalar.sqrt2Pow = G.scalar.sqrt2Pow - κ

namespace Adjusts

theorem of_data_eq (hdata : G'.data = G.data) (hin : G'.inputs = G.inputs)
    (hout : G'.outputs = G.outputs) (hphase : G'.scalar.phase = G.scalar.phase)
    (hpow : G'.scalar.sqrt2Pow = G.scalar.sqrt2Pow - κ) : G.Adjusts 0 κ G' where
  data_none hv := by rw [hdata, hv]
  data_some {v d} hv := ⟨d.phase, by rw [hdata, hv], (add_zero _).symm⟩
  inputs_eq := hin
  outputs_eq := hout
  scalarPhase_eq := hphase
  sqrt2Pow_eq := hpow

theorem refl (G : LabelledGraph) : G.Adjusts 0 0 G := of_data_eq rfl rfl rfl rfl (by simp)

theorem trans (h : G.Adjusts τ κ G') (h' : G'.Adjusts τ' κ' G'') :
    G.Adjusts (τ + τ') (κ + κ') G'' where
  data_none hv := h'.data_none (h.data_none hv)
  data_some {v d} hv := by
    obtain ⟨p, hp, hangle⟩ := h.data_some hv
    obtain ⟨p', hp', hangle'⟩ := h'.data_some hp
    exact ⟨p', hp', by rw [hangle', hangle, Pi.add_apply, add_assoc]⟩
  inputs_eq := h'.inputs_eq.trans h.inputs_eq
  outputs_eq := h'.outputs_eq.trans h.outputs_eq
  scalarPhase_eq := h'.scalarPhase_eq.trans h.scalarPhase_eq
  sqrt2Pow_eq := by
    rw [h'.sqrt2Pow_eq, h.sqrt2Pow_eq]
    push_cast
    ring

theorem kind?_eq (h : G.Adjusts τ κ G') (v : ℕ) : G'.kind? v = G.kind? v := by
  unfold kind?
  cases hv : G.data v with
  | none => rw [h.data_none hv]
  | some d =>
      obtain ⟨p, hp, -⟩ := h.data_some hv
      rw [hp]
      rfl

/-- A vertex whose angle stays keeps all its data. -/
theorem data_eq (h : G.Adjusts τ κ G') (hv : τ v = 0) : G'.data v = G.data v := by
  cases hd : G.data v with
  | none => exact h.data_none hd
  | some d =>
      obtain ⟨p, hp, hangle⟩ := h.data_some hd
      obtain rfl := Phase.angle_injective (hangle.trans (by rw [hv, add_zero]))
      exact hp

end Adjusts

theorem addToPhase_adjusts {d : VertexData} (hv : G.data v = some d) (p : Phase) :
    Ends (G.addToPhase v p)
      (fun G' => G.Adjusts (Pi.single v p.angle) 0 G' ∧ G'.edge = G.edge) (· = .overflow) := by
  rw [addToPhase, modifyData_of_data hv]
  refine Ends.map ((Phase.add_angle d.phase p).bind fun q hq => Ends.pure_iff.mpr ⟨?_, rfl⟩)
  refine ⟨fun {u} hu => ?_, fun {u c} hu => ?_, rfl, rfl, rfl, by simp [setData]⟩
  · rw [data_setData, if_neg (by rintro rfl; simp [hv] at hu), hu]
  · rw [data_setData]
    by_cases huv : u = v
    · subst huv
      cases hu.symm.trans hv
      exact ⟨q, if_pos rfl, by rw [hq, Pi.single_eq_same]⟩
    · exact ⟨c.phase, by rw [if_neg huv, hu], by rw [Pi.single_eq_of_ne huv, add_zero]⟩

theorem mulSqrt2Pow_adjusts (G : LabelledGraph) (n : ℕ) :
    Ends (G.mulSqrt2Pow (-n)) (fun G' => G.Adjusts 0 n G' ∧ G'.edge = G.edge) (· = .overflow) := by
  unfold mulSqrt2Pow Scalar.mulSqrt2Pow
  refine Ends.bind (P := fun r => r.phase = G.scalar.phase ∧ r.sqrt2Pow = G.scalar.sqrt2Pow - n) ?_
    fun r hr => Ends.pure_iff.mpr ⟨.of_data_eq rfl rfl rfl hr.1 hr.2, rfl⟩
  exact (Scalar.int32_ends _).bind fun m hm => Ends.pure_iff.mpr ⟨rfl, hm.trans (by ring)⟩

theorem absorbHadamard_adjusts {d : VertexData} (hv : G.data v = some d) :
    Ends (G.absorbHadamard v)
      (fun G' => G.Adjusts (Pi.single v halfTurn) 1 G' ∧ G'.edge = G.edge) (· = .overflow) := by
  unfold absorbHadamard
  refine (addToPhase_adjusts hv Phase.one).bind fun G₁ h₁ => ?_
  refine (mulSqrt2Pow_adjusts G₁ 1).imp fun G₂ h₂ => ⟨?_, h₂.2.trans h₁.2⟩
  simpa using h₁.1.trans h₂.1

theorem setEdge_adjusts (G : LabelledGraph) (a b : ℕ) (o : Option EdgeKind) :
    G.Adjusts 0 0 (G.setEdge a b o) := .of_data_eq rfl rfl rfl rfl (by simp [setEdge])

/-- One more edge at `a`, where the far end has the same colour or is not joined to `a` yet. -/
theorem connect_adjusts {d : VertexData} (ha : G.data a = some d) (hab : a ≠ b)
    (hkind : G.kind? a = G.kind? b ∨ G.edge s(a, b) = none) (e : EdgeKind) :
    Ends (G.connect a b e)
      (fun G' => G.Adjusts (Pi.single a (cost (G.edge s(a, b)) (some e) • halfTurn))
        (cost (G.edge s(a, b)) (some e)) G' ∧
        G'.edge = update G.edge s(a, b) (merge (G.edge s(a, b)) (some e)))
      (· = .overflow) := by
  unfold connect
  rw [if_neg hab]
  cases hpresent : G.edge s(a, b) with
  | none =>
      refine Ends.pure_iff.mpr ⟨?_, rfl⟩
      simpa using G.setEdge_adjusts a b (some e)
  | some present =>
      obtain hkind | hnone := hkind
      swap
      · cases hpresent.symm.trans hnone
      have hsame : update G.edge s(a, b) (some present) = G.edge := by
        rw [← hpresent, update_eq_self]
      rw [hkind]
      simp only [if_true]
      cases present with
      | plain =>
          rw [if_pos rfl]
          cases e with
          | plain =>
              refine Ends.pure_iff.mpr ⟨?_, hsame.symm⟩
              simpa [cost, tally, merge] using Adjusts.refl G
          | hadamard =>
              refine (absorbHadamard_adjusts ha).imp fun G' h' => ⟨?_, h'.2.trans hsame.symm⟩
              simpa [cost, tally, merge] using h'.1
      | hadamard =>
          rw [if_neg (by simp)]
          cases e with
          | plain =>
              rw [if_pos rfl]
              refine (absorbHadamard_adjusts (G := G.setEdge a b (some .plain)) ha).imp
                fun G' h' => ⟨?_, h'.2⟩
              simpa [cost, tally, merge] using (G.setEdge_adjusts a b (some .plain)).trans h'.1
          | hadamard =>
              rw [if_neg (by simp)]
              refine (mulSqrt2Pow_adjusts (G.setEdge a b none) 2).imp fun G' h' => ⟨?_, h'.2⟩
              have hcost : cost (some hadamard) (some hadamard) = 2 := rfl
              simpa [hcost] using (G.setEdge_adjusts a b none).trans h'.1

/-! ## Joining a vertex to others -/

/-- What the listed edges cost at `v`. -/
def spent (G : LabelledGraph) (v : ℕ) (links : List Link) : ℕ :=
  (links.map fun l => cost (G.edge s(v, l.1)) (some l.2)).sum

/-- The listed edges have been added at `v`, at the cost of `v` and of the scalar. -/
structure Joins (G : LabelledGraph) (v : ℕ) (links : List Link) (G' : LabelledGraph) : Prop
    extends G.Adjusts (Pi.single v (G.spent v links • halfTurn)) (G.spent v links) G' where
  near : ∀ u, G'.edge s(v, u) = merge (G.edge s(v, u)) (links.lookup u)
  far : ∀ pair, v ∉ pair → G'.edge pair = G.edge pair

theorem Joins.nil (G : LabelledGraph) (v : ℕ) : G.Joins v [] G where
  toAdjusts := by simpa [spent] using Adjusts.refl G
  near u := by simp
  far _ _ := rfl

theorem Joins.snoc {links : List Link} (h : G.Joins v links G') (hu : u ∉ links.map Prod.fst)
    (hadjusts : G'.Adjusts (Pi.single v (cost (G'.edge s(v, u)) (some e) • halfTurn))
      (cost (G'.edge s(v, u)) (some e)) G'')
    (hedge : G''.edge = update G'.edge s(v, u) (merge (G'.edge s(v, u)) (some e))) :
    G.Joins v (links ++ [(u, e)]) G'' := by
  have hlookup := Diagram.lookup_eq_none hu
  have hold : G'.edge s(v, u) = G.edge s(v, u) := by rw [h.near, hlookup, merge_none]
  rw [hold] at hadjusts hedge
  have hspent : G.spent v (links ++ [(u, e)]) =
      G.spent v links + cost (G.edge s(v, u)) (some e) := by
    simp [spent]
  refine ⟨?_, fun w => ?_, fun pair hpair => ?_⟩
  · rw [hspent, add_smul, Pi.single_add]
    exact h.toAdjusts.trans hadjusts
  · rw [hedge, List.lookup_append]
    by_cases hwu : w = u
    · subst hwu
      simp [hlookup]
    · rw [update_of_ne (mt Sym2.congr_right.mp hwu), h.near]
      simp [List.lookup_cons, beq_false_of_ne hwu]
  · rw [hedge, update_of_ne, h.far pair hpair]
    rintro rfl
    simp at hpair

/-! ## Counting edges -/

open Finset in
/-- The number of edges of one kind inside a set of vertices. -/
def edgesIn (G : LabelledGraph) (e : EdgeKind) (K : Finset ℕ) : ℕ :=
  #{pair ∈ K.sym2 | G.edge pair = some e}

open Finset in
theorem edgesIn_congr {K : Finset ℕ} (h : ∀ a ∈ K, ∀ b ∈ K, G'.edge s(a, b) = G.edge s(a, b)) :
    G'.edgesIn e K = G.edgesIn e K := by
  refine congrArg card (filter_congr fun pair hpair => ?_)
  induction pair using Sym2.ind with
  | _ a b =>
      obtain ⟨ha, hb⟩ := mk_mem_sym2_iff.mp hpair
      rw [h a ha b hb]

open Finset in
/-- One more vertex brings its edges to the others. -/
theorem edgesIn_insert {K : Finset ℕ} (hv : v ∉ K) (hloop : G.edge s(v, v) = none) :
    G.edgesIn e (insert v K) =
      ∑ u ∈ K, (if G.edge s(v, u) = some e then 1 else 0) + G.edgesIn e K := by
  rw [edgesIn, edgesIn, card_filter, card_filter, ← cons_eq_insert v K hv, sym2_cons,
    sum_disjUnion, sum_map, sum_cons]
  simp [hloop]

/-! ## Joining vertices to each other -/

/-- The number of plain edges from `u` to the vertices after it in the list. -/
def later (G : LabelledGraph) (vs : List ℕ) (u : ℕ) : ℕ :=
  (vs.dropWhile (· ≠ u)).countP fun w => G.edge s(u, w) = some .plain

/-- What a Hadamard edge for each pair of the list costs. -/
def toll (G : LabelledGraph) : List ℕ → ℕ
  | [] => 0
  | v :: vs => G.spent v (vs.map (·, .hadamard)) + G.toll vs

theorem cost_hadamard (o : Option EdgeKind) : cost o (some .hadamard) =
    2 * (if o = some .hadamard then 1 else 0) + if o = some .plain then 1 else 0 := by
  rcases o with _ | _ | _ <;> rfl

theorem later_congr {vs : List ℕ} (h : ∀ w ∈ vs, G'.edge s(u, w) = G.edge s(u, w)) :
    G'.later vs u = G.later vs u := by
  refine List.countP_congr fun w hw => ?_
  rw [h w ((List.dropWhile_sublist _).mem hw)]

theorem later_cons {vs : List ℕ} (huv : u ≠ v) : G.later (v :: vs) u = G.later vs u := by
  rw [later, List.dropWhile_cons_of_pos (by simpa using huv.symm), later]

theorem spent_congr {links : List Link} (h : ∀ l ∈ links, G'.edge s(v, l.1) = G.edge s(v, l.1)) :
    G'.spent v links = G.spent v links :=
  congrArg List.sum (List.map_congr_left fun l hl => by rw [h l hl])

theorem toll_congr {vs : List ℕ} (h : ∀ a ∈ vs, ∀ b ∈ vs, G'.edge s(a, b) = G.edge s(a, b)) :
    G'.toll vs = G.toll vs := by
  induction vs with
  | nil => rfl
  | cons v vs ih =>
      have hrest := ih fun a ha b hb => h a (List.mem_cons_of_mem v ha) b (List.mem_cons_of_mem v hb)
      rw [toll, toll, hrest, spent_congr]
      intro l hl
      obtain ⟨w, hw, rfl⟩ := List.mem_map.mp hl
      exact h v List.mem_cons_self w (List.mem_cons_of_mem v hw)

/-- Whole turns do not show, so only plain edges turn a spider. -/
theorem spent_nsmul_halfTurn {vs : List ℕ} (hloop : G.edge s(v, v) = none) :
    G.spent v (vs.map (·, .hadamard)) • halfTurn = G.later (v :: vs) v • halfTurn := by
  have hlater : G.later (v :: vs) v = vs.countP fun w => G.edge s(v, w) = some .plain := by
    simp [later, hloop]
  rw [hlater, spent, List.map_map]
  clear hlater
  induction vs with
  | nil => rfl
  | cons w vs ih =>
      rw [List.map_cons, List.sum_cons, add_smul, ih, List.countP_cons, add_smul, add_comm]
      congr 1
      simp only [comp_apply, cost_hadamard, add_smul, mul_comm 2, mul_smul, two_nsmul_halfTurn]
      simp

/-- A pair with a Hadamard edge loses two of them, a pair with a plain edge the new one. -/
theorem toll_eq {vs : List ℕ} (hnodup : vs.Nodup) (hloop : ∀ v, G.edge s(v, v) = none) :
    G.toll vs = 2 * G.edgesIn .hadamard vs.toFinset + G.edgesIn .plain vs.toFinset := by
  induction vs with
  | nil => rfl
  | cons v vs ih =>
      obtain ⟨hv, hrest⟩ := List.nodup_cons.mp hnodup
      have hspent : G.spent v (vs.map (·, .hadamard)) =
          ∑ u ∈ vs.toFinset, cost (G.edge s(v, u)) (some .hadamard) := by
        rw [spent, List.map_map, List.sum_toFinset _ hrest]
        rfl
      have hv' : v ∉ vs.toFinset := mt List.mem_toFinset.mp hv
      rw [toll, ih hrest, List.toFinset_cons, edgesIn_insert hv' (hloop v),
        edgesIn_insert hv' (hloop v), hspent]
      simp only [cost_hadamard, Finset.sum_add_distrib, ← Finset.mul_sum]
      ring

/-- Every listed vertex has turned by `p`, and every pair of them has one more Hadamard edge, which
is paid for by the first of the two. -/
structure Completes (G : LabelledGraph) (p : Phase) (vs : List ℕ) (G' : LabelledGraph) : Prop
    extends G.Adjusts (fun u => if u ∈ vs then p.angle + G.later vs u • halfTurn else 0)
      (G.toll vs) G' where
  edge_eq : ∀ a b, G'.edge s(a, b) = if a ∈ vs ∧ b ∈ vs ∧ a ≠ b then
    merge (G.edge s(a, b)) (some .hadamard) else G.edge s(a, b)

theorem Completes.nil (G : LabelledGraph) (p : Phase) : G.Completes p [] G where
  toAdjusts := by simpa [toll] using! Adjusts.refl G
  edge_eq a b := by simp

theorem lookup_map_hadamard (vs : List ℕ) (w : ℕ) :
    (vs.map (·, EdgeKind.hadamard)).lookup w = if w ∈ vs then some .hadamard else none := by
  induction vs with
  | nil => rfl
  | cons v vs ih =>
      rw [List.map_cons, List.lookup_cons, ih]
      by_cases hw : w = v
      · simp [hw]
      · simp [beq_false_of_ne hw, hw]

/-- The first vertex turns and is joined to the others before these are joined to each other. -/
theorem Completes.cons {G₁ G₂ G₃ : LabelledGraph} {p : Phase} {vs : List ℕ} (hv : v ∉ vs)
    (hloop : G.edge s(v, v) = none) (h₁ : G.Adjusts (Pi.single v p.angle) 0 G₁)
    (hedge₁ : G₁.edge = G.edge) (h₂ : G₁.Joins v (vs.map (·, .hadamard)) G₂)
    (h₃ : G₂.Completes p vs G₃) : G.Completes p (v :: vs) G₃ := by
  have hpair : ∀ {a b}, a ≠ v → b ≠ v → G₂.edge s(a, b) = G.edge s(a, b) := by
    intro a b ha hb
    rw [h₂.far _ (by simp [ha.symm, hb.symm]), hedge₁]
  have hne : ∀ {a}, a ∈ vs → a ≠ v := fun ha => ne_of_mem_of_not_mem ha hv
  have hspent : G₁.spent v (vs.map (·, .hadamard)) = G.spent v (vs.map (·, .hadamard)) :=
    spent_congr fun _ _ => by rw [hedge₁]
  have htoll : G₂.toll vs = G.toll vs := toll_congr fun a ha b hb => hpair (hne ha) (hne hb)
  refine ⟨?_, fun a b => ?_⟩
  · have hall := (h₁.trans h₂.toAdjusts).trans h₃.toAdjusts
    rw [hspent, htoll, zero_add] at hall
    change G.Adjusts _ (G.toll (v :: vs)) G₃ at hall
    convert hall using 1
    funext u
    by_cases huv : u = v
    · subst huv
      simp [hv, spent_nsmul_halfTurn hloop]
    · by_cases hu : u ∈ vs
      · have hlater : G.later (v :: vs) u = G₂.later vs u :=
          (later_cons huv).trans (later_congr fun w hw => hpair huv (hne hw)).symm
        simp [hu, huv, hlater]
      · simp [hu, huv]
  · rw [h₃.edge_eq]
    by_cases ha : a = v
    · subst ha
      rw [h₂.near, lookup_map_hadamard, hedge₁]
      by_cases hb : b ∈ vs
      · simp [hv, hb, (hne hb).symm]
      · by_cases hba : b = a
        · simp [hba, hv]
        · simp [hv, hb, hba]
    · by_cases hb : b = v
      · subst hb
        rw [Sym2.eq_swap, h₂.near, lookup_map_hadamard, hedge₁]
        by_cases ha' : a ∈ vs
        · simp [hv, ha', ha]
        · simp [hv, ha', ha]
      · simp [hpair ha hb, ha, hb]

end LabelledGraph

namespace Diagram

variable {g : Diagram} {v : ℕ}

theorem Tracks.ends {x : Except Fault Diagram} {y : Except Fault LabelledGraph}
    {P : LabelledGraph → Prop} (h : Tracks x y) (hy : Ends y P (· = .overflow)) :
    Ends x (fun g => g.Consistent ∧ P g.view) (· = .overflow) := by
  obtain ⟨g, rfl, hg, rfl⟩ | ⟨rfl, rfl⟩ := h
  · exact Ends.ok_iff.mpr ⟨hg, Ends.ok_iff.mp hy⟩
  · exact Ends.error_iff.mpr rfl

/-- A green spider is joined to others that are green or not joined to it yet. -/
theorem connect_joins (links : List Link) (hg : g.Consistent) (hv : g.kind? v = some .z)
    (hnodup : (links.map Prod.fst).Nodup) (hself : v ∉ links.map Prod.fst)
    (hlinks : ∀ l ∈ links, g.contains l.1 = true ∧
      (g.kind? l.1 = some .z ∨ g.edgeKind? v l.1 = none)) :
    Ends (links.foldlM (fun g l => g.connect v l.1 l.2) g)
      (fun g' => g'.Consistent ∧ g.view.Joins v links g'.view) (· = .overflow) := by
  refine Ends.foldlM_done (I := fun done (g' : Diagram) =>
    g'.Consistent ∧ g.view.Joins v done g'.view) ?_ ⟨hg, .nil g.view v⟩
  rintro done ⟨u, e⟩ rest g₁ hsplit ⟨hg₁, h₁⟩
  obtain ⟨hcontains, hfree⟩ := hlinks (u, e) (by simp [hsplit])
  have hvu : v ≠ u := by
    rintro rfl
    exact hself (by simp [hsplit])
  have hfresh : u ∉ done.map Prod.fst := notMem_of_nodup (hsplit ▸ hnodup)
  have hold : g₁.edgeKind? v u = g.edgeKind? v u := by
    rw [← hg₁.view_edge, h₁.near, lookup_eq_none hfresh, merge_none, hg.view_edge]
  obtain ⟨k, hk⟩ := exists_kind? hcontains
  have hkind : ∀ w, g₁.kind? w = g.kind? w := h₁.kind?_eq
  obtain ⟨d, hd⟩ := contains_iff_data?.mp (contains_of_kind? ((hkind v).trans hv))
  have htracks := connect_tracks hg₁ ((hkind v).trans hv) ((hkind u).trans hk) (fun h => ?_) e
  · refine (htracks.ends (LabelledGraph.connect_adjusts hd hvu ?_ e)).imp fun g₂ h₂ =>
      ⟨h₂.1, h₁.snoc hfresh h₂.2.1 h₂.2.2⟩
    rw [hg₁.view_edge, hold, view_kind?, view_kind?, hkind, hkind, hv]
    exact hfree.imp Eq.symm id
  · -- where an edge is absorbed the far end is green
    obtain hvu' | hsome := h
    · exact absurd hvu' hvu
    · obtain hz | hnone := hfree
      · cases hk.symm.trans hz
        simp
      · simp [hold, hnone] at hsome

theorem addToPhase_adjusts (hg : g.Consistent) (hv : g.contains v = true) (p : Phase) :
    Ends (g.addToPhase v p) (fun g' => g'.Consistent ∧
      g.view.Adjusts (Pi.single v p.angle) 0 g'.view ∧ g'.view.edge = g.view.edge)
      (· = .overflow) := by
  obtain ⟨d, hd⟩ := contains_iff_data?.mp hv
  exact (addToPhase_tracks hg hv p).ends (LabelledGraph.addToPhase_adjusts hd p)

theorem completeGraph_completes (p : Phase) (vs : List ℕ) (hg : g.Consistent) (hnodup : vs.Nodup)
    (hvs : ∀ v ∈ vs, g.kind? v = some .z) :
    Ends (completeGraph p vs g) (fun g' => g'.Consistent ∧ g.view.Completes p vs g'.view)
      (· = .overflow) := by
  induction vs generalizing g with
  | nil => exact Ends.pure_iff.mpr ⟨hg, .nil g.view p⟩
  | cons v vs ih =>
      obtain ⟨hv, hrest⟩ := List.nodup_cons.mp hnodup
      have hz := hvs v List.mem_cons_self
      have hloop : g.view.edge s(v, v) = none := (hg.view_edge v v).trans (hg.edgeKind?_self v)
      unfold completeGraph
      refine (addToPhase_adjusts hg (contains_of_kind? hz) p).bind fun g₁ h₁ => ?_
      obtain ⟨hg₁, h₁, hedge₁⟩ := h₁
      have hkind₁ : ∀ w ∈ v :: vs, g₁.kind? w = some .z := fun w hw =>
        (h₁.kind?_eq w).trans (hvs w hw)
      have hkeys : (vs.map (·, EdgeKind.hadamard)).map Prod.fst = vs := by simp [comp_def]
      have hrow := connect_joins (vs.map (·, .hadamard)) hg₁ (hkind₁ v List.mem_cons_self)
        (hkeys.symm ▸ hrest) (hkeys.symm ▸ hv) fun l hl => ?_
      · rw [List.foldlM_map] at hrow
        refine hrow.bind fun g₂ h₂ => ?_
        obtain ⟨hg₂, h₂⟩ := h₂
        refine (ih hg₂ hrest fun w hw => ?_).imp fun g₃ h₃ =>
          ⟨h₃.1, .cons hv hloop h₁ hedge₁ h₂ h₃.2⟩
        exact (h₂.kind?_eq w).trans (hkind₁ w (List.mem_cons_of_mem v hw))
      · obtain ⟨w, hw, rfl⟩ := List.mem_map.mp hl
        have hz' := hkind₁ w (List.mem_cons_of_mem v hw)
        exact ⟨contains_of_kind? hz', .inl hz'⟩

end Diagram

end ZX
