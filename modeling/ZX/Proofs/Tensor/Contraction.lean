import Mathlib
import ZX.Proofs.Extraction.Residue
import ZX.Proofs.Recolouring
import ZX.Proofs.Tensor.Entries
import ZX.Tensor.Diagram

/-!
# Contraction is summation

A tensor holds a sum over the bits of some vertices, with one axis for each vertex whose bit is still
free. A new vertex is a new axis, an edge is a factor on two axes, and summing an axis away moves its
vertex into the sum.

The order of these steps is that of the contraction: an edge acts when its second end is added, and a
spider leaves when the last of its edges has acted. So the axes are always the vertices that have
been added and are not settled, and no edge ever looks for an axis that is gone. When all vertices
have been added, all spiders are settled, and what is held is the sum over all their bits.
-/
namespace ZX

open Finset Function

/-! ## Tensors that hold sums -/

/-- A factor that does not look at the summed bits may stand inside the sum. -/
theorem sumOver_mul_of_eq {S : Finset ℕ} {f F : (ℕ → Bool) → ℂ} {a : ℕ → Bool}
    (hf : ∀ b : ℕ → Bool, (∀ u, u ∉ S → b u = a u) → f b = f a) :
    sumOver S (fun b => f b * F b) a = f a * sumOver S F a := by
  rw [← sumOver_mul_left]
  exact sumOver_congr fun b hb => by rw [hf b hb]

namespace Tensor

/-- The tensor has an axis for each vertex of `A` and holds the sum of `F` over the bits of `S`. -/
structure Holds (t : Tensor ExactComplex) (A : List ℕ) (S : Finset ℕ) (F : (ℕ → Bool) → ℂ) :
    Prop where
  nodup : A.Nodup
  rank_eq : t.rank = A.length
  apart : ∀ v ∈ A, v ∉ S
  value_eq : ∀ a : ℕ → Bool, (t.read (A.map a)).value = sumOver S F a

theorem holds_unit : (unit : Tensor ExactComplex).Holds [] ∅ fun _ => 1 where
  nodup := List.nodup_nil
  rank_eq := rfl
  apart := by simp
  value_eq a := by
    rw [sumOver_empty]
    exact congrArg ExactComplex.value read_unit

namespace Holds

variable {t : Tensor ExactComplex} {A : List ℕ} {S : Finset ℕ} {F F' : (ℕ → Bool) → ℂ}
  {v w axis : ℕ}

theorem congr (h : t.Holds A S F) (hF : ∀ a, F' a = F a) : t.Holds A S F' :=
  (funext hF : F' = F) ▸ h

theorem length_map (h : t.Holds A S F) (a : ℕ → Bool) : (A.map a).length = t.rank := by
  rw [List.length_map, h.rank_eq]

theorem eraseIdx_eq (h : t.Holds A S F) (hw : A[axis]? = some w) : A.eraseIdx axis = A.erase w := by
  obtain ⟨hlt, rfl⟩ := List.getElem?_eq_some_iff.mp hw
  exact (h.nodup.erase_getElem axis hlt).symm

theorem addAxis (h : t.Holds A S F) (hvA : v ∉ A) (hvS : v ∉ S) (p : Phase) :
    (t.addAxis (if p.isZero then none else some (Amplitude.ofPhase p))).Holds (v :: A) S
      fun a => spin p.unit (a v) * F a where
  nodup := List.nodup_cons.mpr ⟨hvA, h.nodup⟩
  rank_eq := by
    rw [List.length_cons, ← h.rank_eq]
    rfl
  apart := by
    intro u hu
    rcases List.mem_cons.mp hu with rfl | hu
    · exact hvS
    · exact h.apart u hu
  value_eq a := by
    have hspin : ∀ b : ℕ → Bool, (∀ u, u ∉ S → b u = a u) →
        spin p.unit (b v) = spin p.unit (a v) := fun b hb => by rw [hb v hvS]
    rw [sumOver_mul_of_eq hspin, ← h.value_eq, List.map_cons, read_addAxis (h.length_map a)]
    cases a v with
    | false => simp
    | true =>
        by_cases hp : p.isZero = true
        · have hzero : p = Phase.zero := by simpa [Phase.isZero] using hp
          simp [hzero, Phase.isZero]
        · simp [hp, mul_comm]

/-- An edge between the first axis and another one. -/
theorem edge (h : t.Holds A S F) (hv : A[0]? = some v) (hw : A[axis]? = some w) (hvw : v ≠ w)
    (e : EdgeKind) :
    ∃ t', Contraction.edgeFactor t axis e = .ok t' ∧
      t'.Holds A S fun a => e.factor (a v) (a w) * F a := by
  have hlt : ∀ i ∈ [0, axis], i < t.rank := by
    intro i hi
    rw [h.rank_eq]
    rcases List.mem_pair.mp hi with rfl | rfl
    · exact (List.getElem?_eq_some_iff.mp hv).1
    · exact (List.getElem?_eq_some_iff.mp hw).1
  have hnodup : [0, axis].Nodup := by
    have hne : 0 ≠ axis := by
      rintro rfl
      exact hvw (Option.some.inj (hv.symm.trans hw))
    simpa using hne
  have hsum : ∀ a, sumOver S (fun b => e.factor (b v) (b w) * F b) a =
      e.factor (a v) (a w) * sumOver S F a := fun a =>
    sumOver_mul_of_eq fun b hb => by
      rw [hb v (h.apart v (List.mem_of_getElem? hv)), hb w (h.apart w (List.mem_of_getElem? hw))]
  cases e with
  | plain =>
      obtain ⟨t', hok, hrank, hread⟩ := exists_deltaAt hlt hnodup (ExactComplex.checkRank_eq 2)
      refine ⟨t', hok, h.nodup, hrank.trans h.rank_eq, h.apart, fun a => ?_⟩
      rw [hsum, ← h.value_eq, hread _ (h.length_map a)]
      cases hav : a v <;> cases haw : a w <;> simp [hv, hw, hav, haw, EdgeKind.factor]
  | hadamard =>
      obtain ⟨t', hok, hrank, hread⟩ :=
        exists_phaseAt Phase.one hlt hnodup (ExactComplex.checkRank_eq 2)
      refine ⟨t'.scale Amplitude.invSqrt2, ?_, h.nodup, hrank.trans h.rank_eq, h.apart,
        fun a => ?_⟩
      · rw [Contraction.edgeFactor, hok]
        rfl
      · rw [hsum, ← h.value_eq, read_scale ((h.length_map a).trans hrank.symm), hread _ (h.length_map a)]
        cases hav : a v <;> cases haw : a w <;> simp [hv, hw, hav, haw, EdgeKind.factor] <;> ring

theorem sumAxis (h : t.Holds A S F) (hw : A[axis]? = some w) :
    (t.sumAxis axis).Holds (A.erase w) (insert w S) F where
  nodup := h.nodup.erase w
  rank_eq := by
    rw [List.length_erase_of_mem (List.mem_of_getElem? hw), ← h.rank_eq]
    rfl
  apart := by
    intro u hu
    obtain ⟨huw, huA⟩ := h.nodup.mem_erase_iff.mp hu
    rw [mem_insert, not_or]
    exact ⟨huw, h.apart u huA⟩
  value_eq a := by
    obtain ⟨hlt, hget⟩ := List.getElem?_eq_some_iff.mp hw
    have hwS : w ∉ S := h.apart w (List.mem_of_getElem? hw)
    -- putting a bit back on the axis is reading the old tensor with the bit at the vertex
    have hinsert : ∀ b, ((A.erase w).map a).insertIdx axis b = A.map (Function.update a w b) := by
      intro b
      have hold : A.map (Function.update a w b) =
          ((A.erase w).map (Function.update a w b)).insertIdx axis (Function.update a w b w) := by
        rw [← List.map_insertIdx, ← h.eraseIdx_eq hw, ← hget, List.insertIdx_eraseIdx_getElem hlt]
      have hsame : (A.erase w).map (Function.update a w b) = (A.erase w).map a :=
        List.map_congr_left fun u hu => update_of_ne (h.nodup.mem_erase_iff.mp hu).1 _ _
      rw [hold, hsame, update_self]
    have hlength : ((A.erase w).map a).length + 1 = t.rank := by
      rw [List.length_map, List.length_erase_of_mem (List.mem_of_getElem? hw), h.rank_eq]
      omega
    rw [read_sumAxis hlength (h.rank_eq ▸ hlt), hinsert, hinsert, ExactComplex.value_add, h.value_eq,
      h.value_eq, sumOver_insert hwS, sumOver_add, sumOver_update hwS, sumOver_update hwS]

theorem scale (h : t.Holds A S F) (x : ExactComplex) :
    (t.scale x).Holds A S fun a => x.value * F a where
  nodup := h.nodup
  rank_eq := h.rank_eq
  apart := h.apart
  value_eq a := by
    rw [read_scale (h.length_map a), ExactComplex.value_mul, h.value_eq,
      sumOver_mul_left, mul_comm]

end Holds

end Tensor

/-! ## Settled spiders -/

namespace Diagram

variable {g : Diagram} {V : Finset ℕ} {M done met : List ℕ} {a : ℕ → Bool} {e : EdgeKind} {v w : ℕ}

/-- The number that a vertex contributes where its bit is 1, whatever its kind. -/
noncomputable def weight (g : Diagram) (v : ℕ) : ℂ := (g.phase? v).elim 1 Phase.unit

/-- The factors of the vertices in `V` and of the edges between them. -/
noncomputable def product (g : Diagram) (V : Finset ℕ) (a : ℕ → Bool) : ℂ :=
  (∏ v ∈ V, spin (g.weight v) (a v)) * pairs V fun s t => linkFactor (g.wire? s t) (a s) (a t)

theorem mass_weight (g : Diagram) (V : Finset ℕ) (a : ℕ → Bool) :
    g.mass V g.weight a = g.scalar.value * g.product V a := mul_assoc _ _ _

theorem Consistent.product_insert (h : g.Consistent) (hv : v ∉ V) :
    g.product (insert v V) a = (∏ u ∈ V, linkFactor (g.wire? v u) (a v) (a u)) *
      (spin (g.weight v) (a v) * g.product V a) := by
  rw [product, product, prod_insert hv, pairs_insert (h.linkFactor_wire?_comm a) hv]
  ring

/-- The number of edges of a vertex that lead to listed vertices. -/
def edgesTo (g : Diagram) (met : List ℕ) (w : ℕ) : ℕ := (g.linksAt w).countP (·.1 ∈ met)

/-- All edges of a spider lead to listed vertices. -/
def Settled (g : Diagram) (met : List ℕ) (w : ℕ) : Prop :=
  g.kind? w ≠ some .boundary ∧ ∀ l ∈ g.linksAt w, l.1 ∈ met

instance (g : Diagram) (met : List ℕ) (w : ℕ) : Decidable (g.Settled met w) :=
  inferInstanceAs (Decidable (_ ∧ _))

theorem settled_iff : g.Settled met w ↔
    g.kind? w ≠ some .boundary ∧ (g.linksAt w).length = g.edgesTo met w := by
  rw [Settled, edgesTo, eq_comm, List.countP_eq_length]
  simp only [decide_eq_true_eq]

theorem settled_iff_of_kind? {k : VertexKind} (hk : g.kind? w = some k) :
    g.Settled met w ↔ k ≠ .boundary ∧ (g.linksAt w).length = g.edgesTo met w := by
  rw [settled_iff, hk]
  simp

theorem countP_mem_cons {keys : List ℕ} (hv : v ∉ met) :
    keys.countP (· ∈ v :: met) = keys.countP (· ∈ met) + keys.count v := by
  induction keys with
  | nil => rfl
  | cons u keys ih =>
      rw [List.countP_cons, List.countP_cons, List.count_cons, ih]
      by_cases hu : u = v
      · simp [hu, hv]
        omega
      · simp [hu]
        omega

/-- One more listed vertex is the end of one more edge or of none. -/
theorem edgesTo_cons (hv : v ∉ met) :
    g.edgesTo (v :: met) w = g.edgesTo met w + ((g.linksAt w).map Prod.fst).count v := by
  have hkeys : ∀ met : List ℕ, g.edgesTo met w = ((g.linksAt w).map Prod.fst).countP (· ∈ met) :=
    fun met => by
      rw [List.countP_map]
      rfl
  rw [hkeys, hkeys, countP_mem_cons hv]

theorem Consistent.edgesTo_cons_of_link (h : g.Consistent) (hv : v ∉ met)
    (hl : (v, e) ∈ g.linksAt w) : g.edgesTo (v :: met) w = g.edgesTo met w + 1 := by
  rw [edgesTo_cons hv, List.count_eq_one_of_mem (h.nodup w) (List.mem_map_of_mem hl)]

theorem Consistent.edgesTo_cons_self (h : g.Consistent) (hv : v ∉ met) :
    g.edgesTo (v :: met) v = g.edgesTo met v := by
  have hself : v ∉ (g.linksAt v).map Prod.fst := by
    intro hmem
    obtain ⟨l, hl, hlv⟩ := List.mem_map.mp hmem
    exact h.ne hl hlv
  rw [edgesTo_cons hv, List.count_eq_zero_of_not_mem hself, Nat.add_zero]

end Diagram

/-! ## One edge -/

namespace Contraction

open Diagram

variable {g : Diagram} {M done new : List ℕ} {met met' : ℕ → List ℕ} {F F' : (ℕ → Bool) → ℂ}
  {c : Contraction ExactComplex} {e : EdgeKind} {n v w : ℕ}

/-- The vertices that the edges of `w` have led to, while the edges of the new vertex `v` to the
vertices in `done` have acted. -/
def reach (v : ℕ) (M done : List ℕ) (w : ℕ) : List ℕ := if w ∈ done then v :: M else M

/-- The vertices in `M` have been added, and an edge of `w` has acted if it leads into `met w`. The
axes are those of the vertices in `new` and of the vertices in `M` that are not settled. -/
structure Sums (g : Diagram) (M : List ℕ) (met : ℕ → List ℕ) (new : List ℕ)
    (F : (ℕ → Bool) → ℂ) (c : Contraction ExactComplex) : Prop where
  seen_eq : ∀ w, c.seen.lookup w = if w ∈ M then some (g.edgesTo (met w) w) else none
  axes_eq : c.axes = new ++ M.filter fun w => ¬g.Settled (met w) w
  holds : c.tensor.Holds c.axes (M.toFinset.filter fun w => g.Settled (met w) w) F

theorem lookup_setSeen (c : Contraction ExactComplex) (w n u : ℕ) :
    (c.setSeen w n).seen.lookup u = if u = w then some n else c.seen.lookup u := by
  rw [setSeen, List.lookup_cons, lookup_filter_ne]
  by_cases hu : u = w
  · simp [hu]
  · rw [beq_false_of_ne hu, if_neg hu, if_neg hu]

theorem Sums.congr (h : Sums g M met new F c)
    (hmet : ∀ w ∈ M, ∀ l ∈ g.linksAt w, l.1 ∈ met' w ↔ l.1 ∈ met w) (hF : ∀ a, F' a = F a) :
    Sums g M met' new F' c := by
  have hsettled : ∀ w ∈ M, g.Settled (met' w) w ↔ g.Settled (met w) w := fun w hw =>
    and_congr_right fun _ => forall₂_congr fun l hl => hmet w hw l hl
  have hset : (M.toFinset.filter fun w => g.Settled (met' w) w) =
      M.toFinset.filter fun w => g.Settled (met w) w :=
    Finset.filter_congr fun w hw => hsettled w (List.mem_toFinset.mp hw)
  refine ⟨fun w => ?_, ?_, ?_⟩
  · rw [h.seen_eq]
    by_cases hw : w ∈ M
    · have hcount : g.edgesTo (met' w) w = g.edgesTo (met w) w :=
        List.countP_congr fun l hl => by simpa using hmet w hw l hl
      rw [if_pos hw, if_pos hw, hcount]
    · rw [if_neg hw, if_neg hw]
  · have hlist : (M.filter fun w => ¬g.Settled (met' w) w) =
        M.filter fun w => ¬g.Settled (met w) w :=
      List.filter_congr fun w hw => by simp only [hsettled w hw]
    rw [h.axes_eq, hlist]
  · rw [hset]
    exact h.holds.congr hF

/-- An edge to a vertex that has not been added does nothing. -/
theorem Sums.skip (h : Sums g M (reach v M done) [v] F c) (hw : w ∉ M) :
    Sums g M (reach v M (w :: done)) [v] F c := by
  refine h.congr (fun u hu l _ => ?_) fun _ => rfl
  have hne : u ≠ w := ne_of_mem_of_not_mem hu hw
  simp [reach, hne]

/-- The axis of a vertex with an edge that has not acted is still there. -/
theorem Sums.exists_axis (h : Sums g M met [v] F c) (hw : w ∈ M) (hsettled : ¬g.Settled (met w) w) :
    ∃ axis, c.axes.idxOf? w = some axis ∧ c.axes[axis]? = some w := by
  have hmem : w ∈ c.axes := by
    rw [h.axes_eq]
    exact List.mem_append_right _ (List.mem_filter.mpr ⟨hw, by simpa using hsettled⟩)
  cases haxis : c.axes.idxOf? w with
  | none => exact absurd hmem (List.idxOf?_eq_none_iff.mp haxis)
  | some axis =>
      obtain ⟨hlt, hget, -⟩ := List.idxOf?_eq_some_iff.mp haxis
      exact ⟨axis, rfl, List.getElem?_eq_some_iff.mpr ⟨hlt, hget⟩⟩

theorem holds_sumAway {S : Finset ℕ} {axis : ℕ} (h : c.tensor.Holds c.axes S F)
    (hw : c.axes[axis]? = some w) :
    (c.sumAway axis).axes = c.axes.erase w ∧
      (c.sumAway axis).tensor.Holds (c.sumAway axis).axes (insert w S) F := by
  have haxes : (c.sumAway axis).axes = c.axes.erase w := h.eraseIdx_eq hw
  refine ⟨haxes, ?_⟩
  rw [haxes]
  exact h.sumAxis hw

/-- A vertex all of whose edges have acted leaves if it is a spider and stays if it is not. -/
theorem Sums.act (h : Sums g M (reach v M done) [v] F c) (hM : M.Nodup) (hvw : v ≠ w) (hw : w ∈ M)
    (hold : ¬g.Settled (reach v M done w) w) {t : Tensor ExactComplex}
    (ht : t.Holds c.axes (M.toFinset.filter fun u => g.Settled (reach v M done u) u) F')
    {axis : ℕ} (haxis : c.axes[axis]? = some w) (hn : g.edgesTo (v :: M) w = n) :
    Sums g M (reach v M (w :: done)) [v] F'
      (if g.Settled (v :: M) w then { c.setSeen w n with tensor := t }.sumAway axis
      else { c.setSeen w n with tensor := t }) := by
  have hnew : reach v M (w :: done) w = v :: M := if_pos List.mem_cons_self
  have hother : ∀ {u}, u ≠ w → reach v M (w :: done) u = reach v M done u := fun hu => by
    simp [reach, hu]
  have hseen : ∀ u, (c.setSeen w n).seen.lookup u =
      if u ∈ M then some (g.edgesTo (reach v M (w :: done) u) u) else none := by
    intro u
    rw [lookup_setSeen]
    by_cases hu : u = w
    · rw [if_pos hu, hu, if_pos hw, hnew, hn]
    · rw [if_neg hu, hother hu, h.seen_eq]
  by_cases hsettled : g.Settled (v :: M) w
  · rw [if_pos hsettled]
    have hset : insert w (M.toFinset.filter fun u => g.Settled (reach v M done u) u) =
        M.toFinset.filter fun u => g.Settled (reach v M (w :: done) u) u := by
      ext u
      rw [Finset.mem_insert, Finset.mem_filter, Finset.mem_filter, List.mem_toFinset]
      by_cases hu : u = w
      · simp [hu, hw, hnew, hsettled]
      · simp [hu, hother hu]
    have haxes : c.axes.erase w = [v] ++ M.filter fun u => ¬g.Settled (reach v M (w :: done) u) u := by
      rw [h.axes_eq, List.singleton_append, List.erase_cons_tail (by simpa using hvw),
        (hM.filter _).erase_eq_filter, List.filter_filter, List.singleton_append]
      congr 1
      refine List.filter_congr fun u _ => ?_
      by_cases hu : u = w
      · simp [hu, hnew, hsettled]
      · simp [hu, hother hu]
    set c' : Contraction ExactComplex := { c.setSeen w n with tensor := t }
    obtain ⟨herase, hholds⟩ := holds_sumAway (c := c') ht haxis
    rw [hset] at hholds
    exact ⟨hseen, herase.trans haxes, hholds⟩
  · rw [if_neg hsettled]
    have hsame : ∀ u, g.Settled (reach v M (w :: done) u) u ↔ g.Settled (reach v M done u) u := by
      intro u
      by_cases hu : u = w
      · rw [hu, hnew]
        exact iff_of_false hsettled hold
      · rw [hother hu]
    refine ⟨hseen, ?_, ?_⟩
    · simp only [hsame]
      exact h.axes_eq
    · simp only [hsame]
      exact ht

theorem Sums.addLink (h : Sums g M (reach v M done) [v] F c) (hg : g.Consistent) (hM : M.Nodup)
    (hv : v ∉ M) (hl : (w, e) ∈ g.linksAt v) (hdone : w ∉ done) (n : ℕ) :
    ∃ c', Contraction.addLink g (n, c) (w, e) = .ok (n + if w ∈ M then 1 else 0, c') ∧
      Sums g M (reach v M (w :: done)) [v]
        (fun a => (if w ∈ M then e.factor (a v) (a w) else 1) * F a) c' := by
  by_cases hw : w ∈ M
  · have hreach : reach v M done w = M := if_neg hdone
    have hback : (v, e) ∈ g.linksAt w := hg.symm hl
    have hvw : v ≠ w := (hg.ne hl).symm
    have hold : ¬g.Settled (reach v M done w) w := by
      rw [hreach]
      exact fun hs => hv (hs.2 _ hback)
    obtain ⟨axis, hidx, haxis⟩ := h.exists_axis hw hold
    have hfirst : c.axes[0]? = some v := by
      rw [h.axes_eq]
      rfl
    obtain ⟨t, hok, ht⟩ := h.holds.edge hfirst haxis hvw e
    have hcontains : g.contains w := hg.contains_right hl
    obtain ⟨k, hk⟩ := exists_kind? hcontains
    have hseen : c.seen.lookup w = some (g.edgesTo M w) := by rw [h.seen_eq, if_pos hw, hreach]
    have hcount := hg.edgesTo_cons_of_link hv hback
    have hsettled : g.Settled (v :: M) w ↔
        k ≠ .boundary ∧ (g.linksAt w).length = g.edgesTo M w + 1 := by
      rw [settled_iff_of_kind? hk, hcount]
    refine ⟨_, ?_, (h.act hM hvw hw hold ht haxis hcount).congr (fun _ _ _ _ => Iff.rfl)
      fun a => by rw [if_pos hw]⟩
    simp only [Contraction.addLink, hseen, setSeen, hidx, hok, kind_of_kind? hk,
      degree_of_contains hcontains, bind, Except.bind, pure, Except.pure, if_pos hw, hsettled]
    by_cases hkb : k = .boundary
    · simp [hkb]
    · by_cases hdegree : (g.linksAt w).length = g.edgesTo M w + 1
      · simp [hkb, hdegree]
      · simp [hkb, hdegree]
  · have hseen : c.seen.lookup w = none := by rw [h.seen_eq, if_neg hw]
    refine ⟨c, ?_, (h.skip hw).congr (fun _ _ _ _ => Iff.rfl) fun a => by rw [if_neg hw, one_mul]⟩
    simp only [Contraction.addLink, hseen, if_neg hw, pure, Except.pure, Nat.add_zero]

/-! ## One vertex -/

theorem prod_lookup_cons {links : List Link} {D : Finset ℕ} {a : ℕ → Bool}
    (hw : w ∉ links.map Prod.fst) (b : Bool) :
    ∏ u ∈ D, linkFactor (((w, e) :: links).lookup u) b (a u) =
      (∏ u ∈ D, linkFactor (links.lookup u) b (a u)) * if w ∈ D then e.factor b (a w) else 1 := by
  have hfactor : ∀ u ∈ D, linkFactor (((w, e) :: links).lookup u) b (a u) =
      linkFactor (links.lookup u) b (a u) * if u = w then e.factor b (a u) else 1 := by
    intro u _
    by_cases hu : u = w
    · rw [hu, lookup_eq_none hw, List.lookup_cons_self, linkFactor_none, linkFactor_some, one_mul,
        if_pos rfl]
    · rw [List.lookup_cons, beq_false_of_ne hu, if_neg hu, mul_one]
  rw [prod_congr rfl hfactor, prod_mul_distrib, prod_ite_eq' D w fun u => e.factor b (a u)]

/-- The edges of the new vertex act one after the other. -/
theorem Sums.addLinks (hg : g.Consistent) (hM : M.Nodup) (hv : v ∉ M) {links : List Link}
    (hlinks : ∀ l ∈ links, l ∈ g.linksAt v) (hnodup : (links.map Prod.fst).Nodup)
    (hdone : ∀ u ∈ links.map Prod.fst, u ∉ done) (h : Sums g M (reach v M done) [v] F c) (n : ℕ) :
    ∃ c', links.foldlM (Contraction.addLink g) (n, c) =
        .ok (n + links.countP (·.1 ∈ M), c') ∧
      Sums g M (reach v M (links.map Prod.fst ++ done)) [v]
        (fun a => (∏ u ∈ M.toFinset, linkFactor (links.lookup u) (a v) (a u)) * F a) c' := by
  induction links generalizing done F c n with
  | nil =>
      refine ⟨c, rfl, h.congr (fun _ _ _ _ => Iff.rfl) fun a => ?_⟩
      simp
  | cons l links ih =>
      obtain ⟨w, e⟩ := l
      rw [List.map_cons, List.nodup_cons] at hnodup
      obtain ⟨c₁, hok₁, h₁⟩ := h.addLink hg hM hv (hlinks _ List.mem_cons_self)
        (hdone w List.mem_cons_self) n
      have hdone₁ : ∀ u ∈ links.map Prod.fst, u ∉ w :: done := by
        intro u hu hmem
        rcases List.mem_cons.mp hmem with rfl | hmem
        · exact hnodup.1 hu
        · exact hdone u (List.mem_cons_of_mem w hu) hmem
      obtain ⟨c₂, hok₂, h₂⟩ := ih (fun l hl => hlinks l (List.mem_cons_of_mem _ hl)) hnodup.2 hdone₁
        h₁ (n + if w ∈ M then 1 else 0)
      refine ⟨c₂, ?_, h₂.congr (fun u _ l _ => ?_) fun a => ?_⟩
      · rw [List.foldlM_cons, hok₁]
        refine hok₂.trans ?_
        rw [List.countP_cons, Nat.add_assoc, Nat.add_comm (links.countP _)]
        simp
      · have hperm : u ∈ ((w, e) :: links).map Prod.fst ++ done ↔
            u ∈ links.map Prod.fst ++ w :: done := by
          simp only [List.map_cons, List.cons_append, List.mem_cons, List.mem_append]
          tauto
        simp only [reach, hperm]
      · simp only [prod_lookup_cons hnodup.1, List.mem_toFinset]
        ring

/-- The new vertex is done. It leaves at once if all its edges have acted, as they have if it has
none. -/
theorem Sums.finish (h : Sums g M (fun _ => v :: M) [v] F c) (hg : g.Consistent) (hv : v ∉ M) :
    Sums g (v :: M) (fun _ => v :: M) [] F
      ((if g.Settled (v :: M) v then c.sumAway 0 else c).setSeen v (g.edgesTo M v)) := by
  have hseen : ∀ c' : Contraction ExactComplex, c'.seen = c.seen → ∀ u,
      (c'.setSeen v (g.edgesTo M v)).seen.lookup u =
        if u ∈ v :: M then some (g.edgesTo (v :: M) u) else none := by
    intro c' hc' u
    rw [lookup_setSeen, hc', h.seen_eq]
    by_cases hu : u = v
    · rw [if_pos hu, hu, if_pos List.mem_cons_self, hg.edgesTo_cons_self hv]
    · simp [hu]
  by_cases hsettled : g.Settled (v :: M) v
  · rw [if_pos hsettled]
    have hfirst : c.axes[0]? = some v := by
      rw [h.axes_eq]
      rfl
    have haxes : c.axes.erase v = (v :: M).filter fun u => ¬g.Settled (v :: M) u := by
      rw [h.axes_eq, List.singleton_append, List.erase_cons_head,
        List.filter_cons_of_neg (by simpa using hsettled)]
    have hset : insert v (M.toFinset.filter fun u => g.Settled (v :: M) u) =
        (v :: M).toFinset.filter fun u => g.Settled (v :: M) u := by
      rw [List.toFinset_cons, Finset.filter_insert, if_pos hsettled]
    obtain ⟨herase, hholds⟩ := holds_sumAway h.holds hfirst
    rw [hset] at hholds
    exact ⟨hseen _ rfl, herase.trans haxes, hholds⟩
  · rw [if_neg hsettled]
    refine ⟨hseen _ rfl, ?_, ?_⟩
    · refine h.axes_eq.trans ?_
      rw [List.filter_cons_of_pos (by simpa using hsettled)]
      rfl
    · rw [List.toFinset_cons, Finset.filter_insert, if_neg hsettled]
      exact h.holds

theorem Sums.addVertex (h : Sums g M (fun _ => M) [] (g.product M.toFinset) c)
    (hg : g.Consistent) (hgreen : ∀ u, g.kind? u ≠ some .x) (hM : M.Nodup) (hv : v ∉ M)
    (hc : g.contains v) :
    ∃ c', Contraction.addVertex g c v = .ok c' ∧
      Sums g (v :: M) (fun _ => v :: M) [] (g.product (v :: M).toFinset) c' := by
  obtain ⟨k, hk⟩ := exists_kind? hc
  obtain ⟨p, hp⟩ := exists_phase? hc
  have hweight : g.weight v = p.unit := by
    rw [weight, hp]
    rfl
  have hvaxes : v ∉ c.axes := by
    rw [h.axes_eq]
    exact fun hmem => hv (List.mem_of_mem_filter hmem)
  have hvset : v ∉ M.toFinset.filter fun u => g.Settled M u := fun hmem =>
    hv (List.mem_toFinset.mp (Finset.mem_filter.mp hmem).1)
  set c₀ : Contraction ExactComplex :=
    { c with tensor := c.tensor.addAxis (if p.isZero then none else some (Amplitude.ofPhase p)),
             axes := v :: c.axes } with hc₀
  have h₀ : Sums g M (reach v M []) [v]
      (fun a => spin (g.weight v) (a v) * g.product M.toFinset a) c₀ := by
    refine ⟨h.seen_eq, congrArg (v :: ·) h.axes_eq, ?_⟩
    rw [hweight]
    exact h.holds.addAxis hvaxes hvset p
  obtain ⟨c₁, hok₁, h₁⟩ := Sums.addLinks hg hM hv (fun _ hl => hl) (hg.nodup v) (by simp) h₀ 0
  have h₂ : Sums g M (fun _ => v :: M) [v] (g.product (v :: M).toFinset) c₁ := by
    refine h₁.congr (fun w _ l hl => ?_) fun a => ?_
    · -- a vertex without an edge to the new one has no edge that has just acted
      rw [List.append_nil, reach]
      by_cases hw : w ∈ (g.linksAt v).map Prod.fst
      · rw [if_pos hw]
      · rw [if_neg hw, List.mem_cons, or_iff_right]
        rintro hlv
        obtain ⟨u, e⟩ := l
        obtain rfl : u = v := hlv
        exact hw (List.mem_map_of_mem (hg.symm hl))
    · rw [List.toFinset_cons, hg.product_insert (mt List.mem_toFinset.mp hv)]
      simp only [wire?_of_green hgreen, edgeKind?_eq_lookup]
  refine ⟨_, ?_, h₂.finish hg hv⟩
  have hsettled : g.Settled (v :: M) v ↔
      k ≠ .boundary ∧ (g.linksAt v).length = g.edgesTo M v := by
    rw [settled_iff_of_kind? hk, hg.edgesTo_cons_self hv]
  have hacted : 0 + (g.linksAt v).countP (·.1 ∈ M) = g.edgesTo M v := Nat.zero_add _
  simp only [Contraction.addVertex, phase_of_phase? hp, links_of_contains hc, ← hc₀, hok₁, hacted,
    kind_of_kind? hk, degree_of_contains hc, bind, Except.bind, pure, Except.pure, hsettled]
  by_cases hkb : k = .boundary
  · simp [hkb]
  · by_cases hdegree : (g.linksAt v).length = g.edgesTo M v
    · simp [hkb, hdegree]
    · simp [hkb, hdegree]

/-- The vertices are added from the last one of the list on. -/
theorem exists_sums (hg : g.Consistent) (hgreen : ∀ u, g.kind? u ≠ some .x) (hM : M.Nodup)
    (hcontains : ∀ v ∈ M, g.contains v) :
    ∃ c, M.reverse.foldlM (Contraction.addVertex g) ⟨Tensor.unit, [], []⟩ = .ok c ∧
      Sums g M (fun _ => M) [] (g.product M.toFinset) c := by
  induction M with
  | nil =>
      refine ⟨_, rfl, fun w => rfl, rfl, ?_⟩
      refine Tensor.holds_unit.congr fun a => ?_
      simp [product, pairs]
  | cons v M ih =>
      obtain ⟨hv, hM⟩ := List.nodup_cons.mp hM
      obtain ⟨c, hok, h⟩ := ih hM fun u hu => hcontains u (List.mem_cons_of_mem v hu)
      obtain ⟨c', hok', h'⟩ := h.addVertex hg hgreen hM hv (hcontains v List.mem_cons_self)
      refine ⟨c', ?_, h'⟩
      rw [List.reverse_cons, List.foldlM_append, hok]
      show [v].foldlM (Contraction.addVertex g) c = .ok c'
      rw [List.foldlM_cons, hok']
      rfl

end Contraction

end ZX
