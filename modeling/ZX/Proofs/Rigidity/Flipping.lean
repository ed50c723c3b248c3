import Mathlib
import ZX.Proofs.Drawing.Network
import ZX.Proofs.Extraction.Flow
import ZX.Proofs.Rigidity.Transport

/-!
# Negating bits

Negating the bits of some vertices multiplies the summand of a diagram by signs, if all edges at
these vertices are Hadamard edges: one sign for every vertex with an odd number of negated
neighbours. If these are negated vertices themselves, suitable weights absorb the signs, and the
images of two inputs become proportional. A rigid diagram does not allow that, so it has no such set
of vertices away from the outputs.
-/
namespace ZX

open Finset Function State

/-- Negates the bits of the members of `δ`. -/
def flipOn (δ : Finset ℕ) (a : ℕ → Bool) (v : ℕ) : Bool := a v ^^ decide (v ∈ δ)

/-- What the factor of a spider with weight `ω` is multiplied by when its bit `b` is negated. -/
noncomputable def kick (ω : ℂ) (b : Bool) : ℂ := if b then ω⁻¹ else ω

section Bits

variable {δ S V : Finset ℕ} {ω : ℂ} {a β x z : ℕ → Bool} {b : Bool} {v : ℕ}

theorem spin_not (hω : ω ≠ 0) (b : Bool) : spin ω (!b) = kick ω b * spin ω b := by
  cases b <;> simp [kick, hω]

@[simp] theorem kick_one (b : Bool) : kick 1 b = 1 := by cases b <;> simp [kick]

theorem sign_xor (x y : Bool) : sign (x ^^ y) = sign x * sign y := by
  cases x <;> cases y <;> simp [sign]

theorem sign_pow (x : Bool) (n : ℕ) : sign x ^ n = if Odd n then sign x else 1 := by
  cases x with
  | false => simp [sign]
  | true =>
      by_cases hn : Odd n
      · simp [sign, hn, hn.neg_one_pow]
      · simp [sign, hn, (Nat.not_odd_iff_even.mp hn).neg_one_pow]

theorem factor_not (x y : Bool) :
    EdgeKind.hadamard.factor (!x) y = sign y * EdgeKind.hadamard.factor x y := by
  cases x <;> cases y <;> simp [sign, EdgeKind.factor, div_eq_mul_inv]

theorem flipOn_empty (a : ℕ → Bool) : flipOn ∅ a = a := by
  funext v
  simp [flipOn]

theorem flipOn_insert (hv : v ∉ δ) (a : ℕ → Bool) :
    flipOn (insert v δ) a = update (flipOn δ a) v (!flipOn δ a v) := by
  funext u
  by_cases hu : u = v
  · subst hu
    simp [flipOn, hv]
  · simp [flipOn, hu]

/-- Negating bits inside of a sum permutes its terms. -/
theorem sumOver_flipOn {f : (ℕ → Bool) → ℂ} (δ : Finset ℕ) (β : ℕ → Bool) :
    sumOver S (fun a => f (flipOn δ a)) β = sumOver S f (flipOn δ β) := by
  induction δ using Finset.induction generalizing f with
  | empty => simp only [flipOn_empty]
  | insert v δ hv ih =>
      simp only [flipOn_insert hv]
      rw [ih (f := fun a => f (update a v (!a v)))]
      by_cases hvS : v ∈ S
      · have htoggle := sumOver_toggle (f := f) (c := fun _ => true) (β := flipOn δ β) hvS
          fun _ _ => rfl
        simp only [toggle, Bool.xor_true] at htoggle
        rw [htoggle]
        refine sumOver_val_congr fun u hu => ?_
        rw [update_of_ne (ne_of_mem_of_not_mem hvS hu).symm]
      · rw [← sumOver_update hvS]
        refine sumOver_congr fun a ha => ?_
        rw [ha v hvS]

end Bits

namespace Diagram

variable {g : Diagram} {δ V : Finset ℕ} {ω : ℕ → ℂ} {a x : ℕ → Bool} {u v : ℕ}

/-! ## Flipping the summand -/

theorem mass_flip_one (hg : g.Consistent) (hv : v ∈ V)
    (hwire : ∀ u ∈ V, ∀ e, g.wire? v u = some e → e = .hadamard) (hω : ω v ≠ 0) (a : ℕ → Bool) :
    g.mass V ω (update a v (!a v)) =
      kick (ω v) (a v) * (∏ u ∈ V with g.connected v u = true, sign (a u)) * g.mass V ω a := by
  have hvW : v ∉ V.erase v := notMem_erase v V
  have hself : g.connected v v = false := by rw [connected, hg.edgeKind?_self]; rfl
  have hfilter : (V.filter fun u => g.connected v u = true) =
      (V.erase v).filter fun u => g.connected v u = true := by
    ext u
    simp only [mem_filter, mem_erase]
    constructor
    · rintro ⟨hu, hconn⟩
      refine ⟨⟨?_, hu⟩, hconn⟩
      rintro rfl
      rw [hself] at hconn
      cases hconn
    · exact fun hu => ⟨hu.1.2, hu.2⟩
  have haround : g.around (V.erase v) v (!a v) a =
      (∏ u ∈ V.erase v with g.connected v u = true, sign (a u)) *
        g.around (V.erase v) v (a v) a := by
    rw [around, around, prod_filter, ← prod_mul_distrib]
    refine prod_congr rfl fun u hu => ?_
    rw [connected]
    cases he : g.edgeKind? v u with
    | none => simp [wire?, he]
    | some e =>
        have hh := hwire u (mem_of_mem_erase hu) (g.tinted v u e) (by rw [wire?, he, Option.map_some])
        rw [wire?, he, Option.map_some, hh]
        exact factor_not _ _
  have hsame : g.mass V ω a = spin (ω v) (a v) * g.around (V.erase v) v (a v) a *
      g.mass (V.erase v) ω a := by
    conv_lhs => rw [← insert_erase hv]
    exact hg.mass_insert hvW
  rw [hsame, hfilter]
  conv_lhs => rw [← insert_erase hv]
  rw [mass_insert_update hg hvW, spin_not hω, haround]
  ring

/-- The sign between the negated vertices is the same for all weights and bits. -/
theorem exists_mass_flipOn (hg : g.Consistent) (hδ : δ ⊆ V)
    (hwire : ∀ v ∈ δ, ∀ u ∈ V, ∀ e, g.wire? v u = some e → e = .hadamard) :
    ∃ σ : ℂ, ∀ ω : ℕ → ℂ, (∀ v ∈ δ, ω v ≠ 0) → ∀ a, g.mass V ω (flipOn δ a) =
      σ * (∏ v ∈ δ, kick (ω v) (a v)) *
        (∏ v ∈ δ, ∏ u ∈ V with g.connected v u = true, sign (a u)) * g.mass V ω a := by
  induction δ using Finset.induction with
  | empty => exact ⟨1, fun ω _ a => by simp [flipOn_empty]⟩
  | insert v δ hv ih =>
      obtain ⟨σ, hσ⟩ := ih ((subset_insert v δ).trans hδ)
        fun u hu => hwire u (mem_insert_of_mem hu)
      refine ⟨(∏ u ∈ V with g.connected v u = true, sign (decide (u ∈ δ))) * σ, fun ω hω a => ?_⟩
      have hbit : flipOn δ a v = a v := by simp [flipOn, hv]
      have hsigns : ∏ u ∈ V with g.connected v u = true, sign (flipOn δ a u) =
          (∏ u ∈ V with g.connected v u = true, sign (a u)) *
            ∏ u ∈ V with g.connected v u = true, sign (decide (u ∈ δ)) := by
        simp only [flipOn, sign_xor, prod_mul_distrib]
      rw [flipOn_insert hv, mass_flip_one hg (hδ (mem_insert_self v δ))
        (hwire v (mem_insert_self v δ)) (hω v (mem_insert_self v δ)), hbit, hsigns,
        hσ ω fun u hu => hω u (mem_insert_of_mem hu), prod_insert hv, prod_insert hv]
      ring

/-- A vertex sees the sign of each of its negated neighbours. -/
theorem prod_signs_eq (hg : g.Consistent) :
    ∏ v ∈ δ, ∏ u ∈ V with g.connected v u = true, sign (a u) =
      ∏ u ∈ V with g.IsOdd δ u, sign (a u) := by
  have hcomm : ∀ u v, g.connected v u = g.connected u v := fun u v => by
    rw [connected, connected, hg.edgeKind?_comm]
  simp only [prod_filter]
  rw [prod_comm]
  refine prod_congr rfl fun u _ => ?_
  rw [← prod_filter, prod_const, sign_pow]
  exact if_congr (by simp only [IsOdd, hcomm u]) rfl rfl

/-! ## Vertices away from the outputs -/

/-- The inputs, and the spiders that are not next to an output. -/
def upstream (g : Diagram) : Finset ℕ := (g.spiders \ g.fringe) ∪ g.inputs.toFinset

/-- No vertices away from the outputs have an even number of neighbours at every other spider. -/
def Taut (g : Diagram) : Prop :=
  ∀ δ ⊆ g.upstream, (∀ u ∈ g.spiders \ δ, ¬g.IsOdd δ u) → δ = ∅

namespace Normal

theorem input_edge (hg : g.Normal) (hv : v ∈ g.inputs) {e : EdgeKind}
    (he : g.edgeKind? v u = some e) : e = .hadamard ∧ g.kind? u = some .z := by
  obtain ⟨t, ht, hhang⟩ := hg.input_hangs v hv
  obtain ⟨rfl, rfl⟩ := hhang.eq_of_edgeKind? he
  exact ⟨rfl, ht⟩

theorem kind?_spider (hg : g.Normal) (hv : v ∈ g.spiders) : g.kind? v = some .z := by
  obtain ⟨hvc, hvk⟩ := mem_spiders.mp hv
  obtain ⟨k, hk⟩ := exists_kind? hvc
  cases k with
  | boundary => exact absurd hk hvk
  | z => exact hk
  | x => exact absurd hk (hg.green v)

/-- Outputs have no neighbours away from the outputs. -/
theorem not_connected_upstream (hg : g.Normal) (ho : u ∈ g.outputs) (hv : v ∈ g.upstream) :
    g.connected u v = false := by
  have huk : g.kind? u = some .boundary := hg.kind?_output ho
  rw [← Bool.not_eq_true]
  intro hconn
  rcases mem_union.mp hv with hv | hv
  · obtain ⟨hvs, hvf⟩ := mem_sdiff.mp hv
    exact hvf (mem_filter.mpr ⟨hvs, u, ho, hconn⟩)
  · obtain ⟨e, he⟩ := Option.isSome_iff_exists.mp hconn
    rw [hg.toConsistent.edgeKind?_comm] at he
    have hz := (hg.input_edge (List.mem_toFinset.mp hv) he).2
    rw [huk] at hz
    cases hz

theorem wire_upstream (hg : g.Normal) (hv : v ∈ g.upstream) {e : EdgeKind}
    (he : g.wire? v u = some e) : e = .hadamard := by
  rw [wire?_of_green hg.green] at he
  rcases mem_union.mp hv with hvs | hvi
  · have hvk := hg.kind?_spider (mem_sdiff.mp hvs).1
    refine hg.edge_hadamard hvk (fun hu => ?_) he
    have hno := hg.not_connected_upstream hu hv
    rw [connected, hg.toConsistent.edgeKind?_comm, he] at hno
    cases hno
  · exact (hg.input_edge (List.mem_toFinset.mp hvi) he).1

theorem mem_support_upstream (hg : g.Normal) (hv : v ∈ g.upstream) : v ∈ g.support := by
  rcases mem_union.mp hv with hv | hv
  · exact spiders_subset g (mem_sdiff.mp hv).1
  · exact mem_support.mpr (contains_of_kind? (hg.kind?_input (List.mem_toFinset.mp hv)))

end Normal

/-! ## Proportional images -/

/-- Negates the input bits of the members of `δ`. -/
def flipInputs (g : Diagram) (δ : Finset ℕ) (x : ℕ → Bool) (q : ℕ) : Bool :=
  x q ^^ decide (∃ b ∈ δ, g.inputs[q]? = some b)

theorem readout_flipOn (hδ : δ ⊆ g.upstream) (φ : State) (x : ℕ → Bool) :
    readout g.spiders g.inputs g.outputs x (fun a => φ (flipOn δ a)) =
      readout g.spiders g.inputs g.outputs (g.flipInputs δ x) φ := by
  funext z
  rw [readout, readout, sumOver_flipOn]
  refine sumOver_val_congr fun v hv => ?_
  unfold flipOn pins flipInputs
  by_cases hin : v ∈ g.inputs
  · rw [if_pos hin, if_pos hin]
    have hlt := List.idxOf_lt_length_of_mem hin
    have hget : g.inputs[g.inputs.idxOf v]? = some v := by
      rw [List.getElem?_eq_getElem hlt, List.getElem_idxOf]
    rw [hget]
    simp
  · rw [if_neg hin, if_neg hin]
    have hvδ : v ∉ δ := by
      intro hc
      rcases mem_union.mp (hδ hc) with hs | hi
      · exact hv (mem_sdiff.mp hs).1
      · exact hin (List.mem_toFinset.mp hi)
    simp [hvδ]

/-- A weight whose square is `-1` absorbs a sign. -/
theorem kick_mul_sign {ω : ℂ} {c : Prop} [Decidable c] (hω : ω ^ 2 = if c then -1 else 1)
    (b : Bool) : kick ω b * (if c then sign b else 1) = ω := by
  have hne : ω ≠ 0 := by
    rintro rfl
    split at hω <;> norm_num at hω
  cases b with
  | false => simp [kick, sign]
  | true =>
      by_cases hc : c
      · rw [if_pos hc] at hω ⊢
        simp only [kick, sign, if_true]
        field_simp
        linear_combination -hω
      · rw [if_neg hc] at hω ⊢
        simp only [kick, if_true]
        field_simp
        linear_combination -hω

/-- With weights that absorb the signs of the negated spiders, negating bits multiplies the summand
by a number that depends on the input bits only. -/
theorem exists_image_flip (hg : g.Normal) (hδ : δ ⊆ g.upstream)
    (heven : ∀ u ∈ g.spiders \ δ, ¬g.IsOdd δ u) :
    ∃ κ : (ℕ → Bool) → ℂ, ∀ ω : ℕ → ℂ,
      (∀ v ∈ δ ∩ g.spiders, ω v ^ 2 = if g.IsOdd δ v then -1 else 1) → ∀ x,
        g.image ω (g.flipInputs δ x) = (κ x * ∏ v ∈ δ ∩ g.spiders, ω v) • g.image ω x := by
  have hcons := hg.toConsistent
  obtain ⟨σ, hσ⟩ := exists_mass_flipOn (V := g.support) hcons
    (fun v hv => hg.mem_support_upstream (hδ hv)) fun v hv u _ e he => hg.wire_upstream (hδ hv) he
  refine ⟨fun x => σ * ∏ u ∈ g.support \ g.spiders with g.IsOdd δ u, sign (x (g.inputs.idxOf u)),
    fun ω hω x => ?_⟩
  have hrestrain : ∀ v ∈ g.spiders, g.restrain ω v = ω v := fun v hv =>
    if_neg (mem_spiders.mp hv).2
  have hone : ∀ v ∈ g.support, v ∉ g.spiders → g.restrain ω v = 1 := by
    intro v hv hvs
    refine if_pos ?_
    by_contra hk
    exact hvs (mem_spiders.mpr ⟨mem_support.mp hv, hk⟩)
  have hne : ∀ v ∈ δ, g.restrain ω v ≠ 0 := by
    intro v hv
    by_cases hvs : v ∈ g.spiders
    · rw [hrestrain v hvs]
      intro hzero
      have hsq := hω v (mem_inter.mpr ⟨hv, hvs⟩)
      rw [hzero] at hsq
      split at hsq <;> norm_num at hsq
    · rw [hone v (hg.mem_support_upstream (hδ hv)) hvs]
      exact one_ne_zero
  rw [image, ← readout_flipOn hδ]
  funext z
  rw [Pi.smul_apply, smul_eq_mul, image, readout, readout, ← sumOver_mul_left]
  refine sumOver_congr fun a ha => ?_
  -- the weights of the negated spiders absorb their signs
  have hkicks : ∏ v ∈ δ, kick (g.restrain ω v) (a v) = ∏ v ∈ δ ∩ g.spiders, kick (ω v) (a v) := by
    rw [← prod_subset inter_subset_left]
    · exact prod_congr rfl fun v hv => by rw [hrestrain v (mem_inter.mp hv).2]
    · intro v hv hn
      rw [hone v (hg.mem_support_upstream (hδ hv)) fun hc => hn (mem_inter.mpr ⟨hv, hc⟩), kick_one]
  have hspiders : ∏ u ∈ g.spiders with g.IsOdd δ u, sign (a u) =
      ∏ v ∈ δ ∩ g.spiders, if g.IsOdd δ v then sign (a v) else 1 := by
    rw [prod_filter]
    refine (prod_subset inter_subset_right fun u hu hn => if_neg ?_).symm
    exact heven u (mem_sdiff.mpr ⟨hu, fun hc => hn (mem_inter.mpr ⟨hc, hu⟩)⟩)
  have habsorb : (∏ v ∈ δ ∩ g.spiders, kick (ω v) (a v)) *
      ∏ v ∈ δ ∩ g.spiders, (if g.IsOdd δ v then sign (a v) else 1) = ∏ v ∈ δ ∩ g.spiders, ω v := by
    rw [← prod_mul_distrib]
    exact prod_congr rfl fun v hv => kick_mul_sign (hω v hv) (a v)
  -- the other signs are those of inputs, whose bits are fixed
  have hends : ∏ u ∈ g.support \ g.spiders with g.IsOdd δ u, sign (a u) =
      ∏ u ∈ g.support \ g.spiders with g.IsOdd δ u, sign (x (g.inputs.idxOf u)) := by
    refine prod_congr rfl fun u hu => ?_
    obtain ⟨hu, hodd⟩ := mem_filter.mp hu
    obtain ⟨husup, hus⟩ := mem_sdiff.mp hu
    have huk : g.kind? u = some .boundary := by
      by_contra hk
      exact hus (mem_spiders.mpr ⟨mem_support.mp husup, hk⟩)
    have huin : u ∈ g.inputs := by
      refine (List.mem_append.mp (hg.mem_ends.mpr huk)).resolve_right fun hout => ?_
      have hempty : δ.filter (fun v => g.connected u v = true) = ∅ := by
        rw [filter_eq_empty_iff]
        intro v hv
        rw [hg.not_connected_upstream hout (hδ hv)]
        exact Bool.false_ne_true
      rw [IsOdd, hempty] at hodd
      simp at hodd
    rw [ha u hus, pins_input huin]
  have hsplit : ∏ u ∈ g.support with g.IsOdd δ u, sign (a u) =
      (∏ u ∈ g.support \ g.spiders with g.IsOdd δ u, sign (a u)) *
        ∏ u ∈ g.spiders with g.IsOdd δ u, sign (a u) := by
    rw [prod_filter, prod_filter, prod_filter, prod_sdiff (spiders_subset g)]
  rw [hσ _ hne, prod_signs_eq hcons, hsplit, hkicks, hends, hspiders, ← habsorb]
  ring

theorem Rigid.taut (hrigid : g.Rigid) (hg : g.Normal)
    (hk : g.inputs.length = g.outputs.length) : g.Taut := by
  intro δ hδ heven
  by_contra hne
  obtain ⟨κ, hκ⟩ := exists_image_flip hg hδ heven
  set k := g.outputs.length
  set x : ℕ → Bool := fun _ => false with hx
  have hI : Complex.I ^ 2 = -1 := Complex.I_sq
  -- the images of two inputs are proportional, so the inputs are
  have hket : ∀ ω : ℕ → ℂ, (∀ v, ω v ^ 2 = if g.IsOdd δ v then -1 else 1) →
      ket k (g.flipInputs δ x) = (κ x * ∏ v ∈ δ ∩ g.spiders, ω v) • ket k x := by
    intro ω hω
    have hunit : ∀ v, ‖ω v‖ = 1 := by
      intro v
      have hsq := congrArg norm (hω v)
      rw [norm_pow] at hsq
      have hone : ‖ω v‖ ^ 2 = 1 := by
        rw [hsq]
        split <;> simp
      exact (pow_eq_one_iff_of_nonneg (norm_nonneg _) two_ne_zero).mp hone
    obtain ⟨A, hA, himage⟩ := hrigid ω hunit
    apply hA.injective
    rw [← himage, hκ ω (fun v _ => hω v), himage, hA.smul]
  set ω : ℕ → ℂ := fun v => if g.IsOdd δ v then Complex.I else 1 with hω
  have hsquare : ∀ v, ω v ^ 2 = if g.IsOdd δ v then -1 else 1 := by
    intro v
    simp only [hω]
    split
    · exact hI
    · norm_num
  by_cases hinput : ∃ b ∈ δ, b ∈ g.inputs
  · obtain ⟨b, hbδ, hb⟩ := hinput
    obtain ⟨q, hq⟩ := List.mem_iff_getElem?.mp hb
    have hqk : q < k := hk ▸ (List.getElem?_eq_some_iff.mp hq).1
    have hflip : g.flipInputs δ x q = true := by
      simp only [flipInputs, hx, Bool.false_xor, decide_eq_true_eq]
      exact ⟨b, hbδ, hq⟩
    have happly := congrFun (hket ω hsquare) (g.flipInputs δ x)
    have hzero : ket k x (g.flipInputs δ x) = 0 := by
      refine if_neg fun hall => ?_
      have hc := hall q hqk
      rw [hflip] at hc
      cases hc
    rw [ket_self, Pi.smul_apply, hzero, smul_zero] at happly
    exact one_ne_zero happly
  · have hflip : g.flipInputs δ x = x := by
      funext q
      have hno : ¬∃ b ∈ δ, g.inputs[q]? = some b := by
        rintro ⟨b, hb, hq⟩
        exact hinput ⟨b, hb, List.mem_of_getElem? hq⟩
      simp [flipInputs, hno]
    have hfactor : ∀ ω : ℕ → ℂ, (∀ v, ω v ^ 2 = if g.IsOdd δ v then -1 else 1) →
        κ x * ∏ v ∈ δ ∩ g.spiders, ω v = 1 := by
      intro ω hω
      have happly := congrFun (hket ω hω) x
      rw [hflip, Pi.smul_apply, ket_self, smul_eq_mul, mul_one] at happly
      exact happly.symm
    obtain ⟨v, hv⟩ := nonempty_iff_ne_empty.mpr hne
    have hvs : v ∈ g.spiders := by
      rcases mem_union.mp (hδ hv) with hs | hi
      · exact (mem_sdiff.mp hs).1
      · exact absurd ⟨v, hv, List.mem_toFinset.mp hi⟩ hinput
    have hmem : v ∈ δ ∩ g.spiders := mem_inter.mpr ⟨hv, hvs⟩
    -- the other sign of one weight gives the other sign of the factor
    have hneg := hfactor (update ω v (-ω v)) fun u => by
      by_cases hu : u = v
      · rw [hu, update_self, neg_sq, hsquare]
      · rw [update_of_ne hu, hsquare]
    have hprod : ∏ u ∈ δ ∩ g.spiders, update ω v (-ω v) u = -∏ u ∈ δ ∩ g.spiders, ω u := by
      rw [← mul_prod_erase _ _ hmem, ← mul_prod_erase _ _ hmem, update_self, neg_mul]
      congr 2
      exact prod_congr rfl fun u hu => update_of_ne (ne_of_mem_erase hu) _ _
    rw [hprod, mul_neg, hfactor ω hsquare] at hneg
    norm_num at hneg

end Diagram

end ZX
