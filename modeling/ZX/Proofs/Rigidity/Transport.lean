import Mathlib
import ZX.Proofs.Drawing.Readout
import ZX.Proofs.Extraction.Padding

/-!
# Rigidity under rewriting

The diagram of a circuit denotes a map that gates can perform, whatever unit weights its spiders
have. Rewriting keeps this property, since it keeps the map for all weights of the spiders that
stay. So does a new spider in front of an input, which only puts a gate there.
-/
namespace ZX

open Finset Function State

namespace Diagram

variable {g g' : Diagram} {b v new q : ℕ} {e : EdgeKind} {x : ℕ → Bool}

theorem norm_turn (g : Diagram) (v : ℕ) : ‖g.turn v‖ = 1 := by
  unfold turn
  split
  case isTrue => exact norm_one
  case isFalse =>
    cases g.phase? v with
    | none => exact norm_one
    | some p => exact p.norm_unit

theorem Rigid.of_rewrites (hg : g.Rigid) (h : Rewrites g g') : g'.Rigid := by
  intro ω' hω'
  obtain ⟨μ, hμ, hturn, htotal⟩ := h.total_eq
  have hnorm : ∀ v ∈ g'.spiders, ‖μ v‖ = 1 := by
    intro v hv
    have hv' := congrArg norm (hturn v (spiders_subset g' hv))
    rw [norm_mul, norm_turn, norm_turn, mul_one] at hv'
    exact hv'.symm
  -- the spiders that are removed have their own weights
  set ω : ℕ → ℂ := fun v => if v ∈ g'.spiders then (μ v)⁻¹ * ω' v else g.turn v with hω
  have hunit : ∀ v, ‖ω v‖ = 1 := by
    intro v
    simp only [hω]
    split
    case isTrue hv => rw [norm_mul, norm_inv, hnorm v hv, hω' v, inv_one, one_mul]
    case isFalse => exact norm_turn g v
  have hstay : ∀ v ∈ g'.spiders, g.restrain ω v = (μ v)⁻¹ * ω' v := by
    intro v hv
    rw [restrain, if_neg (mem_spiders.mp (h.spiders_subset hv)).2]
    exact if_pos hv
  have hleave : ∀ v, v ∉ g'.spiders → g.restrain ω v = g.turn v := by
    intro v hv
    rw [restrain]
    split
    case isTrue hk => exact (turn_of_boundary hk).symm
    case isFalse => exact if_neg hv
  obtain ⟨A, hA, himage⟩ := hg ω hunit
  rw [h.outputs_eq]
  refine ⟨A, hA, fun x => ?_⟩
  rw [← himage]
  funext y
  have hends : g'.ends x y = g.ends x y := by
    unfold ends
    rw [h.inputs_eq, h.outputs_eq]
  show g'.total (g'.restrain ω') (g'.ends x y) = g.total (g.restrain ω) (g.ends x y)
  rw [hends, htotal (g.restrain ω) fun v _ hv => hleave v hv]
  refine total_congr fun v hv => ?_
  by_cases hs : v ∈ g'.spiders
  · rw [hstay v hs, mul_inv_cancel_left₀ (hμ v), restrain, if_neg (mem_spiders.mp hs).2]
  · have hk : g'.kind? v = some .boundary := by
      by_contra hk
      exact hs (mem_spiders.mpr ⟨mem_support.mp hv, hk⟩)
    rw [hleave v hs, ← hturn v hv, restrain, if_pos hk, turn_of_boundary hk]

/-! ## Inputs -/

section Inputs

variable {S : Finset ℕ} {inputs A : List ℕ} {φ : State}

theorem pins_update_input (hnodup : inputs.Nodup) (hq : inputs[q]? = some b) (c : Bool)
    (z : ℕ → Bool) : pins inputs A (update x q c) z = update (pins inputs A x z) b c := by
  funext u
  by_cases hu : u = b
  · rw [hu, update_self, pins_input (List.mem_of_getElem? hq), idxOf_of_getElem? hnodup hq,
      update_self]
  · rw [update_of_ne hu]
    unfold pins
    split
    case isTrue hmem =>
      refine update_of_ne (fun hc => hu ?_) _ _
      have hget : inputs[inputs.idxOf u]? = some u := by
        have hlt := List.idxOf_lt_length_of_mem hmem
        rw [List.getElem?_eq_getElem hlt, List.getElem_idxOf]
      rw [hc, hq] at hget
      exact (Option.some.inj hget).symm
    case isFalse => rfl

/-- An operator on an input vertex acts on the input bit. -/
theorem readout_cross_input (hnodup : inputs.Nodup) (hq : inputs[q]? = some b) (hb : b ∉ S) :
    readout S inputs A x (cross e b φ) =
      e.factor (x q) false • readout S inputs A (update x q false) φ +
        e.factor (x q) true • readout S inputs A (update x q true) φ := by
  funext z
  have hbit : pins inputs A x z b = x q := by
    rw [pins_input (List.mem_of_getElem? hq), idxOf_of_getElem? hnodup hq]
  have hsplit : ∀ a, (∀ u, u ∉ S → a u = pins inputs A x z u) → cross e b φ a =
      e.factor (x q) false * φ (update a b false) + e.factor (x q) true * φ (update a b true) := by
    intro a ha
    rw [cross, ha b hb, hbit]
  rw [readout, sumOver_congr hsplit, sumOver_add, sumOver_mul_left, sumOver_mul_left,
    sumOver_update hb, sumOver_update hb, ← pins_update_input hnodup hq,
    ← pins_update_input hnodup hq]
  rfl

theorem readout_rotate_input (hnodup : inputs.Nodup) (hq : inputs[q]? = some b) (hb : b ∉ S)
    (ω : ℂ) :
    readout S inputs A x (rotate ω b φ) = spin ω (x q) • readout S inputs A x φ := by
  funext z
  have hpull : ∀ a, (∀ u, u ∉ S → a u = pins inputs A x z u) →
      rotate ω b φ a = spin ω (x q) * φ a := by
    intro a ha
    rw [rotate, weigh, ha b hb, pins_input (List.mem_of_getElem? hq), idxOf_of_getElem? hnodup hq]
  rw [readout, sumOver_congr hpull, sumOver_mul_left]
  rfl

end Inputs

/-- A new spider in front of an input, summed out, puts a gate on the input vertex. -/
theorem Padded.sum_mass_eq (h : Padded g v b e new g') (hg : g.WellFormed)
    (hb : g.kind? b = some .boundary) (hhang : g.HangsOn b v e) (ω : ℕ → ℂ) (a : ℕ → Bool) :
    g'.mass g'.support (g'.restrain ω) (update a new false) +
        g'.mass g'.support (g'.restrain ω) (update a new true) =
      cross .hadamard b (rotate (ω new) b
        (cross .hadamard b (g.mass g.support (g.restrain ω)))) a := by
  have hcons := hg.toConsistent
  have hbv : g.edgeKind? b v = some e := by rw [hhang, if_pos rfl]
  have hvb : g.edgeKind? v b = some e := (hcons.edgeKind?_comm v b).trans hbv
  have hvc := hcons.contains_left hvb
  have hbc := hcons.contains_far hvb
  have hnew : g'.contains new = true := h.contains_iff.mpr (.inl rfl)
  have hnewS : new ∉ g.support := fun hc => h.ne_new (mem_support.mp hc) rfl
  set V := g.support.erase b
  have hbV : b ∉ V := notMem_erase b _
  have hinsert : insert b V = g.support := insert_erase (mem_support.mpr hbc)
  have hkind : ∀ u ∈ g.support, g'.kind? u = g.kind? u := fun u hu => by
    rw [h.kind?_eq, if_neg (h.ne_new (mem_support.mp hu))]
  have hVsub : ∀ u ∈ V, u ∈ g.support := fun u hu => mem_of_mem_erase hu
  have hrestrain : ∀ u ∈ g.support, g'.restrain ω u = g.restrain ω u := fun u hu => by
    rw [restrain, restrain, hkind u hu]
  have hone : g.restrain ω b = 1 := if_pos hb
  -- what lies behind the input is the same in both diagrams
  have hrest : g'.mass g.support (g'.restrain ω) a = g.mass V (g.restrain ω) a := by
    have haround : g'.around V b (a b) a = 1 := by
      refine prod_eq_one fun u hu => ?_
      rw [wire?, h.hangsOn_boundary hcons hhang, if_neg (h.ne_new (mem_support.mp (hVsub u hu)))]
      rfl
    have hmass : g'.mass V (g'.restrain ω) a = g.mass V (g.restrain ω) a := by
      refine mass_congr (by rw [h.scalar_eq]) (fun s hs t ht => ?_)
        (fun u hu => hrestrain u (hVsub u hu)) fun _ _ => rfl
      have hsb := ne_of_mem_erase hs
      have htb := ne_of_mem_erase ht
      have hsn := h.ne_new (mem_support.mp (hVsub s hs))
      have htn := h.ne_new (mem_support.mp (hVsub t ht))
      have htinted : g'.tinted s t = g.tinted s t := by
        unfold tinted isRed
        rw [hkind s (hVsub s hs), hkind t (hVsub t ht)]
      rw [wire?, wire?, htinted, h.edgeKind?_eq, if_neg (by simp [IsPair, hsn, htn]),
        if_neg (by simp [IsPair, hsb, htb]), if_neg (by simp [IsPair, hsb, htb])]
    rw [← hmass]
    conv_lhs => rw [← hinsert]
    rw [h.consistent.mass_insert hbV, hrestrain b (mem_support.mpr hbc), hone, spin_one, one_mul]
    exact (congrArg (· * _) haround).trans (one_mul _)
  have hredb : g.isRed b = false := by
    rw [isRed, hb]
    rfl
  have hredn : g'.isRed new = false := by
    rw [isRed, h.kind?_eq, if_pos rfl]
    rfl
  have hred : ∀ u ∈ g.support, g'.isRed u = g.isRed u := fun u hu => by rw [isRed, isRed, hkind u hu]
  have hsum : g'.support = insert new g.support := by
    rw [← h.support_erase, insert_erase (mem_support.mpr hnew)]
  have hweight : g'.restrain ω new = ω new := by
    rw [restrain, h.kind?_eq, if_pos rfl]
    exact if_neg (by simp)
  have hfar : g'.tinted new v e.flip = (g.tinted b v e).flip := by
    rw [tinted, tinted, hredn, hredb, hred v (mem_support.mpr hvc)]
    cases g.isRed v <;> cases e <;> rfl
  have hnear : g'.tinted new b .hadamard = .hadamard := by
    rw [tinted, hredn, hred b (mem_support.mpr hbc), hredb]
    rfl
  have hmass : ∀ c, g'.mass g'.support (g'.restrain ω) (update a new c) =
      spin (ω new) c * ((g.tinted b v e).flip.factor c (a v) * EdgeKind.hadamard.factor c (a b)) *
        g.mass V (g.restrain ω) a := by
    intro c
    rw [hsum, mass_insert_update h.consistent hnewS, hweight, h.around_new hcons hvb, hfar, hnear,
      hrest]
  have hinner : ∀ s, cross .hadamard b (g.mass g.support (g.restrain ω)) (update a b s) =
      (g.tinted b v e).flip.factor s (a v) * g.mass V (g.restrain ω) a :=
    cross_mass_boundary hcons hb hhang .hadamard a
  rw [hmass, hmass, cross, rotate, weigh, weigh, hinner, hinner, update_self, update_self,
    EdgeKind.factor_comm _ (a b) false, EdgeKind.factor_comm _ (a b) true]
  ring

theorem Padded.image_eq (h : Padded g v b e new g') (hg : g.WellFormed)
    (hq : g.inputs[q]? = some b) (hhang : g.HangsOn b v e) (ω : ℕ → ℂ) (x : ℕ → Bool) :
    g'.image ω x = readout g.spiders g.inputs g.outputs x (cross .hadamard b (rotate (ω new) b
      (cross .hadamard b (g.mass g.support (g.restrain ω))))) := by
  have hb : g.kind? b = some .boundary := hg.kind?_input (List.mem_of_getElem? hq)
  have hnewS : new ∉ g.spiders := fun hc => h.ne_new (mem_spiders.mp hc).1 rfl
  have hspiders : g'.spiders = insert new g.spiders := by
    ext u
    rw [mem_insert, mem_spiders, mem_spiders, h.contains_iff, h.kind?_eq]
    by_cases hu : u = new <;> simp [hu]
  funext z
  rw [image, readout, readout, hspiders, h.inputs_eq, h.outputs_eq, sumOver_insert hnewS]
  exact sumOver_congr fun a _ => h.sum_mass_eq hg hb hhang ω a

theorem Rigid.of_padsInput (hrigid : g.Rigid) (h : PadsInput g g')
    (hk : g.inputs.length = g.outputs.length) : g'.Rigid := by
  obtain ⟨b, v, e, new, hb, hg, hhang, hpad⟩ := h
  obtain ⟨q, hq⟩ := List.mem_iff_getElem?.mp hb
  have hnodup := (List.nodup_append.mp hg.nodup_ends).1
  have hbS : b ∉ g.spiders := fun hc => (mem_spiders.mp hc).2 (hg.kind?_input hb)
  set k := g.outputs.length
  have hqk : q < k := hk ▸ (List.getElem?_eq_some_iff.mp hq).1
  have hmem : q ∈ List.range k := List.mem_range.mpr hqk
  intro ω hω
  obtain ⟨A, hA, himage⟩ := hrigid ω hω
  rw [hpad.outputs_eq]
  have hfirst : Local (List.range k) (hadamard q) := .hadamard hmem
  have hlast : Local (List.range k) fun ψ => A (hadamard q (rotate (ω new) q ψ)) :=
    hA.comp (hfirst.comp (local_rotate (hω new) hmem))
  refine ⟨_, hlast.comp hfirst, fun x => ?_⟩
  have hket : ∀ s, A (hadamard q (rotate (ω new) q (ket k (update x q s)))) =
      readout g.spiders g.inputs g.outputs (update x q s) (rotate (ω new) b
        (cross .hadamard b (g.mass g.support (g.restrain ω)))) := by
    intro s
    rw [readout_rotate_input hnodup hq hbS, readout_cross_input hnodup hq hbS, rotate_ket hqk,
      hfirst.smul, hA.smul, hadamard_ket hqk, hA.add, hA.smul, hA.smul, ← himage, ← himage]
    rfl
  rw [hpad.image_eq hg hq hhang, readout_cross_input hnodup hq hbS, ← hket, ← hket,
    hadamard_ket hqk, hlast.add, hlast.smul, hlast.smul]

theorem Rigid.of_pads (hrigid : g.Rigid) (h : Relation.ReflTransGen PadsInput g g')
    (hk : g.inputs.length = g.outputs.length) : g'.Rigid := by
  have hboth : g'.Rigid ∧ g'.inputs.length = g'.outputs.length := by
    induction h with
    | refl => exact ⟨hrigid, hk⟩
    | tail _ hstep ih =>
        refine ⟨ih.1.of_padsInput hstep ih.2, ?_⟩
        obtain ⟨b, v, e, new, -, -, -, hpad⟩ := hstep
        rw [hpad.inputs_eq, hpad.outputs_eq]
        exact ih.2
  exact hboth.1

end Diagram

end ZX
