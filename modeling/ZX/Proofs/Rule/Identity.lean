import Mathlib
import ZX.Proofs.Rewriting
import ZX.Rule.Identity

/-!
# Soundness of identity removal

A spider without a phase on two edges contributes the composite of the two edges.
-/
namespace ZX

open Finset Function

theorem EdgeKind.sum_factor (e f : EdgeKind) (x y : Bool) :
    e.factor false x * f.factor false y + e.factor true x * f.factor true y =
      (e.through f).factor x y := by
  cases e <;> cases f <;> cases x <;> cases y <;>
    simp [EdgeKind.factor, EdgeKind.through, EdgeKind.flip, div_eq_mul_inv,
      Scalar.sqrt2_inv_mul_inv] <;> norm_num

namespace Diagram

variable {g : Diagram} {s t v : ℕ} {e f : EdgeKind}

theorem removable_iff : g.removable v = true ↔ (∃ k, k ≠ .boundary ∧ g.kind? v = some k) ∧
    g.phase? v = some Phase.zero ∧ (g.linksAt v).length = 2 := by
  unfold removable kind? phase? data? linksAt
  cases g.vertex? v with
  | none => simp
  | some x => simp [Phase.isZero, and_assoc]

theorem tinted_through :
    (g.tinted v s e).through (g.tinted v t f) = g.tinted s t (e.through f) := by
  unfold tinted
  cases g.isRed v <;> cases g.isRed s <;> cases g.isRed t <;> cases e <;> cases f <;> rfl

theorem bucket_of_removable (hg : g.Consistent) (hl : g.linksAt v = [(s, e), (t, f)])
    (hturn : g.turn v = 1) (a : ℕ → Bool) :
    g.bucket (g.support.erase v) v a = (g.tinted s t (e.through f)).factor (a s) (a t) := by
  have hmem : ∀ l ∈ g.linksAt v, decide (l.1 ∈ g.support.erase v) = true := fun l hl =>
    decide_eq_true (mem_erase.mpr ⟨hg.ne hl, mem_support.mpr (hg.contains_right hl)⟩)
  rw [bucket, around_eq_prod_links hg, around_eq_prod_links hg, List.filter_eq_self.mpr hmem, hl,
    hturn, ← tinted_through (v := v), ← EdgeKind.sum_factor]
  simp

/-- A boundary keeps one edge when the spider it hangs on is bridged. -/
theorem hangsOn_of_bridged {g₂ g₃ : Diagram} {b u : ℕ} {k : EdgeKind} (hg : g.Consistent)
    (hl : g.linksAt v = [(s, e), (t, f)]) (hst : s ≠ t) (hbv : b ≠ v)
    (h₂ : ∀ w, g₂.edgeKind? b w = if w = v then none else g.edgeKind? b w)
    (hoff : ∀ a c, ¬IsPair s t a c → g₃.edgeKind? a c = g₂.edgeKind? a c)
    (k' : EdgeKind) (hnew : b = s ∨ b = t → g₃.edgeKind? s t = some k' ∧
      g₃.edgeKind? t s = some k') (hbu : g.HangsOn b u k) : ∃ u k, g₃.HangsOn b u k := by
  have hmem : ∀ w j, (w, j) ∈ g.linksAt v → w = b → u = v := by
    rintro w j hw rfl
    exact (hbu.eq_of_edgeKind? (hg.edgeKind?_iff.mpr (hg.symm hw))).1.symm
  have hs : s ≠ v := hg.ne (e := e) (by simp [hl])
  have ht : t ≠ v := hg.ne (e := f) (by simp [hl])
  by_cases hbs : b = s
  · have hu : u = v := hmem s e (by simp [hl]) hbs.symm
    refine ⟨t, k', fun w => ?_⟩
    by_cases hw : w = t
    · rw [hw, hbs, (hnew (.inl hbs)).1, if_pos rfl]
    · rw [hoff b w (by simp [IsPair, hbs, hw, hst]), h₂, hbu w, hu, if_neg hw]
      by_cases hwv : w = v <;> simp [hwv]
  · by_cases hbt : b = t
    · have hu : u = v := hmem t f (by simp [hl]) hbt.symm
      refine ⟨s, k', fun w => ?_⟩
      by_cases hw : w = s
      · rw [hw, hbt, (hnew (.inr hbt)).2, if_pos rfl]
      · rw [hoff b w (by simp [IsPair, hbt, hw, hst.symm]), h₂, hbu w, hu, if_neg hw]
        by_cases hwv : w = v <;> simp [hwv]
    · have hu : u ≠ v := by
        rintro rfl
        have hb : (b, k) ∈ g.linksAt u :=
          hg.symm (hg.edgeKind?_iff.mp (by rw [hbu, if_pos rfl]))
        simp [hl, hbs, hbt] at hb
      refine ⟨u, k, fun w => ?_⟩
      rw [hoff b w (by simp [IsPair, hbs, hbt]), h₂, hbu w]
      by_cases hwv : w = v
      · rw [if_pos hwv, if_neg (by rw [hwv]; exact Ne.symm hu)]
      · rw [if_neg hwv]

/-- `connect` on two vertices of any kind, provided a boundary among them has no edge yet. -/
theorem connect_bridge (hg : g.Consistent) {V : Finset ℕ} (hst : s ≠ t) (hs : s ∈ V) (ht : t ∈ V)
    (hsg : g.contains s) (htg : g.contains t)
    (hnone : g.kind? s = some .boundary ∨ g.kind? t = some .boundary → g.edgeKind? s t = none)
    (k : EdgeKind) :
    Ends (g.connect s t k)
      (fun g' => Absorbs V g (fun a => (g.tinted s t k).factor (a s) (a t)) g' ∧
        (∀ a c, ¬IsPair s t a c → g'.edgeKind? a c = g.edgeKind? a c) ∧
        (g.kind? s = some .boundary ∨ g.kind? t = some .boundary →
          g'.edgeKind? s t = some k ∧ g'.edgeKind? t s = some k))
      (· = .overflow) := by
  obtain ⟨ks, hks⟩ := exists_kind? hsg
  obtain ⟨kt, hkt⟩ := exists_kind? htg
  by_cases hb : ks = .boundary ∨ kt = .boundary
  · have hnone : g.edgeKind? s t = none := by
      refine hnone ?_
      rw [hks, hkt, Option.some_inj, Option.some_inj]
      exact hb
    obtain ⟨g', hg', hset⟩ := connect_of_none hg hst hsg htg hnone k
    rw [hg', Ends.ok_iff]
    refine ⟨hset.absorbs_new hg hs ht hst hnone, fun a c hac => ?_, fun _ => ⟨?_, ?_⟩⟩
    · rw [hset.edgeKind?_eq, if_neg hac]
    · rw [hset.edgeKind?_eq, if_pos (isPair_self s t)]
    · rw [hset.edgeKind?_eq, if_pos (isPair_comm.mp (isPair_self s t))]
  · rw [not_or] at hb
    refine (connect_absorbs hg hks hb.1 hkt hb.2 hs ht k).imp fun g' h' => ?_
    refine ⟨h'.1, h'.2, fun hc => ?_⟩
    simp [hks, hkt, hb.1, hb.2] at hc

/-- Removing an identity keeps the map and the boundary and removes one vertex. -/
theorem removeIdentity_rewrites (hg : g.Fringed) (hr : g.removable v = true) :
    Ends (g.removeIdentity v)
      (fun g' => g'.Fringed ∧ Rewrites g g' ∧ g'.support = g.support.erase v ∧
        (g.WellFormed → g'.WellFormed))
      (· = .overflow) := by
  obtain ⟨⟨k, hk, hkind⟩, hphase, hlen⟩ := removable_iff.mp hr
  obtain ⟨⟨s, e⟩, ⟨t, f⟩, hl⟩ := List.length_eq_two.mp hlen
  have hcons := hg.toConsistent
  have hcontains := contains_of_kind? hkind
  have hturn : g.turn v = 1 := (turn_of_phase? (by simp [hkind, hk]) hphase).trans Phase.unit_zero
  have hsl : (s, e) ∈ g.linksAt v := by simp [hl]
  have htl : (t, f) ∈ g.linksAt v := by simp [hl]
  have hst : s ≠ t := by
    have := hcons.nodup v
    simpa [hl] using this
  obtain ⟨g₂, hg₂, h₂⟩ := removeVertex_removed hcons hcontains
  have hrestricts := h₂.restricts hcons
  set V := g.support.erase v with hV
  have hsV : s ∈ V := mem_erase.mpr ⟨hcons.ne hsl, mem_support.mpr (hcons.contains_right hsl)⟩
  have htV : t ∈ V := mem_erase.mpr ⟨hcons.ne htl, mem_support.mpr (hcons.contains_right htl)⟩
  have hmemV : ∀ w ∈ V, g₂.contains w := fun w hw => by
    rw [← mem_support, hrestricts.support_eq]
    exact hw
  have hboundary : ∀ b, g.kind? b = some .boundary → b ∈ V := by
    intro b hb
    refine mem_erase.mpr ⟨?_, mem_support.mpr (contains_of_kind? hb)⟩
    rintro rfl
    exact hk (Option.some_inj.mp (hkind.symm.trans hb))
  -- a boundary next to the spider has no other neighbour
  have hnone : g₂.kind? s = some .boundary ∨ g₂.kind? t = some .boundary →
      g₂.edgeKind? s t = none := by
    rw [hrestricts.kind?_eq hsV, hrestricts.kind?_eq htV, hrestricts.edgeKind?_eq s hsV t htV]
    rintro (hb | hb)
    · obtain ⟨u, j, hu⟩ := hg.exists_hangsOn hb
      obtain ⟨rfl, -⟩ := hu.eq_of_edgeKind? (hcons.edgeKind?_iff.mpr (hcons.symm hsl))
      rw [hu, if_neg (hcons.ne htl)]
    · obtain ⟨u, j, hu⟩ := hg.exists_hangsOn hb
      obtain ⟨rfl, -⟩ := hu.eq_of_edgeKind? (hcons.edgeKind?_iff.mpr (hcons.symm htl))
      rw [hcons.edgeKind?_comm, hu, if_neg (hcons.ne hsl)]
  unfold removeIdentity
  rw [links_of_contains hcontains, hl]
  simp only [hg₂]
  refine (connect_bridge h₂.consistent hst hsV htV (hmemV s hsV) (hmemV t htV) hnone
    (e.through f)).imp fun g₃ h₃ => ?_
  obtain ⟨h₃, hoff, hnew⟩ := h₃
  have hhangs : ∀ b u j, g.kind? b = some .boundary → g.HangsOn b u j → ∃ u j, g₃.HangsOn b u j := by
    intro b u j hb hbu
    refine hangsOn_of_bridged hcons hl hst (ne_of_mem_erase (hboundary b hb))
      (fun w => h₂.edgeKind?_eq_ite hcons (ne_of_mem_erase (hboundary b hb))) hoff (e.through f) ?_ hbu
    rintro (rfl | rfl)
    · exact hnew (.inl ((hrestricts.kind?_eq hsV).trans hb))
    · exact hnew (.inr ((hrestricts.kind?_eq htV).trans hb))
  have hsupport : g₃.support = V := by
    rw [← hrestricts.support_eq]
    ext u
    rw [mem_support, mem_support, h₃.contains_eq]
  refine ⟨?_, ?_, hsupport, fun hwell => ?_⟩
  · exact hg.of_restricts (.refl hcons) hrestricts h₃.toRecast hhangs
  · refine rewrites_of_sumsTo (erase_subset _ _) (.refl hcons) hrestricts h₃
      (sumsTo_erase hcons (mem_spiders.mpr ⟨hcontains, by simp [hkind, hk]⟩)) fun a => ?_
    rw [bucket_of_removable hcons hl hturn, hrestricts.tinted_eq hsV htV, one_mul]
  · exact hwell.of_restricts (.refl hcons) hrestricts h₃.toRecast hboundary hhangs

theorem removeIdentity_ends (hg : g.WellFormed) (hr : g.removable v = true) :
    Ends (g.removeIdentity v)
      (fun g' => g'.WellFormed ∧ Rewrites g g' ∧ g'.vertexCount < g.vertexCount)
      (· = .overflow) := by
  obtain ⟨⟨k, -, hkind⟩, -⟩ := removable_iff.mp hr
  refine (removeIdentity_rewrites hg.fringed hr).imp fun g' h => ⟨h.2.2.2 hg, h.2.1, ?_⟩
  rw [h.1.vertexCount_eq, hg.vertexCount_eq, h.2.2.1]
  exact card_erase_lt_of_mem (mem_support.mpr (contains_of_kind? hkind))

end Diagram

end ZX
