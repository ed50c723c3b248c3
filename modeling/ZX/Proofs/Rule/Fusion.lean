import Mathlib
import ZX.Proofs.Arena.Frame
import ZX.Proofs.Rewriting
import ZX.Rule.Fusion

/-!
# Soundness of spider fusion

A plain edge between spiders of one colour forces their bits to agree, so the sum over the second
bit leaves the edges of the second spider at the first one. These are the edges that fusion adds.
-/
namespace ZX.Diagram

open Finset Function

variable {g : Diagram} {v₀ v₁ : ℕ}

theorem fusible_iff : g.fusible v₀ v₁ = true ↔ v₀ ≠ v₁ ∧ g.edgeKind? v₀ v₁ = some .plain ∧
    ∃ k, k ≠ .boundary ∧ g.kind? v₀ = some k ∧ g.kind? v₁ = some k := by
  unfold fusible kind? data?
  cases g.vertex? v₀ with
  | none => simp
  | some x =>
      cases g.vertex? v₁ with
      | none => simp
      | some y =>
          simp only [Option.map_some, Option.some_inj]
          constructor
          · simp only [Bool.and_eq_true, decide_eq_true_eq]
            rintro ⟨⟨hne, he⟩, hk, hkk⟩
            exact ⟨hne, he, _, hk, rfl, hkk.symm⟩
          · rintro ⟨hne, he, k, hk, rfl, hkk⟩
            simp [hne, he, hk, hkk]

/-- The links of the second spider that are done have moved to the first. -/
structure Moved (g : Diagram) (v₀ v₁ : ℕ) (done : List Link) (g' : Diagram) : Prop where
  absorbs : Absorbs (g.support.erase v₁) g (fun a =>
    ((done.filter (·.1 ≠ v₀)).map fun l => (g.tinted v₁ l.1 l.2).factor (a v₀) (a l.1)).prod) g'
  phase?_eq : g'.phase? v₁ = g.phase? v₁
  edgeKind?_eq : ∀ b, g.kind? b = some .boundary → ∀ t, g'.edgeKind? b t =
    if t = v₀ ∧ b ∈ done.map Prod.fst then g.edgeKind? b v₁ else g.edgeKind? b t

theorem moved_nil (h : g.Consistent) : Moved g v₀ v₁ [] g where
  absorbs := Absorbs.refl h
  phase?_eq := rfl
  edgeKind?_eq b _ t := by simp

theorem Moved.absorbs_snoc {g₁ g₂ : Diagram} {done : List Link} {u : ℕ} {e : EdgeKind}
    (h : Moved g v₀ v₁ done g₁) (hu : u ≠ v₀) (hred : g.isRed v₀ = g.isRed v₁)
    (h₂ : Absorbs (g.support.erase v₁) g₁ (fun a => (g₁.tinted v₀ u e).factor (a v₀) (a u)) g₂) :
    Absorbs (g.support.erase v₁) g (fun a => (((done ++ [(u, e)]).filter (·.1 ≠ v₀)).map
      fun l => (g.tinted v₁ l.1 l.2).factor (a v₀) (a l.1)).prod) g₂ := by
  refine (h.absorbs.trans h₂).congr fun a => ?_
  rw [h.absorbs.tinted_eq, List.filter_append, List.map_append, List.prod_append]
  simp [hu, tinted, hred]

theorem Moved.step {g₁ : Diagram} {done rest : List Link} {u : ℕ} {e : EdgeKind} {k : VertexKind}
    (hg : g.Fringed) (hne : v₀ ≠ v₁) (hk : k ≠ .boundary) (hk₀ : g.kind? v₀ = some k)
    (hk₁ : g.kind? v₁ = some k) (hlinks : g.linksAt v₁ = done ++ (u, e) :: rest)
    (h : Moved g v₀ v₁ done g₁) :
    Ends (if u = v₀ then pure g₁ else g₁.connect v₀ u e) (Moved g v₀ v₁ (done ++ [(u, e)]))
      (· = .overflow) := by
  have hlink : (u, e) ∈ g.linksAt v₁ := by simp [hlinks]
  have hfresh : u ∉ done.map Prod.fst := notMem_of_nodup (hlinks ▸ hg.nodup v₁)
  have hred : g.isRed v₀ = g.isRed v₁ := by rw [isRed, isRed, hk₀, hk₁]
  have hv₀ : v₀ ∈ g.support.erase v₁ :=
    mem_erase.mpr ⟨hne, mem_support.mpr (contains_of_kind? hk₀)⟩
  have huV : u ∈ g.support.erase v₁ :=
    mem_erase.mpr ⟨hg.toConsistent.ne hlink, mem_support.mpr (hg.toConsistent.contains_right hlink)⟩
  have hdone : ∀ b, b ≠ u → (b ∈ (done ++ [(u, e)]).map Prod.fst ↔ b ∈ done.map Prod.fst) := by
    intro b hb
    simp [hb]
  have hcons := h.absorbs.consistent
  have hkind₀ : g₁.kind? v₀ = some k := (h.absorbs.kind?_eq v₀).trans hk₀
  have hboundary : ∀ b, g.kind? b = some .boundary → b ≠ v₀ := by
    rintro b hb rfl
    exact hk (Option.some_inj.mp (hk₀.symm.trans hb))
  by_cases hu : u = v₀
  · subst hu
    rw [if_pos rfl, Ends.pure_iff]
    refine ⟨h.absorbs.congr fun a => by simp, h.phase?_eq, fun b hb t => ?_⟩
    rw [h.edgeKind?_eq b hb]
    simp only [hdone b (hboundary b hb)]
  · rw [if_neg hu]
    obtain ⟨l, hl⟩ := exists_kind? (hg.toConsistent.contains_right hlink)
    have hkind : g₁.kind? u = some l := (h.absorbs.kind?_eq u).trans hl
    by_cases hlb : l = .boundary
    · -- the boundary hangs on the second spider, so the edge to the first is new
      subst hlb
      obtain ⟨t, f, htf⟩ := hg.exists_hangsOn hl
      have huv₁ : g.edgeKind? u v₁ = some e := hg.toConsistent.edgeKind?_iff.mpr (hg.symm hlink)
      obtain ⟨rfl, rfl⟩ := htf.eq_of_edgeKind? huv₁
      have hnone : g₁.edgeKind? v₀ u = none := by
        rw [hcons.edgeKind?_comm, h.edgeKind?_eq u hl, if_neg (fun hc => hfresh hc.2), htf,
          if_neg hne]
      obtain ⟨g₂, hg₂, hset⟩ := connect_of_none hcons (Ne.symm hu) (contains_of_kind? hkind₀)
        (contains_of_kind? hkind) hnone e
      rw [hg₂, Ends.ok_iff]
      refine ⟨h.absorbs_snoc hu hred (hset.absorbs_new hcons hv₀ huV (Ne.symm hu) hnone), ?_, ?_⟩
      · rw [hset.phase?_eq, h.phase?_eq]
      · intro b hb t
        have hbv := hboundary b hb
        rw [hset.edgeKind?_eq, h.edgeKind?_eq b hb]
        by_cases hbu : b = u
        · subst hbu
          by_cases ht : t = v₀ <;> simp [IsPair, ht, hbv, huv₁]
        · simp only [IsPair, hbv, hbu, false_and, or_self, if_false, hdone b hbu]
    · refine (connect_absorbs hcons hkind₀ hk hkind hlb hv₀ huV e).with_result.imp ?_
      rintro g₂ ⟨hok₂, hg₂⟩
      refine ⟨h.absorbs_snoc hu hred hg₂.1, ?_, ?_⟩
      · rw [((connect_absorbed g₁ v₀ u e).of_eq_ok hok₂).phase?_eq (Ne.symm hne), h.phase?_eq]
      · intro b hb t
        have hbu : b ≠ u := by
          rintro rfl
          exact hlb (Option.some_inj.mp (hl.symm.trans hb))
        have hpair : ¬IsPair v₀ u b t := by
          simp [IsPair, hboundary b hb, hbu]
        rw [hg₂.2 b t hpair, h.edgeKind?_eq b hb]
        simp only [hdone b hbu]

/-- The edge between the spiders makes the sum over the second bit pick the first one. -/
theorem bucket_of_fusible (hg : g.Consistent) {k : VertexKind} (hne : v₀ ≠ v₁)
    (he : g.edgeKind? v₀ v₁ = some .plain) (hk₀ : g.kind? v₀ = some k) (hk₁ : g.kind? v₁ = some k)
    (a : ℕ → Bool) :
    g.bucket (g.support.erase v₁) v₁ a = (((g.linksAt v₁).filter (·.1 ≠ v₀)).map fun l =>
      (g.tinted v₁ l.1 l.2).factor (a v₀) (a l.1)).prod * spin (g.turn v₁) (a v₀) := by
  set V := g.support.erase v₁
  have hv₀ : v₀ ∈ V := mem_erase.mpr ⟨hne, mem_support.mpr (contains_of_kind? hk₀)⟩
  have hwire : g.wire? v₁ v₀ = some .plain := by
    have hred : g.isRed v₀ = g.isRed v₁ := by rw [isRed, isRed, hk₀, hk₁]
    rw [wire?, hg.edgeKind?_comm, he, Option.map_some, tinted, hred, EdgeKind.tint_tint]
  have hsplit : ∀ b, g.around V v₁ b a =
      EdgeKind.plain.factor b (a v₀) * g.around (V.erase v₀) v₁ b a := by
    intro b
    rw [around, ← mul_prod_erase V _ hv₀, hwire]
    rfl
  have hlinks : g.around (V.erase v₀) v₁ (a v₀) a = (((g.linksAt v₁).filter (·.1 ≠ v₀)).map
      fun l => (g.tinted v₁ l.1 l.2).factor (a v₀) (a l.1)).prod := by
    have hfilter : (g.linksAt v₁).filter (fun l => decide (l.1 ∈ V.erase v₀)) =
        (g.linksAt v₁).filter (·.1 ≠ v₀) := by
      refine List.filter_congr fun l hl => ?_
      have hlV : l.1 ∈ V :=
        mem_erase.mpr ⟨hg.ne hl, mem_support.mpr (hg.contains_right hl)⟩
      simp [hlV]
    rw [around_eq_prod_links hg, hfilter]
  rw [← hlinks, bucket, hsplit, hsplit]
  cases a v₀ <;> simp [EdgeKind.factor, mul_comm]

theorem Moved.hangsOn {g₁ g₂ : Diagram} (hg : g.Consistent) (hne : v₀ ≠ v₁) {k : VertexKind}
    (hk : k ≠ .boundary) (hk₁ : g.kind? v₁ = some k) (h : Moved g v₀ v₁ (g.linksAt v₁) g₁)
    (hedges : ∀ s t, s ≠ v₁ → g₂.edgeKind? s t = if t = v₁ then none else g₁.edgeKind? s t)
    {b t : ℕ} {e : EdgeKind} (hb : g.kind? b = some .boundary) (hbt : g.HangsOn b t e) :
    ∃ t e, g₂.HangsOn b t e := by
  have hbv : b ≠ v₁ := by
    rintro rfl
    exact hk (Option.some_inj.mp (hk₁.symm.trans hb))
  have hmem : b ∈ (g.linksAt v₁).map Prod.fst ↔ t = v₁ := by
    rw [← hg.key_comm, hg.hangsOn_iff.mp hbt]
    simp [eq_comm]
  have hlook : ∀ u, g₂.edgeKind? b u = if u = v₁ then none else
      if u = v₀ ∧ t = v₁ then some e else if u = t then some e else none := by
    intro u
    rw [hedges b u hbv, h.edgeKind?_eq b hb, hbt u, hbt v₁]
    simp only [hmem]
    by_cases ht : t = v₁ <;> simp [ht, eq_comm]
  by_cases ht : t = v₁
  · refine ⟨v₀, e, fun u => ?_⟩
    rw [hlook]
    by_cases hu : u = v₀
    · simp [hu, hne, ht]
    · simp [hu, ht]
  · refine ⟨t, e, fun u => ?_⟩
    rw [hlook]
    by_cases hu : u = t
    · simp [hu, ht]
    · simp [hu, ht]

/-- Fusion keeps the map and the boundary and removes the second spider. -/
theorem fuse_rewrites (hg : g.Fringed) (hf : g.fusible v₀ v₁ = true) :
    Ends (g.fuse v₀ v₁)
      (fun g' => g'.Fringed ∧ Rewrites g g' ∧ g'.support = g.support.erase v₁ ∧
        (g.WellFormed → g'.WellFormed))
      (· = .overflow) := by
  obtain ⟨hne, he, k, hk, hk₀, hk₁⟩ := fusible_iff.mp hf
  have hcons := hg.toConsistent
  set V := g.support.erase v₁ with hV
  have hv₀ : v₀ ∈ V := mem_erase.mpr ⟨hne, mem_support.mpr (contains_of_kind? hk₀)⟩
  have hv₁ : v₁ ∈ g.spiders := mem_spiders.mpr ⟨contains_of_kind? hk₁, by simp [hk₁, hk]⟩
  obtain ⟨p, hp⟩ := exists_phase? (contains_of_kind? hk₁)
  have hturn : g.turn v₁ = p.unit := turn_of_phase? (by simp [hk₁, hk]) hp
  unfold fuse
  rw [links_of_contains (contains_of_kind? hk₁)]
  refine Ends.bind (P := Moved g v₀ v₁ (g.linksAt v₁)) ?_ fun g₁ h₁ => ?_
  · refine Ends.foldlM_done (fun done l rest g₁ hl h => ?_) (moved_nil hcons)
    obtain ⟨u, e⟩ := l
    exact h.step hg hne hk hk₀ hk₁ hl
  rw [phase_of_phase? (h₁.phase?_eq.trans hp)]
  refine (addToPhase_absorbs h₁.absorbs.consistent ((h₁.absorbs.kind?_eq v₀).trans hk₀) hk p V).bind
    fun g₂ h₂ => ?_
  obtain ⟨h₂, -, hedges₂⟩ := h₂
  have h₁₂ := h₁.absorbs.trans h₂
  obtain ⟨g₃, hg₃, h₃⟩ := removeVertex_removed (v := v₁) h₂.consistent
    (by rw [h₁₂.contains_eq]; exact contains_of_kind? hk₁)
  have hrestricts : Restricts V g₂ g₃ := by
    have hsupport : g₂.support = g.support := by
      ext v
      rw [mem_support, mem_support, h₁₂.contains_eq]
    have := h₃.restricts h₂.consistent
    rwa [hsupport] at this
  rw [hg₃, Ends.ok_iff]
  have hhangs : ∀ b t e, g.kind? b = some .boundary → g.HangsOn b t e →
      ∃ t e, g₃.HangsOn b t e := by
    intro b t e hb hbt
    refine h₁.hangsOn hcons hne hk hk₁ (fun s t hs => ?_) hb hbt
    rw [h₃.edgeKind?_eq_ite h₂.consistent hs, hedges₂]
  refine ⟨?_, ?_, hrestricts.support_eq, fun hwell => ?_⟩
  · exact hg.of_restricts h₁₂.toRecast hrestricts (.refl h₃.consistent) hhangs
  · refine rewrites_of_sumsTo (erase_subset _ _) h₁₂ hrestricts (.refl h₃.consistent)
      (sumsTo_erase hcons hv₁) fun a => ?_
    rw [bucket_of_fusible hcons hne he hk₀ hk₁, if_pos hv₀, hturn, mul_one]
  · refine hwell.of_restricts h₁₂.toRecast hrestricts (.refl h₃.consistent) (fun v hv => ?_) hhangs
    refine mem_erase.mpr ⟨?_, mem_support.mpr (contains_of_kind? hv)⟩
    rintro rfl
    exact hk (Option.some_inj.mp (hk₁.symm.trans hv))

theorem fuse_ends (hg : g.WellFormed) (hf : g.fusible v₀ v₁ = true) :
    Ends (g.fuse v₀ v₁)
      (fun g' => g'.WellFormed ∧ Rewrites g g' ∧ g'.vertexCount < g.vertexCount)
      (· = .overflow) := by
  obtain ⟨-, -, k, -, -, hk₁⟩ := fusible_iff.mp hf
  refine (fuse_rewrites hg.fringed hf).imp fun g' h => ⟨h.2.2.2 hg, h.2.1, ?_⟩
  rw [h.1.vertexCount_eq, hg.vertexCount_eq, h.2.2.1]
  exact card_erase_lt_of_mem (mem_support.mpr (contains_of_kind? hk₁))

end ZX.Diagram
