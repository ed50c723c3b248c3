import Mathlib
import ZX.Proofs.Arena.Frame
import ZX.Proofs.Simplification

/-!
# Twisted spiders

A spider is twisted when its phase is no multiple of a quarter turn. Edges and scalars do not matter
for that, and adding a multiple of a quarter turn does not either, so connecting vertices twists
nothing. Only the fusion of two spiders adds a phase that can be twisted itself, and then the spider
that it came from goes away. `simplify_count` follows: no strategy makes more twisted spiders.
-/
namespace ZX

open Finset

/-! ## Multiples of a quarter turn -/

namespace Phase

theorem isClifford_iff_exists {p : Phase} :
    p.isClifford = true ↔ ∃ n : ℤ, 2 * p.halfTurns = n := by
  rw [isClifford, decide_eq_true_iff, den]
  constructor
  · intro hle
    have hpos := p.halfTurns.den_pos
    have hsplit := Rat.num_div_den p.halfTurns
    obtain hden | hden : p.halfTurns.den = 1 ∨ p.halfTurns.den = 2 := by omega
    · refine ⟨2 * p.halfTurns.num, ?_⟩
      rw [hden] at hsplit
      push_cast at hsplit ⊢
      linarith
    · refine ⟨p.halfTurns.num, ?_⟩
      rw [hden] at hsplit
      push_cast at hsplit
      linarith
  · rintro ⟨n, hn⟩
    have hhalf : p.halfTurns = Rat.divInt n 2 := by
      rw [Rat.divInt_eq_div]
      push_cast
      linarith
    have hdvd : (p.halfTurns.den : ℤ) ∣ 2 := hhalf ▸ Rat.den_dvd n 2
    exact_mod_cast Int.le_of_dvd (by norm_num) hdvd

theorem isClifford_iff {p : Phase} : p.isClifford = true ↔ p.unit ^ 4 = 1 := by
  rw [isClifford_iff_exists, unit, ← Complex.exp_nat_mul, Complex.exp_eq_one_iff]
  refine exists_congr fun n => ?_
  have hpi : (2 * Real.pi * Complex.I : ℂ) ≠ 0 := Complex.two_pi_I_ne_zero
  have hleft : ((4 : ℕ) : ℂ) * (Real.pi * (p.halfTurns : ℂ) * Complex.I) =
      2 * p.halfTurns * (2 * Real.pi * Complex.I) := by
    push_cast
    ring
  rw [hleft, mul_left_inj' hpi]
  norm_cast

theorem add_isClifford {p q : Phase} (hq : q.isClifford = true) :
    Ends (p.add q) (fun r => r.isClifford = p.isClifford) fun _ => True := by
  refine (add_ends p q).mono (fun r hr => ?_) fun _ _ => trivial
  rw [Bool.eq_iff_iff, isClifford_iff, isClifford_iff, hr, mul_pow, isClifford_iff.mp hq, mul_one]

theorem neg_isClifford {p : Phase} (hp : p.isClifford = true) :
    Ends p.neg (fun r => r.isClifford = true) fun _ => True := by
  refine (neg_ends p).mono (fun r hr => ?_) fun _ _ => trivial
  rw [isClifford_iff, hr, inv_pow, isClifford_iff.mp hp, inv_one]

theorem isClifford_of_isProperClifford {p : Phase} (h : p.isProperClifford = true) :
    p.isClifford = true := by
  rw [isProperClifford, Bool.or_eq_true, decide_eq_true_iff, decide_eq_true_iff] at h
  obtain rfl | rfl := h
  · decide
  · decide

theorem isClifford_of_isPauli {p : Phase} (h : p.isPauli = true) : p.isClifford = true := by
  rw [isPauli, Bool.or_eq_true, isZero, isOne, decide_eq_true_iff, decide_eq_true_iff] at h
  obtain rfl | rfl := h
  · decide
  · decide

end Phase

def VertexData.isTwisted (d : VertexData) : Bool := d.kind ≠ .boundary && !d.phase.isClifford

namespace Diagram

variable {g g' g'' : Diagram} {s t u v : ℕ} {e : EdgeKind} {p : Phase} {d : VertexData}

def twisted (g : Diagram) : Finset ℕ := g.support.filter fun v => (g.data? v).any (·.isTwisted)

theorem mem_twisted : v ∈ g.twisted ↔ ∃ d, g.data? v = some d ∧ d.isTwisted = true := by
  rw [twisted, mem_filter, mem_support, Option.any_eq_true, contains_iff_data?]
  constructor
  · exact fun h => h.2
  · rintro ⟨d, hd, htwisted⟩
    exact ⟨⟨d, hd⟩, d, hd, htwisted⟩

theorem card_twisted (g : Diagram) : g.twisted.card = g.nonCliffordCount := by
  have hfilter : g.twisted =
      (g.vertices.filter fun v => (g.data? v).any (·.isTwisted)).toFinset := by
    ext v
    rw [twisted, mem_filter, List.mem_toFinset, List.mem_filter, mem_support, mem_vertices]
  rw [hfilter, List.toFinset_card_of_nodup (g.nodup_vertices.filter _), nonCliffordCount,
    List.countP_eq_length_filter]
  congr 2
  funext v
  rw [data?]
  cases g.vertex? v <;> rfl

/-! ## Operations that twist nothing -/

/-- The vertices that are left keep their kinds and stay Clifford spiders or no Clifford spiders. -/
def KeepsTwists (g g' : Diagram) : Prop :=
  ∀ v d', g'.data? v = some d' →
    ∃ d, g.data? v = some d ∧ d'.kind = d.kind ∧ d'.phase.isClifford = d.phase.isClifford

namespace KeepsTwists

theorem of_data?_eq (h : ∀ v, g'.data? v = g.data? v) : KeepsTwists g g' :=
  fun v d hd => ⟨d, (h v).symm.trans hd, rfl, rfl⟩

theorem of_inherits (h : Inherits g g') : KeepsTwists g g' := by
  intro v d' hd'
  obtain ⟨d, hd, hkind, hphase⟩ := h.data v d' hd'
  exact ⟨d, hd, hkind, by rw [hphase]⟩

theorem refl (g : Diagram) : KeepsTwists g g := of_data?_eq fun _ => rfl

theorem trans (h : KeepsTwists g g') (h' : KeepsTwists g' g'') : KeepsTwists g g'' := by
  intro v d'' hd''
  obtain ⟨d', hd', hkind', hphase'⟩ := h' v d'' hd''
  obtain ⟨d, hd, hkind, hphase⟩ := h v d' hd'
  exact ⟨d, hd, hkind'.trans hkind, hphase'.trans hphase⟩

theorem subset (h : KeepsTwists g g') : g'.twisted ⊆ g.twisted := by
  intro v hv
  obtain ⟨d', hd', htwisted⟩ := mem_twisted.mp hv
  obtain ⟨d, hd, hkind, hphase⟩ := h v d' hd'
  refine mem_twisted.mpr ⟨d, hd, ?_⟩
  rwa [VertexData.isTwisted, ← hkind, ← hphase]

theorem count_le (h : KeepsTwists g g') : g'.nonCliffordCount ≤ g.nonCliffordCount := by
  rw [← card_twisted, ← card_twisted]
  exact card_le_card h.subset

end KeepsTwists

theorem twisted_setData (hv : g.contains v) : (g.setData v d).twisted =
    if d.isTwisted then insert v g.twisted else g.twisted.erase v := by
  ext u
  rw [mem_twisted, data?_setData d hv]
  by_cases huv : u = v
  · subst huv
    cases htwisted : d.isTwisted <;> simp [htwisted]
  · rw [if_neg huv, ← mem_twisted]
    cases htwisted : d.isTwisted <;> simp [huv]

theorem keepsTwists_setData {d' : VertexData} (hd : g.data? v = some d) (hkind : d'.kind = d.kind)
    (hphase : d'.phase.isClifford = d.phase.isClifford) : KeepsTwists g (g.setData v d') := by
  intro u d'' hu
  rw [data?_setData d' (contains_of_data? hd)] at hu
  split at hu
  · rename_i huv
    cases hu
    exact ⟨d, huv ▸ hd, hkind, hphase⟩
  · exact ⟨d'', hu, rfl, rfl⟩

theorem mulPhase_keepsTwists (g : Diagram) (p : Phase) :
    Ends (g.mulPhase p) (KeepsTwists g) fun _ => True :=
  (Ends.result _).bind fun _ _ => Ends.pure_iff.mpr (.of_data?_eq fun _ => rfl)

theorem addToPhase_keepsTwists (g : Diagram) (v : ℕ) (hp : p.isClifford = true) :
    Ends (g.addToPhase v p) (KeepsTwists g) fun _ => True :=
  (Ends.result _).bind fun _ hd => (Phase.add_isClifford hp).bind fun _ hsum =>
    Ends.pure_iff.mpr (keepsTwists_setData (data_eq_ok.mp hd) rfl hsum)

/-- Half a turn twists nothing. -/
theorem Absorbed.keepsTwists (h : Absorbed s t g g') : KeepsTwists g g' := by
  intro v d' hd'
  by_cases hv : v = s
  · subst hv
    obtain ⟨d, hd, hstep⟩ := h.phase_step d' hd'
    have hsource := h.data?_source
    rw [hd, hd', Option.map_some, Option.map_some, Option.some_inj] at hsource
    refine ⟨d, hd, (VertexData.mk.inj hsource).1, ?_⟩
    rcases hstep with hsame | hmoved
    · rw [hsame]
    · exact (Phase.add_isClifford (by decide)).of_eq_ok hmoved
  · exact ⟨d', (h.data?_eq v hv).symm.trans hd', rfl, rfl⟩

/-- A loop of steps that twist nothing. -/
theorem foldlM_keepsTwists {α : Type} {step : Diagram → α → Except Fault Diagram} {xs : List α}
    (hstep : ∀ g, ∀ a ∈ xs, Ends (step g a) (KeepsTwists g) fun _ => True) (g : Diagram) :
    Ends (xs.foldlM step g) (KeepsTwists g) fun _ => True :=
  Ends.foldlM_mem (I := KeepsTwists g) (fun a ha g' h => (hstep g' a ha).imp fun _ => h.trans)
    (.refl g)

/-! ## Rules -/

theorem removeIdentity_keepsTwists (g : Diagram) (v : ℕ) :
    Ends (g.removeIdentity v) (KeepsTwists g) fun _ => True := by
  refine (Ends.result _).bind fun links _ => ?_
  split
  · exact (removeVertex_cleared g v).forget.bind fun g' h =>
      (connect_absorbed g' _ _ _).forget.imp fun _ h' =>
      (KeepsTwists.of_inherits h.inherits).trans h'.keepsTwists
  · exact Ends.throw_iff.mpr trivial

theorem completeGraph_keepsTwists (hp : p.isClifford = true) (vs : List ℕ) (g : Diagram) :
    Ends (completeGraph p vs g) (KeepsTwists g) fun _ => True := by
  induction vs generalizing g with
  | nil => exact Ends.pure_iff.mpr (.refl g)
  | cons v vs ih =>
      refine (addToPhase_keepsTwists g v hp).bind fun g₁ h₁ => ?_
      refine (foldlM_keepsTwists (fun g w _ =>
        (connect_absorbed g v w _).forget.imp fun _ h => h.keepsTwists) g₁).bind fun g₂ h₂ => ?_
      exact (ih g₂).imp fun _ => (h₁.trans h₂).trans

theorem localComplement_keepsTwists (h : g.complementable v = true) :
    Ends (g.localComplement v) (KeepsTwists g) fun _ => True := by
  obtain ⟨-, ⟨p, hp, hproper⟩, -⟩ := complementable_iff.mp h
  have hclifford := Phase.isClifford_of_isProperClifford hproper
  refine (Ends.result _).bind fun p' hp' => ?_
  obtain rfl : p' = p := Except.ok.inj (hp'.symm.trans (phase_of_phase? hp))
  refine (Ends.result _).bind fun ns _ => ?_
  refine (Phase.neg_isClifford hclifford).bind fun q hq => ?_
  refine (completeGraph_keepsTwists hq ns g).bind fun g₁ h₁ => ?_
  refine (removeVertex_cleared g₁ v).forget.bind fun g₂ h₂ => ?_
  refine (Ends.result _).bind fun k _ => ?_
  refine (mulSqrt2Pow_inherits g₂ _).bind fun g₃ h₃ => ?_
  refine (Ends.result _).bind fun q _ => ?_
  exact (mulPhase_keepsTwists g₃ q).imp fun _ =>
    (h₁.trans (.of_inherits (h₂.inherits.trans h₃))).trans

theorem completeBipartite_keepsTwists (hp : p.isClifford = true) (v₀ v₁ : ℕ) (ns₀ ns₁ : List ℕ)
    (g : Diagram) : Ends (completeBipartite v₀ v₁ p ns₀ ns₁ g) (KeepsTwists g) fun _ => True := by
  refine foldlM_keepsTwists (fun g n₀ _ => ?_) g
  refine (addToPhase_keepsTwists g n₀ hp).bind fun g₁ h₁ => ?_
  refine (foldlM_keepsTwists (fun g n₁ _ => ?_) g₁).imp fun _ => h₁.trans
  split
  · exact (connect_absorbed g n₀ n₁ _).forget.imp fun _ h => h.keepsTwists
  · exact Ends.pure_iff.mpr (.refl g)

theorem pivot_keepsTwists {v₀ v₁ : ℕ} (h : g.pivotable v₀ v₁ = true) :
    Ends (g.pivot v₀ v₁) (KeepsTwists g) fun _ => True := by
  obtain ⟨-, ⟨p₀, hp₀, hpauli₀⟩, ⟨p₁, hp₁, hpauli₁⟩, -⟩ := pivotable_iff.mp h
  refine (Ends.result _).bind fun p hp => ?_
  obtain rfl : p = p₀ := Except.ok.inj (hp.symm.trans (phase_of_phase? hp₀))
  refine (Ends.result _).bind fun q hq => ?_
  obtain rfl : q = p₁ := Except.ok.inj (hq.symm.trans (phase_of_phase? hp₁))
  refine (Ends.result _).bind fun ns₀ _ => (Ends.result _).bind fun ns₁ _ => ?_
  refine (completeBipartite_keepsTwists (Phase.isClifford_of_isPauli hpauli₁) v₀ v₁ ns₀ ns₁ g).bind
    fun g₁ h₁ => ?_
  refine (foldlM_keepsTwists (fun g n _ => addToPhase_keepsTwists g n
    (Phase.isClifford_of_isPauli hpauli₀)) g₁).bind fun g₂ h₂ => ?_
  refine (removeVertex_cleared g₂ v₀).forget.bind fun g₃ h₃ => ?_
  refine (removeVertex_cleared g₃ v₁).forget.bind fun g₄ h₄ => ?_
  refine (Ends.result _).bind fun k _ => ?_
  refine (mulSqrt2Pow_inherits g₄ k).bind fun g₅ h₅ => ?_
  have hkeeps := (h₁.trans h₂).trans (.of_inherits ((h₃.inherits.trans h₄.inherits).trans h₅))
  split
  · exact (mulPhase_keepsTwists g₅ _).imp fun _ => hkeeps.trans
  · exact Ends.pure_iff.mpr hkeeps

/-- The first spider may take a twist over from the second, which then goes away. -/
theorem fuse_count {v₀ v₁ : ℕ} (h : g.fusible v₀ v₁ = true) :
    Ends (g.fuse v₀ v₁) (fun D => D.nonCliffordCount ≤ g.nonCliffordCount) fun _ => True := by
  obtain ⟨-, -, k, hk, -, hk₁⟩ := fusible_iff.mp h
  refine (Ends.result _).bind fun links _ => ?_
  refine Ends.bind (P := KeepsTwists g) ?_ fun moved hmoved => ?_
  · refine foldlM_keepsTwists (fun g l _ => ?_) g
    dsimp only
    split
    · exact Ends.pure_iff.mpr (.refl g)
    · exact (connect_absorbed g v₀ _ _).forget.imp fun _ h => h.keepsTwists
  refine (Ends.result _).bind fun p hp => ?_
  obtain ⟨d₁, hd₁, rfl⟩ := phase_eq_ok.mp hp
  cases hclifford : d₁.phase.isClifford with
  | true =>
      refine (addToPhase_keepsTwists moved v₀ hclifford).bind fun g₁ h₁ => ?_
      exact (removeVertex_cleared g₁ v₁).forget.imp fun D hD =>
        ((hmoved.trans h₁).trans (.of_inherits hD.inherits)).count_le
  | false =>
      have hmem : v₁ ∈ moved.twisted := by
        obtain ⟨d, hd, hkind, -⟩ := hmoved v₁ d₁ hd₁
        obtain ⟨d', hd', rfl⟩ := kind?_eq_some.mp hk₁
        cases hd.symm.trans hd'
        refine mem_twisted.mpr ⟨d₁, hd₁, ?_⟩
        simp [VertexData.isTwisted, hkind, hk, hclifford]
      refine Ends.bind (P := fun g₁ => g₁.twisted ⊆ insert v₀ moved.twisted) ?_ fun g₁ h₁ => ?_
      · refine (Ends.result _).bind fun d hd => (Ends.result _).bind fun q _ => Ends.pure_iff.mpr ?_
        rw [twisted_setData (contains_of_data? (data_eq_ok.mp hd))]
        split
        · exact Subset.refl _
        · exact (erase_subset _ _).trans (subset_insert _ _)
      · refine (removeVertex_cleared g₁ v₁).forget.imp fun D hD => ?_
        have hgone : v₁ ∉ D.twisted := fun hc => by
          obtain ⟨d, hd, -⟩ := mem_twisted.mp hc
          rw [hD.data?_eq, if_pos rfl] at hd
          cases hd
        have hsub : D.twisted ⊆ insert v₀ (moved.twisted.erase v₁) := by
          intro u hu
          have hne : u ≠ v₁ := fun hc => hgone (hc ▸ hu)
          obtain rfl | hu := mem_insert.mp (h₁ ((KeepsTwists.of_inherits hD.inherits).subset hu))
          · exact mem_insert_self _ _
          · exact mem_insert_of_mem (mem_erase.mpr ⟨hne, hu⟩)
        calc D.nonCliffordCount = D.twisted.card := (card_twisted D).symm
          _ ≤ (moved.twisted.erase v₁).card + 1 := (card_le_card hsub).trans (card_insert_le _ _)
          _ = moved.twisted.card := card_erase_add_one hmem
          _ = moved.nonCliffordCount := card_twisted moved
          _ ≤ g.nonCliffordCount := hmoved.count_le

theorem toGreen_count (g : Diagram) :
    Ends g.toGreen (fun D => D.twisted ⊆ g.twisted) fun _ => True := by
  refine Ends.foldlM_mem (I := fun D : Diagram => D.twisted ⊆ g.twisted) ?_ (Subset.refl _)
  intro v _ D hD
  refine (Ends.result _).bind fun k hk => ?_
  split
  · rename_i hx
    refine Ends.bind (P := fun D' => D'.twisted ⊆ D.twisted) ?_ fun D₁ h₁ => ?_
    · obtain ⟨d, hdata, hkind⟩ := kind_eq_ok.mp hk
      refine (Ends.result _).bind fun d' hd => Ends.pure_iff.mpr ?_
      obtain rfl : d = d' := Except.ok.inj ((data_of_data? hdata).symm.trans hd)
      rw [twisted_setData (contains_of_data? hdata)]
      split
      · rename_i htwisted
        refine insert_subset (mem_twisted.mpr ⟨d, hdata, ?_⟩) (Subset.refl _)
        simpa [VertexData.isTwisted, hkind, hx] using htwisted
      · exact erase_subset _ _
    · refine (Ends.result _).bind fun ns _ => ?_
      exact (foldlM_keepsTwists (fun g w _ => (toggleEdge_rekinded g v w).forget.imp fun _ h =>
        .of_inherits h.inherits) D₁).imp fun _ h₂ => (h₂.subset.trans h₁).trans hD
  · exact Ends.pure_iff.mpr hD

/-! ## Strategies -/

/-- One application of a rule of the strategy, at one place. -/
inductive Applied (g D : Diagram) : Prop
  | fusion (v₀ v₁ : ℕ) (h : g.fuse? v₀ v₁ = .ok (some D))
  | identity (v : ℕ) (h : g.removeIdentity? v = .ok (some D))
  | localComplement (v : ℕ) (h : g.localComplement? v = .ok (some D))
  | pivot (v₀ v₁ : ℕ) (h : g.pivot? v₀ v₁ = .ok (some D))

theorem tried_eq_some {b : Bool} {x : Except Fault Diagram} {D : Diagram}
    (h : (if b then return some (← x) else return none : Except Fault (Option Diagram)) =
      .ok (some D)) : b = true ∧ x = .ok D := by
  cases b with
  | false => cases h
  | true =>
      cases x with
      | error e => cases h
      | ok D' =>
          cases h
          exact ⟨rfl, rfl⟩

theorem Applied.count_le {D : Diagram} (h : g.Applied D) :
    D.nonCliffordCount ≤ g.nonCliffordCount := by
  cases h with
  | fusion v₀ v₁ h =>
      obtain ⟨hfusible, hfuse⟩ := tried_eq_some h
      exact (fuse_count hfusible).of_eq_ok hfuse
  | identity v h =>
      exact ((removeIdentity_keepsTwists g v).of_eq_ok (tried_eq_some h).2).count_le
  | localComplement v h =>
      obtain ⟨hcomplementable, hcomplement⟩ := tried_eq_some h
      exact ((localComplement_keepsTwists hcomplementable).of_eq_ok hcomplement).count_le
  | pivot v₀ v₁ h =>
      obtain ⟨hpivotable, hpivot⟩ := tried_eq_some h
      exact ((pivot_keepsTwists hpivotable).of_eq_ok hpivot).count_le

/-- A run of a rule each of whose steps is one application. -/
theorem fixedPoint_count {μ : Type} {r : Rule Diagram μ}
    {attempt : Diagram → μ → Except Fault (Option Diagram)}
    (hact : ∀ g found, r.act g found = found.foldlM (fun g m => return (← attempt g m).getD g) g)
    (hstep : ∀ g m D, attempt g m = .ok (some D) → g.Applied D) (g : Diagram) :
    Ends (r.fixedPoint g).outcome
      (fun result => result.2.nonCliffordCount ≤ g.nonCliffordCount) fun _ => True := by
  refine Rule.batches_related (R := fun g D => D.nonCliffordCount ≤ g.nonCliffordCount)
    (fun g found => ?_) (fun _ => Nat.le_refl _) (fun _ _ _ h h' => h'.trans h) _ g
  rw [hact]
  refine Ends.foldlM_mem (I := fun D : Diagram => D.nonCliffordCount ≤ g.nonCliffordCount) ?_
    (Nat.le_refl _)
  intro m _ D hD
  refine (Ends.result _).bind fun o ho => Ends.pure_iff.mpr ?_
  cases o with
  | none => exact hD
  | some D' => exact (hstep D m D' ho).count_le.trans hD

theorem fuseAll_count (g : Diagram) : Ends g.fuseAll.outcome
    (fun result => result.2.nonCliffordCount ≤ g.nonCliffordCount) fun _ => True :=
  fixedPoint_count (fun _ _ => rfl) (fun _ m _ h => .fusion m.1 m.2 h) g

theorem interiorPass_count (g : Diagram) : Ends g.interiorPass.outcome
    (fun result => result.2.nonCliffordCount ≤ g.nonCliffordCount) fun _ => True := by
  refine Ends.run_bind (fixedPoint_count (fun _ _ => rfl) (fun _ m _ h => .identity m h) g)
    fun (b₁, g₁) h₁ => ?_
  refine Ends.run_bind (fuseAll_count g₁) fun (b₂, g₂) h₂ => ?_
  refine Ends.run_bind (fixedPoint_count (fun _ _ => rfl) (fun _ m _ h => .pivot m.1 m.2 h) g₂)
    fun (b₃, g₃) h₃ => ?_
  refine Ends.run_bind (fixedPoint_count (fun _ _ => rfl) (fun _ m _ h => .localComplement m h) g₃)
    fun (b₄, g₄) h₄ => Ends.ok_iff.mpr ?_
  exact h₄.trans (h₃.trans (h₂.trans h₁))

theorem interiorPasses_count (n : ℕ) (g : Diagram) : Ends (interiorPasses n g).outcome
    (fun result => result.2.nonCliffordCount ≤ g.nonCliffordCount) fun _ => True := by
  induction n generalizing g with
  | zero => exact Ends.throw_iff.mpr trivial
  | succ n ih =>
      refine Ends.run_bind (interiorPass_count g) fun (changed, g₁) h₁ => ?_
      cases changed with
      | false => exact Ends.ok_iff.mpr h₁
      | true => exact Ends.run_bind (ih g₁) fun (_, g₂) h₂ => Ends.ok_iff.mpr (h₂.trans h₁)

theorem simplify_count (g : Diagram) : Ends g.simplify.outcome
    (fun result => result.2.nonCliffordCount ≤ g.nonCliffordCount) fun _ => True := by
  have hinterior : Ends g.simplifyInterior.outcome
      (fun result => result.2.nonCliffordCount ≤ g.nonCliffordCount) fun _ => True := by
    refine Ends.run_bind (fuseAll_count g) fun (_, g₁) h₁ => ?_
    refine Ends.run_bind (toGreen_count g₁) fun g₂ h₂ => ?_
    refine (interiorPasses_count _ g₂).imp fun result h₃ => ?_
    have hcard := card_le_card h₂
    rw [card_twisted, card_twisted] at hcard
    exact h₃.trans (hcard.trans h₁)
  refine Ends.run_bind hinterior fun (_, g₁) h₁ => ?_
  refine Ends.run_bind (fuseAll_count g₁) fun (_, g₂) h₂ => ?_
  exact Ends.run_emit (Ends.ok_iff.mpr (h₂.trans h₁))

end Diagram

end ZX
