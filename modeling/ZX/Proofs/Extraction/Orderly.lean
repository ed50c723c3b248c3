import Mathlib
import ZX.Proofs.Extraction.Extract

/-!
# The frontier stays orderly

Between two rounds the frontier has one entry for every qubit, in order. Its vertices are different
and not adjacent, its spiders have no phase, and Hadamard edges are the only ones between green
spiders. Every round keeps this, and so most of the reasons for which an extraction could be refused
never apply: the outputs can clash while they are peeled, and later on the rounds can stall.
-/
namespace ZX

open Diagram Workspace

namespace Diagram

variable {g D : Diagram} {U : Finset ℕ} {A N : List ℕ} {F : List FrontierEntry} {p q v w : ℕ}

namespace Laid

/-- A vertex on the frontier is the spider that holds the qubit or an input that is tied to it. In
the first case the entry agrees with the list of spiders. -/
theorem anchor_entry (h : Laid g U A N F D) (hg : g.WellFormed) (hv : v ∈ A) (hq : (q, v) ∈ F) :
    A[q]? = some v := by
  obtain ⟨v', hv', rfl | htied⟩ := h.entry hq
  · exact hv'
  · exact absurd htied.input (h.notMem_inputs hg hv)

/-- No vertex stands on the frontier twice. -/
theorem qubit_unique (h : Laid g U A N F D) (hg : g.WellFormed) (hp : (p, v) ∈ F)
    (hq : (q, v) ∈ F) : p = q := by
  obtain ⟨s, hs, hvs⟩ := h.entry hp
  obtain ⟨t, ht, hvt⟩ := h.entry hq
  have hst : s = t := by
    obtain rfl | hvs := hvs
    · obtain rfl | hvt := hvt
      · rfl
      · exact absurd hvt.input (h.notMem_inputs hg (List.mem_of_getElem? hs))
    · obtain rfl | hvt := hvt
      · exact absurd hvs.input (h.notMem_inputs hg (List.mem_of_getElem? ht))
      · have hedge : D.edgeKind? v s = some .plain := by rw [hvs.hangs, if_pos rfl]
        exact (hvt.hangs.eq_of_edgeKind? hedge).1
  rw [← hst] at ht
  exact eq_of_getElem? h.nodup hs ht

theorem nodup_snd (h : Laid g U A N F D) (hg : g.WellFormed) : (F.map Prod.snd).Nodup := by
  have hfst : (F.map Prod.fst).Nodup := by
    rw [h.fst_eq]
    exact List.nodup_range
  refine List.Nodup.map_on ?_ hfst.of_map
  rintro ⟨p, v⟩ hp ⟨q, v'⟩ hq hvv
  obtain rfl : v = v' := hvv
  rw [h.qubit_unique hg hp hq]

/-- An edge at a vertex of the frontier does not lead to the frontier. -/
theorem edgeKind?_eq_none (h : Laid g U A [] F D) (hg : g.WellFormed) (hp : (p, v) ∈ F)
    (hq : (q, w) ∈ F) : D.edgeKind? v w = none := by
  rw [Option.eq_none_iff_forall_ne_some]
  intro e he
  obtain ⟨s, hs, rfl | htied⟩ := h.entry hp
  · obtain ⟨-, hrest | ⟨-, hnone, -⟩⟩ := h.edge_of_entry hg hs hp he
    · obtain ⟨t, ht, rfl | hdone⟩ := h.entry hq
      · exact (h.left w (List.mem_of_getElem? ht)).1 hrest
      · exact hdone.done hrest
    · cases hnone
  · obtain ⟨rfl, -⟩ := htied.hangs.eq_of_edgeKind? he
    have hpq : p = q := by
      have ht := h.anchor_entry hg (List.mem_of_getElem? hs) hq
      exact eq_of_getElem? h.nodup hs ht
    subst hpq
    have hvw := h.entry_unique hp hq
    exact h.notMem_inputs hg (List.mem_of_getElem? hs) (hvw ▸ htied.input)

theorem kind?_input (h : Laid g U A N F D) (hg : g.WellFormed) (hv : v ∈ g.inputs) :
    D.kind? v = some .boundary := by
  rw [h.kind?_eq ((h.contains_iff v).mpr (.inr (.inr (.inl hv))))]
  exact hg.kind?_input hv

theorem phase?_entry (h : Laid g U A N F D) (hg : g.WellFormed) (hq : (q, v) ∈ F)
    (hz : D.kind? v = some .z) : D.phase? v = some Phase.zero := by
  obtain ⟨s, hs, rfl | htied⟩ := h.entry hq
  · exact h.phase?_eq v (List.mem_of_getElem? hs)
  · rw [h.kind?_input hg htied.input] at hz
    cases hz

theorem green_edge {s t : ℕ} {e : EdgeKind} (h : Laid g U A N F D) (hg : g.Normal)
    (hs : D.kind? s = some .z) (ht : D.kind? t = some .z) (he : D.edgeKind? s t = some e) :
    e = .hadamard := by
  have hanchor : ∀ {s t}, s ∈ A → D.kind? t = some .z → D.edgeKind? s t = some e →
      e = .hadamard := by
    intro s t hs ht he
    obtain ⟨heq, -⟩ | ⟨-, hin, -⟩ := h.edge hs he
    · exact heq
    · rw [h.kind?_input hg.toWellFormed hin] at ht
      cases ht
  by_cases hsA : s ∈ A
  · exact hanchor hsA ht he
  · by_cases htA : t ∈ A
    · exact hanchor htA hs ((h.consistent.edgeKind?_comm t s).trans he)
    · obtain ⟨hsU, htU⟩ := h.rest_edge he hsA htA
      rw [h.kind?_eq (h.contains_rest hsU)] at hs
      exact h.rest_hadamard hg hsU htU he hs

end Laid

end Diagram

namespace Workspace

variable {g : Diagram} {options : ExtractionOptions} {n k : ℕ} {U : Finset ℕ} {A : List ℕ}
  {w w' : Workspace}

/-- The state of an extraction between two rounds, for a diagram with `k` outputs. -/
structure Orderly (k : ℕ) (w : Workspace) : Prop where
  fst_eq : w.frontier.map Prod.fst = List.range k
  nodup_snd : (w.frontier.map Prod.snd).Nodup
  apart : ∀ u ∈ w.frontier.map Prod.snd, ∀ v ∈ w.frontier.map Prod.snd,
    w.diagram.edgeKind? u v = none
  bare : ∀ v ∈ w.frontier.map Prod.snd, w.diagram.kind? v = some .z →
    w.diagram.phase? v = some Phase.zero
  green_edge : ∀ {s t e}, w.diagram.kind? s = some .z → w.diagram.kind? t = some .z →
    w.diagram.edgeKind? s t = some e → e = .hadamard

theorem Reached.orderly (h : Reached g n U A [] w) (hg : g.Normal) :
    w.Orderly g.outputs.length where
  fst_eq := h.laid.length_eq ▸ h.laid.fst_eq
  nodup_snd := h.laid.nodup_snd hg.toWellFormed
  apart u hu v hv := by
    obtain ⟨⟨p, _⟩, hp, rfl⟩ := List.mem_map.mp hu
    obtain ⟨⟨q, _⟩, hq, rfl⟩ := List.mem_map.mp hv
    exact h.laid.edgeKind?_eq_none hg.toWellFormed hp hq
  bare v hv hz := by
    obtain ⟨⟨q, _⟩, hq, rfl⟩ := List.mem_map.mp hv
    exact h.laid.phase?_entry hg.toWellFormed hq hz
  green_edge hs ht he := h.laid.green_edge hg hs ht he

/-- One round leads from one state to the next. -/
def Advances (w w' : Workspace) : Prop := ∃ new, w.advance.outcome = .ok (new, w')

theorem Reached.of_advances (hg : g.Normal) (h : Reached g n U A [] w)
    (hrun : Relation.ReflTransGen Advances w w') : ∃ U' A', Reached g n U' A' [] w' := by
  induction hrun with
  | refl => exact ⟨U, A, h⟩
  | tail _ hstep ih =>
      obtain ⟨U₁, A₁, h₁⟩ := ih
      obtain ⟨new, hnew⟩ := hstep
      obtain ⟨new', A₂, w₂, hok, h₂, -⟩ := advance_reached h₁ hg
      rw [hnew, Except.ok.injEq, Prod.mk.injEq] at hok
      rw [hok.2]
      exact ⟨_, A₂, h₂⟩

end Workspace

namespace Diagram

variable {g : Diagram} {options : ExtractionOptions}

/-- After the frontier is prepared and after any number of rounds, the state is orderly. Therefore
an extraction that gives no circuit has stalled, or its outputs clash, or a number has left its
range: the phases or the scalar while spiders are fused, or the size of a table. A table can be too
large only in the last stages, or when the inputs are padded and the slots are full. -/
theorem extract_orderly (hg : g.WellFormed) (hk : g.inputs.length = g.outputs.length)
    (hwidth : options.width = 0 ∨ g.outputs.length ≤ options.width) :
    (∀ w w', (g.extractionStart options).prepare.outcome = .ok w →
      Relation.ReflTransGen Advances w w' → w'.Orderly g.outputs.length) ∧
    ∀ e, (g.extract options).outcome = .error e →
      (∃ count left w, e = .failure (.stalled count left) w) ∨ IsMisfit e ∨
      e = .fault .overflow ∨
      e = .fault .tooLarge ∧
        (¬TablesFit g.outputs.length (g.extractionWidth options) options ∨ g.Crowded) := by
  constructor
  · intro w w' hprep hrun
    obtain ⟨w₀, hw₀⟩ := exists_normalised hprep
    have hnormal := (normaliseInputs_ends hg).of_eq_ok hw₀
    obtain ⟨A, h, -⟩ := (prepare_ends hnormal hw₀
      (congrArg Circuit.gates hnormal.circuit_eq)).of_eq_ok hprep
    obtain ⟨U', A', h'⟩ := Reached.of_advances hnormal.normal h hrun
    rw [← outputs_normalised hg hw₀]
    exact h'.orderly hnormal.normal
  · intro e he
    cases hout : (g.extractionStart options).normaliseInputs.outcome with
    | ok w =>
        obtain ⟨-, hmisfit, -⟩ | ⟨hstall, -⟩ | ⟨he, -, hlarge⟩ :=
          (extract_ends hg hk hwidth hout).2 e he
        · exact .inr (.inl hmisfit)
        · exact .inl hstall
        · rw [outputs_normalised hg hout] at hlarge
          exact .inr (.inr (.inr ⟨he, .inl hlarge⟩))
    | error e' =>
        rw [extract_eq hk hwidth, Run.outcome_bind, prepare, Run.outcome_bind, hout] at he
        obtain rfl := Except.error.inj he
        obtain hoverflow | ⟨hlarge, hcrowded⟩ := (normaliseInputs_ends hg).2 e' hout
        · exact .inr (.inr (.inl hoverflow))
        · exact .inr (.inr (.inr ⟨hlarge, .inr hcrowded⟩))

theorem extract_orderly_braid : ∃ w, (braid.extractionStart {}).prepare.outcome = .ok w ∧
    w.Orderly 2 ∧ ∀ e, (braid.extract {}).outcome = .error e →
      (∃ count left w, e = .failure (.stalled count left) w) ∨ IsMisfit e ∨
      e = .fault .overflow := by
  obtain ⟨w, hw⟩ := braid_prepare
  have hboth := @extract_orderly braid {} braid_wellFormed rfl (.inl rfl)
  refine ⟨w, hw, hboth.1 w w hw .refl, fun e he => ?_⟩
  obtain hstall | hmisfit | hoverflow | ⟨-, hlarge | hcrowded⟩ := hboth.2 e he
  · exact .inl hstall
  · exact .inr (.inl hmisfit)
  · exact .inr (.inr hoverflow)
  · exact absurd ⟨by decide, by decide⟩ hlarge
  · exact absurd hcrowded (by unfold Crowded; decide)

/-- The table for the clean-up of `2^60` qubits is too large, even though there is no wire. -/
theorem extract_faults_wide : empty.WellFormed ∧ ∃ e,
    (empty.extract { width := 2 ^ 60 }).outcome = .error e ∧
    ¬((∃ count left w, e = .failure (.stalled count left) w) ∨ IsMisfit e ∨
      e = .fault .overflow) := by
  refine ⟨by decide, .fault .tooLarge, extract_empty_wide, ?_⟩
  rintro (⟨count, left, w, he⟩ | (⟨o, left, he⟩ | ⟨v, left, he⟩) | he) <;> cases he

end Diagram

end ZX
