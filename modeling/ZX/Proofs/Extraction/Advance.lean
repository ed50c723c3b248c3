import Mathlib
import ZX.Extraction.Round
import ZX.Proofs.Extraction.Frontier

/-!
# Moving the frontier

A spider of the frontier that has a single edge, into the rest, gives its place to the far end. A
spider moves up in its stead; an input is tied to it. Either way the far end is freed, and what is
known about the frontier stays true.
-/
namespace ZX

open Finset Function

namespace Diagram

variable {g D D' : Diagram} {U : Finset ℕ} {A N : List ℕ} {F : List FrontierEntry}
  {q s t u v : ℕ} {e : EdgeKind}

/-- The spider `v` has a single edge, to `u` in the rest. Nothing else in front of the rest is
adjacent to `u` but new spiders, and these are not if `u` is an input. -/
structure Ready (g : Diagram) (U : Finset ℕ) (A N : List ℕ) (F : List FrontierEntry) (D : Diagram)
    (q v u : ℕ) : Prop where
  holds : A[q]? = some v
  entry : (q, v) ∈ F
  hangs : D.HangsOn v u .hadamard
  mem_rest : u ∈ U
  only : ∀ s ∈ A, D.edgeKind? s u ≠ none → s = v ∨ s ∈ N ∧ u ∉ g.inputs

namespace Laid

variable (h : Laid g U A N F D)
include h

theorem mem_set_entry {p x : ℕ} (hq : q < A.length) :
    (p, x) ∈ F.set q (q, u) ↔ (p = q ∧ x = u) ∨ (p ≠ q ∧ (p, x) ∈ F) := by
  have hlen : F.length = A.length := by
    have := congrArg List.length h.fst_eq
    simpa using this
  rw [List.mem_iff_getElem?]
  constructor
  · intro hmem
    obtain ⟨i, hi⟩ := hmem
    by_cases hiq : q = i
    · subst hiq
      rw [List.getElem?_set_self (by omega)] at hi
      cases hi
      exact .inl ⟨rfl, rfl⟩
    · rw [List.getElem?_set_ne hiq] at hi
      have hmem := List.mem_of_getElem? hi
      refine .inr ⟨fun hpq => hiq ?_, hmem⟩
      have hfst : (F.map Prod.fst)[i]? = some p := by rw [List.getElem?_map, hi]; rfl
      rw [h.fst_eq] at hfst
      obtain ⟨_, hip⟩ := List.getElem?_eq_some_iff.mp hfst
      rw [List.getElem_range] at hip
      omega
  · intro hmem
    obtain ⟨rfl, rfl⟩ | ⟨hpq, hmem⟩ := hmem
    · exact ⟨p, List.getElem?_set_self (by omega)⟩
    · exact ⟨p, by rw [List.getElem?_set_ne hpq.symm]; exact h.mem_iff_getElem?.mp hmem⟩

theorem fst_set (q u : ℕ) : (F.set q (q, u)).map Prod.fst = List.range A.length := by
  rw [List.map_set, h.fst_eq]
  refine List.ext_getElem? fun i => ?_
  by_cases hiq : q = i
  · subst hiq
    rw [List.getElem?_set]
    by_cases hlt : q < A.length <;> simp [hlt]
  · rw [List.getElem?_set_ne hiq]

/-- A single edge into the rest leads to a vertex that is not adjacent to the rest by a plain edge:
edges between members of the rest are Hadamard edges. -/
theorem rest_hadamard (hg : g.Normal) (hs : s ∈ U) (ht : t ∈ U) (he : D.edgeKind? s t = some e)
    (hz : g.kind? s = some .z) : e = .hadamard := by
  rw [h.rest_eq s hs t ht] at he
  exact hg.edge_hadamard hz (mem_filter.mp (h.subset ht)).2.1 he

end Laid

namespace Ready

theorem lt (hr : Ready g U A N F D q v u) : q < A.length :=
  (List.getElem?_eq_some_iff.mp hr.holds).1

theorem mem_holders (hr : Ready g U A N F D q v u) : v ∈ A := List.mem_of_getElem? hr.holds

variable (hr : Ready g U A N F D q v u) (h : Laid g U A N F D)
include hr h

theorem notMem_holders : u ∉ A := fun hc => (h.left u hc).1 hr.mem_rest

theorem ne : u ≠ v := fun hc => hr.notMem_holders h (hc ▸ hr.mem_holders)

/-- The other qubits are held by other spiders. -/
theorem ne_holder {p : ℕ} (hp : A[p]? = some s) (hpq : p ≠ q) : s ≠ v := by
  rintro rfl
  exact hpq (eq_of_getElem? h.nodup hp hr.holds)

/-- The entry that is replaced is not the one of an input. -/
theorem mem_set_entry_input (hg : g.WellFormed) {p b : ℕ} (hb : b ∈ g.inputs) (hp : (p, b) ∈ F) :
    (p, b) ∈ F.set q (q, u) := by
  refine (h.mem_set_entry hr.lt).mpr (.inr ⟨fun hpq => ?_, hp⟩)
  subst hpq
  exact h.notMem_inputs hg hr.mem_holders (h.entry_unique hr.entry hp ▸ hb)

end Ready

theorem Tied.mono {U' : Finset ℕ} (htied : Tied g U D s t) (hU : U' ⊆ U) : Tied g U' D s t :=
  ⟨htied.input, fun hc => htied.done (hU hc), htied.hangs, htied.hangs_back⟩

/-- The diagram after a spider `v` of the frontier was removed and its neighbour took its place. -/
structure Replaced (D : Diagram) (v u : ℕ) (D' : Diagram) : Prop where
  consistent : D'.Consistent
  data?_eq : ∀ t, t ≠ u → D'.data? t = if t = v then none else D.data? t
  kind?_eq : D'.kind? u = some .z
  phase?_eq : D'.phase? u = some Phase.zero
  edgeKind?_eq : ∀ s t, D'.edgeKind? s t = if s = v ∨ t = v then none else D.edgeKind? s t
  inputs_eq : D'.inputs = D.inputs
  outputs_eq : D'.outputs = D.outputs
  scalar_eq : D'.scalar = D.scalar

namespace Replaced

theorem contains_iff (h : Replaced D v u D') (hu : D.contains u = true) (huv : u ≠ v) :
    D'.contains t = true ↔ t ≠ v ∧ D.contains t = true := by
  by_cases htu : t = u
  · subst htu
    simp [contains_of_kind? h.kind?_eq, hu, huv]
  · rw [contains_eq_data?_isSome, h.data?_eq t htu, contains_eq_data?_isSome]
    by_cases htv : t = v <;> simp [htv]

theorem edge_of (h : Replaced D v u D') (he : D'.edgeKind? s t = some e) :
    s ≠ v ∧ t ≠ v ∧ D.edgeKind? s t = some e := by
  rw [h.edgeKind?_eq] at he
  split at he
  case isTrue => cases he
  case isFalse hne =>
    rw [not_or] at hne
    exact ⟨hne.1, hne.2, he⟩

end Replaced

/-- A tie away from the removed spider stays. -/
theorem Tied.replaced (htied : Tied g U D s t) (hD : Replaced D v u D') (hsv : s ≠ v)
    (htv : t ≠ v) : Tied g U D' s t where
  input := htied.input
  done := htied.done
  hangs a := by
    rw [hD.edgeKind?_eq, htied.hangs a]
    by_cases hav : a = v
    · simp [hav, hsv.symm]
    · simp [hav, htv]
  hangs_back a := by
    rw [hD.edgeKind?_eq, htied.hangs_back a]
    by_cases hav : a = v
    · simp [hav, htv.symm]
    · simp [hav, hsv]

/-- The edges of the spiders that hold the qubits, once `u` has moved up: what led to `u` in the
rest now leads to a new spider. -/
theorem Laid.hop_edge (h : Laid g U A N F D) (hg : g.Normal) (hr : Ready g U A N F D q v u)
    (hz : g.kind? u = some .z) (hD : Replaced D v u D') (hs : s ∈ A.set q u)
    (he : D'.edgeKind? s t = some e) :
    (e = .hadamard ∧ (t ∈ U.erase u ∨ t ∈ A.set q u ∧ s ∈ u :: N ∧ t ∈ u :: N)) ∨
      (e = .plain ∧ t ∈ g.inputs ∧ ∃ p : ℕ, (A.set q u)[p]? = some s ∧ (p, t) ∈ F.set q (q, u)) := by
  have hmem : ∀ {t}, t ∈ A.set q u ↔ t = u ∨ t ∈ A ∧ t ≠ v := mem_set_iff h.nodup hr.holds
  obtain ⟨hsv, htv, he⟩ := hD.edge_of he
  obtain rfl | ⟨hsA, -⟩ := hmem.mp hs
  · -- the new spider: its neighbours in front of the rest are new as well
    have hback := (h.consistent.edgeKind?_comm t s).trans he
    by_cases htA : t ∈ A
    · have htN := ((hr.only t htA (by rw [hback]; simp)).resolve_left htv).1
      obtain ⟨rfl, -⟩ | ⟨-, hin, -⟩ := h.edge htA hback
      · exact .inl ⟨rfl, .inr ⟨hmem.mpr (.inr ⟨htA, htv⟩), List.mem_cons_self,
          List.mem_cons_of_mem _ htN⟩⟩
      · rw [hg.kind?_input hin] at hz
        cases hz
    · have htU := (h.rest_edge he (hr.notMem_holders h) htA).2
      have hne := (h.consistent.ne_of_edgeKind? he).symm
      exact .inl ⟨h.rest_hadamard hg hr.mem_rest htU he hz, .inl (mem_erase.mpr ⟨hne, htU⟩)⟩
  · obtain ⟨rfl, htU | ⟨htA, hsN, htN⟩⟩ | ⟨rfl, hin, p, hp, hpt⟩ := h.edge hsA he
    · by_cases htu : t = u
      · subst htu
        have hsN := ((hr.only s hsA (by rw [he]; simp)).resolve_left hsv).1
        exact .inl ⟨rfl, .inr ⟨hmem.mpr (.inl rfl), List.mem_cons_of_mem _ hsN,
          List.mem_cons_self⟩⟩
      · exact .inl ⟨rfl, .inl (mem_erase.mpr ⟨htu, htU⟩)⟩
    · exact .inl ⟨rfl, .inr ⟨hmem.mpr (.inr ⟨htA, htv⟩), List.mem_cons_of_mem _ hsN,
        List.mem_cons_of_mem _ htN⟩⟩
    · have hpq : p ≠ q := by
        rintro rfl
        exact hsv (Option.some.inj (hp.symm.trans hr.holds))
      refine .inr ⟨rfl, hin, p, ?_, hr.mem_set_entry_input h hg.toWellFormed hin hpt⟩
      rw [List.getElem?_set_ne hpq.symm, hp]

theorem Laid.hop {x : Float} (h : Laid g U A N F D) (hg : g.Normal) (hr : Ready g U A N F D q v u)
    (hz : g.kind? u = some .z) (hD : Replaced D v u D') (hx : D'.qubit u = .ok x)
    (hline : Decimal.OnLine q x) :
    Laid g (U.erase u) (A.set q u) (u :: N) (F.set q (q, u)) D' := by
  have hvA := hr.mem_holders
  have huA := hr.notMem_holders h
  have huv := hr.ne h
  have hvin := h.notMem_inputs hg.toWellFormed hvA
  have hvout : v ∉ g.outputs := by
    intro hout
    have hk := (h.green v hvA).1
    rw [hg.kind?_output hout] at hk
    cases hk
  have hucont := h.contains_rest hr.mem_rest
  have hmem : ∀ {t}, t ∈ A.set q u ↔ t = u ∨ t ∈ A ∧ t ≠ v := mem_set_iff h.nodup hr.holds
  have hdata : ∀ {t}, t ∈ A → t ≠ v → D'.data? t = D.data? t := by
    intro t ht htv
    rw [hD.data?_eq t (fun hc => huA (hc ▸ ht)), if_neg htv]
  constructor
  case consistent => exact hD.consistent
  case inputs_eq => exact hD.inputs_eq.trans h.inputs_eq
  case outputs_eq => exact hD.outputs_eq.trans h.outputs_eq
  case scalar_eq => exact hD.scalar_eq.trans h.scalar_eq
  case contains_iff =>
    intro t
    rw [hD.contains_iff hucont huv, h.contains_iff, hmem, mem_erase]
    constructor
    · intro ht
      tauto
    · intro ht
      have hvU := (h.left v hvA).1
      have hviso := (h.left v hvA).2
      by_cases htv : t = v
      · subst htv
        tauto
      · refine ⟨htv, ?_⟩
        by_cases htu : t = u
        · exact .inr (.inl (htu ▸ hr.mem_rest))
        · tauto
  case data?_eq =>
    intro t ht hcont
    rw [hmem, not_or, not_and_or, not_not] at ht
    obtain ⟨htv, hcont⟩ := (hD.contains_iff hucont huv).mp hcont
    rw [hD.data?_eq t ht.1, if_neg htv]
    exact h.data?_eq t (ht.2.resolve_right htv) hcont
  case subset => exact (erase_subset _ _).trans h.subset
  case nodup => exact h.nodup.set huA
  case length_eq => rw [List.length_set, h.length_eq]
  case green =>
    intro t ht
    obtain rfl | ⟨htA, htv⟩ := hmem.mp ht
    · exact ⟨hz, hD.kind?_eq⟩
    · have hkind : D'.kind? t = D.kind? t := by rw [kind?, kind?, hdata htA htv]
      rw [hkind]
      exact h.green t htA
  case phase?_eq =>
    intro t ht
    obtain rfl | ⟨htA, htv⟩ := hmem.mp ht
    · exact hD.phase?_eq
    · rw [phase?, hdata htA htv]
      exact h.phase?_eq t htA
  case line =>
    intro p t hp
    by_cases hpq : p = q
    · subst hpq
      rw [List.getElem?_set_self hr.lt] at hp
      cases hp
      exact ⟨x, hx, hline⟩
    · rw [List.getElem?_set_ne (Ne.symm hpq)] at hp
      obtain ⟨y, hy, hyline⟩ := h.line p t hp
      have hsame := hdata (List.mem_of_getElem? hp) (hr.ne_holder h hp hpq)
      exact ⟨y, qubit_congr hsame hy, hyline⟩
  case left =>
    intro t ht
    rw [mem_erase]
    obtain rfl | ⟨htA, -⟩ := hmem.mp ht
    · exact ⟨fun hc => hc.1 rfl, (mem_filter.mp (h.subset hr.mem_rest)).2.2⟩
    · exact ⟨fun hc => (h.left t htA).1 hc.2, (h.left t htA).2⟩
  case rest_eq =>
    intro s hs t ht
    have hne : ∀ t ∈ U.erase u, t ≠ v := fun t ht hc =>
      (h.left v hvA).1 (hc ▸ mem_of_mem_erase ht)
    rw [hD.edgeKind?_eq, if_neg (by simp [hne s hs, hne t ht])]
    exact h.rest_eq s (mem_of_mem_erase hs) t (mem_of_mem_erase ht)
  case rest_edge =>
    intro s t e he hs ht
    obtain ⟨hsv, htv, he⟩ := hD.edge_of he
    rw [hmem, not_or, not_and_or, not_not] at hs ht
    obtain ⟨hsU, htU⟩ := h.rest_edge he (hs.2.resolve_right hsv) (ht.2.resolve_right htv)
    exact ⟨mem_erase.mpr ⟨hs.1, hsU⟩, mem_erase.mpr ⟨ht.1, htU⟩⟩
  case edge => exact fun hs he => h.hop_edge hg hr hz hD hs he
  case input_edge =>
    intro b s hb hs he p hp
    obtain ⟨hsv, hbv, he⟩ := hD.edge_of he
    obtain rfl | ⟨hsA, -⟩ := hmem.mp hs
    · have hbA : b ∉ A := fun hc => h.notMem_inputs hg.toWellFormed hc hb
      obtain ⟨-, hbU⟩ := h.rest_edge he huA hbA
      rw [h.rest_eq s hr.mem_rest b hbU] at he
      obtain ⟨a, -, ha⟩ := hg.input_hangs b hb
      have hsa := (ha.eq_of_edgeKind? ((hg.toConsistent.edgeKind?_comm b s).trans he)).1
      rw [ha p, if_neg]
      exact fun hc => (mem_erase.mp hp).1 (hc.trans hsa.symm)
    · exact h.input_edge hb hsA he p (mem_of_mem_erase hp)
  case fst_eq => rw [h.fst_set, List.length_set]
  case entry =>
    intro p y hy
    obtain ⟨rfl, rfl⟩ | ⟨hpq, hy⟩ := (h.mem_set_entry hr.lt).mp hy
    · exact ⟨y, List.getElem?_set_self hr.lt, .inl rfl⟩
    · obtain ⟨s, hs, hys⟩ := h.entry hy
      refine ⟨s, by rw [List.getElem?_set_ne hpq.symm, hs], hys.imp_right fun htied => ?_⟩
      have hyv : y ≠ v := fun hc => hvin (hc ▸ htied.input)
      exact (htied.replaced hD (hr.ne_holder h hs hpq) hyv).mono (erase_subset _ _)
  case done =>
    intro b hb hbU
    have hbu : b ≠ u := by
      rintro rfl
      rw [hg.kind?_input hb] at hz
      cases hz
    obtain ⟨p, hp⟩ := h.done b hb fun hc => hbU (mem_erase.mpr ⟨hbu, hc⟩)
    exact ⟨p, hr.mem_set_entry_input h hg.toWellFormed hb hp⟩

theorem EdgeSet.trans {D'' : Diagram} {o o' : Option EdgeKind} (h : EdgeSet D s t o D')
    (h' : EdgeSet D' s t o' D'') : EdgeSet D s t o' D'' where
  consistent := h'.consistent
  data?_eq a := (h'.data?_eq a).trans (h.data?_eq a)
  edgeKind?_eq a b := by
    rw [h'.edgeKind?_eq, h.edgeKind?_eq]
    split <;> rfl
  linksAt_eq a hs ht := (h'.linksAt_eq a hs ht).trans (h.linksAt_eq a hs ht)
  inputs_eq := h'.inputs_eq.trans h.inputs_eq
  outputs_eq := h'.outputs_eq.trans h.outputs_eq
  scalar_eq := h'.scalar_eq.trans h.scalar_eq
  vertexCount_eq := h'.vertexCount_eq.trans h.vertexCount_eq

theorem EdgeSet.symm {o : Option EdgeKind} (h : EdgeSet D s t o D') : EdgeSet D t s o D' where
  consistent := h.consistent
  data?_eq := h.data?_eq
  edgeKind?_eq a b := by
    rw [h.edgeKind?_eq]
    exact if_congr or_comm rfl rfl
  linksAt_eq a ht hs := h.linksAt_eq a hs ht
  inputs_eq := h.inputs_eq
  outputs_eq := h.outputs_eq
  scalar_eq := h.scalar_eq
  vertexCount_eq := h.vertexCount_eq

theorem EdgeSet.hangsOn {f : EdgeKind} (h : EdgeSet D s t (some f) D') (hst : s ≠ t)
    (hhang : D.HangsOn s t e) : D'.HangsOn s t f := by
  intro a
  rw [h.edgeKind?_eq, hhang a]
  by_cases hat : a = t
  · simp [hat, IsPair]
  · simp [hat, IsPair, hst]

/-- If `t` hangs on `s`, then an edge is the one between them or is away from `t` and was there
before. -/
theorem EdgeSet.edge_of_hangsOn {a b : ℕ} {f k : EdgeKind} (h : EdgeSet D s t (some f) D')
    (hD : D.Consistent) (hhang : D.HangsOn t s e) (he : D'.edgeKind? a b = some k) :
    (k = f ∧ IsPair s t a b) ∨ (a ≠ t ∧ b ≠ t ∧ D.edgeKind? a b = some k) := by
  rw [h.edgeKind?_eq] at he
  by_cases hpair : IsPair s t a b
  · rw [if_pos hpair] at he
    exact .inl ⟨(Option.some.inj he).symm, hpair⟩
  · rw [if_neg hpair] at he
    refine .inr ⟨?_, ?_, he⟩
    · rintro rfl
      exact hpair (.inr ⟨rfl, (hhang.eq_of_edgeKind? he).1⟩)
    · rintro rfl
      exact hpair (.inl ⟨(hhang.eq_of_edgeKind? ((hD.edgeKind?_comm b a).trans he)).1, rfl⟩)

/-- An input that can be tied has no other edge. -/
theorem Laid.hangs_input {b : ℕ} (h : Laid g U A N F D) (hr : Ready g U A N F D q v b)
    (hb : b ∈ g.inputs) : D.HangsOn b v .hadamard := by
  have hvb : D.edgeKind? v b = some .hadamard := by rw [hr.hangs, if_pos rfl]
  intro t
  by_cases htv : t = v
  · rw [htv, if_pos rfl, h.consistent.edgeKind?_comm, hvb]
  · rw [if_neg htv]
    by_contra hne
    obtain ⟨e, he⟩ := Option.ne_none_iff_exists'.mp hne
    by_cases htA : t ∈ A
    · rw [h.consistent.edgeKind?_comm] at hne
      exact ((hr.only t htA hne).resolve_left htv).2 hb
    · obtain ⟨hbU, htU⟩ := h.rest_edge he (hr.notMem_holders h) htA
      rw [h.rest_eq b hbU t htU, h.input_edge hb hr.mem_holders hvb t htU] at he
      cases he

theorem Laid.tie {b : ℕ} (h : Laid g U A N F D) (hg : g.WellFormed) (hr : Ready g U A N F D q v b)
    (hb : b ∈ g.inputs) (hD : EdgeSet D v b (some .plain) D') :
    Laid g (U.erase b) A (b :: N) (F.set q (q, b)) D' := by
  have hvA := hr.mem_holders
  have hbA := hr.notMem_holders h
  have hvb := (hr.ne h).symm
  have hhang := h.hangs_input hr hb
  -- An edge of the new diagram is the tie or was there before.
  have hedge : ∀ {s t e}, D'.edgeKind? s t = some e → (e = .plain ∧ IsPair v b s t) ∨
      (s ≠ b ∧ t ≠ b ∧ D.edgeKind? s t = some e) := hD.edge_of_hangsOn h.consistent hhang
  have htieEntry : (q, b) ∈ F.set q (q, b) := (h.mem_set_entry hr.lt).mpr (.inl ⟨rfl, rfl⟩)
  constructor
  case consistent => exact hD.consistent
  case inputs_eq => exact hD.inputs_eq.trans h.inputs_eq
  case outputs_eq => exact hD.outputs_eq.trans h.outputs_eq
  case scalar_eq => exact hD.scalar_eq.trans h.scalar_eq
  case contains_iff =>
    intro t
    rw [hD.contains_eq, h.contains_iff, mem_erase]
    by_cases htb : t = b
    · subst htb
      tauto
    · tauto
  case data?_eq =>
    intro t ht hcont
    rw [hD.contains_eq] at hcont
    rw [hD.data?_eq]
    exact h.data?_eq t ht hcont
  case subset => exact (erase_subset _ _).trans h.subset
  case nodup => exact h.nodup
  case length_eq => exact h.length_eq
  case green =>
    intro t ht
    rw [hD.recast.kind?_eq]
    exact h.green t ht
  case phase?_eq =>
    intro t ht
    rw [hD.phase?_eq]
    exact h.phase?_eq t ht
  case line =>
    intro p t hp
    obtain ⟨y, hy, hyline⟩ := h.line p t hp
    exact ⟨y, qubit_congr (hD.data?_eq t) hy, hyline⟩
  case left => exact fun t ht => ⟨fun hc => (h.left t ht).1 (mem_of_mem_erase hc), (h.left t ht).2⟩
  case rest_eq =>
    intro s hs t ht
    rw [hD.edgeKind?_eq, if_neg (by simp [IsPair, (mem_erase.mp hs).1, (mem_erase.mp ht).1])]
    exact h.rest_eq s (mem_of_mem_erase hs) t (mem_of_mem_erase ht)
  case rest_edge =>
    intro s t e he hs ht
    obtain ⟨-, ⟨rfl, -⟩ | ⟨-, rfl⟩⟩ | ⟨hsb, htb, he⟩ := hedge he
    · exact absurd hvA hs
    · exact absurd hvA ht
    · obtain ⟨hsU, htU⟩ := h.rest_edge he hs ht
      exact ⟨mem_erase.mpr ⟨hsb, hsU⟩, mem_erase.mpr ⟨htb, htU⟩⟩
  case edge =>
    intro s t e hs he
    obtain ⟨rfl, ⟨rfl, rfl⟩ | ⟨rfl, -⟩⟩ | ⟨hsb, htb, he⟩ := hedge he
    · exact .inr ⟨rfl, hb, q, hr.holds, htieEntry⟩
    · exact absurd hs hbA
    · obtain ⟨rfl, htU | ⟨htA, hsN, htN⟩⟩ | ⟨rfl, hin, p, hp, hpt⟩ := h.edge hs he
      · exact .inl ⟨rfl, .inl (mem_erase.mpr ⟨htb, htU⟩)⟩
      · exact .inl ⟨rfl, .inr ⟨htA, List.mem_cons_of_mem _ hsN, List.mem_cons_of_mem _ htN⟩⟩
      · exact .inr ⟨rfl, hin, p, hp, hr.mem_set_entry_input h hg hin hpt⟩
  case input_edge =>
    intro c s hc hs he p hp
    obtain ⟨hplain, -⟩ | ⟨-, -, he⟩ := hedge he
    · cases hplain
    · exact h.input_edge hc hs he p (mem_of_mem_erase hp)
  case fst_eq => exact h.fst_set q b
  case entry =>
    intro p y hy
    obtain ⟨rfl, rfl⟩ | ⟨hpq, hy⟩ := (h.mem_set_entry hr.lt).mp hy
    · exact ⟨v, hr.holds, .inr ⟨hb, fun hc => (mem_erase.mp hc).1 rfl,
        hD.symm.hangsOn hvb.symm hhang, hD.hangsOn hvb hr.hangs⟩⟩
    · obtain ⟨s, hs, hys⟩ := h.entry hy
      refine ⟨s, hs, hys.imp_right fun htied => ?_⟩
      have hyb : y ≠ b := fun hc => htied.done (hc ▸ hr.mem_rest)
      have hsb : s ≠ b := fun hc => hbA (hc ▸ List.mem_of_getElem? hs)
      have hsv := hr.ne_holder h hs hpq
      have hvin := h.notMem_inputs hg hvA
      have hyv : y ≠ v := fun hc => hvin (hc ▸ htied.input)
      have hfree : ∀ a, a ≠ b → a ≠ v → ∀ t, D'.edgeKind? a t = D.edgeKind? a t := by
        intro a hab hav t
        rw [hD.edgeKind?_eq, if_neg]
        unfold IsPair
        tauto
      have htied' := Laid.tied_congr htied fun t => ⟨hfree s hsb hsv t, hfree y hyb hyv t⟩
      exact htied'.mono (erase_subset _ _)
  case done =>
    intro c hc hcU
    by_cases hcb : c = b
    · exact ⟨q, hcb ▸ htieEntry⟩
    · obtain ⟨p, hp⟩ := h.done c hc fun hin => hcU (mem_erase.mpr ⟨hcb, hin⟩)
      exact ⟨p, hr.mem_set_entry_input h hg hc hp⟩

/-- Removing a spider without a phase that hangs on another one moves the qubit there. -/
theorem Replaced.hops (h : Replaced D v u D') (hD : D.Consistent)
    (hgreen : ∀ t, D.kind? t ≠ some .x) (hhang : D.HangsOn v u e) (hu : D.kind? u = some .z)
    (hv : D.kind? v = some .z) (hphase : D.phase? v = some Phase.zero) : Hops D v u e D' := by
  have hvu : D.edgeKind? v u = some e := by rw [hhang, if_pos rfl]
  have huv : u ≠ v := (hD.ne_of_edgeKind? hvu).symm
  have hucont := contains_of_kind? hu
  have hkind : ∀ t, t ≠ v → D'.kind? t = D.kind? t := by
    intro t htv
    by_cases htu : t = u
    · rw [htu, h.kind?_eq, hu]
    · rw [kind?, kind?, h.data?_eq t htu, if_neg htv]
  have hgone : D'.data? v = none := by rw [h.data?_eq v huv.symm, if_pos rfl]
  have hturn : D'.turn v = 1 := by
    rw [turn, if_neg, phase?, hgone]
    · rfl
    · rw [kind?, hgone]
      simp
  constructor
  case consistent => exact h.consistent
  case green =>
    intro t ht
    have htv := ((h.contains_iff hucont huv).mp (contains_of_kind? ht)).1
    rw [hkind t htv] at ht
    exact hgreen t ht
  case edge => exact hvu
  case spider => exact mem_spiders.mpr ⟨hucont, by rw [hu]; simp⟩
  case inputs_eq => exact h.inputs_eq
  case scalar_eq => exact h.scalar_eq
  case edgeKind?_eq =>
    intro s t
    rw [h.edgeKind?_eq]
    by_cases hsv : s = v
    · subst hsv
      by_cases htu : t = u
      · simp [htu, IsPair]
      · simp [hhang t, htu]
    · by_cases htv : t = v
      · subst htv
        by_cases hsu : s = u
        · simp [hsu, IsPair]
        · simp [hD.edgeKind?_comm s t, hhang s, hsu]
      · simp [hsv, htv, IsPair]
  case turn_eq =>
    intro t htu
    by_cases htv : t = v
    · rw [htv, hturn, turn_of_phase_zero hphase]
    · rw [turn, turn, hkind t htv, phase?, phase?, h.data?_eq t htu, if_neg htv]
  case turn_target => exact turn_of_phase_zero h.phase?_eq
  case bare =>
    refine ⟨fun t => ?_, hturn⟩
    rw [h.edgeKind?_eq, if_pos (.inl rfl)]
  case support_eq =>
    ext t
    rw [mem_insert, mem_support, mem_support, h.contains_iff hucont huv]
    by_cases htv : t = v
    · simp [htv, contains_of_kind? hv]
    · simp [htv]
  case spiders_eq =>
    ext t
    rw [mem_erase, mem_spiders, mem_spiders, h.contains_iff hucont huv]
    by_cases htv : t = v
    · simp [htv]
    · simp [htv, hkind t htv]

/-- The neighbourhood of a vertex that hangs on another one. -/
theorem row_of_hangsOn (h : D.HangsOn v u e) :
    D.row U v = if u ∈ U then Pi.single u 1 else 0 := by
  funext t
  rw [row, connected, h t]
  by_cases htu : t = u
  · subst htu
    by_cases ht : t ∈ U <;> simp [ht]
  · by_cases hu : u ∈ U <;> simp [htu, hu]

/-- The far end of a single edge into the rest can be freed. -/
theorem Ready.frees (h : Ready g U A N F D q v u) (hg : g.Consistent)
    (hspan : D.rowSpan U A.toFinset = g.rowSpan U (g.spiders \ U)) : g.Frees U u := by
  rw [frees_iff hg, ← hspan]
  refine ⟨h.mem_rest, ?_⟩
  have hrow := row_mem_rowSpan (g := D) (U := U)
    (List.mem_toFinset.mpr (List.mem_of_getElem? h.holds))
  rwa [row_of_hangsOn h.hangs, if_pos h.mem_rest] at hrow

end Diagram

namespace Workspace

open Diagram

variable {g D D' : Diagram} {U : Finset ℕ} {A N : List ℕ} {n q u v : ℕ} {w w' : Workspace}

theorem replaceEntry_eq {F : List FrontierEntry} {k : ℕ} (h : F.map Prod.fst = List.range k)
    (hq : q < k) : replaceEntry F q u = F.set q (q, u) := by
  have hlen : F.length = k := by
    have := congrArg List.length h
    simpa using this
  have hfst : ∀ i (hi : i < F.length), F[i].1 = i := by
    intro i hi
    have := congrArg (·[i]?) h
    simp only [List.getElem?_map, List.getElem?_eq_getElem hi, Option.map_some] at this
    rw [List.getElem?_range (by omega)] at this
    exact Option.some.inj this
  have hidx : F.findIdx? (·.1 = q) = some q := by
    rw [List.findIdx?_eq_some_iff_getElem]
    refine ⟨by omega, by simp [hfst q (by omega)], fun j hj => ?_⟩
    simp only [hfst j (by omega), decide_eq_true_eq]
    omega
  rw [replaceEntry, hidx]

theorem Reached.hop {x : Float} {c : Circuit} {phase : Phase} (h : Reached g n U A N w)
    (hg : g.Normal) (hr : Ready g U A N w.frontier w.diagram q v u) (hz : g.kind? u = some .z)
    (hD : Replaced w.diagram v u D) (hx : D.qubit u = .ok x) (hline : Decimal.OnLine q x)
    (hphase : w.diagram.phase? u = some phase) (hwidth : c.width = n)
    (hc : c.gates = ⟨.zPhase, [q], phase⟩ :: .plain .had [q] :: w.circuit.gates) :
    Reached g n (U.erase u) (A.set q u) (u :: N) ⟨D, c, w.frontier.set q (q, u)⟩ := by
  have hvA := hr.mem_holders
  have huA := hr.notMem_holders h.laid
  have hgreen := h.laid.not_red hg.green
  have hzD : w.diagram.kind? u = some .z :=
    (h.laid.kind?_eq (h.laid.contains_rest hr.mem_rest)).trans hz
  have hspider : u ∈ g.spiders := mem_spiders.mpr ⟨contains_of_kind? hz, by rw [hz]; simp⟩
  have huin : u ∉ g.inputs := by
    intro hin
    rw [hg.kind?_input hin] at hz
    cases hz
  have hvU : v ∉ U := (h.laid.left v hvA).1
  constructor
  case laid => exact h.laid.hop hg hr hz hD hx hline
  case leads =>
    have hhops := hD.hops h.laid.consistent hgreen hr.hangs hzD (h.laid.green v hvA).2
      (h.laid.phase?_eq v hvA)
    have hstep := hhops.leads_hadamard h.laid.consistent hgreen h.laid.nodup hr.holds
      (by rw [h.laid.inputs_eq]; exact h.laid.notMem_inputs hg.toWellFormed hvA)
      (by rw [h.laid.inputs_eq]; exact huin) huA
      (turn_of_phase? (by rw [hzD]; simp) hphase) (h.laid.length_eq ▸ hr.lt)
    have hall := h.leads.trans hstep
    rw [hc]
    exact hall
  case spans =>
    have hmem : ∀ {t}, t ∈ (A.set q u).toFinset ↔ t = u ∨ t ∈ A ∧ t ≠ v := fun {t} => by
      rw [List.mem_toFinset, mem_set_iff h.laid.nodup hr.holds]
    have hsame : ∀ {t}, t ≠ v → D.row (U.erase u) t = w.diagram.row (U.erase u) t := by
      intro t htv
      refine row_congr fun s hs => ?_
      have hsv : s ≠ v := fun hc => hvU (hc ▸ mem_of_mem_erase hs)
      rw [hD.edgeKind?_eq, if_neg (by simp [htv, hsv])]
    have hnew : D.row (U.erase u) u = g.row (U.erase u) u := by
      rw [hsame (hr.ne h.laid)]
      exact row_congr fun s hs => h.laid.rest_eq u hr.mem_rest s (mem_of_mem_erase hs)
    have huY : u ∈ g.spiders \ U.erase u := by simp [hspider]
    refine rowSpan_eq_step h.spans (erase_subset _ _)
      (sdiff_subset_sdiff Subset.rfl (erase_subset _ _)) (fun t ht => ?_) (fun t ht => ?_)
      fun t ht => ?_
    · obtain rfl | ⟨htA, htv⟩ := hmem.mp ht
      · exact .inr ⟨huY, hnew⟩
      · exact .inl ⟨List.mem_toFinset.mpr htA, hsame htv⟩
    · by_cases htv : t = v
      · left
        rw [htv, row_of_hangsOn hr.hangs, if_neg (by simp)]
      · exact .inr ⟨hmem.mpr (.inr ⟨List.mem_toFinset.mp ht, htv⟩), hsame htv⟩
    · by_cases htu : t = u
      · exact .inr ⟨hmem.mpr (.inl htu), htu ▸ hnew⟩
      · refine .inl (mem_sdiff.mpr ⟨(mem_sdiff.mp ht).1, fun hc => ?_⟩)
        exact (mem_sdiff.mp ht).2 (mem_erase.mpr ⟨htu, hc⟩)
  case freed => exact h.freed.tail ⟨u, hr.frees hg.toConsistent h.spans, rfl⟩
  case width_eq => exact hwidth

theorem Reached.tie {b : ℕ} {c : Circuit} (h : Reached g n U A N w) (hg : g.Normal)
    (hr : Ready g U A N w.frontier w.diagram q v b) (hb : b ∈ g.inputs)
    (hcut : EdgeSet w.diagram v b none D) (hD : EdgeSet D v b (some .plain) D')
    (hwidth : c.width = n) (hc : c.gates = .plain .had [q] :: w.circuit.gates) :
    Reached g n (U.erase b) A (b :: N) ⟨D', c, w.frontier.set q (q, b)⟩ := by
  have hvA := hr.mem_holders
  have hset := hcut.trans hD
  have hvb : w.diagram.edgeKind? v b = some .hadamard := by rw [hr.hangs, if_pos rfl]
  have hbk : g.kind? b = some .boundary := hg.kind?_input hb
  have hbs : b ∉ g.spiders := fun hc => (mem_spiders.mp hc).2 hbk
  have hbsD : b ∉ w.diagram.spiders := by
    intro hc
    obtain ⟨hcont, hkind⟩ := mem_spiders.mp hc
    rw [h.laid.kind?_eq hcont] at hkind
    exact hkind hbk
  constructor
  case laid => exact h.laid.tie hg.toWellFormed hr hb hset
  case leads =>
    have hbare : D.Bare v := by
      refine ⟨fun t => ?_, ?_⟩
      · rw [hcut.edgeKind?_eq, hr.hangs t]
        by_cases htb : t = b
        · simp [htb, IsPair]
        · simp [htb]
      · rw [hcut.turn_eq]
        exact turn_of_phase_zero (h.laid.phase?_eq v hvA)
    have hstep := leads_tie hcut hD h.laid.consistent (h.laid.not_red hg.green) h.laid.nodup
      hr.holds (by rw [h.laid.inputs_eq]; exact h.laid.notMem_inputs hg.toWellFormed hvA)
      (by rw [h.laid.inputs_eq]; exact hb) hbsD hvb hbare h.laid.length_eq
    have hall := h.leads.trans hstep
    rw [hc]
    exact hall
  case spans =>
    have hsame : ∀ t, D'.row (U.erase b) t = w.diagram.row (U.erase b) t := by
      intro t
      refine row_congr fun s hs => ?_
      have hsb := (mem_erase.mp hs).1
      have hsv : s ≠ v := fun hc => (h.laid.left v hvA).1 (hc ▸ mem_of_mem_erase hs)
      rw [hset.edgeKind?_eq, if_neg]
      unfold IsPair
      tauto
    refine rowSpan_eq_step h.spans (erase_subset _ _)
      (sdiff_subset_sdiff Subset.rfl (erase_subset _ _)) (fun t ht => .inl ⟨ht, hsame t⟩)
      (fun t ht => .inr ⟨ht, hsame t⟩) fun t ht => .inl ?_
    obtain ⟨hts, htU⟩ := mem_sdiff.mp ht
    refine mem_sdiff.mpr ⟨hts, fun hc => htU (mem_erase.mpr ⟨fun htb => hbs (htb ▸ hts), hc⟩)⟩
  case freed => exact h.freed.tail ⟨b, hr.frees hg.toConsistent h.spans, rfl⟩
  case width_eq => exact hwidth

/-- A vertex without a phase is moved to the line of another one, unless it is there already. -/
theorem exists_aligned {d : VertexData} {line : Float} (hD : D.Consistent) (hd : D.data? u = some d)
    (hphase : d.phase = Phase.zero) (hv : D.contains v = true)
    (hline : Decimal.OnLine q line) :
    ∃ D', ((∃ g y, (line != d.qubit) = true ∧ D.setQubit u line = .ok g ∧ g.column v = .ok y ∧
        g.setColumn u (y + 1) = .ok D') ∨ (line != d.qubit) = false ∧ D' = D) ∧
      Restyled D u D' ∧ ∃ x, D'.qubit u = .ok x ∧ Decimal.OnLine q x := by
  by_cases hne : (line != d.qubit) = true
  · have hstyle := restyled_setData { d with qubit := line } hD hd rfl hphase
    have hd₁ : (D.setData u { d with qubit := line }).data? u = some { d with qubit := line } := by
      rw [data?_setData _ (contains_of_data? hd), if_pos rfl]
    obtain ⟨y, hy⟩ := exists_column (g := D.setData u { d with qubit := line }) (v := v)
      (by rw [contains_setData]; exact hv)
    refine ⟨(D.setData u { d with qubit := line }).setData u
      { d with qubit := line, column := y + 1 }, .inl ⟨_, y, hne, setQubit_eq hd line, hy,
        setColumn_eq hd₁ _⟩, ?_, line, ?_, hline⟩
    · exact hstyle.trans (restyled_setData _ hstyle.consistent hd₁ rfl hphase)
    · refine qubit_eq_ok.mpr ⟨{ d with qubit := line, column := y + 1 }, ?_, rfl⟩
      rw [data?_setData _ (contains_of_data? hd₁), if_pos rfl]
  · rw [Bool.not_eq_true] at hne
    refine ⟨D, .inr ⟨hne, rfl⟩, ⟨hD, fun _ _ => rfl, rfl, phase?_eq_some.mpr ⟨d, hd, hphase⟩, fun _ => rfl, rfl,
      rfl, rfl⟩, d.qubit, qubit_of_data? hd, hline.of_beq ?_⟩
    simpa [bne] using hne

/-- Cutting the edge of a vertex that hangs on a restyled one and removing it. -/
theorem exists_replaced {D₁ : Diagram} (hD : D.Consistent) (hhang : D.HangsOn v u .hadamard)
    (hstyle : Restyled D u D₁) (hu : D.kind? u = some .z) :
    ∃ D₂ D₃, D₁.removeEdge v u = .ok D₂ ∧ D₂.removeVertex v = .ok D₃ ∧ Replaced D v u D₃ ∧
      ∀ x, D₁.qubit u = .ok x → D₃.qubit u = .ok x := by
  have hvu : D.edgeKind? v u = some .hadamard := by rw [hhang, if_pos rfl]
  have huv : u ≠ v := (hD.ne_of_edgeKind? hvu).symm
  obtain ⟨D₂, hok₂, hcut⟩ := removeEdge_edgeSet hstyle.consistent
    ((hstyle.edgeKind?_eq v u).trans hvu)
  have hv₂ : D₂.contains v = true := by
    rw [hcut.contains_eq, hstyle.contains_eq]
    exact hD.contains_left hvu
  obtain ⟨D₃, hok₃, hgone⟩ := removeVertex_removed hcut.consistent hv₂
  have hdata : D₃.data? u = D₁.data? u := by rw [hgone.data?_eq, if_neg huv, hcut.data?_eq]
  refine ⟨D₂, D₃, hok₂, hok₃, ?_, fun x hx => ?_⟩
  · constructor
    case consistent => exact hgone.consistent
    case data?_eq =>
      intro t ht
      rw [hgone.data?_eq, hcut.data?_eq, hstyle.data?_eq t ht]
    case kind?_eq =>
      rw [kind?, hdata]
      exact hstyle.kind?_eq.trans hu
    case phase?_eq =>
      rw [phase?, hdata]
      exact hstyle.phase?_eq
    case edgeKind?_eq =>
      intro s t
      by_cases hsv : s = v
      · have hnone : D₃.linksAt v = [] := by rw [hgone.linksAt_eq, if_pos rfl]
        rw [if_pos (.inl hsv), hsv, edgeKind?_eq_lookup, hnone]
        rfl
      · rw [hgone.edgeKind?_eq_ite hcut.consistent hsv, hcut.edgeKind?_eq, hstyle.edgeKind?_eq]
        by_cases htv : t = v
        · simp [htv]
        · simp [hsv, htv, IsPair]
    case inputs_eq => rw [hgone.inputs_eq, hcut.inputs_eq, hstyle.inputs_eq]
    case outputs_eq => rw [hgone.outputs_eq, hcut.outputs_eq, hstyle.outputs_eq]
    case scalar_eq => rw [hgone.scalar_eq, hcut.scalar_eq, hstyle.scalar_eq]
  · exact qubit_congr hdata hx

/-- What an extracted vertex changes: it leaves the rest, joins the frontier, and takes away the
edges of the vertex before it or turns its own edge into a plain one. -/
structure Advanced (w : Workspace) (q v u : ℕ) (w' : Workspace) : Prop where
  frontier_eq : w'.frontier = w.frontier.set q (q, u)
  edgeKind?_eq : ∀ s t, s ≠ v → t ≠ v → w'.diagram.edgeKind? s t = w.diagram.edgeKind? s t
  behind : ∀ t, t ≠ u → w'.diagram.edgeKind? t v = none

theorem advanceTo_spider (h : Reached g n U A N w) (hg : g.Normal)
    (hr : Ready g U A N w.frontier w.diagram q v u)
    (hz : g.kind? u = some .z) :
    ∃ w', w.advanceTo q v u false = .ok w' ∧
      Reached g n (U.erase u) (A.set q u) (u :: N) w' ∧ Advanced w q v u w' := by
  have hcons := h.laid.consistent
  have hucont := h.laid.contains_rest hr.mem_rest
  obtain ⟨d, hd⟩ := contains_iff_data?.mp hucont
  have hzD : w.diagram.kind? u = some .z := (h.laid.kind?_eq hucont).trans hz
  obtain ⟨line, hvline, hline⟩ := h.laid.line q v hr.holds
  have hstyle₀ := restyled_setData { d with phase := Phase.zero } hcons hd rfl rfl
  set D₀ := w.diagram.setData u { d with phase := Phase.zero } with hD₀
  have hd₀ : D₀.data? u = some { d with phase := Phase.zero } := by
    rw [hD₀, data?_setData _ hucont, if_pos rfl]
  have hv₀ : D₀.qubit v = .ok line := qubit_congr (hstyle₀.data?_eq v (hr.ne h.laid).symm) hvline
  obtain ⟨D₁, hok₁, hstyle₁, x, hx₁, hxline⟩ := exists_aligned (v := v) hstyle₀.consistent hd₀ rfl
    ((hstyle₀.contains_eq v).trans (h.laid.contains_anchor hr.mem_holders)) hline
  obtain ⟨D₂, D₃, hok₂, hok₃, hreplaced, hx₃⟩ :=
    exists_replaced hcons hr.hangs (hstyle₀.trans hstyle₁) hzD
  have hphase : w.diagram.phase? u = some d.phase := phase?_eq_some.mpr ⟨d, hd, rfl⟩
  have hreached := h.hop (c := (w.circuit.pushFront (.plain .had [q])).pushFront
    ⟨.zPhase, [q], d.phase⟩) hg hr hz hreplaced (hx₃ x hx₁) hxline hphase h.width_eq rfl
  refine ⟨_, ?_, hreached, rfl, fun s t hs ht => ?_, fun t _ => ?_⟩
  · have hfst := replaceEntry_eq (u := u) h.laid.fst_eq hr.lt
    have hset : w.diagram.setPhase u Phase.zero = .ok D₀ := setPhase_eq hd _
    unfold advanceTo
    simp only [emit, Bool.false_eq_true, if_false, phase_of_data? hd, bind, Except.bind, hset, hv₀,
      qubit_of_data? hd₀]
    obtain ⟨D', y, hne, h₁, h₂, h₃⟩ | ⟨hne, rfl⟩ := hok₁
    · simp only [hne, if_true, h₁, h₂, h₃, hok₂, hok₃, hfst, pure, Except.pure]
    · simp only [hne, Bool.false_eq_true, if_false, hok₂, hok₃, hfst, pure, Except.pure]
  · show D₃.edgeKind? s t = _
    rw [hreplaced.edgeKind?_eq, if_neg (by simp [hs, ht])]
  · show D₃.edgeKind? t v = _
    rw [hreplaced.edgeKind?_eq, if_pos (.inr rfl)]

theorem advanceTo_input {b : ℕ} (h : Reached g n U A N w) (hg : g.Normal)
    (hr : Ready g U A N w.frontier w.diagram q v b) (hb : b ∈ g.inputs) :
    ∃ w', w.advanceTo q v b true = .ok w' ∧ Reached g n (U.erase b) A (b :: N) w' ∧
      Advanced w q v b w' := by
  have hcons := h.laid.consistent
  have hvb : w.diagram.edgeKind? v b = some .hadamard := by rw [hr.hangs, if_pos rfl]
  obtain ⟨D₁, hok₁, hcut⟩ := removeEdge_edgeSet hcons hvb
  obtain ⟨D₂, hok₂, hset⟩ := addEdge_edgeSet (s := v) (t := b) hcut.consistent
    (hcons.ne_of_edgeKind? hvb) (by rw [hcut.contains_eq]; exact hcons.contains_left hvb)
    (by rw [hcut.contains_eq]; exact hcons.contains_far hvb)
    (by rw [hcut.edgeKind?_eq, if_pos (isPair_self v b)]) .plain
  have hreached := h.tie (c := w.circuit.pushFront (.plain .had [q])) hg hr hb hcut hset h.width_eq
    rfl
  refine ⟨_, ?_, hreached, rfl, fun s t hs ht => ?_, fun t ht => ?_⟩
  · have hfst := replaceEntry_eq (u := b) h.laid.fst_eq hr.lt
    unfold advanceTo
    simp only [emit, if_true, bind, Except.bind, hok₁, hok₂, hfst, pure, Except.pure]
  · show D₂.edgeKind? s t = _
    rw [(hcut.trans hset).edgeKind?_eq, if_neg]
    unfold IsPair
    tauto
  · show D₂.edgeKind? t v = _
    rw [(hcut.trans hset).edgeKind?_eq, hcons.edgeKind?_comm, hr.hangs t, if_neg ht, if_neg]
    unfold IsPair
    have := hcons.ne_of_edgeKind? hvb
    tauto

end Workspace

end ZX
