import Mathlib
import ZX.Diagram.Basic
import ZX.Proofs.Outcome

/-!
# Diagrams as labelled simple graphs

The abstract reading of a diagram consists of the data of each vertex, its links, the two boundary
lists and the scalar. A diagram is consistent when the arena behind it stores such a graph: every
edge stands in the lists of both its ends, once in each and never at one vertex twice, the free list
names exactly the empty slots, and both counters count. The operations of the arena are described by
what they do to the reading.
-/
namespace ZX.Diagram

variable {g : Diagram} {s t u v : Nat} {e : EdgeKind}

/-- The links of a vertex; a missing vertex has none. -/
def linksAt (g : Diagram) (v : Nat) : List Link := (g.vertex? v).elim [] Vertex.links

def data? (g : Diagram) (v : Nat) : Option VertexData := (g.vertex? v).map Vertex.data

theorem contains_iff : g.contains v = true ↔ ∃ x, g.vertex? v = some x := by
  rw [contains, Option.isSome_iff_exists]

theorem contains_of_vertex? {x : Vertex} (h : g.vertex? v = some x) : g.contains v := by
  rw [contains, h]
  rfl

theorem linksAt_of_vertex? {x : Vertex} (h : g.vertex? v = some x) : g.linksAt v = x.links := by
  rw [linksAt, h]
  rfl

theorem data?_of_vertex? {x : Vertex} (h : g.vertex? v = some x) : g.data? v = some x.data := by
  rw [data?, h]
  rfl

theorem contains_of_data? {d : VertexData} (h : g.data? v = some d) : g.contains v := by
  obtain ⟨x, hx, -⟩ := Option.map_eq_some_iff.mp h
  exact contains_of_vertex? hx

theorem vertex?_of_data? {d : VertexData} (h : g.data? v = some d) :
    g.vertex? v = some ⟨d, g.linksAt v⟩ := by
  obtain ⟨x, hx, rfl⟩ := Option.map_eq_some_iff.mp h
  rw [linksAt_of_vertex? hx]
  exact hx

theorem contains_iff_data? : g.contains v = true ↔ ∃ d, g.data? v = some d := by
  constructor
  · intro h
    obtain ⟨x, hx⟩ := contains_iff.mp h
    exact ⟨_, data?_of_vertex? hx⟩
  · rintro ⟨d, hd⟩
    exact contains_of_data? hd

theorem contains_of_mem_linksAt {l : Link} (h : l ∈ g.linksAt v) : g.contains v := by
  cases hv : g.vertex? v with
  | none => simp [linksAt, hv] at h
  | some x => exact contains_of_vertex? hv

theorem vertex?_eq_some {x : Vertex} : g.vertex? v = some x ↔ g.slots[v]? = some (some x) := by
  rw [vertex?, Option.join_eq_some_iff]

theorem lt_size_of_contains (h : g.contains v) : v < g.slots.size := by
  obtain ⟨x, hx⟩ := contains_iff.mp h
  exact (Array.getElem?_eq_some_iff.mp (vertex?_eq_some.mp hx)).1

/-- The data of a fixed diagram can be read off its slots. -/
theorem forall_data?_of_all {P : VertexData → Prop} [DecidablePred P]
    (h : ∀ v < g.slots.size, (g.data? v).all (P ·) = true) : ∀ v d, g.data? v = some d → P d := by
  intro v d hd
  have hv := h v (lt_size_of_contains (contains_of_data? hd))
  rwa [hd, Option.all_some, decide_eq_true_eq] at hv

@[simp] theorem mem_vertices : v ∈ g.vertices ↔ g.contains v := by
  rw [vertices, List.mem_filter, List.mem_range]
  exact ⟨fun h => h.2, fun h => ⟨lt_size_of_contains h, h⟩⟩

theorem nodup_vertices (g : Diagram) : g.vertices.Nodup := List.nodup_range.filter _

/-- The set of the vertices. -/
def support (g : Diagram) : Finset Nat := g.vertices.toFinset

@[simp] theorem mem_support : v ∈ g.support ↔ g.contains v := by
  rw [support, List.mem_toFinset, mem_vertices]

theorem card_support (g : Diagram) : g.support.card = g.vertices.length :=
  List.toFinset_card_of_nodup g.nodup_vertices

/-! ## Reading -/

theorem data_of_data? {d : VertexData} (h : g.data? v = some d) : g.data v = .ok d := by
  have hv := vertex?_eq_some.mp (vertex?_of_data? h)
  simp only [data, hv]

theorem data_eq_ok {d : VertexData} : g.data v = .ok d ↔ g.data? v = some d := by
  constructor
  · intro h
    unfold data at h
    split at h
    · cases h
    · cases h
    · rename_i x hx
      cases h
      exact data?_of_vertex? (vertex?_eq_some.mpr hx)
  · exact data_of_data?

/-- A field can be read exactly where the data can. -/
theorem field_eq_ok {α : Type} {f : VertexData → α} {x : α} :
    (do return f (← g.data v)) = (.ok x : Except Fault α) ↔
      ∃ d, g.data? v = some d ∧ f d = x := by
  cases hd : g.data v with
  | error e =>
      have hnone : ∀ d, g.data? v ≠ some d := fun d h => by cases hd.symm.trans (data_of_data? h)
      constructor
      · intro h
        cases h
      · rintro ⟨d, h, -⟩
        exact absurd h (hnone d)
  | ok d =>
      have hdata := data_eq_ok.mp hd
      constructor
      · intro h
        exact ⟨d, hdata, Except.ok.inj h⟩
      · rintro ⟨d', h, rfl⟩
        cases hdata.symm.trans h
        rfl

theorem kind_eq_ok {k : VertexKind} : g.kind v = .ok k ↔ ∃ d, g.data? v = some d ∧ d.kind = k :=
  field_eq_ok

theorem phase_eq_ok {p : Phase} : g.phase v = .ok p ↔ ∃ d, g.data? v = some d ∧ d.phase = p :=
  field_eq_ok

theorem qubit_eq_ok {x : Float} : g.qubit v = .ok x ↔ ∃ d, g.data? v = some d ∧ d.qubit = x :=
  field_eq_ok

theorem column_eq_ok {x : Float} : g.column v = .ok x ↔ ∃ d, g.data? v = some d ∧ d.column = x :=
  field_eq_ok

theorem kind_of_data? {d : VertexData} (h : g.data? v = some d) : g.kind v = .ok d.kind :=
  kind_eq_ok.mpr ⟨d, h, rfl⟩

theorem phase_of_data? {d : VertexData} (h : g.data? v = some d) : g.phase v = .ok d.phase :=
  phase_eq_ok.mpr ⟨d, h, rfl⟩

theorem qubit_of_data? {d : VertexData} (h : g.data? v = some d) : g.qubit v = .ok d.qubit :=
  qubit_eq_ok.mpr ⟨d, h, rfl⟩

theorem qubit_congr {g' : Diagram} {x : Float} (hdata : g'.data? v = g.data? v)
    (h : g.qubit v = .ok x) : g'.qubit v = .ok x := by
  obtain ⟨d, hd, hdx⟩ := qubit_eq_ok.mp h
  exact qubit_eq_ok.mpr ⟨d, hdata.trans hd, hdx⟩

theorem column_of_data? {d : VertexData} (h : g.data? v = some d) : g.column v = .ok d.column :=
  column_eq_ok.mpr ⟨d, h, rfl⟩

theorem links_of_contains (h : g.contains v) : g.links v = .ok (g.linksAt v) := by
  obtain ⟨x, hx⟩ := contains_iff.mp h
  simp only [links, hx, linksAt_of_vertex? hx]

theorem neighbours_of_contains (h : g.contains v) :
    g.neighbours v = .ok ((g.linksAt v).map Prod.fst) := by
  rw [neighbours, links_of_contains h]
  rfl

theorem degree_of_contains (h : g.contains v) : g.degree v = .ok (g.linksAt v).length := by
  rw [degree, links_of_contains h]
  rfl

theorem edgeKind?_eq_lookup : g.edgeKind? s t = (g.linksAt s).lookup t := by
  cases h : g.vertex? s with
  | none => simp [edgeKind?, linksAt, h]
  | some x => simp [edgeKind?, linksAt, h]

/-! ## Keyed lists -/

theorem lookup_eq_some_iff {links : List Link} (h : (links.map Prod.fst).Nodup) :
    links.lookup t = some e ↔ (t, e) ∈ links := by
  induction links with
  | nil => simp
  | cons l links ih =>
      obtain ⟨w, f⟩ := l
      simp only [List.map_cons, List.nodup_cons] at h
      by_cases hw : t = w
      · subst hw
        have hnot : (t, e) ∉ links := fun hm => h.1 (List.mem_map_of_mem hm)
        simp [hnot, eq_comm]
      · have hb : (t == w) = false := by simpa using hw
        simp [List.lookup_cons, hb, ih h.2, hw]

theorem lookup_eq_none {links : List Link} (h : t ∉ links.map Prod.fst) :
    links.lookup t = none := by
  rw [List.lookup_eq_none_iff]
  intro l hl
  exact bne_iff_ne.mpr fun htl => h (htl ▸ List.mem_map_of_mem hl)

theorem lookup_filter_ne {α : Type} (links : List (Nat × α)) (u v : Nat) :
    (links.filter (·.1 ≠ v)).lookup u = if u = v then none else links.lookup u := by
  induction links with
  | nil => simp
  | cons l links ih =>
      by_cases hl : l.1 = v
      · rw [List.filter_cons_of_neg (by simpa using hl), ih, List.lookup_cons, hl]
        by_cases hu : u = v
        · rw [if_pos hu, if_pos hu]
        · rw [if_neg hu, if_neg hu, beq_false_of_ne hu]
      · rw [List.filter_cons_of_pos (by simpa using hl), List.lookup_cons, List.lookup_cons, ih]
        by_cases hu : u = l.1
        · simp [hu, hl]
        · rw [beq_false_of_ne hu]

theorem notMem_of_nodup {done rest : List Link}
    (h : ((done ++ (t, e) :: rest).map Prod.fst).Nodup) : t ∉ done.map Prod.fst := by
  rw [List.map_append, List.map_cons, List.nodup_middle, List.nodup_cons] at h
  exact fun hmem => h.1 (List.mem_append_left _ hmem)

theorem swapRemove_perm {α : Type} {xs : List α} {i : Nat} (h : i < xs.length) :
    (swapRemove xs i).Perm (xs.eraseIdx i) := by
  obtain ⟨ys, x, rfl⟩ := List.eq_nil_or_concat xs |>.resolve_left (by rintro rfl; simp at h)
  simp only [List.concat_eq_append, List.length_append, List.length_singleton] at h
  simp only [swapRemove, List.concat_eq_append, List.getLast?_append, List.getLast?_singleton,
    Option.some_or]
  by_cases hi : i = ys.length
  · subst hi
    rw [List.eraseIdx_append_of_length_le (Nat.le_refl _)]
    simp
  · have hi' : i < ys.length := by omega
    rw [List.set_append_left _ _ hi', List.dropLast_concat, List.eraseIdx_append_of_lt_length hi',
      List.set_eq_take_append_cons_drop, if_pos hi', List.eraseIdx_eq_take_drop_succ]
    refine List.perm_middle.trans ?_
    exact (List.perm_append_singleton x _).symm

theorem findIdx?_key_eq_none {links : List Link} :
    links.findIdx? (·.1 == t) = none ↔ t ∉ links.map Prod.fst := by
  rw [List.findIdx?_eq_none_iff]
  simp only [beq_eq_false_iff_ne, List.mem_map, not_exists, not_and]

theorem eraseLink_eq_self {links : List Link} (h : t ∉ links.map Prod.fst) :
    eraseLink links t = links := by
  rw [eraseLink, findIdx?_key_eq_none.mpr h]

/-- In a list with distinct far ends, erasing a link leaves the links to all others. -/
theorem eraseLink_perm {links : List Link} (h : (links.map Prod.fst).Nodup) :
    (eraseLink links t).Perm (links.filter (·.1 ≠ t)) := by
  cases hf : links.findIdx? (·.1 == t) with
  | none =>
      have ht := findIdx?_key_eq_none.mp hf
      rw [eraseLink_eq_self ht, List.filter_eq_self.mpr]
      intro l hl
      simp only [ne_eq, decide_not, Bool.not_eq_eq_eq_not, Bool.not_true, decide_eq_false_iff_not]
      rintro rfl
      exact ht (List.mem_map_of_mem hl)
  | some i =>
      obtain ⟨hi, hkey, -⟩ := List.findIdx?_eq_some_iff_getElem.mp hf
      have hkey : links[i].1 = t := by simpa using hkey
      simp only [eraseLink, hf]
      refine (swapRemove_perm hi).trans (List.Perm.of_eq ?_)
      have hsplit : links = links.take i ++ links[i] :: links.drop (i + 1) := by simp
      have hnd := h
      rw [hsplit, List.map_append, List.map_cons, List.nodup_append, List.nodup_cons] at hnd
      rw [List.eraseIdx_eq_take_drop_succ]
      conv_rhs => rw [hsplit]
      rw [List.filter_append, List.filter_cons_of_neg (by simp [hkey])]
      congr 1
      · symm
        rw [List.filter_eq_self]
        intro l hl
        have := hnd.2.2 l.1 (List.mem_map_of_mem hl) links[i].1 (by simp)
        simpa [hkey] using this
      · symm
        rw [List.filter_eq_self]
        intro l hl
        have : l.1 ≠ links[i].1 := fun hc => hnd.2.1.1 (hc ▸ List.mem_map_of_mem hl)
        simpa [hkey] using this

theorem mem_eraseLink {links : List Link} (h : (links.map Prod.fst).Nodup) {l : Link} :
    l ∈ eraseLink links t ↔ l ∈ links ∧ l.1 ≠ t := by
  rw [(eraseLink_perm h).mem_iff, List.mem_filter]
  simp

theorem nodup_eraseLink {links : List Link} (h : (links.map Prod.fst).Nodup) :
    ((eraseLink links t).map Prod.fst).Nodup := by
  rw [((eraseLink_perm h).map Prod.fst).nodup_iff]
  exact h.sublist (List.filter_sublist.map _)

theorem length_eraseLink {links : List Link} (h : (links.map Prod.fst).Nodup) :
    links.length = (eraseLink links t).length + if t ∈ links.map Prod.fst then 1 else 0 := by
  rw [(eraseLink_perm h).length_eq]
  induction links with
  | nil => simp
  | cons l links ih =>
      simp only [List.map_cons, List.nodup_cons] at h
      have ih := ih h.2
      by_cases hl : l.1 = t
      · have ht : t ∉ links.map Prod.fst := hl ▸ h.1
        rw [List.filter_cons_of_neg (by simp [hl])]
        simp only [ht, if_false] at ih
        simp [hl, ih]
      · rw [List.filter_cons_of_pos (by simp [hl])]
        have hne : t ≠ l.1 := fun hc => hl hc.symm
        simp only [List.length_cons, List.map_cons, List.mem_cons, hne, false_or]
        omega

/-- Changing the kind of the first link to a vertex. -/
def setLink (links : List Link) (t : Nat) (e : EdgeKind) : List Link :=
  links.map fun l => if l.1 = t then (t, e) else l

theorem set_findIdx?_eq_setLink {links : List Link} {i : Nat} (h : (links.map Prod.fst).Nodup)
    (hi : links.findIdx? (·.1 == t) = some i) : links.set i (t, e) = setLink links t e := by
  induction links generalizing i with
  | nil => simp at hi
  | cons l links ih =>
      simp only [List.map_cons, List.nodup_cons] at h
      by_cases hl : l.1 = t
      · have ht : t ∉ links.map Prod.fst := hl ▸ h.1
        rw [List.findIdx?_cons, if_pos (by simpa using hl)] at hi
        cases hi
        simp only [List.set_cons_zero, setLink, List.map_cons, if_pos hl]
        congr 1
        conv_lhs => rw [← List.map_id links]
        refine List.map_congr_left fun l' hl' => ?_
        rw [if_neg, id_eq]
        rintro rfl
        exact ht (List.mem_map_of_mem hl')
      · rw [List.findIdx?_cons, if_neg (by simpa using hl)] at hi
        obtain ⟨j, hj, rfl⟩ := Option.map_eq_some_iff.mp hi
        simp only [List.set_cons_succ, setLink, List.map_cons, if_neg hl]
        congr 1
        exact ih h.2 hj

@[simp] theorem map_fst_setLink {links : List Link} :
    (setLink links t e).map Prod.fst = links.map Prod.fst := by
  rw [setLink, List.map_map]
  refine List.map_congr_left fun l _ => ?_
  by_cases hl : l.1 = t
  · simp [hl]
  · simp [hl]

@[simp] theorem length_setLink {links : List Link} : (setLink links t e).length = links.length := by
  rw [setLink, List.length_map]

theorem mem_setLink {links : List Link} {f : EdgeKind} :
    (u, f) ∈ setLink links t e ↔
      if u = t then f = e ∧ t ∈ links.map Prod.fst else (u, f) ∈ links := by
  simp only [setLink, List.mem_map]
  split
  · rename_i hu
    subst hu
    constructor
    · rintro ⟨l, hl, he⟩
      by_cases h : l.1 = u
      · rw [if_pos h] at he
        exact ⟨by simpa using (congrArg Prod.snd he).symm, l, hl, h⟩
      · rw [if_neg h] at he
        exact absurd (congrArg Prod.fst he) h
    · rintro ⟨rfl, l, hl, hlu⟩
      exact ⟨l, hl, by rw [if_pos hlu]⟩
  · rename_i hu
    constructor
    · rintro ⟨l, hl, he⟩
      by_cases h : l.1 = t
      · rw [if_pos h] at he
        exact absurd (congrArg Prod.fst he).symm hu
      · rw [if_neg h] at he
        exact he ▸ hl
    · intro h
      exact ⟨(u, f), h, by rw [if_neg hu]⟩

end ZX.Diagram
