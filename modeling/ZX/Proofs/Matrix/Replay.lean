import Mathlib
import ZX.Proofs.Matrix.Elimination

/-!
# Taking row steps back

Exclusive or is its own inverse on bytes, so a step that adds a row into another one is taken back by
the same step, as a swap is, and a list of steps by the same steps back to front. This needs neither
entries 0 and 1 nor a pivot that clears its column: elimination of any rectangular matrix of bytes
keeps a log of such steps, which leads from the matrix to the result and back.
-/
namespace ZX

namespace RowStep

/-- The rows of the step are among the first `n`, and no row is added into itself. -/
def Reversible (n : ℕ) : RowStep → Prop
  | .swap a b => a < n ∧ b < n
  | .add s t => s < n ∧ t < n ∧ s ≠ t

instance (n : ℕ) (step : RowStep) : Decidable (step.Reversible n) :=
  match step with
  | .swap a b => inferInstanceAs (Decidable (a < n ∧ b < n))
  | .add s t => inferInstanceAs (Decidable (s < n ∧ t < n ∧ s ≠ t))

theorem Within.reversible {n : ℕ} {step : RowStep} (h : step.Within n) : step.Reversible n := by
  cases step with
  | swap a b => exact ⟨h.1, h.2.1⟩
  | add s t => exact h

theorem replay_append {α : Type} [RowOps α] (steps steps' : List RowStep) (x : α) :
    replay (steps ++ steps') x = (replay steps x).bind (replay steps') := List.foldlM_append

theorem undo_cons {α : Type} [RowOps α] (step : RowStep) (steps : List RowStep) (x : α) :
    undo (step :: steps) x = (undo steps x).bind fun y => step.apply y := by
  rw [undo, List.reverse_cons, replay_append]
  congr 1
  funext y
  rw [replay_cons]
  cases step.apply y <;> rfl

end RowStep

namespace ByteMatrix

open RowStep

variable {m m' : ByteMatrix} {n w i c : ℕ} {steps steps' : List RowStep}

/-! ## One step -/

theorem addRows_addRows (k : ℕ) (source target : Array UInt8) :
    addRows k source (addRows k source target) = target := by
  apply Array.ext
  · rw [addRows, addRows, Array.size_mapIdx, Array.size_mapIdx]
  · intro j _ _
    simp only [addRows, Array.getElem_mapIdx]
    split
    case isTrue => rw [UInt8.xor_assoc, UInt8.xor_self, UInt8.xor_zero]
    case isFalse => rfl

theorem addRows_zero (source target : Array UInt8) : addRows 0 source target = target := by
  apply Array.ext
  · rw [addRows, Array.size_mapIdx]
  · intro j _ _
    simp only [addRows, Array.getElem_mapIdx, Nat.not_lt_zero, if_false]

theorem Rectangular.rowSwap (hm : m.Rectangular n w) {a b : ℕ} (ha : a < n) (hb : b < n) :
    ∃ m', m.rowSwap a b = .ok m' ∧ m'.Rectangular n w ∧
      ∀ r : ℕ, m'.rows[r]? = m.rows[Equiv.swap a b r]? := by
  obtain ⟨rowA, hokA, hrowA⟩ := hm.row_eq ha
  obtain ⟨rowB, hokB, hrowB⟩ := hm.row_eq hb
  refine ⟨⟨(m.rows.setIfInBounds a rowB).setIfInBounds b rowA⟩, ?_, ?_, ?_⟩
  · rw [ByteMatrix.rowSwap, hokA, hokB]
    rfl
  · have hfirst := hm.set (i := a) (hm.size_eq hrowB)
    exact hfirst.set (hm.size_eq hrowA)
  · intro r
    have hsize := hm.height
    rw [Equiv.swap_apply_def, Array.getElem?_setIfInBounds, Array.getElem?_setIfInBounds,
      Array.size_setIfInBounds]
    by_cases hrb : r = b
    · subst hrb
      by_cases hra : r = a
      · rw [if_pos rfl, if_pos (by omega), if_pos hra, hra, hrowA]
      · rw [if_pos rfl, if_pos (by omega), if_neg hra, if_pos rfl, hrowA]
    · by_cases hra : r = a
      · subst hra
        rw [if_neg (Ne.symm hrb), if_pos rfl, if_pos (by omega), if_pos rfl, hrowB]
      · rw [if_neg (Ne.symm hrb), if_neg (Ne.symm hra), if_neg hra, if_neg hrb]

theorem Rectangular.rowAdd (hm : m.Rectangular n w) {s t : ℕ} {source target : Array UInt8}
    (hs : m.rows[s]? = some source) (ht : m.rows[t]? = some target) :
    ∃ m', m.rowAdd s t = .ok m' ∧ m'.Rectangular n w ∧
      ∀ r : ℕ, m'.rows[r]? = if r = t then some (addRows w source target) else m.rows[r]? := by
  have htn : t < m.rows.size := (Array.getElem?_eq_some_iff.mp ht).1
  have hn : 0 < n := by
    rw [← hm.height]
    omega
  unfold ByteMatrix.rowAdd
  rw [hm.width_eq hn]
  by_cases hw : w = 0
  · subst hw
    refine ⟨m, rfl, hm, ?_⟩
    intro r
    rw [addRows_zero]
    split
    case isTrue hr => rw [hr, ht]
    case isFalse => rfl
  · have hsizes : ¬(source.size < w ∨ target.size < w) := by
      rw [hm.size_eq hs, hm.size_eq ht]
      omega
    refine ⟨⟨m.rows.setIfInBounds t (addRows w source target)⟩, ?_, ?_, ?_⟩
    · rw [if_neg hw, row, hs, row, ht]
      exact if_neg hsizes
    · apply hm.set
      rw [addRows, Array.size_mapIdx]
      exact hm.size_eq ht
    · intro r
      rw [Array.getElem?_setIfInBounds]
      by_cases hr : r = t
      · subst hr
        rw [if_pos rfl, if_pos htn, if_pos rfl]
      · rw [if_neg (Ne.symm hr), if_neg hr]

/-- A step between different rows is its own inverse. -/
theorem Rectangular.apply (hm : m.Rectangular n w) {step : RowStep} (h : step.Reversible n) :
    ∃ m', step.apply m = .ok m' ∧ m'.Rectangular n w ∧ step.apply m' = .ok m := by
  cases step with
  | swap a b =>
      obtain ⟨ha, hb⟩ := h
      obtain ⟨m', hok, hm', hrows⟩ := hm.rowSwap ha hb
      obtain ⟨m'', hok', _, hrows'⟩ := hm'.rowSwap ha hb
      have hback : m'' = m := by
        apply ext_rows
        intro r
        rw [hrows', hrows, Equiv.swap_apply_self]
      refine ⟨m', hok, hm', ?_⟩
      rw [← hback]
      exact hok'
  | add s t =>
      obtain ⟨hs, ht, hst⟩ := h
      obtain ⟨source, hsource⟩ := hm.exists_row hs
      obtain ⟨target, htarget⟩ := hm.exists_row ht
      obtain ⟨m', hok, hm', hrows⟩ := hm.rowAdd hsource htarget
      -- the source is another row, so it is still there to be added once more
      have hsource' : m'.rows[s]? = some source := by rw [hrows, if_neg hst, hsource]
      have htarget' : m'.rows[t]? = some (addRows w source target) := by rw [hrows, if_pos rfl]
      obtain ⟨m'', hok', _, hrows'⟩ := hm'.rowAdd hsource' htarget'
      have hback : m'' = m := by
        apply ext_rows
        intro r
        rw [hrows', hrows, addRows_addRows]
        split
        case isTrue hr => rw [hr, htarget]
        case isFalse => rfl
      refine ⟨m', hok, hm', ?_⟩
      rw [← hback]
      exact hok'

/-! ## Lists of steps -/

theorem Rectangular.replay (hm : m.Rectangular n w) (h : ∀ s ∈ steps, s.Reversible n) :
    ∃ m', replay steps m = .ok m' ∧ m'.Rectangular n w ∧ undo steps m' = .ok m := by
  induction steps generalizing m with
  | nil => exact ⟨m, rfl, hm, rfl⟩
  | cons s steps ih =>
      obtain ⟨m₁, hok, hm₁, hback⟩ := hm.apply (h s List.mem_cons_self)
      obtain ⟨m', hrun, hm', hundo⟩ := ih hm₁ fun s' hs' => h s' (List.mem_cons_of_mem s hs')
      refine ⟨m', ?_, hm', ?_⟩
      · rw [replay_cons, hok]
        exact hrun
      · rw [undo_cons, hundo]
        exact hback

/-! ## The log of an elimination -/

/-- The steps are between different rows and lead from `m` to `m'`. -/
structure Logged (n w : ℕ) (m : ByteMatrix) (steps : List RowStep) (m' : ByteMatrix) : Prop where
  rectangular : m'.Rectangular n w
  within : ∀ s ∈ steps, s.Within n
  replay_eq : RowStep.replay steps m = .ok m'

theorem Logged.nil (hm : m.Rectangular n w) : Logged n w m [] m := ⟨hm, by simp, rfl⟩

theorem Logged.append {m'' : ByteMatrix} (h : Logged n w m steps m') (h' : Logged n w m' steps' m'') :
    Logged n w m (steps ++ steps') m'' := by
  refine ⟨h'.rectangular, ?_, ?_⟩
  · intro s hs
    obtain hs | hs := List.mem_append.mp hs
    · exact h.within s hs
    · exact h'.within s hs
  · rw [replay_append, h.replay_eq]
    exact h'.replay_eq

theorem Rectangular.logged (hm : m.Rectangular n w) {step : RowStep} (h : step.Within n) :
    ∃ m', step.apply m = .ok m' ∧ Logged n w m [step] m' := by
  obtain ⟨m', hok, hm', _⟩ := hm.apply h.reversible
  refine ⟨m', hok, hm', ?_, ?_⟩
  · intro s hs
    rw [List.mem_singleton.mp hs]
    exact h
  · rw [replay_cons, hok]
    rfl

theorem Rectangular.raisePivot (hm : m.Rectangular n w) {r : ℕ} (hi : i < n) (hr : r < n) :
    ∃ m' steps, m.raisePivot i r = .ok (m', steps) ∧ Logged n w m steps m' := by
  by_cases hri : r = i
  · exact ⟨m, [], if_pos hri, .nil hm⟩
  · have hwithin : (RowStep.swap i r).Within n := ⟨hi, hr, Ne.symm hri⟩
    obtain ⟨m', hok, hlog⟩ := hm.logged hwithin
    have hok : m.rowSwap i r = .ok m' := hok
    refine ⟨m', [.swap i r], ?_, hlog⟩
    rw [ByteMatrix.raisePivot, if_neg hri, hok]
    rfl

theorem Rectangular.clearColumn (hi : i < n) (hc : c < w) (ks : List ℕ) (hks : ∀ k ∈ ks, k < n)
    (m : ByteMatrix) (hm : m.Rectangular n w) :
    ∃ m' steps, clearColumn i c ks m = .ok (m', steps) ∧ Logged n w m steps m' := by
  induction ks generalizing m with
  | nil => exact ⟨m, [], rfl, .nil hm⟩
  | cons k ks ih =>
      have hk := hks k List.mem_cons_self
      have hrest := ih fun k' hk' => hks k' (List.mem_cons_of_mem k hk')
      obtain ⟨x, hx, _⟩ := hm.entry_eq hk hc
      rw [ByteMatrix.clearColumn, hx]
      show ∃ m' steps, (if k ≠ i ∧ x ≠ 0 then _ else _) = _ ∧ _
      split
      case isTrue hne =>
        have hwithin : (RowStep.add i k).Within n := ⟨hi, hk, hne.1.symm⟩
        obtain ⟨added, hok, hlog⟩ := hm.logged hwithin
        have hok : m.rowAdd i k = .ok added := hok
        obtain ⟨m', steps, hclear, hlog'⟩ := hrest added hlog.rectangular
        refine ⟨m', .add i k :: steps, ?_, hlog.append hlog'⟩
        rw [hok]
        show ByteMatrix.clearColumn i c ks added >>= _ = _
        rw [hclear]
        rfl
      case isFalse => exact hrest m hm

theorem Rectangular.reduceRows (rows : List ℕ) (hrows : ∀ i ∈ rows, i < n) (c : ℕ) (m : ByteMatrix)
    (hm : m.Rectangular n w) :
    ∃ m' steps, reduceRows w rows c m = .ok (m', steps) ∧ Logged n w m steps m' := by
  induction rows generalizing c m with
  | nil => exact ⟨m, [], rfl, .nil hm⟩
  | cons i rows ih =>
      have hi := hrows i List.mem_cons_self
      have hrest := ih fun i' hi' => hrows i' (List.mem_cons_of_mem i hi')
      obtain ⟨row, hrow, _⟩ := hm.row_eq hi
      by_cases hc : w ≤ c
      · refine ⟨m, [], ?_, .nil hm⟩
        rw [ByteMatrix.reduceRows, if_pos hc]
        rfl
      by_cases hz : row.all (· = 0) = true
      · rw [ByteMatrix.reduceRows, if_neg hc, hrow]
        obtain ⟨m', steps, hreduce, hlog⟩ := hrest c m hm
        exact ⟨m', steps, (if_pos hz).trans hreduce, hlog⟩
      obtain ⟨o, ho, hsome, _⟩ := hm.findPivot i (w - c) c (by omega)
      cases o with
      | none =>
          refine ⟨m, [], ?_, .nil hm⟩
          rw [ByteMatrix.reduceRows, if_neg hc, hrow]
          refine (if_neg hz).trans ?_
          rw [ho]
          rfl
      | some rc =>
          obtain ⟨r, c'⟩ := rc
          obtain ⟨_, hcw, hpivot, _⟩ := hsome r c' rfl
          obtain ⟨raised, swaps, hraise, hlog₁⟩ := hm.raisePivot hi hpivot.lt
          obtain ⟨cleared, adds, hclear, hlog₂⟩ :=
            Rectangular.clearColumn hi (c := c') (by omega) (List.range m.height)
              (by simp [ByteMatrix.height, hm.height]) raised hlog₁.rectangular
          obtain ⟨m', steps, hreduce, hlog₃⟩ := hrest (c' + 1) cleared hlog₂.rectangular
          have hcalls : Calls m w i c cleared swaps adds r c' :=
            ⟨by omega, ⟨row, hrow, Bool.eq_false_iff.mpr hz⟩, ho, raised, hraise, hclear⟩
          refine ⟨m', swaps ++ adds ++ steps, ?_, (hlog₁.append hlog₂).append hlog₃⟩
          rw [hcalls.reduceRows_eq, hreduce]
          rfl

theorem Rectangular.eliminate (hm : m.Rectangular n w) :
    ∃ m' steps, m.eliminate = .ok (m', steps) ∧ Logged n w m steps m' := by
  rw [hm.eliminate_eq]
  refine Rectangular.reduceRows _ (fun i hi => ?_) 0 m hm
  rw [List.mem_range'_1] at hi
  omega

/-- The log of an elimination leads from the matrix to the result, and back when it is undone. Its
steps are between different rows, and any list of such steps, in either direction, is taken back by
the other one. -/
theorem eliminate_replays (hm : m.Rectangular n w) :
    (∃ m₀ steps, m.eliminate = .ok (m₀, steps) ∧ RowStep.replay steps m = .ok m₀ ∧
      undo steps m₀ = .ok m ∧ ∀ s ∈ steps, s.Within n) ∧
    ∀ steps : List RowStep, (∀ s ∈ steps, s.Reversible n) →
      (RowStep.replay steps m).bind (undo steps) = .ok m ∧
        (undo steps m).bind (RowStep.replay steps) = .ok m := by
  constructor
  · obtain ⟨m₀, steps, hok, hlog⟩ := hm.eliminate
    obtain ⟨m', hrun, _, hundo⟩ := hm.replay fun s hs => (hlog.within s hs).reversible
    have hsame : m' = m₀ := Except.ok.inj (hrun.symm.trans hlog.replay_eq)
    rw [hsame] at hundo
    exact ⟨m₀, steps, hok, hlog.replay_eq, hundo, hlog.within⟩
  · intro steps h
    obtain ⟨m', hrun, _, hundo⟩ := hm.replay h
    -- undoing is replaying back to front, so the other direction is the same fact
    have hreverse : ∀ s ∈ steps.reverse, s.Reversible n := fun s hs => h s (List.mem_reverse.mp hs)
    obtain ⟨m'', hrun', _, hundo'⟩ := hm.replay hreverse
    rw [undo, List.reverse_reverse] at hundo'
    constructor
    · rw [hrun]
      exact hundo
    · rw [undo, hrun']
      exact hundo'

/-- Three rows of bytes whose pivots do not clear their columns. -/
def uneven : ByteMatrix := ⟨#[#[0, 7, 255], #[6, 3, 1], #[2, 128, 0]]⟩

theorem eliminate_replays_uneven : uneven.Rectangular 3 3 ∧
    (∃ m₀ steps, uneven.eliminate = .ok (m₀, steps) ∧ RowStep.replay steps uneven = .ok m₀ ∧
      undo steps m₀ = .ok uneven) ∧
    (RowStep.replay [.swap 0 2, .add 2 1, .swap 1 1, .add 1 0] uneven).bind
      (undo [.swap 0 2, .add 2 1, .swap 1 1, .add 1 0]) = .ok uneven := by
  have hrect : uneven.Rectangular 3 3 := by decide
  obtain ⟨⟨m₀, steps, hok, hreplay, hundo, _⟩, hlist⟩ := eliminate_replays hrect
  exact ⟨hrect, ⟨m₀, steps, hok, hreplay, hundo⟩,
    (hlist [.swap 0 2, .add 2 1, .swap 1 1, .add 1 0] (by decide)).1⟩

end ByteMatrix

end ZX
