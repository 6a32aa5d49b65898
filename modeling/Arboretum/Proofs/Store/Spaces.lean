import Arboretum.Proofs.Store.Table

/-!
# Spaces keep apart

The spaces of a table share its rows, but what is known about a space depends on the rows of that
space only (`Sound.of_rows_eq`), and no operation of one space touches a row of another: writing,
making directories and removing leave `Table.rows` of every other space as it was, whatever the
path and whether they succeed or fail.
-/

namespace Arboretum

/-! ## 1. What a change keeps -/

namespace Changed

variable {σ ι β : Type} (look : σ → β)

/-- A change that happens whole or not at all keeps what its success keeps. -/
theorem look_whole {old : σ} {result : Except Fault σ}
    (h : ∀ new, result = .ok new → look new = look old) :
    look (whole old result).2 = look old := by
  cases result with
  | ok new => exact h new rfl
  | error f => rfl

/-- **Steps in turn keep what every step keeps.** -/
theorem look_inTurn {step : ι → σ → Changed σ} (h : ∀ x s, look (step x s).2 = look s)
    (xs : List ι) (s : σ) : look (inTurn step xs s).2 = look s := by
  induction xs generalizing s with
  | nil => rfl
  | cons x xs ih =>
    have hstep := h x s
    rw [inTurn]
    rcases hs : step x s with ⟨_ | _, t⟩
    · rw [hs] at hstep
      exact hstep
    · rw [hs] at hstep
      exact (ih t).trans hstep

/-- Steps in turn keep what holds of a state and is kept by every step. -/
theorem inTurn_keeps {P : σ → Prop} {step : ι → σ → Changed σ} {xs : List ι}
    (h : ∀ x ∈ xs, ∀ s, P s → ∀ next, step x s = next → P next.2) {s : σ} (hs : P s)
    {last : Changed σ} (hl : inTurn step xs s = last) : P last.2 := by
  subst hl
  induction xs generalizing s with
  | nil => exact hs
  | cons x xs ih =>
    have hstep := h x List.mem_cons_self s hs
    rw [inTurn]
    rcases hx : step x s with ⟨_ | _, t⟩
    · exact hstep _ hx
    · exact ih (fun y hy => h y (List.mem_cons_of_mem x hy)) (hstep _ hx)

end Changed

namespace Table

variable {t t' : Table} {space other path : String}

/-! ## 2. The rows of a space -/

/-- The rows of a space. -/
def rows (t : Table) (space : String) : Table := t.filter fun row => row.space = space

theorem mem_rows {row : Row} : row ∈ t.rows space ↔ row ∈ t ∧ row.space = space := by
  unfold rows
  rw [List.mem_filter, decide_eq_true_eq]

/-- A path is found among the rows of its space. -/
theorem find?_rows (t : Table) (space path : String) :
    (t.rows space).find? space path = t.find? space path := by
  unfold find? rows
  rw [List.find?_filter]
  refine congrArg (List.find? · t) (funext fun row => ?_)
  cases decide (row.space = space) <;> simp

theorem view_rows (t : Table) (space : String) : (t.rows space).view space = t.view space := by
  funext ns
  unfold view
  rw [find?_rows]

/-- **A space is known by its rows**: with the same rows it is as sound as it was, and has the same
view. -/
theorem Sound.of_rows_eq (h : t.Sound space) (he : t'.rows space = t.rows space) :
    t'.Sound space ∧ t'.view space = t.view space := by
  have hview : t'.view space = t.view space := by
    rw [← view_rows t', ← view_rows t, he]
  have hunique : t.Pairwise fun a b => decide (a.space = space) = true →
      decide (b.space = space) = true → a.path ≠ b.path :=
    h.unique.imp fun hab ha hb => hab (of_decide_eq_true ha) (of_decide_eq_true hb)
  have hrows : (t'.rows space).Pairwise fun a b => a.path ≠ b.path := by
    rw [he]
    exact List.pairwise_filter.2 hunique
  refine ⟨⟨?_, fun row hm hs => ?_⟩, hview⟩
  · exact (List.pairwise_filter.1 hrows).imp fun hab ha hb =>
      hab (decide_eq_true ha) (decide_eq_true hb)
  · have hmem : row ∈ t.rows space := he ▸ mem_rows.2 ⟨hm, hs⟩
    rw [hview]
    exact h.placed row (mem_rows.1 hmem).1 hs

/-! ## 3. Operations of another space -/

section

variable (hne : other ≠ space)
include hne

theorem rows_append {row : Row} (hr : row.space = other) :
    Table.rows (t ++ [row]) space = t.rows space := by
  have hno : ¬ row.space = space := fun he => hne (hr.symm.trans he)
  unfold rows
  rw [List.filter_append, List.filter_singleton, decide_eq_false hno]
  exact List.append_nil _

theorem rows_refill (path : String) (data : ByteArray) :
    (t.refill other path data).rows space = t.rows space := by
  unfold refill rows
  rw [List.filter_map]
  have hsame : (fun row : Row => decide (row.space = space)) ∘ (fun row =>
      if (decide (row.space = other) && decide (row.path = path)) = true then
        { row with content := data, size := data.size } else row) =
      fun row : Row => decide (row.space = space) := by
    funext row
    simp only [Function.comp_apply]
    split <;> rfl
  rw [hsame]
  refine (List.map_congr_left fun row hm => ?_).trans (List.map_id _)
  have hs : row.space = space := of_decide_eq_true (List.mem_filter.1 hm).2
  have hno : ¬ row.space = other := fun he => hne (he.symm.trans hs)
  rw [decide_eq_false hno]
  rfl

theorem rows_erase (path : String) :
    Table.rows (t.filter fun row => !(row.space = other && row.path = path)) space =
      t.rows space := by
  unfold rows
  rw [List.filter_filter]
  refine List.filter_congr fun row _ => ?_
  by_cases hs : row.space = space
  · have hno : ¬ row.space = other := fun he => hne (he.symm.trans hs)
    rw [decide_eq_false hno]
    simp
  · simp [hs]

/-- **Writing** in another space. -/
theorem rows_write {data : ByteArray} (h : t.write other path data = .ok t') :
    t'.rows space = t.rows space := by
  unfold write at h
  dsimp only at h
  split at h
  · cases h
  · split at h
    · obtain rfl := Except.ok.inj h
      exact rows_append hne rfl
    · split at h
      · cases h
      · obtain rfl := Except.ok.inj h
        exact rows_refill hne _ data

theorem rows_makeOne (h : t.makeOne other path = .ok t') : t'.rows space = t.rows space := by
  unfold makeOne at h
  split at h
  · cases h
  · split at h
    · cases h
    · split at h
      · cases h
      · obtain rfl := Except.ok.inj h
        exact rows_append hne rfl

/-- **Making directories** in another space. -/
theorem rows_makeDir (t : Table) (path : String) (parents : Bool) :
    (t.makeDir other path parents).2.rows space = t.rows space := by
  have hwhole : ∀ (s : Table) (p : String),
      (Changed.whole s (s.makeOne other p)).2.rows space = s.rows space := fun s p =>
    Changed.look_whole (fun t => Table.rows t space) fun new h => rows_makeOne hne h
  unfold makeDir
  dsimp only
  split
  · refine Changed.look_inTurn (fun t => Table.rows t space) (fun p s => ?_) _ t
    unfold makeLevel
    split
    · rfl
    · exact hwhole s p
  · exact hwhole t _

/-- **Removing** in another space. -/
theorem rows_remove (h : t.remove other path = .ok t') : t'.rows space = t.rows space := by
  unfold remove at h
  dsimp only at h
  split at h
  · cases h
  · split at h
    · cases h
    · obtain rfl := Except.ok.inj h
      exact rows_erase hne _

end

end Table

end Arboretum
