import Mathlib.Data.List.Perm.Basic
import Mathlib.Tactic

/-!
# Replacing one row of a table

A table of agents is a list which a step changes at one position.  These
lemmas say what such a step does to quantities collected over all rows: a
projection which the new row shares is unchanged, and a partial projection
changes by exactly the two rows involved.
-/

namespace TableUpdate

variable {α β : Type*}

/-- A present row splits its table, and a replacement keeps both sides. -/
theorem exists_split
    {rows : List α} {i : ℕ} {old : α} (hrow : rows[i]? = some old) :
    ∃ before after, rows = before ++ old :: after ∧
      ∀ new, rows.set i new = before ++ new :: after := by
  obtain ⟨hlt, hget⟩ := List.getElem?_eq_some_iff.mp hrow
  refine ⟨rows.take i, rows.drop (i + 1), ?_, ?_⟩
  · rw [← hget, List.getElem_cons_drop, List.take_append_drop]
  · intro new
    rw [List.set_eq_take_append_cons_drop, if_pos hlt]

theorem map_set_of_eq
    {f : α → β} {rows : List α} {i : ℕ} {old new : α}
    (hrow : rows[i]? = some old) (heq : f new = f old) :
    (rows.set i new).map f = rows.map f := by
  obtain ⟨before, after, hrows, hset⟩ := exists_split hrow
  rw [hset, hrows]
  simp [heq]

theorem filterMap_set_of_eq
    {f : α → Option β} {rows : List α} {i : ℕ} {old new : α}
    (hrow : rows[i]? = some old) (heq : f new = f old) :
    (rows.set i new).filterMap f = rows.filterMap f := by
  obtain ⟨before, after, hrows, hset⟩ := exists_split hrow
  rw [hset, hrows]
  simp [List.filterMap_cons, heq]

theorem filterMap_set_add
    (f : α → Option β) (new : α) {rows : List α} {i : ℕ} {old : α} {b : β}
    (hrow : rows[i]? = some old) (hold : f old = none)
    (hnew : f new = some b) :
    ((rows.set i new).filterMap f).Perm (rows.filterMap f ++ [b]) := by
  obtain ⟨before, after, hrows, hset⟩ := exists_split hrow
  rw [hset, hrows]
  simp only [List.filterMap_append, List.filterMap_cons_some hnew,
    List.filterMap_cons_none hold, List.append_assoc]
  exact (List.perm_append_singleton b _).symm.append_left _

theorem filterMap_set_drop
    (f : α → Option β) (new : α) {rows : List α} {i : ℕ} {old : α} {b : β}
    (hrow : rows[i]? = some old) (hold : f old = some b)
    (hnew : f new = none) :
    (rows.filterMap f).Perm ((rows.set i new).filterMap f ++ [b]) := by
  obtain ⟨before, after, hrows, hset⟩ := exists_split hrow
  rw [hset, hrows]
  simp only [List.filterMap_append, List.filterMap_cons_some hold,
    List.filterMap_cons_none hnew, List.append_assoc]
  exact (List.perm_append_singleton b _).symm.append_left _

theorem sum_map_set
    (f : α → ℕ) (new : α) {rows : List α} {i : ℕ} {old : α}
    (hrow : rows[i]? = some old) :
    ((rows.set i new).map f).sum + f old = (rows.map f).sum + f new := by
  obtain ⟨before, after, hrows, hset⟩ := exists_split hrow
  rw [hset, hrows]
  simp only [List.map_append, List.map_cons, List.sum_append, List.sum_cons]
  omega

theorem countP_set_of_eq
    {p : α → Bool} {rows : List α} {i : ℕ} {old new : α}
    (hrow : rows[i]? = some old) (heq : p new = p old) :
    (rows.set i new).countP p = rows.countP p := by
  obtain ⟨before, after, hrows, hset⟩ := exists_split hrow
  rw [hset, hrows]
  simp [List.countP_cons, heq]

theorem countP_set_drop
    (p : α → Bool) (new : α) {rows : List α} {i : ℕ} {old : α}
    (hrow : rows[i]? = some old) (hold : p old = true)
    (hnew : p new = false) :
    (rows.set i new).countP p + 1 = rows.countP p := by
  obtain ⟨before, after, hrows, hset⟩ := exists_split hrow
  rw [hset, hrows]
  simp [hold, hnew]
  omega

theorem countP_set_add
    (p : α → Bool) (new : α) {rows : List α} {i : ℕ} {old : α}
    (hrow : rows[i]? = some old) (hold : p old = false)
    (hnew : p new = true) :
    (rows.set i new).countP p = rows.countP p + 1 := by
  obtain ⟨before, after, hrows, hset⟩ := exists_split hrow
  rw [hset, hrows]
  simp [hold, hnew]
  omega

theorem forall_mem_set
    {P : α → Prop} {rows : List α} {i : ℕ} {new : α}
    (hall : ∀ row ∈ rows, P row) (hnew : P new) :
    ∀ row ∈ rows.set i new, P row := by
  intro row hmem
  rcases List.mem_or_eq_of_mem_set hmem with hold | heq
  · exact hall row hold
  · rw [heq]
    exact hnew

/-- In a table whose rows all have a property, only the new row counts. -/
theorem forall_mem_set_iff
    {P : α → Prop} {rows : List α} {i : ℕ} {old new : α}
    (hrow : rows[i]? = some old) (hall : ∀ row ∈ rows, P row) :
    (∀ row ∈ rows.set i new, P row) ↔ P new := by
  constructor
  · intro hset
    have hlt : i < rows.length := (List.getElem?_eq_some_iff.mp hrow).1
    exact hset new (List.mem_set hlt new)
  · exact forall_mem_set hall

theorem getElem?_set_cases
    {rows : List α} {i j : ℕ} {new row : α}
    (hget : (rows.set i new)[j]? = some row) :
    (j = i ∧ row = new) ∨ (j ≠ i ∧ rows[j]? = some row) := by
  by_cases hij : j = i
  · subst hij
    have hlt : j < rows.length := by
      simpa using (List.getElem?_eq_some_iff.mp hget).1
    rw [List.getElem?_set_self hlt, Option.some.injEq] at hget
    exact Or.inl ⟨rfl, hget.symm⟩
  · rw [List.getElem?_set_ne (Ne.symm hij)] at hget
    exact Or.inr ⟨hij, hget⟩

theorem getElem?_append_cases
    {rows : List α} {j : ℕ} {new row : α}
    (hget : (rows ++ [new])[j]? = some row) :
    (j = rows.length ∧ row = new) ∨ rows[j]? = some row := by
  rw [List.getElem?_append] at hget
  split at hget
  next => exact Or.inr hget
  next hge =>
    obtain ⟨hlt, hrow⟩ := List.getElem?_eq_some_iff.mp hget
    rw [List.length_singleton] at hlt
    rw [List.getElem_singleton] at hrow
    exact Or.inl ⟨by omega, hrow.symm⟩

theorem getElem?_append_of_eq
    {rows : List α} {j : ℕ} {row : α} (hrow : rows[j]? = some row)
    (more : List α) : (rows ++ more)[j]? = some row := by
  have hlt : j < rows.length := (List.getElem?_eq_some_iff.mp hrow).1
  rw [List.getElem?_append_left hlt, hrow]

theorem getElem?_foldl_modify_range
    (f : α → α) (rows : List α) (k j : ℕ) :
    ((List.range k).foldl (fun rows i => rows.modify i f) rows)[j]? =
      if j < k then rows[j]?.map f else rows[j]? := by
  induction k with
  | zero => simp
  | succ k ih =>
      rw [List.range_succ, List.foldl_append, List.foldl_cons, List.foldl_nil,
        List.getElem?_modify, ih]
      by_cases hjk : k = j
      · subst hjk
        simp
      · have hiff : j < k + 1 ↔ j < k := by omega
        simp [hjk, hiff]

/-- Changing every row by its index, one after the other, is mapping. -/
theorem foldl_modify_range_length
    (f : α → α) (rows : List α) :
    (List.range rows.length).foldl (fun rows i => rows.modify i f) rows =
      rows.map f := by
  apply List.ext_getElem?
  intro j
  rw [getElem?_foldl_modify_range, List.getElem?_map]
  split
  next => rfl
  next hge =>
    rw [List.getElem?_eq_none (by omega)]
    rfl

end TableUpdate
