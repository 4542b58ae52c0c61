import Mathlib.Data.List.AList
import Mathlib.Tactic

/-!
# Maps of growing entries

A hash map whose values are vectors, filled by `entry(key).or_default().push`.
The map is an association list with distinct keys, so its order carries no
information; whoever iterates it does so in an order of an `IterOrder`.  The
one law is that an entry holds exactly the pushed values of its key, in the
order in which they were pushed.
-/

namespace EntryMap

variable {α κ : Type*} [DecidableEq κ]

abbrev Map (κ α : Type*) := AList fun _ : κ => List α

/-- `map.entry(key).or_default().push(value)`. -/
def pushEntry (map : Map κ α) (key : κ) (value : α) : Map κ α :=
  map.insert key ((map.lookup key).getD [] ++ [value])

def pushKeyed (key : α → Option κ) (map : Map κ α) (value : α) : Map κ α :=
  match key value with
  | none => map
  | some k => pushEntry map k value

def group (key : α → Option κ) (values : List α) : Map κ α :=
  values.foldl (pushKeyed key) ∅

/-- The order in which `into_iter` hands out the entries of a hash map. -/
structure IterOrder (κ α : Type*) where
  order : List (Sigma fun _ : κ => List α) → List (Sigma fun _ : κ => List α)
  perm : ∀ entries, (order entries).Perm entries

def IterOrder.intoIter (iter : IterOrder κ α) (map : Map κ α) :
    List (Sigma fun _ : κ => List α) :=
  iter.order map.entries

def valuesOf (key : α → Option κ) (values : List α) (k : κ) : List α :=
  values.filter fun value => key value = some k

theorem valuesOf_append_singleton
    (key : α → Option κ) (values : List α) (value : α) (k : κ) :
    valuesOf key (values ++ [value]) k =
      valuesOf key values k ++ if key value = some k then [value] else [] := by
  by_cases hkey : key value = some k <;> simp [valuesOf, hkey]

theorem valuesOf_filter
    (key : α → Option κ) (values : List α) (keep : α → Bool) (k : κ) :
    valuesOf key (values.filter keep) k = (valuesOf key values k).filter keep := by
  unfold valuesOf
  exact List.filter_comm _ _ _

theorem valuesOf_congr
    {key key' : α → Option κ} {values : List α}
    (hsame : ∀ value ∈ values, key' value = key value) (k : κ) :
    valuesOf key' values k = valuesOf key values k := by
  unfold valuesOf
  apply List.filter_congr
  intro value hmem
  rw [hsame value hmem]

theorem lookup_pushEntry
    (map : Map κ α) (key k : κ) (value : α) :
    ((pushEntry map key value).lookup k).getD [] =
      (map.lookup k).getD [] ++ if key = k then [value] else [] := by
  unfold pushEntry
  by_cases hk : key = k
  · subst hk
    simp
  · simp [hk, AList.lookup_insert_ne (Ne.symm hk)]

theorem lookup_pushEntry_ne_nil
    {map : Map κ α} (hmap : ∀ k as, map.lookup k = some as → as ≠ [])
    (key : κ) (value : α) :
    ∀ k as, (pushEntry map key value).lookup k = some as → as ≠ [] := by
  intro k as hlookup
  unfold pushEntry at hlookup
  by_cases hk : key = k
  · subst hk
    simp only [AList.lookup_insert, Option.some.injEq] at hlookup
    simp [← hlookup]
  · rw [AList.lookup_insert_ne (Ne.symm hk)] at hlookup
    exact hmap k as hlookup

theorem group_append_singleton
    (key : α → Option κ) (values : List α) (value : α) :
    group key (values ++ [value]) = pushKeyed key (group key values) value := by
  simp [group, List.foldl_append]

theorem lookup_group_getD
    (key : α → Option κ) (values : List α) (k : κ) :
    ((group key values).lookup k).getD [] = valuesOf key values k := by
  induction values using List.reverseRecOn with
  | nil => simp [group, valuesOf]
  | append_singleton values value ih =>
      rw [group_append_singleton, valuesOf_append_singleton, ← ih, pushKeyed]
      cases hkey : key value with
      | none => simp
      | some k' => simp [lookup_pushEntry]

theorem lookup_group_ne_nil
    (key : α → Option κ) (values : List α) :
    ∀ k as, (group key values).lookup k = some as → as ≠ [] := by
  induction values using List.reverseRecOn with
  | nil => simp [group]
  | append_singleton values value ih =>
      rw [group_append_singleton, pushKeyed]
      cases key value with
      | none => exact ih
      | some k => exact lookup_pushEntry_ne_nil ih k value

/-- An entry of the filled map is a key with all its values, at least one. -/
theorem mem_entries_group
    (key : α → Option κ) (values : List α) (k : κ) (as : List α) :
    ⟨k, as⟩ ∈ (group key values).entries ↔
      as = valuesOf key values k ∧ as ≠ [] := by
  rw [← AList.mem_lookup_iff, Option.mem_def]
  have hgetD := lookup_group_getD key values k
  constructor
  · intro hlookup
    rw [hlookup] at hgetD
    exact ⟨hgetD, lookup_group_ne_nil key values k as hlookup⟩
  · rintro ⟨has, hne⟩
    cases hlookup : (group key values).lookup k with
    | none =>
        rw [hlookup] at hgetD
        exact (hne (has.trans hgetD.symm)).elim
    | some found =>
        rw [hlookup] at hgetD
        exact congrArg some (hgetD.trans has.symm)

theorem IterOrder.mem_intoIter_group
    (iter : IterOrder κ α) (key : α → Option κ) (values : List α)
    (k : κ) (as : List α) :
    ⟨k, as⟩ ∈ iter.intoIter (group key values) ↔
      as = valuesOf key values k ∧ as ≠ [] := by
  unfold IterOrder.intoIter
  rw [(iter.perm _).mem_iff, mem_entries_group]

end EntryMap
