import Mathlib.Data.List.Basic
import Mathlib.Tactic

/-!
# Maximal runs of a predicate

The maximal nonempty runs of elements satisfying a predicate, from left to
right.  This is what a tokenizer without context computes; all that its
clients need is that a run consists of such elements.
-/

namespace MaximalRuns

variable {α : Type*} {p : α → Bool}

def runs (p : α → Bool) (word : List α) : List (List α) :=
  (word.splitOnP fun a => !p a).filter fun run => !run.isEmpty

theorem forall_of_mem_splitOnP
    {q : α → Bool} {word run : List α} (hrun : run ∈ word.splitOnP q) :
    ∀ a ∈ run, q a = false := by
  induction word generalizing run with
  | nil =>
      simp only [List.splitOnP_nil, List.mem_singleton] at hrun
      simp [hrun]
  | cons head word ih =>
      rw [List.splitOnP_cons_eq_if_modifyHead] at hrun
      by_cases hhead : q head = true
      · rw [if_pos hhead, List.mem_cons] at hrun
        rcases hrun with hnil | hmem
        · simp [hnil]
        · exact ih hmem
      · rw [if_neg hhead] at hrun
        cases hsplit : word.splitOnP q with
        | nil => exact (List.splitOnP_ne_nil q word hsplit).elim
        | cons first rest =>
            rw [hsplit, List.modifyHead_cons, List.mem_cons] at hrun
            rw [hsplit] at ih
            rcases hrun with hfirst | hmem
            · subst hfirst
              intro a ha
              rcases List.mem_cons.mp ha with heq | hmem
              · subst heq
                simpa using hhead
              · exact ih List.mem_cons_self a hmem
            · exact ih (List.mem_cons_of_mem first hmem)

theorem forall_of_mem_runs
    {word run : List α} (hrun : run ∈ runs p word) :
    ∀ a ∈ run, p a = true := by
  intro a ha
  have hsplit := (List.mem_filter.mp hrun).1
  simpa using forall_of_mem_splitOnP hsplit a ha

end MaximalRuns
