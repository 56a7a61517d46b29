/-
Epochs: operations stamped with the elements of a join-semilattice, of
which only those at the join of all of them count.

A replica that keeps the join of the stamps it has seen, starts over
whenever that join grows, and lets an operation act only if its stamp IS
the join, holds after any sequence of operations what the operations of
the last epoch (`live`) make of the empty state, in the order they came
(`Resets.body_foldl`). What came before, what was superseded on arrival
and what superseded it leave no other trace.
-/
import Mathlib.Order.Lattice
import Mathlib.Data.List.Induction

namespace Replication

section Live

variable {α S : Type} [SemilatticeSup S] (stamp : α → S)

/-- The join of `s₀` and all stamps. -/
def top (s₀ : S) (l : List α) : S := l.foldl (fun s a => s ⊔ stamp a) s₀

/-- The operations of the last epoch. -/
def live [DecidableEq S] (s₀ : S) (l : List α) : List α :=
  l.filter fun a => decide (stamp a = top stamp s₀ l)

variable {stamp} {s₀ : S} {l : List α} {a : α}

theorem top_append_singleton :
    top stamp s₀ (l ++ [a]) = top stamp s₀ l ⊔ stamp a := by
  simp [top]

theorem stamp_le_top (ha : a ∈ l) : stamp a ≤ top stamp s₀ l := by
  induction l using List.reverseRecOn with
  | nil => cases ha
  | append_singleton l b ih =>
      rw [top_append_singleton]
      rcases List.mem_append.mp ha with h | h
      · exact (ih h).trans le_sup_left
      · rw [List.mem_singleton.mp h]
        exact le_sup_right

variable [DecidableEq S]

theorem mem_live : a ∈ live stamp s₀ l ↔ a ∈ l ∧ stamp a = top stamp s₀ l := by
  simp [live]

/-- One more operation: within the epoch it joins or is ignored; beyond
it the epoch ends, and the operation is the first of the next one if it
has seen all of the last. -/
theorem live_append_singleton [Decidable (stamp a ≤ top stamp s₀ l)] :
    live stamp s₀ (l ++ [a]) =
      (if stamp a ≤ top stamp s₀ l then live stamp s₀ l else []) ++
        if stamp a = top stamp s₀ l ⊔ stamp a then [a] else [] := by
  have hlast : ([a].filter fun b => decide (stamp b = top stamp s₀ l ⊔ stamp a))
      = if stamp a = top stamp s₀ l ⊔ stamp a then [a] else [] := by
    split <;> simp_all
  unfold live
  rw [List.filter_append, top_append_singleton, hlast]
  congr 1
  split
  · next hle => rw [sup_eq_left.mpr hle]
  · next hle =>
      rw [List.filter_eq_nil_iff]
      intro b hb
      have hlt : stamp b ≠ top stamp s₀ l ⊔ stamp a := by
        intro hcon
        exact hle (le_sup_right.trans (hcon.ge.trans (stamp_le_top hb)))
      simpa using hlt

end Live

-- ============================================ replicas that start over

section Resets

variable {α S σ β : Type} [SemilatticeSup S]

/-- `step` keeps the join of the stamps in `cur`, sets `body` back to
`empty` when the join grows, and lets an operation at the join act on it
by `act`. -/
structure Resets (stamp : α → S) (cur : σ → S) (body : σ → β) (empty : β)
    (act : β → α → β) (step : σ → α → σ) : Prop where
  cur_step : ∀ s a, cur (step s a) = cur s ⊔ stamp a
  body_stay : ∀ s a, stamp a ≤ cur s → stamp a ≠ cur s → body (step s a) = body s
  body_join : ∀ s a, stamp a = cur s → body (step s a) = act (body s) a
  body_reset : ∀ s a, ¬ stamp a ≤ cur s → ¬ cur s ≤ stamp a →
    body (step s a) = empty
  body_next : ∀ s a, ¬ stamp a ≤ cur s → cur s ≤ stamp a →
    body (step s a) = act empty a

variable {stamp : α → S} {cur : σ → S} {body : σ → β} {empty : β}
  {act : β → α → β} {step : σ → α → σ}

theorem Resets.cur_foldl (H : Resets stamp cur body empty act step) (s : σ)
    (l : List α) : cur (l.foldl step s) = top stamp (cur s) l := by
  induction l using List.reverseRecOn with
  | nil => rfl
  | append_singleton l a ih =>
      rw [List.foldl_append, List.foldl_cons, List.foldl_nil, H.cur_step, ih,
        top_append_singleton]

variable [DecidableEq S]

/-- The body is what the last epoch makes of the empty one. -/
theorem Resets.body_foldl (H : Resets stamp cur body empty act step) {s : σ}
    (hs : body s = empty) (l : List α) :
    body (l.foldl step s) = (live stamp (cur s) l).foldl act empty := by
  classical
  induction l using List.reverseRecOn with
  | nil => exact hs
  | append_singleton l a ih =>
      have hcur := H.cur_foldl s l
      rw [List.foldl_append, List.foldl_cons, List.foldl_nil,
        live_append_singleton, List.foldl_append, ← hcur]
      by_cases hle : stamp a ≤ cur (l.foldl step s)
      · rw [if_pos hle, sup_eq_left.mpr hle, ← ih]
        by_cases heq : stamp a = cur (l.foldl step s)
        · rw [if_pos heq, H.body_join _ _ heq]
          rfl
        · rw [if_neg heq, H.body_stay _ _ hle heq]
          rfl
      · rw [if_neg hle]
        by_cases hge : cur (l.foldl step s) ≤ stamp a
        · rw [if_pos (sup_eq_right.mpr hge).symm, H.body_next _ _ hle hge]
          rfl
        · rw [if_neg (fun hcon => hge (le_sup_left.trans hcon.ge)),
            H.body_reset _ _ hle hge]
          rfl

end Resets

end Replication
