/-
The causal order of a run, read off its ledgers: `x` is directly before
`y` if the site that issued `y` had applied `x` — issued it itself or
received it — when it issued `y`; happening before is the transitive
closure.
-/
import CrdtRedis.Replication.Service
import Mathlib.Logic.Relation

namespace Replication

variable {n : ℕ} {S C M : Type}

namespace Config

/-- The site that issued `y` applied `x` before it. -/
def Before (k : Config n S M) (x y : Op n M) : Prop :=
  [x, y].Sublist (k.got y.src)

/-- The causal order. -/
def HappensBefore (k : Config n S M) : Op n M → Op n M → Prop :=
  Relation.TransGen k.Before

variable {k k' : Config n S M} {x y : Op n M}

theorem Before.mem (h : k.Before x y) : x ∈ k.got y.src ∧ y ∈ k.got y.src :=
  ⟨h.subset (by simp), h.subset (by simp)⟩

/-- What the issuing site had applied comes before the new operation. -/
theorem Before.issue {s : S} (hx : x ∈ k.got y.src) : (k.issue y s).Before x y := by
  unfold Before
  rw [issue_got_self]
  exact (List.singleton_sublist.mpr hx).append (List.Sublist.refl [y])

/-- Ledgers that only grow keep the order. -/
theorem HappensBefore.mono (hgot : ∀ r, (k.got r).Sublist (k'.got r))
    (h : k.HappensBefore x y) : k'.HappensBefore x y :=
  Relation.TransGen.mono (p := k'.Before)
    (fun _ b hb => List.Sublist.trans hb (hgot b.src)) x y h

/-- What holds along every direct step and composes holds along the
causal order. -/
theorem HappensBefore.lift {Q : Op n M → Op n M → Prop}
    (hstep : ∀ x y, k.Before x y → Q x y)
    (htrans : ∀ x y z, Q x y → Q y z → Q x z)
    (h : k.HappensBefore x y) : Q x y := by
  induction h with
  | single hb => exact hstep _ _ hb
  | tail _ hb ih => exact htrans _ _ _ ih (hstep _ _ hb)

end Config

/-- Two elements in order before a last one: the last one is not among
them, or it is the second. -/
theorem sublist_snoc {α : Type} {x y z : α} {l : List α}
    (h : [x, y].Sublist (l ++ [z])) : [x, y].Sublist l ∨ y = z ∧ x ∈ l := by
  obtain ⟨l₁, l₂, heq, h₁, h₂⟩ := List.sublist_append_iff.mp h
  match l₁, l₂ with
  | [], _ =>
      have hlen := h₂.length_le
      simp only [List.nil_append] at heq
      rw [← heq] at hlen
      simp at hlen
  | [a], [b] =>
      simp only [List.cons_append, List.nil_append, List.cons.injEq, and_true] at heq
      obtain ⟨rfl, rfl⟩ := heq
      exact Or.inr ⟨List.mem_singleton.mp (h₂.subset (by simp)), h₁.subset (by simp)⟩
  | a :: b :: rest, _ =>
      simp only [List.cons_append, List.cons.injEq] at heq
      obtain ⟨rfl, rfl, hnil⟩ := heq
      have hrest : rest = [] := (List.append_eq_nil_iff.mp hnil.symm).1
      subst hrest
      exact Or.inl h₁
  | [a], [] => simp at heq
  | [a], b :: c :: rest => simp at heq

-- ======================================= causality along a run

section Runs

variable {P : Service n S C M} {allowed : C → Prop} {k : Config n S M}

/-- The causal order rule: a relation that holds between what a site has
applied and what it issues next holds along the causal order. -/
theorem Reachable.before_forall {Q : Op n M → Op n M → Prop}
    (h : ∀ {k r c s m u}, Reachable P (.once allowed) k → allowed c →
      P.prepare r c (k.site r) = some (s, some m) →
      ∀ o ∈ k.got r, Q o ⟨u, r, m⟩)
    (hk : Reachable P (.once allowed) k) : ∀ x y, k.Before x y → Q x y := by
  refine hk.invariant (I := fun k => ∀ x y, k.Before x y → Q x y) ?_ ?_
  · intro x y hb
    cases hb.mem.1
  · intro k k' hr ih hs
    cases hs with
    | reject r c hc hp => exact ih
    | issue r c u hc hp hu hg he =>
        intro x y hb
        by_cases hy : y.src = r
        · unfold Config.Before at hb
          rw [hy, show (k.issue _ _).got r = k.got r ++ [_] from
            Config.issue_got_self k _ _] at hb
          rcases sublist_snoc hb with hb | ⟨rfl, hx⟩
          · exact ih x y (by unfold Config.Before; rwa [hy])
          · exact h hr hc hp x hx
        · unfold Config.Before at hb
          rw [Config.issue_got_ne k _ _ hy] at hb
          exact ih x y hb
    | deliver r o ho hd hg he =>
        intro x y hb
        by_cases hy : y.src = r
        · unfold Config.Before at hb
          rw [hy, Config.receive_got_self] at hb
          rcases sublist_snoc hb with hb | ⟨rfl, hx⟩
          · exact ih x y (by unfold Config.Before; rwa [hy])
          · -- what is delivered was not issued here
            have hown := hr.ledger.own_got y ho
            rw [hy] at hown
            exact absurd hown (hd.resolve_left id)
        · unfold Config.Before at hb
          rw [Config.receive_got_ne k _ _ hy] at hb
          exact ih x y hb

end Runs

end Replication
