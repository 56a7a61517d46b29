/-
Singly linked chains: the nodes a `next` function leads through.

`Path next start l` says that following `next` from `start` visits exactly
`l` and then ends. Two writes hang a node in: at the front (`Path.cons`),
or behind a node that is in the chain (`Path.insert`). A sorted chain stays
sorted if the search for the place leaves what is below the node before it
and what is above it behind (`pairwise_insert`).
-/
import Mathlib.Data.List.Nodup
import Mathlib.Logic.Function.Basic

namespace Linked

variable {α : Type}

/-- The nodes from `start` on, to the end. -/
def Path (next : α → Option α) : Option α → List α → Prop
  | start, [] => start = none
  | start, a :: l => start = some a ∧ Path next (next a) l

variable {next next' : α → Option α} {start : Option α} {l l₁ l₂ : List α} {a p : α}

theorem Path.head (h : Path next start l) : start = l.head? := by
  cases l with
  | nil => exact h
  | cons a l => exact h.1

/-- A chain is what its start leads to. -/
theorem Path.unique {l' : List α} (h : Path next start l) (h' : Path next start l') :
    l = l' := by
  induction l generalizing start l' with
  | nil =>
      obtain rfl : start = none := h
      cases l' with
      | nil => rfl
      | cons a l' => cases h'.1
  | cons a l ih =>
      obtain ⟨rfl, hrest⟩ := h
      cases l' with
      | nil => cases h'
      | cons b l' =>
          obtain ⟨hb, hrest'⟩ := h'
          obtain rfl := Option.some.inj hb
          rw [ih hrest hrest']

/-- Only the pointers of the chain itself matter. -/
theorem Path.congr (h : Path next start l) (hnext : ∀ a ∈ l, next' a = next a) :
    Path next' start l := by
  induction l generalizing start with
  | nil => exact h
  | cons a l ih =>
      refine ⟨h.1, ?_⟩
      rw [hnext a List.mem_cons_self]
      exact ih h.2 fun b hb => hnext b (List.mem_cons_of_mem a hb)

/-- A loop along the chain that sends one item for each node that is
shown. -/
theorem Path.walk {β : Type} {walk : ℕ → Option α → Option (List β)} {shown : α → Bool} {fuel : ℕ}
    (h : Path next start l) (hend : ∀ fuel, walk fuel none = some [])
    (hstep : ∀ a ∈ l, ∀ fuel rest, walk fuel (next a) = some rest →
      ∃ sent, walk (fuel + 1) (some a) = some sent ∧
        sent.length = rest.length + if shown a then 1 else 0)
    (hfuel : l.length ≤ fuel) :
    ∃ sent, walk fuel start = some sent ∧ sent.length = (l.filter shown).length := by
  induction l generalizing start fuel with
  | nil =>
      obtain rfl : start = none := h
      exact ⟨[], hend fuel, rfl⟩
  | cons a l ih =>
      obtain ⟨rfl, hrest⟩ := h
      cases fuel with
      | zero => cases hfuel
      | succ fuel =>
          obtain ⟨rest, hwalk, hlen⟩ := ih hrest
            (fun b hb => hstep b (List.mem_cons_of_mem a hb)) (Nat.le_of_succ_le_succ hfuel)
          obtain ⟨sent, hsent, hone⟩ := hstep a List.mem_cons_self fuel rest hwalk
          refine ⟨sent, hsent, ?_⟩
          rw [hone, hlen, List.filter_cons]
          split <;> rfl

/-- What follows a node is a chain by itself. -/
theorem Path.after (h : Path next start (l₁ ++ p :: l₂)) : Path next (next p) l₂ := by
  induction l₁ generalizing start with
  | nil => exact h.2
  | cons a l₁ ih => exact ih h.2

theorem Path.next_eq (h : Path next start (l₁ ++ p :: l₂)) : next p = l₂.head? :=
  h.after.head

/-- A node hung in at the front. -/
theorem Path.cons (h : Path next start l) (ha : next' a = start)
    (hnext : ∀ b ∈ l, next' b = next b) : Path next' (some a) (a :: l) :=
  ⟨rfl, by rw [ha]; exact h.congr hnext⟩

/-- A node hung in behind `p`. -/
theorem Path.insert (h : Path next start (l₁ ++ p :: l₂)) (hp : next' p = some a)
    (ha : next' a = l₂.head?) (hnext : ∀ b ∈ l₁ ++ l₂, next' b = next b) :
    Path next' start (l₁ ++ p :: a :: l₂) := by
  induction l₁ generalizing start with
  | nil =>
      refine ⟨h.1, hp, ?_⟩
      rw [ha, ← h.next_eq]
      exact h.after.congr fun b hb => hnext b hb
  | cons b l₁ ih =>
      refine ⟨h.1, ?_⟩
      rw [hnext b List.mem_cons_self]
      exact ih h.2 fun c hc => hnext c (List.mem_cons_of_mem b hc)

/-- A node is hung in where it is not yet. -/
theorem nodup_insert (h : (l₁ ++ l₂).Nodup) (ha : a ∉ l₁ ++ l₂) :
    (l₁ ++ a :: l₂).Nodup := by
  rw [List.nodup_middle]
  exact List.nodup_cons.mpr ⟨ha, h⟩

theorem mem_insert {b : α} : b ∈ l₁ ++ a :: l₂ ↔ b = a ∨ b ∈ l₁ ++ l₂ := by
  simp only [List.mem_append, List.mem_cons]
  tauto

/-- A node between what comes before it and what comes after it. -/
theorem pairwise_insert {R : α → α → Prop} (h : (l₁ ++ l₂).Pairwise R)
    (h₁ : ∀ b ∈ l₁, R b a) (h₂ : ∀ b ∈ l₂, R a b) : (l₁ ++ a :: l₂).Pairwise R := by
  obtain ⟨hl₁, hl₂, hbetween⟩ := List.pairwise_append.mp h
  refine List.pairwise_append.mpr ⟨hl₁, List.pairwise_cons.mpr ⟨h₂, hl₂⟩, ?_⟩
  intro b hb c hc
  rcases List.mem_cons.mp hc with rfl | hc
  · exact h₁ b hb
  · exact hbetween b hb c hc

end Linked
