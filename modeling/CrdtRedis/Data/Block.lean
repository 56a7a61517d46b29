/-
Blocks of memory: slots `0..length)`, each written or not.

A store past the last slot has no defined outcome (`none`), so a
computation over blocks that ends has stored in bounds everywhere. Most
blocks are filled from the front: `Holds b l` says that the slots from 0
on hold `l`, whatever the rest is, and it is what the loops that write
one slot after the other carry along (`Holds.store`, `Holds.fill`).
-/
import Mathlib.Data.List.Basic
import Mathlib.Data.List.Induction

/-- A block; `none` in a slot is content that nothing has written. -/
abbrev Block (α : Type) := List (Option α)

namespace Block

variable {α : Type}

/-- `malloc`. -/
def new (cap : ℕ) : Block α := List.replicate cap none

/-- `b[i] = a`. -/
def store (b : Block α) (i : ℕ) (a : α) : Option (Block α) :=
  if i < b.length then some (b.set i (some a)) else none

/-- The value of `b[i]`, if it is in bounds and written. -/
def load (b : Block α) (i : ℕ) : Option α := (b[i]?).join

/-- `realloc`: what fits is kept, new slots are unwritten. -/
def realloc (b : Block α) (cap : ℕ) : Block α :=
  b.take cap ++ List.replicate (cap - b.length) none

/-- `for (i = lo; i < hi; i++) b[i] = src(i)`, where reading the source
may be undefined. -/
def fill (src : ℕ → Option α) (lo hi : ℕ) (b : Block α) : Option (Block α) :=
  (List.range' lo (hi - lo)).foldlM (fun b i => (src i).bind (b.store i)) b

/-- The first `size` slots, if they are written. -/
def read (b : Block α) (size : ℕ) : Option (List α) := (List.range size).mapM b.load

/-- The slots from 0 on hold `l`. -/
def Holds (b : Block α) (l : List α) : Prop := ∃ rest, b = l.map some ++ rest

variable {b b' : Block α} {l m : List α} {a : α} {i lo hi : ℕ}

@[simp] theorem length_new (cap : ℕ) : (new cap : Block α).length = cap := by
  simp [new]

@[simp] theorem length_realloc (b : Block α) (cap : ℕ) : (b.realloc cap).length = cap := by
  simp only [realloc, List.length_append, List.length_take, List.length_replicate]
  omega

theorem store_of_lt (h : i < b.length) (a : α) : b.store i a = some (b.set i (some a)) :=
  if_pos h

theorem store_of_ge (h : b.length ≤ i) (a : α) : b.store i a = none :=
  if_neg (Nat.not_lt.mpr h)

theorem lt_of_store (h : b.store i a = some b') : i < b.length := by
  by_contra hcon
  rw [store_of_ge (Nat.not_lt.mp hcon)] at h
  cases h

theorem length_store (h : b.store i a = some b') : b'.length = b.length := by
  unfold store at h
  split at h
  · rw [← Option.some.inj h, List.length_set]
  · cases h

-- ================================================ filling from the front

theorem Holds.nil (b : Block α) : b.Holds [] := ⟨b, rfl⟩

theorem Holds.length_le (h : b.Holds l) : l.length ≤ b.length := by
  obtain ⟨rest, rfl⟩ := h
  simp

/-- A full block is its content. -/
theorem Holds.eq (h : b.Holds l) (hlen : l.length = b.length) : b = l.map some := by
  obtain ⟨rest, rfl⟩ := h
  have hrest : rest = [] := by simpa using hlen
  rw [hrest, List.append_nil]

theorem Holds.load (h : b.Holds l) (hi : i < l.length) : b.load i = l[i]? := by
  obtain ⟨rest, rfl⟩ := h
  unfold Block.load
  rw [List.getElem?_append_left (by simpa using hi), List.getElem?_map]
  cases l[i]? <;> rfl

theorem Holds.read (h : b.Holds l) : b.read l.length = some l := by
  induction l using List.reverseRecOn with
  | nil => rfl
  | append_singleton l a ih =>
      have hl : b.Holds l := by
        obtain ⟨rest, rfl⟩ := h
        exact ⟨some a :: rest, by simp⟩
      have hlast : b.load l.length = some a := by
        rw [h.load (by simp)]
        simp
      have hread := ih hl
      unfold Block.read at hread ⊢
      rw [List.length_append, List.length_singleton, List.range_succ, List.mapM_append, hread]
      simp [hlast]

/-- The next slot. -/
theorem Holds.store (h : b.Holds l) (hlt : l.length < b.length) (a : α) :
    ∃ b', b.store l.length a = some b' ∧ b'.Holds (l ++ [a]) ∧ b'.length = b.length := by
  refine ⟨_, store_of_lt hlt a, ?_, List.length_set⟩
  obtain ⟨rest, rfl⟩ := h
  cases rest with
  | nil => simp at hlt
  | cons x rest => exact ⟨rest, by simp⟩

theorem Holds.realloc (h : b.Holds l) {cap : ℕ} (hcap : b.length ≤ cap) :
    (b.realloc cap).Holds l := by
  obtain ⟨rest, rfl⟩ := h
  refine ⟨rest ++ List.replicate (cap - (l.map some ++ rest).length) none, ?_⟩
  rw [Block.realloc, List.take_of_length_le hcap, List.append_assoc]

/-- A loop that goes on where the content ends. -/
theorem Holds.fill {src : ℕ → Option α} (h : b.Holds l) (hlo : lo = l.length)
    (hhi : hi = lo + m.length) (hcap : hi ≤ b.length)
    (hsrc : ∀ i, i < m.length → src (lo + i) = m[i]?) :
    ∃ b', b.fill src lo hi = some b' ∧ b'.Holds (l ++ m) ∧ b'.length = b.length := by
  induction m generalizing b l lo with
  | nil =>
      rw [List.length_nil, Nat.add_zero] at hhi
      exact ⟨b, by simp [Block.fill, hhi], by simpa using h, rfl⟩
  | cons a m ih =>
      rw [List.length_cons] at hhi
      obtain ⟨b₁, hstore, hholds, hlen⟩ := h.store (by omega) a
      have hsrc₀ : src lo = some a := hsrc 0 (Nat.succ_pos _)
      have hnext : lo + 1 = (l ++ [a]).length := by simp [hlo]
      obtain ⟨b₂, hfill, hholds₂, hlen₂⟩ := ih hholds hnext (by omega) (hlen ▸ hcap) fun i hi => by
          rw [Nat.add_assoc, Nat.add_comm 1]
          exact hsrc (i + 1) (Nat.succ_lt_succ hi)
      refine ⟨b₂, ?_, by simpa using hholds₂, hlen₂.trans hlen⟩
      unfold Block.fill at hfill ⊢
      rw [show hi - lo = hi - (lo + 1) + 1 by omega, List.range'_succ, List.foldlM_cons, hsrc₀]
      show (b.store lo a).bind _ = _
      rw [hlo, hstore, ← hlo]
      exact hfill

end Block
