/-
Entries of different heights in a row, as a library.

An entry of height `h` stands on the levels below `h`. From any place in
the row, the next entry of a level is the first one ahead that is tall
enough (`ahead`), and `gap` counts the steps to it, or to the end of the
row if there is none. The rules say what becomes of both when an entry is
put into the row or taken out of it: places that have a tall entry before
the change do not notice, and the last tall place before it sees the
entry itself or one step more.
-/
import Mathlib.Data.List.Basic

namespace Tower

variable {A : Type} (height : A → ℕ)

/-- The first entry that stands on level `i`. -/
def ahead (i : ℕ) : List A → Option A
  | [] => none
  | a :: l => if i < height a then some a else ahead i l

/-- The number of steps to it, or to the end. -/
def gap (i : ℕ) : List A → ℕ
  | [] => 0
  | a :: l => if i < height a then 1 else gap i l + 1

/-- Nothing of the row stands on level `i`. -/
def Low (i : ℕ) (l : List A) : Prop := ∀ a ∈ l, height a ≤ i

variable {height} {i j : ℕ} {a b : A} {l m : List A}

theorem Low.nil : Low height i [] := by
  intro a ha
  cases ha

theorem low_cons : Low height i (a :: l) ↔ height a ≤ i ∧ Low height i l := by
  simp [Low]

theorem ahead_cons_of_lt (h : i < height a) : ahead height i (a :: l) = some a := if_pos h

theorem gap_cons_of_lt (h : i < height a) : gap height i (a :: l) = 1 := if_pos h

theorem ahead_cons_of_le (h : height a ≤ i) :
    ahead height i (a :: l) = ahead height i l := if_neg (Nat.not_lt.mpr h)

theorem gap_cons_of_le (h : height a ≤ i) :
    gap height i (a :: l) = gap height i l + 1 := if_neg (Nat.not_lt.mpr h)

/-- Over a stretch that is low. -/
theorem Low.ahead_append (h : Low height i l) : ahead height i (l ++ m) = ahead height i m := by
  induction l with
  | nil => rfl
  | cons a l ih =>
      obtain ⟨ha, hl⟩ := low_cons.mp h
      rw [List.cons_append, ahead_cons_of_le ha, ih hl]

theorem Low.gap_append (h : Low height i l) :
    gap height i (l ++ m) = l.length + gap height i m := by
  induction l with
  | nil => simp
  | cons a l ih =>
      obtain ⟨ha, hl⟩ := low_cons.mp h
      rw [List.cons_append, gap_cons_of_le ha, ih hl, List.length_cons]
      omega

theorem Low.ahead_eq_none (h : Low height i l) : ahead height i l = none := by
  simpa [ahead] using h.ahead_append (m := [])

theorem Low.gap_eq_length (h : Low height i l) : gap height i l = l.length := by
  simpa [gap] using h.gap_append (m := [])

/-- A row that is not low, split at the entry ahead. -/
theorem split_of_not_low (h : ¬ Low height i l) :
    ∃ p c q, l = p ++ c :: q ∧ Low height i p ∧ i < height c := by
  induction l with
  | nil => exact absurd Low.nil h
  | cons a l ih =>
      by_cases ha : i < height a
      · exact ⟨[], a, l, rfl, Low.nil, ha⟩
      · have hl : ¬ Low height i l := fun hl => h (low_cons.mpr ⟨Nat.not_lt.mp ha, hl⟩)
        obtain ⟨p, c, q, rfl, hp, hc⟩ := ih hl
        exact ⟨a :: p, c, q, rfl, low_cons.mpr ⟨Nat.not_lt.mp ha, hp⟩, hc⟩

/-- What comes behind the entry ahead does not count. -/
theorem ahead_append_of_not_low (h : ¬ Low height i l) :
    ahead height i (l ++ m) = ahead height i l := by
  obtain ⟨p, c, q, rfl, hp, hc⟩ := split_of_not_low h
  rw [List.append_assoc, hp.ahead_append, hp.ahead_append, List.cons_append,
    ahead_cons_of_lt hc, ahead_cons_of_lt hc]

theorem gap_append_of_not_low (h : ¬ Low height i l) :
    gap height i (l ++ m) = gap height i l := by
  obtain ⟨p, c, q, rfl, hp, hc⟩ := split_of_not_low h
  rw [List.append_assoc, hp.gap_append, hp.gap_append, List.cons_append,
    gap_cons_of_lt hc, gap_cons_of_lt hc]

theorem ahead_mem (h : ahead height i l = some a) : a ∈ l ∧ i < height a := by
  induction l with
  | nil => cases h
  | cons b l ih =>
      by_cases hb : i < height b
      · rw [ahead_cons_of_lt hb] at h
        obtain rfl := Option.some.inj h
        exact ⟨List.mem_cons_self, hb⟩
      · rw [ahead_cons_of_le (Nat.not_lt.mp hb)] at h
        exact ⟨List.mem_cons_of_mem b (ih h).1, (ih h).2⟩

/-- Only the heights count. -/
theorem ahead_map {B : Type} (f : A → B) (height : B → ℕ) (i : ℕ) (l : List A) :
    (ahead (fun a => height (f a)) i l).map f = ahead height i (l.map f) := by
  induction l with
  | nil => rfl
  | cons a l ih =>
      simp only [ahead, List.map_cons]
      split
      · rfl
      · exact ih

theorem gap_map {B : Type} (f : A → B) (height : B → ℕ) (i : ℕ) (l : List A) :
    gap (fun a => height (f a)) i l = gap height i (l.map f) := by
  induction l with
  | nil => rfl
  | cons a l ih => simp only [gap, List.map_cons, ih]

/-- The last entry of the row that stands on level `i` is `a`, behind the
entries `p`. -/
structure Last (height : A → ℕ) (i : ℕ) (l p : List A) (a : A) : Prop where
  split : ∃ q, l = p ++ a :: q ∧ Low height i q
  tall : i < height a

/-- A row has one last entry of a level. -/
theorem Last.unique {p p' : List A} (h : Last height i l p a) (h' : Last height i l p' b) :
    p = p' ∧ a = b := by
  obtain ⟨⟨q, rfl, hq⟩, ha⟩ := h
  obtain ⟨⟨q', hl, hq'⟩, hb⟩ := h'
  rcases List.append_eq_append_iff.mp hl with ⟨r, rfl, hr⟩ | ⟨r, rfl, hr⟩
  · cases r with
    | nil =>
        obtain ⟨rfl, -⟩ := List.cons.inj hr
        exact ⟨(List.append_nil p).symm, rfl⟩
    | cons d r =>
        obtain ⟨rfl, rfl⟩ := List.cons.inj hr
        exact absurd (hq b (by simp)) (Nat.not_le.mpr hb)
  · cases r with
    | nil =>
        obtain ⟨rfl, -⟩ := List.cons.inj hr
        exact ⟨List.append_nil p', rfl⟩
    | cons d r =>
        obtain ⟨rfl, rfl⟩ := List.cons.inj hr
        exact absurd (hq' a (by simp)) (Nat.not_le.mpr ha)

-- ============================================================ places

variable {p q p' q' : List A}

/-- A place in a row that was put together. -/
theorem split_append (h : l ++ m = p ++ a :: q) :
    (∃ q', l = p ++ a :: q' ∧ q = q' ++ m) ∨ ∃ p', m = p' ++ a :: q ∧ p = l ++ p' := by
  rcases List.append_eq_append_iff.mp h with ⟨r, rfl, rfl⟩ | ⟨r, hl, hr⟩
  · exact .inr ⟨r, rfl, rfl⟩
  · cases r with
    | nil => exact .inr ⟨[], by simpa using hr.symm, by simpa using hl.symm⟩
    | cons b r =>
        obtain ⟨rfl, rfl⟩ := List.cons.inj hr
        exact .inl ⟨r, hl, rfl⟩

/-- A place in a row that `b` was put into. -/
theorem split_insert (h : l ++ b :: m = p ++ a :: q) :
    (∃ q', l = p ++ a :: q' ∧ q = q' ++ b :: m) ∨ (p = l ∧ a = b ∧ q = m) ∨
      ∃ p', m = p' ++ a :: q ∧ p = l ++ b :: p' := by
  rcases split_append h with hl | ⟨p', hm, rfl⟩
  · exact .inl hl
  · cases p' with
    | nil =>
        obtain ⟨rfl, rfl⟩ := List.cons.inj hm
        exact .inr (.inl ⟨List.append_nil l, rfl, rfl⟩)
    | cons d p' =>
        obtain ⟨rfl, rfl⟩ := List.cons.inj hm
        exact .inr (.inr ⟨p', rfl, rfl⟩)

/-- In a row without repeated names a name tells the place. -/
theorem split_unique {N : Type} {name : A → N} (hnd : (l.map name).Nodup)
    (h : l = p ++ a :: q) (h' : l = p' ++ b :: q') (hab : name a = name b) :
    p = p' ∧ a = b ∧ q = q' := by
  have hget : ∀ {p q : List A} {a : A}, l = p ++ a :: q →
      (l.map name)[p.length]? = some (name a) := by
    intro p q a h
    simp [h]
  have hlen : p.length = p'.length := by
    have hp := (List.getElem?_eq_some_iff.mp (hget h)).1
    refine (List.getElem?_inj hp hnd).mp ?_
    rw [hget h, hget h', hab]
  obtain ⟨rfl, htail⟩ := List.append_inj (h.symm.trans h') hlen
  obtain ⟨rfl, rfl⟩ := List.cons.inj htail
  exact ⟨rfl, rfl, rfl⟩

end Tower
