/-
A cached pointer to a largest entry of a list, as a library.

Entries are compared by a key and the pointer is kept as the key of the
entry it points to, `none` for a null pointer. `larger` is the comparison
that moves a pointer, `search` the loop that finds one from nothing, and
`Largest` what the pointer is for. The rules say what keeps it: an entry
added and compared, entries deleted that it does not point to, entries
changed without their keys.
-/
import Mathlib.Data.List.Induction
import Mathlib.Order.Defs.PartialOrder

namespace Pointer

variable {A K : Type} (key : A → K) (lt : K → K → Prop)

/-- The larger of what a pointer names and `t`. -/
def larger [DecidableRel lt] (v : Option K) (t : K) : Option K :=
  match v with
  | none => some t
  | some w => if lt w t then some t else some w

/-- The search for a largest entry, from a pointer that may name one. -/
def search [DecidableRel lt] (v : Option K) (l : List A) : Option K :=
  l.foldl (fun v a => larger lt v (key a)) v

/-- A pointer that names a largest entry, or nothing where there is
none. -/
inductive Largest (l : List A) : Option K → Prop
  | empty (hnil : l = []) : Largest l none
  | entry (a : A) (ha : a ∈ l) (hmax : ∀ b ∈ l, ¬ lt (key a) (key b)) :
      Largest l (some (key a))

/-- A pointer that names an entry no entry of the kind `Q` exceeds, or
nothing where there is none of the kind. -/
inductive Bounds (Q : A → Prop) (l : List A) : Option K → Prop
  | empty (hnone : ∀ a ∈ l, ¬ Q a) : Bounds Q l none
  | entry (a : A) (ha : a ∈ l) (hmax : ∀ b ∈ l, Q b → ¬ lt (key a) (key b)) :
      Bounds Q l (some (key a))

variable {key lt} {Q : A → Prop} {l l' : List A} {v : Option K} {k : K}

namespace Largest

theorem nil : Largest key lt [] none := .empty rfl

/-- A null pointer is right exactly where there is no entry. -/
theorem eq_none_iff (h : Largest key lt l v) : v = none ↔ l = [] := by
  cases h with
  | empty hnil => exact iff_of_true rfl hnil
  | entry a ha hmax =>
      refine iff_of_false (by simp) ?_
      intro hnil
      rw [hnil] at ha
      cases ha

/-- What a pointer names is there, and nothing is larger. -/
theorem of_some (h : Largest key lt l (some k)) :
    (∃ a ∈ l, key a = k) ∧ ∀ b ∈ l, ¬ lt k (key b) := by
  cases h with
  | entry a ha hmax => exact ⟨⟨a, ha, rfl⟩, hmax⟩

theorem mk_some (hmem : ∃ a ∈ l, key a = k) (hmax : ∀ b ∈ l, ¬ lt k (key b)) :
    Largest key lt l (some k) := by
  obtain ⟨a, ha, rfl⟩ := hmem
  exact .entry a ha hmax

/-- Deleting other entries leaves it right. -/
theorem mono (h : Largest key lt l (some k)) (hmem : ∃ a ∈ l', key a = k)
    (hsub : ∀ b ∈ l', b ∈ l) : Largest key lt l' (some k) :=
  mk_some hmem fun b hb => h.of_some.2 b (hsub b hb)

/-- It depends on the entries only. -/
theorem congr_mem (h : Largest key lt l v) (hmem : ∀ b, b ∈ l ↔ b ∈ l') :
    Largest key lt l' v := by
  cases h with
  | empty hnil =>
      subst hnil
      exact .empty (List.eq_nil_iff_forall_not_mem.mpr fun b hb =>
        List.not_mem_nil ((hmem b).mpr hb))
  | entry a ha hmax => exact .entry a ((hmem a).mp ha) fun b hb => hmax b ((hmem b).mpr hb)

/-- Changing entries but not their keys leaves it right. -/
theorem map {f : A → A} (hf : ∀ a, key (f a) = key a) (h : Largest key lt l v) :
    Largest key lt (l.map f) v := by
  cases h with
  | empty hnil => exact .empty (by rw [hnil]; rfl)
  | entry a ha hmax =>
      refine mk_some ⟨f a, List.mem_map_of_mem ha, hf a⟩ ?_
      intro b hb
      obtain ⟨c, hc, rfl⟩ := List.mem_map.mp hb
      rw [hf]
      exact hmax c hc

end Largest

namespace Bounds

/-- A largest entry bounds every kind. -/
theorem of_largest (h : Largest key lt l v) : Bounds key lt Q l v := by
  cases h with
  | empty hnil =>
      refine .empty ?_
      rw [hnil]
      exact fun a ha => absurd ha List.not_mem_nil
  | entry a ha hmax => exact .entry a ha fun b hb _ => hmax b hb

/-- Where all entries are of the kind, the bound is a largest entry. -/
theorem largest (h : Bounds key lt Q l v) (hall : ∀ a ∈ l, Q a) : Largest key lt l v := by
  cases h with
  | empty hnone =>
      exact .empty (List.eq_nil_iff_forall_not_mem.mpr fun a ha => hnone a ha (hall a ha))
  | entry a ha hmax => exact .entry a ha fun b hb => hmax b hb (hall b hb)

theorem of_some (h : Bounds key lt Q l (some k)) :
    (∃ a ∈ l, key a = k) ∧ ∀ b ∈ l, Q b → ¬ lt k (key b) := by
  cases h with
  | entry a ha hmax => exact ⟨⟨a, ha, rfl⟩, hmax⟩

theorem of_none (h : Bounds key lt Q l none) : ∀ a ∈ l, ¬ Q a := by
  cases h with
  | empty hnone => exact hnone

theorem mk_some (hmem : ∃ a ∈ l, key a = k) (hmax : ∀ b ∈ l, Q b → ¬ lt k (key b)) :
    Bounds key lt Q l (some k) := by
  obtain ⟨a, ha, rfl⟩ := hmem
  exact .entry a ha hmax

/-- Entries may come, change and go, if the one it names stays and none
of the kind is new. -/
theorem transfer (h : Bounds key lt Q l v) (hv : ∀ k, v = some k → ∃ a ∈ l', key a = k)
    (hold : ∀ b ∈ l', Q b → ∃ a ∈ l, Q a ∧ key a = key b) : Bounds key lt Q l' v := by
  cases v with
  | none =>
      refine .empty ?_
      intro b hb hQ
      obtain ⟨a, ha, hQa, -⟩ := hold b hb hQ
      exact h.of_none a ha hQa
  | some k =>
      refine mk_some (hv k rfl) ?_
      intro b hb hQ
      obtain ⟨a, ha, hQa, hab⟩ := hold b hb hQ
      rw [← hab]
      exact h.of_some.2 a ha hQa

end Bounds

-- ========================================== entries named by their keys

/-- Where keys are not repeated, deleting the first entry with a key
deletes the only one. -/
theorem eraseP_key_eq_filter [DecidableEq K] (hnd : (l.map key).Nodup) (k : K) :
    (l.eraseP fun b => decide (key b = k)) = l.filter fun b => decide (key b ≠ k) := by
  induction l with
  | nil => rfl
  | cons b l ih =>
      rw [List.map_cons, List.nodup_cons] at hnd
      by_cases hb : key b = k
      · rw [List.eraseP_cons_of_pos (by simp [hb]), List.filter_cons_of_neg (by simp [hb])]
        refine (List.filter_eq_self.mpr ?_).symm
        intro a ha
        rw [decide_eq_true_iff]
        intro hak
        exact hnd.1 (List.mem_map.mpr ⟨a, ha, by rw [hak, hb]⟩)
      · rw [List.eraseP_cons_of_neg (by simp [hb]), List.filter_cons_of_pos (by simp [hb]),
          ih hnd.2]

section Order

variable [DecidableRel lt] (hirrefl : ∀ a, ¬ lt a a)
  (htrans : ∀ {a b c}, lt a b → lt b c → lt a c)

include hirrefl htrans

/-- An entry that is added and compared. -/
theorem Largest.snoc (h : Largest key lt l v) (a : A) :
    Largest key lt (l ++ [a]) (larger lt v (key a)) := by
  cases h with
  | empty hnil =>
      subst hnil
      refine .entry a (by simp) ?_
      intro b hb
      rw [List.mem_singleton.mp hb]
      exact hirrefl _
  | entry c hc hmax =>
      simp only [larger]
      split
      · next hlt =>
          refine .entry a (by simp) ?_
          intro b hb hab
          rcases List.mem_append.mp hb with hb | hb
          · exact hmax b hb (htrans hlt hab)
          · rw [List.mem_singleton.mp hb] at hab
            exact hirrefl _ hab
      · next hlt =>
          refine .entry c (List.mem_append_left _ hc) ?_
          intro b hb
          rcases List.mem_append.mp hb with hb | hb
          · exact hmax b hb
          · rw [List.mem_singleton.mp hb]
            exact hlt

/-- A pointer that is right for some entries and compared with more is
right for all of them. -/
theorem Largest.search (h : Largest key lt l v) (l' : List A) :
    Largest key lt (l ++ l') (search key lt v l') := by
  induction l' generalizing l v with
  | nil =>
      rw [List.append_nil]
      exact h
  | cons a l' ih =>
      rw [List.append_cons]
      exact ih (h.snoc hirrefl htrans a)

/-- The search from nothing finds a largest entry. -/
theorem largest_search (l : List A) : Largest key lt l (search key lt none l) :=
  Largest.nil.search hirrefl htrans l

/-- So does the search from an entry of the list. -/
theorem largest_search_of (hv : ∀ k, v = some k → ∃ a ∈ l, key a = k) :
    Largest key lt l (search key lt v l) := by
  cases v with
  | none => exact largest_search hirrefl htrans l
  | some k =>
      obtain ⟨a, ha, rfl⟩ := hv k rfl
      have hone : Largest key lt [a] (some (key a)) := by
        refine .entry a List.mem_cons_self ?_
        intro b hb
        rw [List.mem_singleton.mp hb]
        exact hirrefl _
      -- the entry it starts from is compared twice
      refine (hone.search hirrefl htrans l).congr_mem ?_
      intro b
      simp only [List.singleton_append, List.mem_cons]
      exact ⟨fun h => h.elim (fun h => h ▸ ha) id, Or.inr⟩

/-- One entry is written or added, and compared. -/
theorem Bounds.raise (h : Bounds key lt Q l v) {c : A} (hc : c ∈ l')
    (hv : ∀ k, v = some k → ∃ a ∈ l', key a = k)
    (hold : ∀ b ∈ l', Q b → key b = key c ∨ ∃ a ∈ l, Q a ∧ key a = key b) :
    Bounds key lt Q l' (larger lt v (key c)) := by
  cases v with
  | none =>
      refine .entry c hc ?_
      intro b hb hQ
      rcases hold b hb hQ with heq | ⟨a, ha, hQa, -⟩
      · rw [heq]
        exact hirrefl _
      · exact absurd hQa (h.of_none a ha)
  | some k =>
      have hbound : ∀ b ∈ l', Q b → key b = key c ∨ ¬ lt k (key b) := by
        intro b hb hQ
        refine (hold b hb hQ).imp_right ?_
        intro ⟨a, ha, hQa, hab⟩
        rw [← hab]
        exact h.of_some.2 a ha hQa
      simp only [larger]
      split
      · next hlt =>
          refine .entry c hc ?_
          intro b hb hQ hcb
          rcases hbound b hb hQ with heq | hnot
          · exact hirrefl _ (heq ▸ hcb)
          · exact hnot (htrans hlt hcb)
      · next hlt =>
          refine Bounds.mk_some (hv k rfl) ?_
          intro b hb hQ
          rcases hbound b hb hQ with heq | hnot
          · rw [heq]
            exact hlt
          · exact hnot

omit [DecidableRel lt] in
/-- The entry the pointer names is written and does not become less. -/
theorem Bounds.grow (h : Bounds key lt Q l (some k)) {c : A} (hc : c ∈ l')
    (hk : k = key c ∨ lt k (key c))
    (hold : ∀ b ∈ l', Q b → key b = key c ∨ ∃ a ∈ l, Q a ∧ key a = key b) :
    Bounds key lt Q l' (some (key c)) := by
  refine .entry c hc ?_
  intro b hb hQ hcb
  rcases hold b hb hQ with heq | ⟨a, ha, hQa, hab⟩
  · exact hirrefl _ (heq ▸ hcb)
  · have hnot := h.of_some.2 a ha hQa
    rw [hab] at hnot
    rcases hk with rfl | hlt
    · exact hnot hcb
    · exact hnot (htrans hlt hcb)

omit hirrefl htrans in
/-- Nothing in the list is larger than its largest. -/
theorem Largest.larger_of_mem (h : Largest key lt l v) {a : A} (ha : a ∈ l) :
    larger lt v (key a) = v := by
  cases h with
  | empty hnil =>
      subst hnil
      cases ha
  | entry c hc hmax =>
      simp only [larger]
      rw [if_neg (hmax a ha)]

end Order

end Pointer
