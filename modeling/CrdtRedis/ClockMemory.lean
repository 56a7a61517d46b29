/-
Vector clocks as they lie in memory (vector_clock.c): `size` entries and
an id that is any `int`.

The clocks of a deployment all have `p2p_count` entries and an id below
it, and `Vc n` is the type of those. Nothing in `vc_cmp` asks for either:
it compares whatever two structs it is given, and answers by the ids where
the vectors do not decide. `RawVc` is such a struct, `RawVc.vcCmp` the
function on it, and on the clocks of a deployment it is `vcCmp`
(`raw_vcCmp`).

# What it decides

The entries are looked at side by side. Up to the first difference nothing
is decided; it picks a direction; an entry the other way round behind it
makes the two incomparable. So with `Le` for "pointwise at most" the
answer is a matter of `c1.Le c2`, `c2.Le c1` and the ids alone, unless the
vectors are incomparable AND the ids equal, where the first difference
answers.
-/
import CrdtRedis.Clock
import Mathlib.Data.List.Forall2
import Mathlib.Data.List.TakeWhile
import Mathlib.Data.List.Zip

namespace CrdtRedis

/-- `struct vector_clock`: the entries `vector[0..size)` and the id. -/
structure RawVc where
  vector : List ℤ
  id : ℤ
deriving DecidableEq, Repr

namespace RawVc

/-- The two tests of the ids in `vc_cmp`; `none` where neither returns. -/
def cmpIds (c1 c2 : RawVc) : Option VcOrder :=
  if c2.id < c1.id then some .cGreater
  else if c1.id < c2.id then some .cLess
  else none

/-- `vc_cmp`. The first loop ends at the first difference. The second one
tests the ids at every entry the other way round; equal ids let it run on
to the end. -/
def vcCmp (c1 c2 : RawVc) : VcOrder :=
  if c1.vector.length ≠ c2.vector.length then .err
  else
    match (c1.vector.zip c2.vector).dropWhile fun e => decide (e.1 = e.2) with
    | [] => (cmpIds c1 c2).getD .err
    | (x, y) :: rest =>
        if y < x then
          if rest.any fun e => decide (e.1 < e.2) then (cmpIds c1 c2).getD .greater
          else .greater
        else if x < y then
          if rest.any fun e => decide (e.2 < e.1) then (cmpIds c1 c2).getD .less
          else .less
        else .err

/-- Pointwise at most. -/
def Le (c1 c2 : RawVc) : Prop := List.Forall₂ (· ≤ ·) c1.vector c2.vector

instance (c1 c2 : RawVc) : Decidable (c1.Le c2) :=
  inferInstanceAs (Decidable (List.Forall₂ _ _ _))

variable {a b c : RawVc}

theorem Le.trans (hab : a.Le b) (hbc : b.Le c) : a.Le c := by
  refine List.forall₂_iff_get.mpr ?_
  obtain ⟨hlen, hle⟩ := List.forall₂_iff_get.mp hab
  obtain ⟨hlen', hle'⟩ := List.forall₂_iff_get.mp hbc
  exact ⟨hlen.trans hlen', fun i hi hi' =>
    (hle i hi (hlen ▸ hi)).trans (hle' i (hlen ▸ hi) hi')⟩

theorem Le.antisymm (hab : a.Le b) (hba : b.Le a) : a.vector = b.vector := by
  obtain ⟨hlen, hle⟩ := List.forall₂_iff_get.mp hab
  obtain ⟨-, hge⟩ := List.forall₂_iff_get.mp hba
  exact List.ext_get hlen fun i hi hi' => le_antisymm (hle i hi hi') (hge i hi' hi)

theorem Le.of_eq (h : a.vector = b.vector) : a.Le b := by
  unfold Le
  rw [h]
  exact List.forall₂_refl _

-- ================================================ entries side by side

theorem le_iff_zip (hsize : a.vector.length = b.vector.length) :
    a.Le b ↔ ∀ e ∈ a.vector.zip b.vector, e.1 ≤ e.2 := by
  unfold Le
  rw [List.forall₂_iff_zip]
  exact ⟨fun h e he => h.2 he, fun h => ⟨hsize, fun he => h _ he⟩⟩

theorem ge_iff_zip (hsize : a.vector.length = b.vector.length) :
    b.Le a ↔ ∀ e ∈ a.vector.zip b.vector, e.2 ≤ e.1 := by
  rw [le_iff_zip hsize.symm, ← List.zip_swap a.vector b.vector]
  simp only [List.mem_map]
  constructor
  · exact fun h e he => h e.swap ⟨e, he, rfl⟩
  · intro h e he
    obtain ⟨e', he', rfl⟩ := he
    exact h e' he'

/-- What holds of all entries, read off the first difference and the
entries behind it. -/
theorem sided {R : ℤ × ℤ → Prop} (hR : ∀ e : ℤ × ℤ, e.1 = e.2 → R e) {es rest : List (ℤ × ℤ)}
    {x y : ℤ} (hd : (es.dropWhile fun e => decide (e.1 = e.2)) = (x, y) :: rest) :
    (∀ e ∈ es, R e) ↔ R (x, y) ∧ ∀ e ∈ rest, R e := by
  have hsplit :=
    List.takeWhile_append_dropWhile (p := fun e : ℤ × ℤ => decide (e.1 = e.2)) (l := es)
  rw [hd] at hsplit
  rw [← hsplit]
  constructor
  · exact fun h => ⟨h (x, y) (by simp), fun e he => h e (by simp [he])⟩
  · intro h e he
    rcases List.mem_append.mp he with he | he
    · exact hR e (by simpa using List.mem_takeWhile_imp he)
    · rcases List.mem_cons.mp he with rfl | he
      · exact h.1
      · exact h.2 e he

theorem ne_of_first {es rest : List (ℤ × ℤ)} {x y : ℤ}
    (hd : (es.dropWhile fun e => decide (e.1 = e.2)) = (x, y) :: rest) : x ≠ y := by
  have hhead := List.head?_dropWhile_not (fun e : ℤ × ℤ => decide (e.1 = e.2)) es
  rw [hd] at hhead
  simpa using hhead

/-- The first difference decides which of the two orders can hold, the
entries behind it whether it does. -/
theorem le_iff_first (hsize : a.vector.length = b.vector.length) {rest : List (ℤ × ℤ)} {x y : ℤ}
    (hd : ((a.vector.zip b.vector).dropWhile fun e => decide (e.1 = e.2)) = (x, y) :: rest) :
    (a.Le b ↔ x ≤ y ∧ (rest.any fun e => decide (e.2 < e.1)) = false) ∧
      (b.Le a ↔ y ≤ x ∧ (rest.any fun e => decide (e.1 < e.2)) = false) := by
  simp only [List.any_eq_false, decide_eq_true_eq, not_lt]
  rw [le_iff_zip hsize, ge_iff_zip hsize]
  exact ⟨sided (fun e he => he.le) hd, sided (fun e he => he.ge) hd⟩

-- ========================================================== the answers

theorem vcCmp_of_eq (h : a.vector = b.vector) : a.vcCmp b = (cmpIds a b).getD .err := by
  have hall : ((a.vector.zip b.vector).dropWhile fun e => decide (e.1 = e.2)) = [] := by
    rw [List.dropWhile_eq_nil_iff, h]
    intro e he
    have hrefl : List.Forall₂ Eq b.vector b.vector := List.forall₂_refl _
    exact decide_eq_true ((List.forall₂_iff_zip.mp hrefl).2 he)
  unfold vcCmp
  rw [if_neg (not_not.mpr (congrArg List.length h)), hall]

/-- Where the vectors differ there is a first difference. -/
theorem first_of_ne (hsize : a.vector.length = b.vector.length) (h : a.vector ≠ b.vector) :
    ∃ x y rest, ((a.vector.zip b.vector).dropWhile fun e => decide (e.1 = e.2))
      = (x, y) :: rest := by
  cases hd : (a.vector.zip b.vector).dropWhile fun e => decide (e.1 = e.2) with
  | cons e rest => exact ⟨e.1, e.2, rest, rfl⟩
  | nil =>
      have hall := List.dropWhile_eq_nil_iff.mp hd
      refine absurd (Le.antisymm ((le_iff_zip hsize).mpr fun e he => ?_)
        ((ge_iff_zip hsize).mpr fun e he => ?_)) h
      · exact (of_decide_eq_true (hall e he)).le
      · exact (of_decide_eq_true (hall e he)).ge

theorem vcCmp_of_le (hle : a.Le b) (hne : a.vector ≠ b.vector) : a.vcCmp b = .less := by
  have hsize : a.vector.length = b.vector.length := hle.length_eq
  obtain ⟨x, y, rest, hd⟩ := first_of_ne hsize hne
  obtain ⟨hlt, hnone⟩ := (le_iff_first hsize hd).1.mp hle
  unfold vcCmp
  rw [if_neg (not_not.mpr hsize), hd]
  simp only [hnone]
  rw [if_neg (not_lt.mpr hlt), if_pos (lt_of_le_of_ne hlt (ne_of_first hd))]
  rfl

theorem vcCmp_of_ge (hge : b.Le a) (hne : a.vector ≠ b.vector) : a.vcCmp b = .greater := by
  have hsize : a.vector.length = b.vector.length := hge.length_eq.symm
  obtain ⟨x, y, rest, hd⟩ := first_of_ne hsize hne
  obtain ⟨hlt, hnone⟩ := (le_iff_first hsize hd).2.mp hge
  unfold vcCmp
  rw [if_neg (not_not.mpr hsize), hd]
  simp only [hnone]
  rw [if_pos (lt_of_le_of_ne hlt (ne_of_first hd).symm)]
  rfl

/-- Incomparable vectors leave the answer to the ids, if these differ. -/
theorem vcCmp_of_incomparable (hsize : a.vector.length = b.vector.length) (hle : ¬ a.Le b)
    (hge : ¬ b.Le a) {r : VcOrder} (hids : cmpIds a b = some r) : a.vcCmp b = r := by
  obtain ⟨x, y, rest, hd⟩ := first_of_ne hsize fun heq => hle (.of_eq heq)
  obtain ⟨hiff, hiff'⟩ := le_iff_first hsize hd
  unfold vcCmp
  rw [if_neg (not_not.mpr hsize), hd]
  simp only [hids, Option.getD_some]
  rcases lt_or_gt_of_ne (ne_of_first hd) with hlt | hgt
  · have hback : (rest.any fun e => decide (e.2 < e.1)) ≠ false :=
      fun hno => hle (hiff.mpr ⟨hlt.le, hno⟩)
    rw [if_neg (not_lt.mpr hlt.le), if_pos hlt, if_pos (Bool.of_not_eq_false hback)]
  · have hback : (rest.any fun e => decide (e.1 < e.2)) ≠ false :=
      fun hno => hge (hiff'.mpr ⟨hgt.le, hno⟩)
    rw [if_pos hgt, if_pos (Bool.of_not_eq_false hback)]

theorem cmpIds_of_lt (h : a.id < b.id) : cmpIds a b = some .cLess := by
  unfold cmpIds
  rw [if_neg (not_lt.mpr h.le), if_pos h]

theorem cmpIds_of_gt (h : b.id < a.id) : cmpIds a b = some .cGreater := if_pos h

theorem cmpIds_of_eq (h : a.id = b.id) : cmpIds a b = none := by
  unfold cmpIds
  rw [if_neg (not_lt.mpr h.le), if_neg (not_lt.mpr h.ge)]

/-- All the answers there are, for clocks whose ids differ or whose
vectors are comparable. -/
inductive Answer (a b : RawVc) : VcOrder → Prop
  | less (hle : a.Le b) (hne : a.vector ≠ b.vector) : Answer a b .less
  | greater (hge : b.Le a) (hne : a.vector ≠ b.vector) : Answer a b .greater
  | err (heq : a.vector = b.vector) (hid : a.id = b.id) : Answer a b .err
  | cLess (hvec : a.Le b ↔ b.Le a) (hid : a.id < b.id) : Answer a b .cLess
  | cGreater (hvec : a.Le b ↔ b.Le a) (hid : b.id < a.id) : Answer a b .cGreater

theorem vcCmp_answer (hsize : a.vector.length = b.vector.length)
    (h : a.id ≠ b.id ∨ a.Le b ∨ b.Le a) : Answer a b (a.vcCmp b) := by
  by_cases heq : a.vector = b.vector
  · have hvec : a.Le b ↔ b.Le a := iff_of_true (.of_eq heq) (.of_eq heq.symm)
    rw [vcCmp_of_eq heq]
    rcases lt_trichotomy a.id b.id with hid | hid | hid
    · rw [cmpIds_of_lt hid]
      exact .cLess hvec hid
    · rw [cmpIds_of_eq hid]
      exact .err heq hid
    · rw [cmpIds_of_gt hid]
      exact .cGreater hvec hid
  by_cases hle : a.Le b
  · rw [vcCmp_of_le hle heq]
    exact .less hle heq
  by_cases hge : b.Le a
  · rw [vcCmp_of_ge hge heq]
    exact .greater hge heq
  have hids : a.id ≠ b.id := h.resolve_right fun hcon => hcon.elim hle hge
  rcases lt_or_gt_of_ne hids with hid | hid
  · rw [vcCmp_of_incomparable hsize hle hge (cmpIds_of_lt hid)]
    exact .cLess (iff_of_false hle hge) hid
  · rw [vcCmp_of_incomparable hsize hle hge (cmpIds_of_gt hid)]
    exact .cGreater (iff_of_false hle hge) hid

namespace Answer

variable {r r' : VcOrder}

/-- The conditions of the answers exclude each other. -/
theorem unique (h : Answer a b r) (h' : Answer a b r') : r = r' := by
  have hside : ∀ {p q : Prop}, (p ↔ q) → (p ∨ q) → p ∧ q := by tauto
  have hboth : (a.Le b ↔ b.Le a) → (a.Le b ∨ b.Le a) → a.vector = b.vector :=
    fun hiff hor => (hside hiff hor).1.antisymm (hside hiff hor).2
  cases h with
  | less hle hne =>
      cases h' with
      | less => rfl
      | greater hge => exact absurd (hle.antisymm hge) hne
      | err heq => exact absurd heq hne
      | cLess hvec => exact absurd (hboth hvec (.inl hle)) hne
      | cGreater hvec => exact absurd (hboth hvec (.inl hle)) hne
  | greater hge hne =>
      cases h' with
      | less hle => exact absurd (hle.antisymm hge) hne
      | greater => rfl
      | err heq => exact absurd heq hne
      | cLess hvec => exact absurd (hboth hvec (.inr hge)) hne
      | cGreater hvec => exact absurd (hboth hvec (.inr hge)) hne
  | err heq hid =>
      cases h' with
      | less _ hne => exact absurd heq hne
      | greater _ hne => exact absurd heq hne
      | err => rfl
      | cLess _ hlt => exact absurd hid hlt.ne
      | cGreater _ hlt => exact absurd hid hlt.ne'
  | cLess hvec hid =>
      cases h' with
      | less hle hne => exact absurd (hboth hvec (.inl hle)) hne
      | greater hge hne => exact absurd (hboth hvec (.inr hge)) hne
      | err _ heq => exact absurd heq hid.ne
      | cLess => rfl
      | cGreater _ hlt => exact absurd hlt (not_lt.mpr hid.le)
  | cGreater hvec hid =>
      cases h' with
      | less hle hne => exact absurd (hboth hvec (.inl hle)) hne
      | greater hge hne => exact absurd (hboth hvec (.inr hge)) hne
      | err _ heq => exact absurd heq hid.ne'
      | cLess _ hlt => exact absurd hlt (not_lt.mpr hid.le)
      | cGreater => rfl

/-- The answer with the clocks exchanged. -/
theorem swap (h : Answer a b r) (h' : Answer b a r') : r'.code = -r.code := by
  cases h with
  | less hle hne =>
      obtain rfl := h'.unique (.greater hle hne.symm)
      rfl
  | greater hge hne =>
      obtain rfl := h'.unique (.less hge hne.symm)
      rfl
  | err heq hid =>
      obtain rfl := h'.unique (.err heq.symm hid.symm)
      rfl
  | cLess hvec hid =>
      obtain rfl := h'.unique (.cGreater hvec.symm hid)
      rfl
  | cGreater hvec hid =>
      obtain rfl := h'.unique (.cLess hvec.symm hid)
      rfl

end Answer

/-- `vc_cmp` classifies exactly the clocks of one size whose ids differ or
whose vectors are comparable. -/
theorem vcCmp_classifies (c1 c2 : RawVc) (hsize : c1.vector.length = c2.vector.length)
    (h : c1.id ≠ c2.id ∨ c1.Le c2 ∨ c2.Le c1) :
    (c1.vcCmp c2 = .less ↔ c1.Le c2 ∧ c1.vector ≠ c2.vector) ∧
      (c1.vcCmp c2 = .greater ↔ c2.Le c1 ∧ c1.vector ≠ c2.vector) ∧
      (c1.vcCmp c2 = .err ↔ c1.vector = c2.vector ∧ c1.id = c2.id) ∧
      (¬ (c1.Le c2 ∧ c1.vector ≠ c2.vector) → ¬ (c2.Le c1 ∧ c1.vector ≠ c2.vector) →
        ¬ (c1.vector = c2.vector ∧ c1.id = c2.id) →
        c1.id < c2.id ∧ c1.vcCmp c2 = .cLess ∨ c2.id < c1.id ∧ c1.vcCmp c2 = .cGreater) ∧
      (c2.vcCmp c1).code = -(c1.vcCmp c2).code ∧
      ∀ c3 : RawVc, c2.vector.length = c3.vector.length →
        c2.id ≠ c3.id ∨ c2.Le c3 ∨ c3.Le c2 →
        c1.vcCmp c2 = .less → c2.vcCmp c3 = .less → c1.vcCmp c3 = .less := by
  have hans := vcCmp_answer hsize h
  have hless : ∀ {d e : RawVc}, Answer d e (d.vcCmp e) →
      (d.vcCmp e = .less ↔ d.Le e ∧ d.vector ≠ e.vector) := by
    intro d e hd
    refine ⟨fun heq => ?_, fun hc => hd.unique (.less hc.1 hc.2)⟩
    rw [heq] at hd
    cases hd with
    | less hle hne => exact ⟨hle, hne⟩
  refine ⟨hless hans, ?_, ?_, ?_, ?_, ?_⟩
  · refine ⟨fun heq => ?_, fun hc => hans.unique (.greater hc.1 hc.2)⟩
    rw [heq] at hans
    cases hans with
    | greater hge hne => exact ⟨hge, hne⟩
  · refine ⟨fun heq => ?_, fun hc => hans.unique (.err hc.1 hc.2)⟩
    rw [heq] at hans
    cases hans with
    | err hvec hid => exact ⟨hvec, hid⟩
  · intro hnless hngreater hnerr
    generalize c1.vcCmp c2 = r at hans ⊢
    cases hans with
    | less hle hne => exact absurd ⟨hle, hne⟩ hnless
    | greater hge hne => exact absurd ⟨hge, hne⟩ hngreater
    | err hvec hid => exact absurd ⟨hvec, hid⟩ hnerr
    | cLess _ hid => exact Or.inl ⟨hid, rfl⟩
    | cGreater _ hid => exact Or.inr ⟨hid, rfl⟩
  · exact hans.swap (vcCmp_answer hsize.symm (h.imp Ne.symm Or.symm))
  · intro c3 hsize₃ h₃ h12 h23
    obtain ⟨hle, hne⟩ := (hless hans).mp h12
    obtain ⟨hle', hne'⟩ := (hless (vcCmp_answer hsize₃ h₃)).mp h23
    refine vcCmp_of_le (hle.trans hle') fun heq => ?_
    have hback : c2.Le c1 := hle'.trans (.of_eq heq.symm)
    exact hne (hle.antisymm hback)

/-- Two clocks of one server, and one of another server above both. -/
theorem vcCmp_classifies_chain :
    (RawVc.vcCmp ⟨[1, 0, 2], 0⟩ ⟨[1, 1, 2], 0⟩).code = -2 ∧
      RawVc.vcCmp ⟨[1, 0, 2], 0⟩ ⟨[2, 1, 2], 1⟩ = .less := by
  have h := vcCmp_classifies ⟨[1, 0, 2], 0⟩ ⟨[1, 1, 2], 0⟩ rfl (by decide)
  have hless := h.1.mpr (by decide)
  refine ⟨by rw [hless]; rfl, h.2.2.2.2.2 ⟨[2, 1, 2], 1⟩ rfl (by decide) hless ?_⟩
  decide

end RawVc

-- ======================================== the clocks of a deployment

variable {n : ℕ}

/-- The struct a clock of the deployment is. -/
def Vc.raw (c : Vc n) : RawVc := ⟨List.ofFn c.vector, (c.id : ℤ)⟩

theorem Vc.zip_raw (a b : Vc n) : a.raw.vector.zip b.raw.vector
    = (List.finRange n).map fun i => (a.vector i, b.vector i) := by
  simp only [Vc.raw, List.ofFn_eq_map, List.zip_map']

theorem Vc.cmpIds_raw (a b : Vc n) (r : VcOrder) (hr : r = .err ∨ a.id ≠ b.id) :
    (RawVc.cmpIds a.raw b.raw).getD r = cmpById a b := by
  have hlt : ∀ i j : Fin n, ((i : ℤ) < (j : ℤ)) ↔ i < j := by
    intro i j
    rw [Int.ofNat_lt]
    rfl
  unfold cmpById
  rcases lt_trichotomy a.id b.id with hid | hid | hid
  · rw [RawVc.cmpIds_of_lt ((hlt _ _).mpr hid), if_neg hid.ne, if_neg (not_lt.mpr hid.le)]
    rfl
  · rw [RawVc.cmpIds_of_eq (congrArg (fun i : Fin n => (i : ℤ)) hid), if_pos hid]
    exact hr.resolve_right (not_not.mpr hid)
  · rw [RawVc.cmpIds_of_gt ((hlt _ _).mpr hid), if_neg hid.ne', if_pos hid]
    rfl

/-- What the first loop finds, and what is left to the second one. -/
theorem Vc.firstDiff_raw (a b : Vc n) :
    match firstDiff a b with
    | none => ((a.raw.vector.zip b.raw.vector).dropWhile fun e => decide (e.1 = e.2)) = []
    | some i => ∃ js : List (Fin n), (∀ j, j ∈ js ↔ i < j) ∧
        ((a.raw.vector.zip b.raw.vector).dropWhile fun e => decide (e.1 = e.2))
          = (a.vector i, b.vector i) :: js.map fun j => (a.vector j, b.vector j) := by
  rw [Vc.zip_raw, List.dropWhile_map]
  cases hfirst : firstDiff a b with
  | none =>
      have heq := firstDiff_none.mp hfirst
      simp [List.dropWhile_eq_nil_iff, Function.comp_def, heq]
  | some i =>
      obtain ⟨hne, hbefore⟩ := firstDiff_some hfirst
      obtain ⟨is, js, hsplit⟩ := List.append_of_mem (List.mem_finRange i)
      have hsorted : (is ++ i :: js).Pairwise (· < ·) := hsplit ▸ List.pairwise_lt_finRange n
      rw [List.pairwise_append, List.pairwise_cons] at hsorted
      obtain ⟨-, ⟨hafter, -⟩, hcross⟩ := hsorted
      refine ⟨js, fun j => ⟨hafter j, fun hj => ?_⟩, ?_⟩
      · have hmem : j ∈ is ++ i :: js := hsplit ▸ List.mem_finRange j
        rcases List.mem_append.mp hmem with hmem | hmem
        · exact absurd (hcross j hmem i List.mem_cons_self) (not_lt.mpr hj.le)
        · rcases List.mem_cons.mp hmem with rfl | hmem
          · exact absurd hj (lt_irrefl _)
          · exact hmem
      · have hskip : ∀ j ∈ is,
            ((fun e : ℤ × ℤ => decide (e.1 = e.2)) ∘ fun i => (a.vector i, b.vector i)) j = true :=
          fun j hj => decide_eq_true (hbefore j (hcross j hj i List.mem_cons_self))
        rw [hsplit, List.dropWhile_append_of_pos hskip,
          List.dropWhile_cons_of_neg (by simpa using hne)]
        rfl

/-- On the clocks of a deployment the two functions are one. -/
theorem raw_vcCmp (a b : Vc n) : a.raw.vcCmp b.raw = vcCmp a b := by
  have hsize : a.raw.vector.length = b.raw.vector.length := by simp [Vc.raw]
  have hloop := Vc.firstDiff_raw a b
  unfold RawVc.vcCmp vcCmp
  rw [if_neg (not_not.mpr hsize)]
  cases hfirst : firstDiff a b with
  | none =>
      rw [hfirst] at hloop
      rw [hloop]
      exact Vc.cmpIds_raw a b _ (Or.inl rfl)
  | some i =>
      obtain ⟨hne, -⟩ := firstDiff_some hfirst
      rw [hfirst] at hloop
      obtain ⟨js, hjs, hdrop⟩ := hloop
      rw [hdrop]
      -- the second loop, in either direction, and the ids it asks
      have hscan : ∀ (p : ℤ × ℤ → Prop) [DecidablePred p] (r : VcOrder),
          (if (js.map fun j => (a.vector j, b.vector j)).any (fun e => decide (p e)) = true then
            (RawVc.cmpIds a.raw b.raw).getD r else r)
          = if a.id ≠ b.id ∧ ∃ j, i < j ∧ p (a.vector j, b.vector j) then cmpById a b else r := by
        intro p _ r
        have hany : ((js.map fun j => (a.vector j, b.vector j)).any fun e => decide (p e)) = true
            ↔ ∃ j, i < j ∧ p (a.vector j, b.vector j) := by
          simp [List.any_eq_true, hjs]
        by_cases hex : ∃ j, i < j ∧ p (a.vector j, b.vector j)
        · rw [if_pos (hany.mpr hex)]
          by_cases hid : a.id = b.id
          · rw [if_neg fun hcon => hcon.1 hid,
              RawVc.cmpIds_of_eq (congrArg (fun i : Fin n => (i : ℤ)) hid)]
            rfl
          · rw [if_pos ⟨hid, hex⟩]
            exact Vc.cmpIds_raw a b r (Or.inr hid)
        · rw [if_neg (mt hany.mp hex), if_neg fun hcon => hex hcon.2]
      rcases lt_or_gt_of_ne hne with hlt | hgt
      · simp only [if_neg (not_lt.mpr hlt.le), if_pos hlt]
        exact hscan (fun e => e.2 < e.1) .less
      · simp only [if_pos hgt]
        exact hscan (fun e => e.1 < e.2) .greater

end CrdtRedis
