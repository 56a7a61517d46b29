/-
The two logical clocks of the server (vector_clock.h, vector_clock.c,
lamport_clock.h).

# Vector clocks

A `vc` is an array of `size` ints and the index of the server it belongs
to. Every clock of a deployment is made by `vc_new()`, with
`server.p2p_count` entries and the local `server.p2p_id`, or decoded from
one, so the size is the type's index here and the size tests of
`vc_equal`, `vc_cmp` and `vc_update` always pass. Entries are counters;
they are unbounded integers.

`vc_cmp` is where the order on clocks is decided: the first entry that
differs picks a direction, a later entry the other way round makes the
two concurrent and hands the answer to the ids. With EQUAL ids the loop
runs through and the first difference answers alone — the reading
`VC_LESS` = "pointwise below" is right for clocks that are comparable or
carry different ids (`vcCmp_less_iff`), and only for those.

# Lamport clocks

An `lc` is a counter and a server id, compared id-first when it is a tag
(`lc_cmp_as_tag`) and counter-first when it is a time (`lc_cmp`).
-/
import Mathlib.Order.Lattice
import Mathlib.Data.List.FinRange
import Mathlib.Data.Fintype.Pi
import Mathlib.Algebra.Order.Ring.Int
import Mathlib.Algebra.Order.Group.Unbundled.Int
import Mathlib.Data.Int.ConditionallyCompleteOrder
import Mathlib.Order.ConditionallyCompleteLattice.Basic

namespace CrdtRedis

-- ==================================================== vector clocks

/-- `struct vector_clock`: the entries and the index of the server the
clock belongs to. -/
structure Vc (n : ℕ) where
  vector : Fin n → ℤ
  id : Fin n
deriving DecidableEq

/-- Strictly below in the vector order; ids are not compared. -/
def Vc.Below {n : ℕ} (a b : Vc n) : Prop := a.vector < b.vector

instance {n : ℕ} (a b : Vc n) : Decidable (a.Below b) :=
  decidable_of_iff ((∀ i, a.vector i ≤ b.vector i) ∧ ∃ i, a.vector i < b.vector i)
    Pi.lt_def.symm

/-- The results of `vc_cmp`, `VC_LESS` to `VC_GREATER`. -/
inductive VcOrder
  | less | cLess | err | cGreater | greater
deriving DecidableEq, Repr

/-- The integer each result stands for. -/
def VcOrder.code : VcOrder → ℤ
  | less => -2
  | cLess => -1
  | err => 0
  | cGreater => 1
  | greater => 2

variable {n : ℕ}

/-- `_vc_new`: all entries zero. -/
def vcNew (id : Fin n) : Vc n := ⟨fun _ => 0, id⟩

/-- `vc_equal`: the entries agree; ids are not compared. -/
def vcEqual (c1 c2 : Vc n) : Bool :=
  decide (∀ i, c1.vector i = c2.vector i)

/-- `vc_causally_ready`: `next` is the next operation of its server and
everything else it has seen is in `current`. -/
def vcCausallyReady (current next : Vc n) : Bool :=
  decide (∀ i, i ≠ next.id → next.vector i ≤ current.vector i) &&
    decide (next.vector next.id = current.vector next.id + 1)

/-- The first loop of `vc_cmp`: where the entries first differ. -/
def firstDiff (c1 c2 : Vc n) : Option (Fin n) :=
  (List.finRange n).find? fun i => decide (c1.vector i ≠ c2.vector i)

/-- The id comparison `vc_cmp` falls back on. -/
def cmpById (c1 c2 : Vc n) : VcOrder :=
  if c1.id = c2.id then .err
  else if c2.id < c1.id then .cGreater
  else .cLess

/-- `vc_cmp`. The scan after the first difference returns at the first
entry the other way round, unless the ids are equal. -/
def vcCmp (c1 c2 : Vc n) : VcOrder :=
  match firstDiff c1 c2 with
  | none => cmpById c1 c2
  | some i =>
      if c2.vector i < c1.vector i then
        if c1.id ≠ c2.id ∧ ∃ j, i < j ∧ c1.vector j < c2.vector j
        then cmpById c1 c2 else .greater
      else
        if c1.id ≠ c2.id ∧ ∃ j, i < j ∧ c2.vector j < c1.vector j
        then cmpById c1 c2 else .less

/-- `vc_update`: entrywise maximum into `tar`, whose id stays. -/
def vcUpdate (tar m : Vc n) : Vc n :=
  { tar with vector := fun i =>
      if tar.vector i < m.vector i then m.vector i else tar.vector i }

/-- `_vc_inc`: take the id over and count one operation of it. -/
def vcInc (c : Vc n) (id : Fin n) : Vc n :=
  ⟨Function.update c.vector id (c.vector id + 1), id⟩

/-- `vc_now`: the clock of the next local operation; `c` itself is put
back before the function returns. -/
def vcNow (c : Vc n) : Vc n :=
  { c with vector := Function.update c.vector c.id (c.vector c.id + 1) }

-- =================================================== what they compute

@[simp] theorem vcNew_vector (i : Fin n) : (vcNew i).vector = 0 := rfl
@[simp] theorem vcNew_id (i : Fin n) : (vcNew i).id = i := rfl

@[simp] theorem vcEqual_iff {a b : Vc n} :
    vcEqual a b = true ↔ a.vector = b.vector := by
  simp [vcEqual, funext_iff]

@[simp] theorem vcEqual_eq_false {a b : Vc n} :
    vcEqual a b = false ↔ a.vector ≠ b.vector := by
  rw [← Bool.not_eq_true, vcEqual_iff]

@[simp] theorem vcUpdate_id (a b : Vc n) : (vcUpdate a b).id = a.id := rfl

@[simp] theorem vcUpdate_vector (a b : Vc n) :
    (vcUpdate a b).vector = a.vector ⊔ b.vector := by
  funext i
  show (if a.vector i < b.vector i then b.vector i else a.vector i)
    = max (a.vector i) (b.vector i)
  split
  · next h => exact (max_eq_right h.le).symm
  · next h => exact (max_eq_left (not_lt.mp h)).symm

@[simp] theorem vcNow_id (c : Vc n) : (vcNow c).id = c.id := rfl

@[simp] theorem vcNow_self (c : Vc n) :
    (vcNow c).vector c.id = c.vector c.id + 1 := by
  simp [vcNow]

theorem vcNow_of_ne (c : Vc n) {i : Fin n} (h : i ≠ c.id) :
    (vcNow c).vector i = c.vector i := by
  simp [vcNow, h]

/-- The clock of the next operation has seen what the site has seen. -/
theorem le_vcNow (c : Vc n) : c.vector ≤ (vcNow c).vector := by
  intro i
  by_cases h : i = c.id
  · subst h
    rw [vcNow_self]
    exact (lt_add_one _).le
  · rw [vcNow_of_ne c h]

-- ========================================================== vc_cmp

theorem firstDiff_none {a b : Vc n} :
    firstDiff a b = none ↔ a.vector = b.vector := by
  simp [firstDiff, List.find?_eq_none, funext_iff]

theorem firstDiff_some {a b : Vc n} {i : Fin n}
    (h : firstDiff a b = some i) :
    a.vector i ≠ b.vector i ∧ ∀ j, j < i → a.vector j = b.vector j := by
  obtain ⟨hp, k, hk, hki, hmin⟩ := List.find?_eq_some_iff_getElem.mp h
  refine ⟨by simpa using hp, fun j hj => ?_⟩
  have hik : i.val = k := by
    rw [← hki]
    simp
  have hjk : j.val < k := by
    rw [← hik]
    exact hj
  simpa using hmin j.val hjk

/-- One direction of the first difference settles pointwise order up to
an entry the other way round after it. -/
theorem le_iff_of_firstDiff {a b : Vc n} {i : Fin n}
    (h : firstDiff a b = some i) (hlt : a.vector i < b.vector i) :
    a.vector ≤ b.vector ↔ ¬ ∃ j, i < j ∧ b.vector j < a.vector j := by
  constructor
  · rintro hle ⟨j, -, hj⟩
    exact absurd (hle j) (not_le.mpr hj)
  · intro hno j
    rcases lt_trichotomy j i with hj | hj | hj
    · exact ((firstDiff_some h).2 j hj).le
    · exact hj ▸ hlt.le
    · exact not_lt.mp fun hcon => hno ⟨j, hj, hcon⟩

theorem cmpById_ne_less (a b : Vc n) : cmpById a b ≠ .less := by
  unfold cmpById
  repeat' split
  all_goals simp

/-- On clocks that are comparable or carry different ids, `VC_LESS` is
the strict pointwise order. -/
theorem vcCmp_less_iff {a b : Vc n}
    (h : a.id ≠ b.id ∨ a.vector ≤ b.vector ∨ b.vector ≤ a.vector) :
    vcCmp a b = .less ↔ a.vector < b.vector := by
  unfold vcCmp
  cases hd : firstDiff a b with
  | none =>
      have heq := firstDiff_none.mp hd
      simp [cmpById_ne_less, heq]
  | some i =>
      obtain ⟨hne, -⟩ := firstDiff_some hd
      rcases lt_or_gt_of_ne hne with hlt | hgt
      · have hle := le_iff_of_firstDiff hd hlt
        have hnge : ¬ b.vector ≤ a.vector := fun hcon =>
          absurd (hcon i) (not_le.mpr hlt)
        simp only [if_neg (not_lt.mpr hlt.le)]
        split
        · next hc =>
            refine iff_of_false (cmpById_ne_less a b) fun hcon => ?_
            exact hle.mp hcon.le hc.2
        · next hc =>
            refine iff_of_true rfl (lt_of_le_not_ge (hle.mpr fun hex => ?_) hnge)
            rcases h with hid | hab | hba
            · exact hc ⟨hid, hex⟩
            · exact hle.mp hab hex
            · exact hnge hba
      · have hnle : ¬ a.vector ≤ b.vector := fun hcon =>
          absurd (hcon i) (not_le.mpr hgt)
        simp only [if_pos hgt]
        refine iff_of_false ?_ fun hcon => hnle hcon.le
        split
        · exact cmpById_ne_less a b
        · simp

theorem firstDiff_comm (a b : Vc n) : firstDiff a b = firstDiff b a := by
  simp only [firstDiff, ne_comm]

/-- Neither vector is below the other. -/
def Vc.Concurrent (a b : Vc n) : Prop := ¬ a.vector ≤ b.vector ∧ ¬ b.vector ≤ a.vector

/-- Concurrent clocks are ordered by their ids. -/
theorem vcCmp_concurrent {a b : Vc n} (h : a.Concurrent b) (hid : a.id ≠ b.id) :
    vcCmp a b = cmpById a b := by
  unfold vcCmp
  cases hd : firstDiff a b with
  | none => rfl
  | some i =>
      have hd' : firstDiff b a = some i := by rw [firstDiff_comm, hd]
      dsimp only
      rcases lt_or_gt_of_ne (firstDiff_some hd).1 with hlt | hgt
      · have hback : ∃ j, i < j ∧ b.vector j < a.vector j :=
          not_not.mp fun hno => h.1 ((le_iff_of_firstDiff hd hlt).mpr hno)
        rw [if_neg (not_lt.mpr hlt.le), if_pos ⟨hid, hback⟩]
      · have hback : ∃ j, i < j ∧ a.vector j < b.vector j :=
          not_not.mp fun hno => h.2 ((le_iff_of_firstDiff hd' hgt).mpr hno)
        rw [if_pos hgt, if_pos ⟨hid, hback⟩]

-- =================================================== lamport clocks

/-- `struct lamport_clock`. -/
structure Lc where
  x : ℤ
  id : ℤ
deriving DecidableEq, Repr

/-- `lc_cmp_as_tag`: id first. -/
def lcCmpAsTag (t1 t2 : Lc) : ℤ :=
  if t1.id ≠ t2.id then t1.id - t2.id else t1.x - t2.x

/-- `lc_cmp`: counter first. -/
def lcCmp (t1 t2 : Lc) : ℤ :=
  if t1.x ≠ t2.x then t1.x - t2.x else t1.id - t2.id

/-- `lc_update`: the larger counter into `tar`, whose id stays. -/
def lcUpdate (tar m : Lc) : Lc :=
  { tar with x := if m.x < tar.x then tar.x else m.x }

@[simp] theorem lcCmpAsTag_eq_zero {a b : Lc} :
    lcCmpAsTag a b = 0 ↔ a = b := by
  cases a
  cases b
  simp only [lcCmpAsTag, Lc.mk.injEq]
  split <;> constructor <;> intro h <;> omega

theorem lcCmpAsTag_neg {a b : Lc} :
    lcCmpAsTag a b < 0 ↔ a.id < b.id ∨ a.id = b.id ∧ a.x < b.x := by
  simp only [lcCmpAsTag]
  split <;> omega

/-- The order of tags. -/
def Lc.TagLt (a b : Lc) : Prop := lcCmpAsTag a b < 0

instance : DecidableRel Lc.TagLt := fun a b =>
  inferInstanceAs (Decidable (lcCmpAsTag a b < 0))

theorem Lc.TagLt.irrefl (a : Lc) : ¬ a.TagLt a := by
  unfold Lc.TagLt
  rw [lcCmpAsTag_neg]
  omega

theorem Lc.TagLt.trans {a b c : Lc} (hab : a.TagLt b) (hbc : b.TagLt c) : a.TagLt c := by
  unfold Lc.TagLt at *
  rw [lcCmpAsTag_neg] at *
  omega

/-- Tags that neither is less are the same. -/
theorem Lc.TagLt.antisymm {a b : Lc} (hab : ¬ a.TagLt b) (hba : ¬ b.TagLt a) : a = b := by
  unfold Lc.TagLt at *
  rw [lcCmpAsTag_neg] at *
  rw [← lcCmpAsTag_eq_zero]
  simp only [lcCmpAsTag]
  split <;> omega

theorem lcCmp_nonpos {a b : Lc} :
    lcCmp a b ≤ 0 ↔ a.x < b.x ∨ a.x = b.x ∧ a.id ≤ b.id := by
  simp only [lcCmp]
  split <;> omega

@[simp] theorem lcUpdate_x (a b : Lc) : (lcUpdate a b).x = max a.x b.x := by
  simp only [lcUpdate]
  split <;> omega

@[simp] theorem lcUpdate_id (a b : Lc) : (lcUpdate a b).id = a.id := rfl

end CrdtRedis
