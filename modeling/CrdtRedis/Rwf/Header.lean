/-
The element header of the RWF framework (RWFramework.h): the removal
history `current` of an element and the id `pid` of the server whose add
it holds, with the three checks every effect phase starts from.

An element's operations carry the history their origin had. A history
with an entry the local one has not reached acts as a remove on arrival
(`removeCheck`), whatever operation carries it; an add or an update takes
effect only where its history EQUALS the local one (`addCheck`,
`updateCheck`).
-/
import CrdtRedis.Command

namespace CrdtRedis

variable {n : ℕ}

/-- `struct RWF_element_header`. -/
structure Reh (n : ℕ) where
  pid : ℤ
  current : Vc n
deriving DecidableEq

/-- `PID_NEXIST`. -/
def pidNexist : ℤ := -1

/-- `PID_WAIT_INNATE`. -/
def pidWaitInnate : ℤ := -2

namespace Reh

/-- `REH_INIT`. -/
def new (me : Fin n) : Reh n := ⟨pidNexist, vcNew me⟩

/-- `REH_RMV_FUNC`. -/
def rmvFunc (h : Reh n) (t : Vc n) : Reh n := ⟨pidNexist, vcUpdate h.current t⟩

/-- `EXISTS`. -/
def exist (h : Reh n) : Bool := decide (h.pid ≠ pidNexist)

/-- `addCheck`: the header after it and whether it passed. -/
def addCheck (h : Reh n) (t : Vc n) : Reh n × Bool :=
  if !vcEqual t h.current then (h, false)
  else if h.pid < t.id then ({ h with pid := t.id }, true)
  else (h, false)

/-- `updateCheck`. -/
def updateCheck (h : Reh n) (t : Vc n) : Reh n × Bool :=
  if !vcEqual t h.current then (h, false)
  else if !h.exist then ({ h with pid := pidWaitInnate }, true)
  else (h, true)

/-- `removeCheck`. -/
def removeCheck (h : Reh n) (t : Vc n) : Reh n × Bool :=
  if ∃ i, h.current.vector i < t.vector i then (h.rmvFunc t, true)
  else (h, false)

-- what the checks do, by how the history compares with the local one

variable {h : Reh n} {t : Vc n}

theorem removeCheck_of_le (hle : t.vector ≤ h.current.vector) :
    h.removeCheck t = (h, false) := by
  unfold removeCheck
  rw [if_neg]
  rintro ⟨i, hi⟩
  exact absurd (hle i) (not_le.mpr hi)

theorem removeCheck_of_not_le (hle : ¬ t.vector ≤ h.current.vector) :
    h.removeCheck t = (h.rmvFunc t, true) := by
  unfold removeCheck
  rw [if_pos]
  by_contra hno
  exact hle fun i => not_lt.mp fun hi => hno ⟨i, hi⟩

/-- `removeFunc` of a type with this header: what a remove that fires makes
of the record, and what it reports. -/
def removeBy {R C : Type} (header : R → Reh n) (reset : Reh n → R → R) (fired idle : C) (e : R)
    (t : Vc n) : R × C :=
  match (header e).removeCheck t with
  | (h, true) => (reset h e, fired)
  | (_, false) => (e, idle)

section

variable {R C : Type} {header : R → Reh n} {reset : Reh n → R → R} {fired idle : C} {e : R}

theorem removeBy_of_le (hle : t.vector ≤ (header e).current.vector) :
    removeBy header reset fired idle e t = (e, idle) := by
  rw [removeBy, removeCheck_of_le hle]

theorem removeBy_of_not_le (hle : ¬ t.vector ≤ (header e).current.vector) :
    removeBy header reset fired idle e t = (reset ((header e).rmvFunc t) e, fired) := by
  rw [removeBy, removeCheck_of_not_le hle]

theorem removeBy_header (hreset : ∀ h e, header (reset h e) = h) :
    header (removeBy header reset fired idle e t).1 = ((header e).removeCheck t).1 := by
  by_cases hle : t.vector ≤ (header e).current.vector
  · rw [removeBy_of_le hle, removeCheck_of_le hle]
  · rw [removeBy_of_not_le hle, removeCheck_of_not_le hle]
    exact hreset _ e

end

@[simp] theorem rmvFunc_pid : (h.rmvFunc t).pid = pidNexist := rfl

@[simp] theorem rmvFunc_current : (h.rmvFunc t).current = vcUpdate h.current t := rfl

theorem addCheck_of_ne (hne : t.vector ≠ h.current.vector) :
    h.addCheck t = (h, false) := by
  unfold addCheck
  rw [if_pos (by simp [hne])]

theorem addCheck_of_eq (heq : t.vector = h.current.vector) :
    h.addCheck t = if h.pid < t.id then ({ h with pid := t.id }, true)
      else (h, false) := by
  unfold addCheck
  rw [if_neg (by simp [heq])]

/-- A check that does not pass leaves the header alone. -/
theorem addCheck_false {h' : Reh n} (hc : h.addCheck t = (h', false)) : h' = h := by
  unfold addCheck at hc
  split at hc
  · exact (Prod.mk.inj hc).1.symm
  · split at hc
    · cases (Prod.mk.inj hc).2
    · exact (Prod.mk.inj hc).1.symm

/-- An add that passes makes the element exist. -/
theorem addCheck_exist {h' : Reh n} (hc : h.addCheck t = (h', true)) :
    h'.exist = true := by
  have hid : (0 : ℤ) ≤ (t.id : ℤ) := Int.natCast_nonneg _
  unfold addCheck at hc
  split at hc
  · cases (Prod.mk.inj hc).2
  · split at hc
    · obtain ⟨rfl, -⟩ := Prod.mk.inj hc
      have hne : (t.id : ℤ) ≠ pidNexist := by
        unfold pidNexist
        omega
      exact decide_eq_true hne
    · cases (Prod.mk.inj hc).2

theorem updateCheck_false {h' : Reh n} (hc : h.updateCheck t = (h', false)) :
    h' = h := by
  unfold updateCheck at hc
  split at hc
  · exact (Prod.mk.inj hc).1.symm
  · split at hc
    · cases (Prod.mk.inj hc).2
    · cases (Prod.mk.inj hc).2

theorem updateCheck_of_ne (hne : t.vector ≠ h.current.vector) :
    h.updateCheck t = (h, false) := by
  unfold updateCheck
  rw [if_pos (by simp [hne])]

theorem updateCheck_of_eq (heq : t.vector = h.current.vector) :
    h.updateCheck t
      = ({ h with pid := if h.pid = pidNexist then pidWaitInnate else h.pid },
          true) := by
  unfold updateCheck exist
  rw [if_neg (by simp [heq])]
  by_cases hpid : h.pid = pidNexist
  · simp [hpid]
  · simp [hpid]

end Reh

variable {R : Type}

/-- `PREPARE_PRECOND_ADD` and `ADD_CR_NON_RMV`, on a record that was
fetched with creation. -/
def rwfAddPrepare (header : R → Reh n) (new : R) (e : Option R) :
    Except Reply (R × List (Arg n)) :=
  let e := e.getD new
  if (header e).exist then .error .eleExist
  else .ok (e, [.vc (header e).current])

/-- `PREPARE_PRECOND_NON_ADD`, then the history appended: as it is
(`ADD_CR_NON_RMV`) or with the local entry counted up (`ADD_CR_RMV`). -/
def rwfNonAddPrepare (header : R → Reh n) (history : Vc n → Vc n) :
    Option R → Except Reply (R × List (Arg n))
  | none => .error .eleNexist
  | some e =>
      if (header e).exist then .ok (e, [.vc (history (header e).current)])
      else .error .eleNexist

end CrdtRedis
