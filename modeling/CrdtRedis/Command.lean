/-
The shape shared by the commands on one element of a sorted-set
container (CRDT.h).

Five of the seven data types keep a record per element in a hidden hash
table and publish the element in a sorted set: oz*, rz*, rwfz*, os*,
rwfs*. Their commands differ in what they check and what they do to the
record; the frame around it — argument count, container type, argument
types, fetching the record, appending to the broadcast, replaying the
sorted-set calls — is the same macro text in all of them. `ElemCommand`
is one such command: its own values, without the frame.
-/
import CrdtRedis.Basic

namespace CrdtRedis

/-- A command on the record type `R` of one element. -/
structure ElemCommand (n : ℕ) (R : Type) where
  /-- The bound of `CHECK_ARGC`. -/
  maxArgc : ℕ
  /-- The arguments `CHECK_ARG_TYPE_*` looks at. -/
  checks : List (ℕ × ArgType)
  /-- Whether the preparation creates a missing record. -/
  create : Bool
  /-- From the precondition to the last `RARGV_ADD_SDS`: a refusal, or
  the record as the preparation leaves it and the appended arguments. -/
  prepare : Fin n → Option R → Except Reply (R × List (Arg n))
  /-- The effect phase: decode the broadcast, then act on the record and
  on the sorted set. -/
  effect : (String → Option ℤ) → List (Arg n) → Option (R → R × List ZCall)

variable {n : ℕ}

/-- The first of the `CHECK_ARG_TYPE_*` that fails. -/
def failedCheck (dbl : String → Option ℤ) (checks : List (ℕ × ArgType))
    (argv : List String) : Option Reply :=
  checks.findSome? fun c => checkArgType dbl c.2 (argv.getD c.1 "")

-- ================================================ reading a broadcast

/-- `c->rargv[i]` as a string. -/
def strAt (i : ℕ) (rargv : List (Arg n)) : Option String :=
  match rargv[i]? with
  | some (.str s) => some s
  | _ => none

/-- `sdsToVC(c->rargv[i]->ptr)`. -/
def vcAt (i : ℕ) (rargv : List (Arg n)) : Option (Vc n) :=
  match rargv[i]? with
  | some (.vc t) => some t
  | _ => none

/-- `sdsToLc(c->rargv[i]->ptr)`. -/
def lcAt (i : ℕ) (rargv : List (Arg n)) : Option Lc :=
  match rargv[i]? with
  | some (.lc t) => some t
  | _ => none

/-- `sdsToLeid(c->rargv[i]->ptr)`. -/
def leidAt (i : ℕ) (rargv : List (Arg n)) : Option Leid :=
  match rargv[i]? with
  | some (.leid p) => some p
  | _ => none

/-- `CR_GET_LAST`. -/
def crGetLast (rargv : List (Arg n)) : Option (Vc n) := vcAt (rargv.length - 1) rargv

/-- The tags a broadcast lists from position `i` on. -/
def tagsFrom (i : ℕ) (rargv : List (Arg n)) : Option (List Lc) :=
  (rargv.drop i).mapM fun a => match a with
    | .lc t => some t
    | _ => none

/-- The client's words are read back. -/
theorem strAt_map_append {i : ℕ} {argv : List String} (h : i < argv.length)
    (args : List (Arg n)) :
    strAt i (argv.map Arg.str ++ args) = some (argv.getD i "") := by
  unfold strAt
  rw [List.getElem?_append_left (by simpa using h)]
  simp [h]

/-- A vector without its name and the clock it ends in reads as the whole
one behind the name, except for that clock. -/
theorem getElem?_inner {rargv : List (Arg n)} {t : Vc n} (h : crGetLast rargv = some t)
    (i : ℕ) : ((rargv.drop 1).take (rargv.length - 2))[i]? = (rargv.drop 1)[i]? ∨
      ((rargv.drop 1).take (rargv.length - 2))[i]? = none ∧
        (rargv.drop 1)[i]? = some (.vc t) := by
  rw [List.getElem?_take, List.getElem?_drop]
  by_cases hi : i < rargv.length - 2
  · exact Or.inl (if_pos hi)
  rw [if_neg hi]
  by_cases hend : 1 + i = rargv.length - 1
  · refine Or.inr ⟨rfl, ?_⟩
    rw [hend]
    unfold crGetLast vcAt at h
    split at h
    · next t' ht =>
        rw [ht, Option.some.inj h]
    · cases h
  · exact Or.inl (List.getElem?_eq_none (by omega)).symm

theorem strAt_inner {rargv : List (Arg n)} {t : Vc n} (h : crGetLast rargv = some t) (i : ℕ) :
    strAt i ((rargv.drop 1).take (rargv.length - 2)) = strAt i (rargv.drop 1) := by
  unfold strAt
  rcases getElem?_inner h i with heq | ⟨hnone, hvc⟩
  · rw [heq]
  · rw [hnone, hvc]

theorem leidAt_inner {rargv : List (Arg n)} {t : Vc n} (h : crGetLast rargv = some t) (i : ℕ) :
    leidAt i ((rargv.drop 1).take (rargv.length - 2)) = leidAt i (rargv.drop 1) := by
  unfold leidAt
  rcases getElem?_inner h i with heq | ⟨hnone, hvc⟩
  · rw [heq]
  · rw [hnone, hvc]

/-- The one clock appended is the last argument. -/
theorem crGetLast_append (l : List (Arg n)) (t : Vc n) :
    crGetLast (l ++ [.vc t]) = some t := by
  simp [crGetLast, vcAt]

/-- An appended clock is read back at its place. -/
theorem vcAt_append {i : ℕ} {l : List (Arg n)} (h : l.length = i) (t : Vc n) :
    vcAt i (l ++ [.vc t]) = some t := by
  subst h
  simp [vcAt]

theorem lcAt_append {i : ℕ} {l : List (Arg n)} (h : l.length = i) (t : Lc) :
    lcAt i (l ++ [.lc t]) = some t := by
  subst h
  simp [lcAt]

/-- An argument that passed its check is read back as a number. -/
theorem strAt_bind_dbl {dbl : String → Option ℤ} {i : ℕ} {argv : List String}
    (hi : i < argv.length) (h : failedCheck dbl [(i, .double)] argv = none) :
    ∃ v, ∀ args : List (Arg n), (strAt i (argv.map Arg.str ++ args)).bind dbl = some v := by
  cases hv : dbl (argv.getD i "") with
  | some v =>
      refine ⟨v, fun args => ?_⟩
      rw [strAt_map_append hi, Option.bind_some, hv]
  | none =>
      simp only [failedCheck, List.findSome?_cons, checkArgType, hv,
        Option.isSome_none, Bool.false_eq_true, if_false, reduceCtorEq] at h

/-- Listed tags are read back. -/
theorem tagsFrom_append (l : List (Arg n)) (tags : List Lc) :
    tagsFrom l.length (l ++ tags.map Arg.lc) = some tags := by
  unfold tagsFrom
  rw [List.drop_left]
  induction tags with
  | nil => rfl
  | cons t ts ih => simp [ih]

end CrdtRedis
