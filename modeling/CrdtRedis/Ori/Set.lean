/-
The add-wins set (t_oset.c). An add carries a fresh tag; a remove lists
the tags it saw. `aset` holds the tags added and not removed, `rset` the
tags removed, and `exist` points to the entry of `aset` with the greatest
tag. An entry is named by its tag: `o_add_ase` runs only when
`o_asetGet` found none.

The element's value is parsed from its own name; `osaddCommand` does not
check that it is a number, and the variable is then never written.
-/
import CrdtRedis.Command

namespace CrdtRedis

variable {n : ℕ}

/-- `struct oset_aset_element`. -/
structure OsAse where
  t : Lc
  value : Score
deriving DecidableEq, Repr

/-- `struct ORI_SET_element`; `exist` is the tag of the entry pointed
to. -/
structure Ose where
  current : ℤ
  exist : Option Lc
  aset : List OsAse
  rset : List Lc
deriving DecidableEq, Repr

namespace Ose

/-- `oseNew`. -/
def new : Ose := ⟨0, none, [], []⟩

/-- `LOOKUP`. -/
def lookup (e : Ose) : Bool := decide (e.aset ≠ [])

/-- `o_asetGet` without deletion. -/
def asetGet (e : Ose) (t : Lc) : Option OsAse :=
  e.aset.find? fun a => decide (lcCmpAsTag t a.t = 0)

/-- `o_rsetGet` without deletion. -/
def rsetGet (e : Ose) (t : Lc) : Option Lc :=
  e.rset.find? fun a => decide (lcCmpAsTag t a = 0)

/-- `SCORE`: the value of the entry `exist` points to. -/
def score (e : Ose) : Score :=
  (e.exist.bind e.asetGet).bind OsAse.value

/-- `update_exist`: the record after it and its result. -/
def updateExist (e : Ose) (t : Lc) (v : Score) : Ose × Bool :=
  if (e.rsetGet t).isSome then (e, false)
  else
    let aset := if (e.asetGet t).isSome then e.aset else e.aset ++ [⟨t, none⟩]
    let aset := aset.map fun a =>
      if lcCmpAsTag t a.t = 0 then { a with value := v } else a
    let e := { e with aset := aset }
    match e.exist with
    | none => ({ e with exist := some t }, true)
    | some x =>
        if lcCmpAsTag x t < 0 then ({ e with exist := some t }, true)
        else (e, false)

/-- `set_remove_tag`. -/
def setRemoveTag (e : Ose) (t : Lc) : Ose :=
  if (e.rsetGet t).isSome then e
  else
    let e := { e with rset := e.rset ++ [t] }
    if (e.asetGet t).isSome then
      { e with
        aset := e.aset.eraseP fun a => decide (lcCmpAsTag t a.t = 0)
        exist := if e.exist = some t then none else e.exist }
    else e

/-- The scan of `set_resort` over the entries. -/
def resortScan (exist : Option Lc) (a : OsAse) : Option Lc :=
  match exist with
  | none => some a.t
  | some x => if lcCmpAsTag x a.t < 0 then some a.t else some x

/-- `set_resort`. -/
def setResort (e : Ose) : Ose :=
  if e.exist.isSome then e
  else { e with exist := e.aset.foldl resortScan e.exist }

/-- The effect phase of `osaddCommand`. -/
def addEffect (v : Score) (t : Lc) (e : Ose) : Ose × List ZCall :=
  match e.updateExist t v with
  | (e, true) => (e, [.add e.score])
  | (e, false) => (e, [])

/-- The effect phase of `osremCommand`. -/
def remEffect (tags : List Lc) (e : Ose) : Ose × List ZCall :=
  let e := tags.foldl setRemoveTag e
  if e.exist.isSome then (e, [])
  else
    let e := e.setResort
    if e.lookup then (e, [.add e.score]) else (e, [.del])

end Ose

/-- `osaddCommand`. -/
def osaddCommand : ElemCommand n Ose where
  maxArgc := 3
  checks := []
  create := true
  prepare := fun me e =>
    let e := e.getD Ose.new
    if e.lookup then .error .eleExist
    else .ok ({ e with current := e.current + 1 }, [.lc ⟨e.current, me⟩])
  effect := fun _ rargv =>
    (strAt 2 rargv).bind fun key => (lcAt 3 rargv).map fun t =>
      Ose.addEffect ((getLongLongFromObject key).map toInt) t

/-- `osremCommand`. -/
def osremCommand : ElemCommand n Ose where
  maxArgc := 3
  checks := []
  create := false
  prepare := fun _ e => match e with
    | none => .error .eleNexist
    | some e =>
        if e.lookup then .ok (e, e.aset.map fun a => .lc a.t)
        else .error .eleNexist
  effect := fun _ rargv => (tagsFrom 3 rargv).map Ose.remEffect

end CrdtRedis
