/-
The add-wins priority queue (t_ozset.c). Like the add-wins set, with two
cached pointers into `aset`: `innate` (greatest tag, whose `x` is the
value of an add) and `acquired` (greatest `count`, then tag, whose `inc`
is a sum of increments). `SCORE` adds the two.

An increment lists tags, and may reach a replica before the add of one
of them: `add_ase` then makes an entry whose `x` nothing has written
(`none` here) until that add arrives.
-/
import CrdtRedis.Command

namespace CrdtRedis

variable {n : ℕ}

/-- `struct ozset_aset_element`. -/
@[ext]
structure OzAse where
  t : Lc
  x : Score
  inc : ℤ
  count : ℤ
deriving DecidableEq, Repr

/-- `struct ORI_RPQ_element`; the pointers are the tags of the entries
they point to. -/
structure Oze where
  current : ℤ
  innate : Option Lc
  acquired : Option Lc
  aset : List OzAse
  rset : List Lc
deriving DecidableEq, Repr

namespace Oze

/-- `ozeNew`. -/
def new : Oze := ⟨0, none, none, [], []⟩

/-- `LOOKUP`. -/
def lookup (e : Oze) : Bool := decide (e.aset ≠ [])

/-- `asetGet` without deletion. -/
def asetGet (e : Oze) (t : Lc) : Option OzAse :=
  e.aset.find? fun a => decide (lcCmpAsTag t a.t = 0)

/-- `rsetGet` without deletion. -/
def rsetGet (e : Oze) (t : Lc) : Option Lc :=
  e.rset.find? fun a => decide (lcCmpAsTag t a = 0)

/-- The value `innate` contributes: zero for a null pointer, and `none`
where the entry's `x` was never written. -/
def innateX (e : Oze) : Score :=
  match e.innate with
  | none => some 0
  | some t => (e.asetGet t).bind OzAse.x

/-- The increment `acquired` contributes. -/
def acquiredInc (e : Oze) : Score :=
  match e.acquired with
  | none => some 0
  | some t => (e.asetGet t).map OzAse.inc

/-- `SCORE`. -/
def score (e : Oze) : Score :=
  e.innateX.bind fun x => e.acquiredInc.map fun i => x + i

/-- `add_ase`, where `asetGet` found no entry. -/
def addAse (e : Oze) (t : Lc) : Oze :=
  if (e.asetGet t).isSome then e
  else { e with aset := e.aset ++ [⟨t, none, 0, 0⟩] }

/-- Write to the entry of tag `t`. -/
def modifyAse (e : Oze) (t : Lc) (f : OzAse → OzAse) : Oze :=
  { e with aset := e.aset.map fun a => if lcCmpAsTag t a.t = 0 then f a else a }

/-- `update_innate_value`: the record after it and its result. -/
def updateInnateValue (e : Oze) (t : Lc) (v : ℤ) : Oze × Bool :=
  if (e.rsetGet t).isSome then (e, false)
  else
    let e := (e.addAse t).modifyAse t fun a => { a with x := some v }
    match e.innate with
    | none => ({ e with innate := some t }, true)
    | some i =>
        if lcCmpAsTag i t < 0 then ({ e with innate := some t }, true)
        else (e, false)

/-- The test `update_acquired_value` and `resort` move `acquired` by:
nothing yet, a larger count, or the same count and a larger tag. `q` is
the entry `acquired` points to. -/
def acquiredLess (q : Option OzAse) (a : OzAse) : Bool :=
  match q with
  | none => true
  | some q =>
      decide (q.count < a.count) ||
        (decide (q.count = a.count) && decide (lcCmpAsTag q.t a.t < 0))

/-- `update_acquired_value`. -/
def updateAcquiredValue (e : Oze) (t : Lc) (v : ℤ) : Oze × Bool :=
  if (e.rsetGet t).isSome then (e, false)
  else
    let e := (e.addAse t).modifyAse t fun a =>
      { a with inc := a.inc + v, count := a.count + if 0 < v then v else -v }
    if e.acquired = some t then (e, true)
    else match e.asetGet t with
      | none => (e, false)
      | some a =>
          if acquiredLess (e.acquired.bind e.asetGet) a then
            ({ e with acquired := some t }, true)
          else (e, false)

/-- `remove_tag`. -/
def removeTag (e : Oze) (t : Lc) : Oze :=
  if (e.rsetGet t).isSome then e
  else
    let e := { e with rset := e.rset ++ [t] }
    if (e.asetGet t).isSome then
      { e with
        aset := e.aset.eraseP fun a => decide (lcCmpAsTag t a.t = 0)
        innate := if e.innate = some t then none else e.innate
        acquired := if e.acquired = some t then none else e.acquired }
    else e

/-- One round of the loop of `resort` on the two pointers, each held as
the entry it points to. -/
def resortScan (p : Option OzAse × Option OzAse) (a : OzAse) :
    Option OzAse × Option OzAse :=
  (match p.1 with
    | none => some a
    | some i => if lcCmpAsTag i.t a.t < 0 then some a else some i,
   if acquiredLess p.2 a then some a else p.2)

/-- `resort`. -/
def resort (e : Oze) : Oze :=
  if e.innate.isSome && e.acquired.isSome then e
  else
    let p := e.aset.foldl resortScan
      (e.innate.bind e.asetGet, e.acquired.bind e.asetGet)
    { e with innate := p.1.map OzAse.t, acquired := p.2.map OzAse.t }

/-- The effect phase of `ozaddCommand`. -/
def addEffect (v : ℤ) (t : Lc) (e : Oze) : Oze × List ZCall :=
  match e.updateInnateValue t v with
  | (e, true) => (e, [.add e.score])
  | (e, false) => (e, [])

/-- The loop of `ozincrbyCommand`: the record and whether some call
answered 1. -/
def incrbyLoop (v : ℤ) (p : Oze × Bool) (t : Lc) : Oze × Bool :=
  let q := p.1.updateAcquiredValue t v
  (q.1, p.2 || q.2)

/-- The effect phase of `ozincrbyCommand`. -/
def incrbyEffect (v : ℤ) (tags : List Lc) (e : Oze) : Oze × List ZCall :=
  match tags.foldl (incrbyLoop v) (e, false) with
  | (e, true) => (e, [.add e.score])
  | (e, false) => (e, [])

/-- The effect phase of `ozremCommand`. -/
def remEffect (tags : List Lc) (e : Oze) : Oze × List ZCall :=
  let e := tags.foldl removeTag e
  if e.innate.isNone || e.acquired.isNone then
    let e := e.resort
    if e.lookup then (e, [.add e.score]) else (e, [.del])
  else (e, [])

/-- The tags of `aset`, as `ozincrbyCommand` and `ozremCommand` list
them. -/
def tags (e : Oze) : List Lc := e.aset.map OzAse.t

/-- The precondition of the commands on an element that must exist. -/
def nonAddPrepare : Option Oze → Except Reply (Oze × List (Arg n))
  | none => .error .eleNexist
  | some e => if e.lookup then .ok (e, e.tags.map Arg.lc) else .error .eleNexist

theorem nonAddPrepare_ok {o : Option Oze} {e : Oze} {args : List (Arg n)}
    (h : nonAddPrepare o = .ok (e, args)) :
    o = some e ∧ e.lookup = true ∧ args = e.tags.map Arg.lc := by
  unfold nonAddPrepare at h
  split at h
  · cases h
  · split at h
    · next hl =>
        cases h
        exact ⟨rfl, hl, rfl⟩
    · cases h

end Oze

/-- `ozaddCommand`. -/
def ozaddCommand : ElemCommand n Oze where
  maxArgc := 4
  checks := [(3, .double)]
  create := true
  prepare := fun me e =>
    let e := e.getD Oze.new
    if e.lookup then .error .eleExist
    else .ok ({ e with current := e.current + 1 }, [.lc ⟨e.current, me⟩])
  effect := fun dbl rargv =>
    ((strAt 3 rargv).bind dbl).bind fun v =>
      (lcAt 4 rargv).map fun t => Oze.addEffect v t

/-- `ozincrbyCommand`. -/
def ozincrbyCommand : ElemCommand n Oze where
  maxArgc := 4
  checks := [(3, .double)]
  create := false
  prepare := fun _ e => Oze.nonAddPrepare e
  effect := fun dbl rargv =>
    ((strAt 3 rargv).bind dbl).bind fun v =>
      (tagsFrom 4 rargv).map (Oze.incrbyEffect v)

/-- `ozremCommand`. -/
def ozremCommand : ElemCommand n Oze where
  maxArgc := 3
  checks := []
  create := false
  prepare := fun _ e => Oze.nonAddPrepare e
  effect := fun _ rargv => (tagsFrom 3 rargv).map Oze.remEffect

end CrdtRedis
