/-
The remove-wins priority queue (t_rzset.c): the remove-wins core with a
value and a sum of increments per entry, a vector clock per element, and
a buffer `ops` of the operations that arrived before their causal past.
-/
import CrdtRedis.Replication.Causal
import CrdtRedis.Rw.Sets

namespace CrdtRedis

variable {n : ℕ}

/-- `struct rzset_aset_element`. -/
structure RzAse (n : ℕ) where
  t : Vc n
  x : ℤ
  inc : ℤ
deriving DecidableEq

/-- `enum rz_cmd_type`. -/
inductive RzCmdType
  | rzadd | rzincby | rzrem
deriving DecidableEq, Repr

/-- `struct rzset_unready_command`. -/
structure RzCmd (n : ℕ) where
  type : RzCmdType
  value : ℤ
  t : Vc n
deriving DecidableEq

/-- `struct RW_RPQ_element`. -/
structure Rze (n : ℕ) where
  current : Vc n
  sets : RwSets n (RzAse n)
  ops : List (RzCmd n)

namespace Rze

/-- `rzeNew`. -/
def new (me : Fin n) : Rze n := ⟨vcNew me, RwSets.new, []⟩

/-- `LOOKUP`. -/
def lookup (e : Rze n) : Bool := e.sets.lookup

/-- `SCORE`. -/
def score (e : Rze n) : Score := (e.sets.entry RzAse.t).map fun a => a.x + a.inc

/-- `addFunc`. -/
def addFunc (value : ℤ) (t : Vc n) (e : Rze n) : Rze n × List ZCall :=
  let e := { e with sets := e.sets.add RzAse.t ⟨t, value, 0⟩ }
  let calls := if e.lookup then [.add e.score] else []
  ({ e with current := vcUpdate e.current t }, calls)

/-- `increaseFunc`. -/
def increaseFunc (value : ℤ) (t : Vc n) (e : Rze n) : Rze n × List ZCall :=
  let aset := e.sets.aset.map fun a =>
    if RwSets.below t a.t then { a with inc := a.inc + value } else a
  let e := { e with sets := { e.sets with aset := aset } }
  let calls :=
    if e.lookup && e.sets.value.any (RwSets.below t) then [.add e.score] else []
  ({ e with current := vcUpdate e.current t }, calls)

/-- `removeFunc`. -/
def removeFunc (t : Vc n) (e : Rze n) : Rze n × List ZCall :=
  let e := { e with sets := e.sets.remove RzAse.t t }
  let calls := if e.lookup then [] else [.del]
  ({ e with current := vcUpdate e.current t }, calls)

/-- The `switch` of `notifyLoop`. -/
def applyCmd (cmd : RzCmd n) (e : Rze n) : Rze n × List ZCall :=
  match cmd.type with
  | .rzadd => e.addFunc cmd.value cmd.t
  | .rzincby => e.increaseFunc cmd.value cmd.t
  | .rzrem => e.removeFunc cmd.t

/-- Apply a command to a record whose sorted-set calls so far are
collected. -/
def stepCmd (p : Rze n × List ZCall) (cmd : RzCmd n) : Rze n × List ZCall :=
  let q := p.1.applyCmd cmd
  (q.1, p.2 ++ q.2)

/-- `notifyLoop`. -/
def notifyLoop (p : Rze n × List ZCall) : Rze n × List ZCall :=
  let q := Replication.notify (fun p cmd => vcCausallyReady p.1.current cmd.t)
    stepCmd p p.1.ops
  ({ q.1.1 with ops := q.2 }, q.1.2)

/-- The effect phase of the three commands: apply and drain the buffer,
or keep the command in it. -/
def receive (cmd : RzCmd n) (e : Rze n) : Rze n × List ZCall :=
  if vcCausallyReady e.current cmd.t then notifyLoop (e.applyCmd cmd)
  else ({ e with ops := e.ops ++ [cmd] }, [])

/-- The preparation of the commands on an element that must exist. -/
def nonAddPrepare : Option (Rze n) → Except Reply (Rze n × List (Arg n))
  | none => .error .eleNexist
  | some e =>
      if e.lookup then .ok (e, [.vc (vcNow e.current)]) else .error .eleNexist

theorem nonAddPrepare_ok {o : Option (Rze n)} {e : Rze n} {args : List (Arg n)}
    (h : nonAddPrepare o = .ok (e, args)) :
    o = some e ∧ e.lookup = true ∧ args = [.vc (vcNow e.current)] := by
  unfold nonAddPrepare at h
  split at h
  · cases h
  · split at h
    · next hl =>
        cases h
        exact ⟨rfl, hl, rfl⟩
    · cases h

end Rze

/-- `rzaddCommand`. -/
def rzaddCommand : ElemCommand n (Rze n) where
  maxArgc := 4
  checks := [(3, .double)]
  create := true
  prepare := fun me e =>
    let e := e.getD (Rze.new me)
    if e.lookup then .error .eleExist
    else .ok (e, [.vc (vcNow e.current)])
  effect := fun dbl rargv =>
    ((strAt 3 rargv).bind dbl).bind fun v =>
      (vcAt 4 rargv).map fun t => Rze.receive ⟨.rzadd, v, t⟩

/-- `rzincrbyCommand`. -/
def rzincrbyCommand : ElemCommand n (Rze n) where
  maxArgc := 4
  checks := [(3, .double)]
  create := false
  prepare := fun _ e => Rze.nonAddPrepare e
  effect := fun dbl rargv =>
    ((strAt 3 rargv).bind dbl).bind fun v =>
      (vcAt 4 rargv).map fun t => Rze.receive ⟨.rzincby, v, t⟩

/-- `rzremCommand`. -/
def rzremCommand : ElemCommand n (Rze n) where
  maxArgc := 3
  checks := []
  create := false
  prepare := fun _ e => Rze.nonAddPrepare e
  effect := fun _ rargv =>
    (vcAt 3 rargv).map fun t => Rze.receive ⟨.rzrem, 0, t⟩

end CrdtRedis
