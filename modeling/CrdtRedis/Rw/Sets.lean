/-
The remove-wins core shared by the remove-wins queue and list
(`addFunc`/`removeFunc` of t_rzset.c, `insertFunc`/`removeFunc` of
t_rlist.c): the adds and the removes of an element that no later
operation made obsolete, and a cached pointer to the add that counts.

An add deletes the entries and the removes strictly below it, a remove
the entries strictly below it. `value` caches the entry of `aset` with
the largest server id; it is cleared when its entry goes and searched
again. An entry is named by its timestamp: it is made by the one
operation that carries it, and `vc_causally_ready` lets an operation
through once.
-/
import CrdtRedis.Command

namespace CrdtRedis

variable {n : ℕ} {A : Type}

/-- The `value`, `aset` and `rset` fields of an element. -/
structure RwSets (n : ℕ) (A : Type) where
  value : Option (Vc n)
  aset : List A
  rset : List (Vc n)

namespace RwSets

/-- No operation yet. -/
def new : RwSets n A := ⟨none, [], []⟩

/-- `LOOKUP`. -/
def lookup (s : RwSets n A) : Bool := !s.aset.isEmpty && s.rset.isEmpty

/-- `vc_cmp(c, t) == VC_LESS`. -/
def below (t c : Vc n) : Bool := decide (vcCmp c t = .less)

/-- `e->value == NULL || e->value->t->id < t->id`, and the assignment it
guards. -/
def larger (v : Option (Vc n)) (t : Vc n) : Option (Vc n) :=
  match v with
  | none => some t
  | some w => if w.id < t.id then some t else some w

variable (stamp : A → Vc n)

/-- The search for the entry `value` points to. -/
def rescan (aset : List A) : Option (Vc n) :=
  aset.foldl (fun v a => larger v (stamp a)) none

/-- The entry `value` points to. -/
def entry (s : RwSets n A) : Option A :=
  s.value.bind fun w => s.aset.find? fun a => decide (stamp a = w)

/-- The loop that deletes the entries below `t`, and clears `value` with
its entry. -/
def prune (t : Vc n) (s : RwSets n A) : RwSets n A :=
  { s with
    value := s.value.bind fun w =>
      if s.aset.any fun a => decide (stamp a = w) && below t (stamp a)
      then none else some w
    aset := s.aset.filter fun a => !below t (stamp a) }

/-- `addFunc`/`insertFunc` on the sets, with the entry `a` they make. -/
def add (a : A) (s : RwSets n A) : RwSets n A :=
  let t := stamp a
  let s := { s with aset := s.aset ++ [a] }
  let removed := s.aset.any fun a => below t (stamp a)
  let s := s.prune stamp t
  let s := { s with rset := s.rset.filter fun r => !below t r }
  let value := if removed && s.value.isNone then rescan stamp s.aset else s.value
  { s with value := larger value t }

/-- `removeFunc` on the sets. -/
def remove (t : Vc n) (s : RwSets n A) : RwSets n A :=
  let s := { s with rset := s.rset ++ [t] }
  let s := s.prune stamp t
  if s.value.isNone then { s with value := rescan stamp s.aset } else s

end RwSets

end CrdtRedis
