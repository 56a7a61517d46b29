/-
What a command is made of: the strings and numbers of a client's
argument vector, the identifiers list elements are placed by, the typed
arguments a broadcast carries, and the replies of a refusal.

A message is the client's arguments followed by what the preparation
appended. The appended ones are clocks and identifiers that the sender
prints and the receiver reads back (`vcToSds`/`sdsToVC`,
`lcToSds`/`sdsToLc`, `leidToSds`/`sdsToLeid`); here they travel as the
values they stand for (`Arg`).

Scores are doubles in the server and exact integers here, so the parser
`getDoubleFromObject` is a parameter of what uses it: any partial reading
of strings as integers. `string2ll`, the parser of the integer arguments,
is written out.
-/
import CrdtRedis.Clock

namespace CrdtRedis

-- ============================================================ numbers

/-- `sdstolower`. -/
def sdstolower (s : String) : String := String.ofList (s.toList.map Char.toLower)

/-- What `strcmp` and `strcasecmp` see of a string: it up to the first
NUL. -/
def cText (s : String) : String := String.ofList (s.toList.takeWhile (· ≠ Char.ofNat 0))

/-- The digits of `string2ll` after the first one, most significant
first; `none` at a character that is no digit. -/
def readDigits : List Char → ℕ → Option ℕ
  | [], v => some v
  | c :: rest, v =>
      if c.isDigit then readDigits rest (10 * v + (c.toNat - '0'.toNat)) else none

/-- The unsigned part of `string2ll`: no leading zero, no sign. -/
def readUnsigned : List Char → Option ℕ
  | [] => none
  | c :: rest =>
      if c.isDigit ∧ c ≠ '0' then readDigits rest (c.toNat - '0'.toNat) else none

/-- `string2ll`: a decimal `long long`, written the one way it prints. -/
def string2ll (s : String) : Option ℤ :=
  match s.toList with
  | ['0'] => some 0
  | '-' :: rest =>
      (readUnsigned rest).bind fun v => if v ≤ 2 ^ 63 then some (-(v : ℤ)) else none
  | cs => (readUnsigned cs).bind fun v => if v < 2 ^ 63 then some (v : ℤ) else none

/-- `getLongLongFromObject` on a string object. -/
def getLongLongFromObject (s : String) : Option ℤ := string2ll s

/-- The assignment of a `long long` to an `int`. -/
def toInt (v : ℤ) : ℤ := Int.bmod v (2 ^ 32)

/-- A number as memory holds it: `none` is storage that was never
written, whose content the program does not determine. -/
abbrev Score := Option ℤ

-- ======================================================== identifiers

/-- `struct position`. -/
structure Position where
  pos : ℤ
  pid : ℤ
  count : ℤ
deriving DecidableEq, Repr

/-- `struct list_element_identifier`: the positions `p[0..num)`. -/
abbrev Leid := List Position

/-- `BASE`. -/
def base : ℤ := 2 ^ 24

/-- `pos_cmp`. -/
def posCmp (p1 p2 : Position) : ℤ :=
  if p1.pos ≠ p2.pos then p1.pos - p2.pos
  else if p1.pid ≠ p2.pid then p1.pid - p2.pid
  else p1.count - p2.count

/-- `leid_cmp`: the first position that differs, else the lengths. -/
def leidCmp : Leid → Leid → ℤ
  | p :: ps, q :: qs => if posCmp p q ≠ 0 then posCmp p q else leidCmp ps qs
  | ps, qs => (ps.length : ℤ) - qs.length

/-- `lprefix`: the position at `i` of the left bound, zero past its end. -/
def lprefix (p : Option Leid) (i : ℕ) : ℤ :=
  match p with
  | none => 0
  | some p => match p[i]? with
    | some x => x.pos
    | none => 0

/-- `rprefix`: the position at `i` of the right bound, `BASE` past its
end. -/
def rprefix (q : Option Leid) (i : ℕ) : ℤ :=
  match q with
  | none => base
  | some q => match q[i]? with
    | some x => x.pos
    | none => base

/-- The `while` loop of `constructLeid`, `fuel` rounds of it from
`index`. -/
def gapIndex (p q : Option Leid) : ℕ → ℕ → ℕ
  | 0, index => index
  | fuel + 1, index =>
      if rprefix q index - lprefix p index < 2 then gapIndex p q fuel (index + 1)
      else index

/-- The number of positions of a bound. -/
def leidDepth : Option Leid → ℕ
  | none => 0
  | some p => p.length

/-- Position `i < index` of the identifier `constructLeid` builds: copied
from the left bound, past it from the right bound, past both filled. -/
def leidFill (p q : Option Leid) (fill : Position) (i : ℕ) : Position :=
  match p with
  | none => ⟨0, 0, 0⟩
  | some p => match p[i]? with
    | some x => x
    | none => match q with
      | none => fill
      | some q => (q[i]?).getD fill

variable {n : ℕ}

/-- `constructLeid`, in the build with `CRDT_ELE_STATUS` (the one
CRDT_exp.h selects), where the new position is `left + 1`. -/
def constructLeid (p q : Option Leid) (t : Vc n) : Leid :=
  let count := ((List.finRange n).map t.vector).sum
  let index := gapIndex p q (max (leidDepth p) (leidDepth q)) 0
  (List.range index).map (leidFill p q ⟨0, t.id, count⟩)
    ++ [{ pos := lprefix p index + 1, pid := t.id, count := count }]

-- =========================================================== arguments

/-- One argument of a broadcast. -/
inductive Arg (n : ℕ)
  | str (s : String)
  | vc (t : Vc n)
  | lc (t : Lc)
  | leid (p : Leid)
deriving DecidableEq

/-- The types `CHECK_ARG_TYPE_*` checks for. -/
inductive ArgType
  | int | double
deriving DecidableEq, Repr

/-- The replies of a preparation that refuses its command. -/
inductive Reply
  /-- `-ERR wrong number of arguments for '%s' command` -/
  | wrongArity (name : String)
  | syntaxerr
  | wrongtypeerr
  | notInteger
  | notFloat
  | eleExist
  | eleNexist
  /-- `-No pre element %S in the list.` -/
  | noPre (pre : String)
  /-- `-Element %S hasn't been added, can't be readded.` -/
  | notAdded (oid : String)
  /-- `-Element %S has set its position, can only be readded.` -/
  | onlyReadd (oid : String)
deriving DecidableEq, Repr

/-- The text sent for each reply. -/
def Reply.text : Reply → String
  | wrongArity name =>
      "-ERR wrong number of arguments for '" ++ name ++ "' command\r\n"
  | syntaxerr => "-ERR syntax error\r\n"
  | wrongtypeerr =>
      "-WRONGTYPE Operation against a key holding the wrong kind of value\r\n"
  | notInteger => "-ERR value is not an integer\r\n"
  | notFloat => "-ERR value is not a valid float\r\n"
  | eleExist => "-Element already exists\r\n"
  | eleNexist => "-Element does not exist\r\n"
  | noPre pre => "-No pre element " ++ pre ++ " in the list.\r\n"
  | notAdded oid => "-Element " ++ oid ++ " hasn't been added, can't be readded.\r\n"
  | onlyReadd oid =>
      "-Element " ++ oid ++ " has set its position, can only be readded.\r\n"

/-- `CHECK_ARG_TYPE_INT` and `CHECK_ARG_TYPE_DOUBLE`. -/
def checkArgType (dbl : String → Option ℤ) : ArgType → String → Option Reply
  | .int, s => if (getLongLongFromObject s).isSome then none else some .notInteger
  | .double, s => if (dbl s).isSome then none else some .notFloat

/-- A call on the visible sorted set. -/
inductive ZCall
  | add (score : Score)
  | del
deriving DecidableEq, Repr

/-- What a call leaves as the element's entry in the sorted set. -/
def ZCall.run : ZCall → Option Score → Option Score
  | .add score, _ => some score
  | .del, _ => none

/-- The entry after a list of calls. -/
def runCalls (calls : List ZCall) (z : Option Score) : Option Score :=
  calls.foldl (fun z c => c.run z) z

@[simp] theorem runCalls_nil (z : Option Score) : runCalls [] z = z := rfl

@[simp] theorem runCalls_cons (c : ZCall) (cs : List ZCall) (z : Option Score) :
    runCalls (c :: cs) z = runCalls cs (c.run z) := rfl

@[simp] theorem runCalls_append (cs ds : List ZCall) (z : Option Score) :
    runCalls (cs ++ ds) z = runCalls ds (runCalls cs z) := by
  simp [runCalls]

end CrdtRedis
