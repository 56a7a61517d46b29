/-
What the two replicated lists share (list_basics.c, and the element
lookup and the chain insertion that t_rlist.c and t_rwflist.c write out
each): the list's own fields in its hash, the records behind pointers,
and the chain of positioned elements.

# One hash, user-chosen names

`getHead`, `getCurrent`, `getLen`, `getOps` and the element lookup all
read fields of the same hash, and an element's field is its oid. An oid
that is one of the list's own field names makes one accessor read what
another stored: a clock read as a record has no defined outcome, but
`head` holds a pointer to a record, and looking the oid `head` up yields
the element that currently comes first.

# The chain

`insertChain` starts at the predecessor named by the message if that is
positioned here, else at the head, and walks on while the new identifier
is larger. The walk is bounded by the number of records ever made: a
chain longer than that has a cycle, and the loop of the source does not
end on it.
-/
import CrdtRedis.Keyspace

namespace CrdtRedis

variable {n : ℕ} {E : Type}

-- ============================================== the list's own fields

/-- `getCurrent`. -/
def getCurrent (me : Fin n) (h : Hash n) : Option (Hash n × Vc n) :=
  match h.fields "current" with
  | none => some (h.set "current" (.clock (vcNew me)), vcNew me)
  | some (.clock c) => some (h, c)
  | some _ => none

/-- `getLen`. -/
def getLen (h : Hash n) : Option ℤ :=
  match h.fields "length" with
  | none => some 0
  | some (.length len) => some len
  | some _ => none

/-- `incrLen`. -/
def incrLen (h : Hash n) (inc : ℤ) : Option (Hash n) :=
  (getLen h).map fun len => h.set "length" (.length (len + inc))

/-- `getOps`. -/
def getOps (h : Hash n) : Option (Hash n × List (RlCmd n)) :=
  match h.fields "ops" with
  | none => some (h.set "ops" (.ops []), [])
  | some (.ops cmds) => some (h, cmds)
  | some _ => none

-- ==================================================== element records

/-- One of the two lists: how a pointer to its records sits in a field,
and where the records are. -/
structure ListKind (n : ℕ) (E : Type) where
  ptr : String → Value n
  unptr : Value n → Option String
  heap : Hash n → String → Option (ListRec E)
  setHeap : Hash n → (String → Option (ListRec E)) → Hash n
  new : Fin n → E

/-- The remove-wins list. -/
def rleKind : ListKind n (RwSets n (RlAse n)) where
  ptr := .rle
  unptr := fun v => match v with | .rle a => some a | _ => none
  heap := Hash.rles
  setHeap := fun h heap => { h with rles := heap }
  new := fun _ => RwSets.new

/-- The RWF list. -/
def rwfleKind : ListKind n (RwflBody n) where
  ptr := .rwfle
  unptr := fun v => match v with | .rwfle a => some a | _ => none
  heap := Hash.rwfles
  setHeap := fun h heap => { h with rwfles := heap }
  new := RwflBody.new

namespace ListKind

variable (K : ListKind n E)

/-- Write to the record at `addr`. -/
def modify (h : Hash n) (addr : String) (f : ListRec E → ListRec E) : Hash n :=
  K.setHeap h (Function.update (K.heap h) addr ((K.heap h addr).map f))

/-- `getHead`: the address, `none` for a null pointer. -/
def getHead (h : Hash n) : Option (Option String) :=
  match h.fields "head" with
  | none => some none
  | some v => (K.unptr v).map some

/-- `setHead`. -/
def setHead (h : Hash n) (addr : String) : Hash n := h.set "head" (K.ptr addr)

/-- `rehHTGet` on an element, without creation. -/
def find (h : Hash n) (key : String) : Option (Option String) :=
  match h.fields key with
  | none => some none
  | some v => (K.unptr v).map some

/-- `rehHTGet` on an element, with creation: the hash after it and the
address. -/
def findOrCreate (me : Fin n) (h : Hash n) (key : String) :
    Option (Hash n × String) :=
  match h.fields key with
  | none =>
      let h := K.setHeap (h.set key (K.ptr key))
        (Function.update (K.heap h) key (some (ListRec.new (K.new me))))
      some ({ h with allocs := h.allocs + 1 }, key)
  | some v => (K.unptr v).map fun a => (h, a)

-- =========================================================== the chain

/-- The `while` loop of the insertion from `p` on: the records the new
one goes between. -/
def walk (heap : String → Option (ListRec E)) (pos : Leid) :
    ℕ → String → Option (String × Option String)
  | 0, _ => none
  | fuel + 1, p =>
      (heap p).bind fun rp =>
        match rp.next with
        | none => some (p, none)
        | some q =>
            (heap q).bind fun rq =>
              rq.posId.bind fun qpos =>
                if 0 < leidCmp pos qpos then walk heap pos fuel q
                else some (p, some q)

/-- Where the walk starts: the predecessor if it is positioned, else the
head. -/
def startAt (heap : String → Option (ListRec E)) (pre : Option String)
    (head : String) : Option String :=
  match pre with
  | none => some head
  | some p => (heap p).map fun rp => if rp.posId.isSome then p else head

/-- Hang the record at `addr`, which carries identifier `pos`, into the
chain; `pre` is the predecessor the message names. -/
def insertChain (h : Hash n) (pre addr : String) (pos : Leid) :
    Option (Hash n) :=
  (K.getHead h).bind fun head =>
    match head with
    | none => some (K.setHead h addr)
    | some head =>
        (K.heap h head).bind fun rh =>
          rh.posId.bind fun hpos =>
            if leidCmp pos hpos < 0 then
              some (K.modify (K.setHead h addr) addr
                fun e => { e with next := some head })
            else
              (K.find h pre).bind fun pre =>
                (startAt (K.heap h) pre head).bind fun p =>
                  (walk (K.heap h) pos h.allocs p).map fun pq =>
                    K.modify (K.modify h pq.1 fun e => { e with next := some addr })
                      addr fun e => { e with next := pq.2 }

/-- The effect of an insert on a record that has no oid yet: name it,
give it its content and identifier, and hang it into the chain. -/
def position (h : Hash n) (pre oid content addr : String) (pos : Leid) :
    Option (Hash n) :=
  (K.heap h addr).bind fun e =>
    match e.oid with
    | some _ => some h
    | none =>
        K.insertChain (K.modify h addr fun e =>
            { e with oid := some oid, content := some content, posId := some pos })
          pre addr pos

-- ================================================ the insert's prepare

/-- `pre == NULL` allows the names `null` and `readd` only, in lower
case; a `pre` that is found has to be visible and positioned. The
predecessor and its argument as the broadcast carries it. -/
def checkPre (lookup : ListRec E → Bool) (ho : Option (Hash n))
    (pre : String) : Option (Except Reply (Option (ListRec E) × String)) :=
  match ho with
  | none => some (missing pre)
  | some h =>
      (K.find h pre).bind fun addr =>
        match addr with
        | none => some (missing pre)
        | some a => (K.heap h a).map fun e =>
            if lookup e && e.posId.isSome then .ok (some e, pre)
            else .error (.noPre pre)
where
  missing (pre : String) : Except Reply (Option (ListRec E) × String) :=
    let pre := sdstolower pre
    if cText pre ≠ "null" ∧ cText pre ≠ "readd" then .error (.noPre pre) else .ok (none, pre)

/-- The bounds a new identifier has to lie between. -/
def bounds (h : Hash n) (pre : Option (ListRec E)) :
    Option (Option Leid × Option Leid) :=
  match pre with
  | some p =>
      match p.next with
      | none => some (p.posId, none)
      | some q => (K.heap h q).map fun rq => (p.posId, rq.posId)
  | none =>
      (K.getHead h).bind fun head =>
        match head with
        | none => some (none, none)
        | some a => (K.heap h a).map fun rh => (none, rh.posId)

/-- The identifier an accepted insert broadcasts: a new one, or the one
the element has; `count` says what a new one does to the list's clock. -/
def placeAt (me : Fin n) (count : Vc n → Vc n) (h : Hash n)
    (pre : Option (ListRec E)) (preArg oid : String) (e : ListRec E) :
    Option (Hash n × Except Reply Leid) :=
  match e.oid with
  | none =>
      if cText preArg = "readd" then some (h, .error (.notAdded oid))
      else
        (K.bounds h pre).bind fun b =>
          (getCurrent me h).map fun p =>
            (p.1.set "current" (.clock (count p.2)), .ok (constructLeid b.1 b.2 p.2))
  | some _ =>
      if cText preArg ≠ "readd" then some (h, .error (.onlyReadd oid))
      else e.posId.map fun pos => (h, .ok pos)

-- ========================================= what a preparation can do

section Prepared

variable (lookup : ListRec E → Bool) (me : Fin n) (argv : List String) (ho : Option (Hash n))

/-- An insert whose predecessor word is accepted works on the record `e`
at `addr`, in the hash `h`. -/
structure InsertAt (pre : Option (ListRec E)) (preArg : String) (h : Hash n) (addr : String)
    (e : ListRec E) : Prop where
  pre : K.checkPre lookup ho (argv.getD 2 "") = some (.ok (pre, preArg))
  get : K.findOrCreate me (ho.getD .empty) (argv.getD 3 "") = some (h, addr)
  heap : K.heap h addr = some e

/-- All the preparation of an insert can do: refuse the predecessor, find
the element visible, find no place for it, or broadcast its place and the
time that `stamp` takes. -/
inductive InsertPrepared (count : Vc n → Vc n)
    (stamp : Hash n → ListRec E → Option (Hash n × Vc n)) :
    Option (Hash n) → Except Reply (List (Arg n)) → Prop
  | noPre {reply : Reply}
      (hpre : K.checkPre lookup ho (argv.getD 2 "") = some (.error reply)) :
      InsertPrepared count stamp ho (.error reply)
  | shown {pre : Option (ListRec E)} {preArg addr : String} {h : Hash n} {e : ListRec E}
      (hat : K.InsertAt lookup me argv ho pre preArg h addr e) (hshown : lookup e = true) :
      InsertPrepared count stamp (some h) (.error .eleExist)
  | noPlace {pre : Option (ListRec E)} {preArg addr : String} {h h' : Hash n} {e : ListRec E}
      {reply : Reply} (hat : K.InsertAt lookup me argv ho pre preArg h addr e)
      (hhid : lookup e = false)
      (hplace : K.placeAt me count h pre preArg (argv.getD 3 "") e = some (h', .error reply)) :
      InsertPrepared count stamp (some h') (.error reply)
  | placed {pre : Option (ListRec E)} {preArg addr : String} {h h' h'' : Hash n} {e : ListRec E}
      {pos : Leid} {t : Vc n} (hat : K.InsertAt lookup me argv ho pre preArg h addr e)
      (hhid : lookup e = false)
      (hplace : K.placeAt me count h pre preArg (argv.getD 3 "") e = some (h', .ok pos))
      (hstamp : stamp h' e = some (h'', t)) :
      InsertPrepared count stamp (some h'')
        (.ok ((argv.set 2 preArg).map Arg.str ++ [.leid pos, .vc t]))

/-- All the preparation of an update or remove can do: refuse an element
that is not visible, or broadcast the words `sent` and what `append`
adds. -/
inductive NonAddPrepared (append : Hash n → ListRec E → Option (Hash n × List (Arg n)))
    (sent : List String) : Option (Hash n) → Except Reply (List (Arg n)) → Prop
  | nexist : NonAddPrepared append sent ho (.error .eleNexist)
  | accepted {h h' : Hash n} {a : String} {e : ListRec E} {args : List (Arg n)}
      (hho : ho = some h) (hfind : K.find h (argv.getD 2 "") = some (some a))
      (he : K.heap h a = some e) (hshown : lookup e = true)
      (happend : append h e = some (h', args)) :
      NonAddPrepared append sent (some h') (.ok (sent.map Arg.str ++ args))

end Prepared

end ListKind

-- ============================================= the frame of a command

/-- A command on a list: like `ElemCommand`, but it acts on the hash of
the list, which may not exist yet. -/
structure ListCommand (n : ℕ) where
  maxArgc : ℕ
  checks : List (ℕ × ArgType)
  prepare : Fin n → List String → Option (Hash n) →
    Option (Option (Hash n) × Except Reply (List (Arg n)))
  effect : Fin n → List (Arg n) → Hash n → Option (Hash n)

namespace ListCommand

/-- The hash at `tname`, if it is one. -/
def hashAt (db : Db n) (tname : String) : Option (Hash n) :=
  match db tname with
  | some (.hash h) => some h
  | _ => none

/-- The prepare phase. -/
def runPrepare (cmd : ListCommand n) (dbl : String → Option ℤ) (me : Fin n)
    (argv : List String) (db : Db n) :
    Option (Db n × Except Reply (List (Arg n))) :=
  if cmd.maxArgc < argv.length ∨ argv.length < 2 then
    some (db, .error .syntaxerr)
  else
    let tname := argv.getD 1 ""
    match db tname with
    | some (.zset _) => some (db, .error .wrongtypeerr)
    | _ =>
        match failedCheck dbl cmd.checks argv with
        | some reply => some (db, .error reply)
        | none =>
            (cmd.prepare me argv (hashAt db tname)).map fun p =>
              (Function.update db tname (p.1.map .hash), p.2)

/-- The effect phase. -/
def runEffect (cmd : ListCommand n) (me : Fin n) (rargv : List (Arg n))
    (db : Db n) : Option (Db n) :=
  (strAt 1 rargv).bind fun tname =>
    match db tname with
    | some (.zset _) => none
    | _ =>
        (cmd.effect me rargv ((hashAt db tname).getD .empty)).map fun h =>
          Function.update db tname (some (.hash h))

end ListCommand

end CrdtRedis
