/-
The RWF list (t_rwflist.c): the RWF header per element, one optional
Lamport time per property, and the chain of positioned elements. Nothing
is buffered: a message is applied when it arrives, and its history
decides whether it counts.
-/
import CrdtRedis.ListBase

namespace CrdtRedis

variable {n : ℕ}

namespace Rwfl

/-- `EXISTS`. -/
def exist (e : Rwfle n) : Bool := e.body.header.exist

/-- Put `body` into the record at `addr`. -/
def setBody (h : Hash n) (addr : String) (body : RwflBody n) : Hash n :=
  rwfleKind.modify h addr fun e => { e with body := body }

/-- `removeFunc`. -/
def removeFunc (addr : String) (t : Vc n) (h : Hash n) : Option (Hash n) :=
  (h.rwfles addr).bind fun e =>
    match e.body.removeFunc t with
    | (body, true) =>
        let h := setBody h addr body
        if exist e then incrLen h (-1) else some h
    | (_, false) => some h

/-- The end of the effect of `rwflinsertCommand`, from `addCheck` on. -/
def addFunc (addr : String) (v : InsertProps) (t : Vc n) (h : Hash n) :
    Option (Hash n) :=
  (h.rwfles addr).bind fun e =>
    match e.body.header.addCheck t with
    | (header, true) =>
        let h := setBody h addr (RwflBody.innateUpdate v { e.body with header := header })
        if exist e then some h else incrLen h 1
    | (_, false) => some h

/-- The end of the effect of `rwflupdateCommand`, from `updateCheck`
on. -/
def updateFunc (addr type : String) (lt : Lc) (value : ℤ) (t : Vc n)
    (h : Hash n) : Option (Hash n) :=
  (h.rwfles addr).map fun e =>
    match e.body.header.updateCheck t with
    | (header, true) =>
        let body := { e.body with header := header }
        setBody h addr (match Property.ofType type with
          | none => body
          | some p => body.acquiredUpdate p lt (toInt value))
    | (_, false) => h

/-- The property values of an insert, at `rargv[5..8]`. -/
def insertProps (rargv : List (Arg n)) : Option InsertProps :=
  ((strAt 5 rargv).bind getLongLongFromObject).bind fun font =>
    ((strAt 6 rargv).bind getLongLongFromObject).bind fun size =>
      ((strAt 7 rargv).bind getLongLongFromObject).bind fun color =>
        ((strAt 8 rargv).bind getLongLongFromObject).map fun property =>
          ⟨font, size, color, property⟩

/-- The effect phase of `rwflinsertCommand`. -/
def insertEffect (me : Fin n) (rargv : List (Arg n)) (h : Hash n) :
    Option (Hash n) :=
  (crGetLast rargv).bind fun t =>
    (strAt 2 rargv).bind fun pre => (strAt 3 rargv).bind fun oid =>
      (strAt 4 rargv).bind fun content => (leidAt 9 rargv).bind fun pos =>
        (insertProps rargv).bind fun v =>
          (rwfleKind.findOrCreate me h oid).bind fun p =>
            (removeFunc p.2 t p.1).bind fun h =>
              (rwfleKind.position h pre oid content p.2 pos).bind
                (addFunc p.2 v t)

/-- The effect phase of `rwflupdateCommand`. -/
def updateEffect (me : Fin n) (rargv : List (Arg n)) (h : Hash n) :
    Option (Hash n) :=
  (crGetLast rargv).bind fun t =>
    (strAt 2 rargv).bind fun oid => (strAt 3 rargv).bind fun type =>
      ((strAt 4 rargv).bind getLongLongFromObject).bind fun value =>
        (lcAt 5 rargv).bind fun lt =>
          (rwfleKind.findOrCreate me h oid).bind fun p =>
            (removeFunc p.2 t p.1).bind (updateFunc p.2 type lt value t)

/-- The effect phase of `rwflremCommand`. -/
def remEffect (me : Fin n) (rargv : List (Arg n)) (h : Hash n) :
    Option (Hash n) :=
  (crGetLast rargv).bind fun t =>
    (strAt 2 rargv).bind fun oid =>
      (rwfleKind.findOrCreate me h oid).bind fun p => removeFunc p.2 t p.1

/-- The preparation of `rwflinsertCommand`. -/
def insertPrepare (me : Fin n) (argv : List String) (ho : Option (Hash n)) :
    Option (Option (Hash n) × Except Reply (List (Arg n))) :=
  let oid := argv.getD 3 ""
  (rwfleKind.checkPre exist ho (argv.getD 2 "")).bind fun pre =>
    match pre with
    | .error reply => some (ho, .error reply)
    | .ok (pre, preArg) =>
        (rwfleKind.findOrCreate me (ho.getD .empty) oid).bind fun p =>
          (p.1.rwfles p.2).bind fun e =>
            if exist e then some (some p.1, .error .eleExist)
            else
              (rwfleKind.placeAt me (vcInc · me) p.1 pre preArg oid e).map fun q =>
                match q with
                | (h, .error reply) => (some h, .error reply)
                | (h, .ok pos) =>
                    (some h, .ok ((argv.set 2 preArg).map Arg.str
                      ++ [.leid pos, .vc e.body.header.current]))

/-- The preparation of `rwflupdateCommand` and `rwflremCommand`: what
goes out is `sent`, then what `append` takes from the record. -/
def nonAddPrepare (sent : List String) (append : RwflBody n → List (Arg n))
    (argv : List String) (ho : Option (Hash n)) :
    Option (Option (Hash n) × Except Reply (List (Arg n))) :=
  match ho with
  | none => some (none, .error .eleNexist)
  | some h =>
      (rwfleKind.find h (argv.getD 2 "")).bind fun addr =>
        match addr with
        | none => some (some h, .error .eleNexist)
        | some a => (h.rwfles a).map fun e =>
            if exist e then (some h, .ok (sent.map Arg.str ++ append e.body))
            else (some h, .error .eleNexist)

section Prepared

variable {me : Fin n} {argv : List String} {ho ho' : Option (Hash n)}
  {res : Except Reply (List (Arg n))}

/-- An insert broadcasts the history of its record. -/
theorem insertPrepare_cases (hp : insertPrepare me argv ho = some (ho', res)) :
    rwfleKind.InsertPrepared exist me argv ho (vcInc · me)
      (fun h e => some (h, e.body.header.current)) ho' res := by
  obtain ⟨pre, hpre, hp⟩ := Option.bind_eq_some_iff.mp hp
  cases pre with
  | error reply =>
      obtain ⟨rfl, rfl⟩ := Prod.mk.inj (Option.some.inj hp)
      exact .noPre hpre
  | ok pre =>
      obtain ⟨⟨h₁, addr⟩, hget, hp⟩ := Option.bind_eq_some_iff.mp hp
      obtain ⟨e, he, hp⟩ := Option.bind_eq_some_iff.mp hp
      split at hp
      · next hshown =>
          obtain ⟨rfl, rfl⟩ := Prod.mk.inj (Option.some.inj hp)
          exact .shown ⟨hpre, hget, he⟩ hshown
      · next hhid =>
          have hhid : exist e = false := Bool.eq_false_iff.mpr hhid
          obtain ⟨⟨h₂, place⟩, hplace, hp⟩ := Option.map_eq_some_iff.mp hp
          cases place with
          | error reply =>
              obtain ⟨rfl, rfl⟩ := Prod.mk.inj hp
              exact .noPlace ⟨hpre, hget, he⟩ hhid hplace
          | ok pos =>
              obtain ⟨rfl, rfl⟩ := Prod.mk.inj hp
              exact .placed ⟨hpre, hget, he⟩ hhid hplace rfl

/-- An update or remove changes nothing when it is prepared. -/
theorem nonAddPrepare_cases {sent : List String} {append : RwflBody n → List (Arg n)}
    (hp : nonAddPrepare sent append argv ho = some (ho', res)) :
    rwfleKind.NonAddPrepared exist argv ho (fun h e => some (h, append e.body)) sent
      ho' res := by
  unfold nonAddPrepare at hp
  cases ho with
  | none =>
      obtain ⟨rfl, rfl⟩ := Prod.mk.inj (Option.some.inj hp)
      exact .nexist
  | some h =>
      obtain ⟨addr, hfind, hp⟩ := Option.bind_eq_some_iff.mp hp
      cases addr with
      | none =>
          obtain ⟨rfl, rfl⟩ := Prod.mk.inj (Option.some.inj hp)
          exact .nexist
      | some a =>
          obtain ⟨e, he, hp⟩ := Option.map_eq_some_iff.mp hp
          split at hp
          · next hshown =>
              obtain ⟨rfl, rfl⟩ := Prod.mk.inj hp
              exact .accepted rfl hfind he hshown rfl
          · obtain ⟨rfl, rfl⟩ := Prod.mk.inj hp
            exact .nexist

end Prepared

/-- What `rwfllistCommand` sends for one element. -/
def elementReply (e : Rwfle n) : Option String × Option String × Props :=
  (e.oid, e.content, e.body.props)

/-- The loop of `rwfllistCommand` from the record at `addr` on. -/
def listFrom (h : Hash n) : ℕ → Option String →
    Option (List (Option String × Option String × Props))
  | _, none => some []
  | 0, some _ => none
  | fuel + 1, some a =>
      (h.rwfles a).bind fun e =>
        (listFrom h fuel e.next).map fun rest =>
          if exist e then elementReply e :: rest else rest

end Rwfl

/-- `rwflinsertCommand`. -/
def rwflinsertCommand : ListCommand n where
  maxArgc := 9
  checks := [(5, .int), (6, .int), (7, .int), (8, .int)]
  prepare := Rwfl.insertPrepare
  effect := Rwfl.insertEffect

/-- `rwflupdateCommand`: the next Lamport time of the element and its
history. The effect lowers the property name in place, before the vector
is broadcast. -/
def rwflupdateCommand : ListCommand n where
  maxArgc := 5
  checks := [(4, .int)]
  prepare := fun _ argv =>
    Rwfl.nonAddPrepare (argv.set 3 (sdstolower (argv.getD 3 "")))
      (fun e => [.lc { e.current with x := e.current.x + 1 }, .vc e.header.current]) argv
  effect := Rwfl.updateEffect

/-- `rwflremCommand`. -/
def rwflremCommand : ListCommand n where
  maxArgc := 3
  checks := []
  prepare := fun _ argv =>
    Rwfl.nonAddPrepare argv (fun e => [.vc (vcNow e.header.current)]) argv
  effect := Rwfl.remEffect

/-- `rwfllistCommand`: the number of elements announced, then the
elements. -/
def rwfllistCommand (h : Hash n) :
    Option (ℤ × List (Option String × Option String × Props)) :=
  (getLen h).bind fun len =>
    (rwfleKind.getHead h).bind fun head =>
      (Rwfl.listFrom h h.allocs head).map fun elems => (len, elems)

end CrdtRedis
