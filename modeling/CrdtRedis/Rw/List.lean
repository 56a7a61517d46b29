/-
The remove-wins list (t_rlist.c): the remove-wins core per element, one
vector clock and one buffer per LIST, and the chain of positioned
elements.

An argument vector is addressed as the source does it: `insertFunc`,
`updateFunc` and `removeFunc` get the vector from its second entry on,
whether they run on a message (`&c->rargv[1]`) or on a buffered command
(`cmd->argv`, the entries between name and timestamp).
-/
import CrdtRedis.ListBase

namespace CrdtRedis

variable {n : ℕ}

namespace Rl

/-- `vc_update(getCurrent(ht), t)`. -/
def tick (me : Fin n) (t : Vc n) (h : Hash n) : Option (Hash n) :=
  (getCurrent me h).map fun p => p.1.set "current" (.clock (vcUpdate p.2 t))

/-- Change the sets of the record at `addr` and correct the length by
`inc` if `LOOKUP` changed to `shown`. -/
def changeSets (h : Hash n) (addr : String) (inc : ℤ) (shown : Bool)
    (f : RwSets n (RlAse n) → RwSets n (RlAse n)) : Option (Hash n) :=
  (h.rles addr).bind fun e =>
    let h := rleKind.modify h addr fun e => { e with body := f e.body }
    if e.lookup ≠ shown ∧ (f e.body).lookup = shown then incrLen h inc else some h

/-- The property values of an insert, at `argv[4..7]`. -/
def insertProps (argv : List (Arg n)) : Option InsertProps :=
  ((strAt 4 argv).bind getLongLongFromObject).bind fun font =>
    ((strAt 5 argv).bind getLongLongFromObject).bind fun size =>
      ((strAt 6 argv).bind getLongLongFromObject).bind fun color =>
        ((strAt 7 argv).bind getLongLongFromObject).map fun property =>
          ⟨font, size, color, property⟩

/-- `insertFunc`. -/
def insertFunc (me : Fin n) (argv : List (Arg n)) (t : Vc n) (h : Hash n) :
    Option (Hash n) :=
  (strAt 1 argv).bind fun pre => (strAt 2 argv).bind fun oid =>
    (strAt 3 argv).bind fun content => (leidAt 8 argv).bind fun pos =>
      (insertProps argv).bind fun v =>
        (tick me t h).bind fun h =>
          (rleKind.findOrCreate me h oid).bind fun p =>
            (rleKind.position p.1 pre oid content p.2 pos).bind fun h =>
              changeSets h p.2 1 true (RwSets.add RlAse.t (RlAse.new t v))

/-- `updateFunc`. -/
def updateFunc (me : Fin n) (argv : List (Arg n)) (t : Vc n) (h : Hash n) :
    Option (Hash n) :=
  (strAt 1 argv).bind fun oid => (strAt 2 argv).bind fun type =>
    ((strAt 3 argv).bind getLongLongFromObject).bind fun value =>
      (tick me t h).bind fun h =>
        (rleKind.findOrCreate me h oid).map fun p =>
          match Property.ofType type with
          | none => p.1
          | some q => rleKind.modify p.1 p.2 fun e =>
              { e with body :=
                { e.body with aset := e.body.aset.map (RlAse.update q value t) } }

/-- `removeFunc`. -/
def removeFunc (me : Fin n) (argv : List (Arg n)) (t : Vc n) (h : Hash n) :
    Option (Hash n) :=
  (strAt 1 argv).bind fun oid =>
    (tick me t h).bind fun h =>
      (rleKind.findOrCreate me h oid).bind fun p =>
        changeSets p.1 p.2 (-1) false (RwSets.remove RlAse.t t)

/-- The `switch` of `notifyLoop`. -/
def applyCmd (me : Fin n) (cmd : RlCmd n) (h : Hash n) : Option (Hash n) :=
  match cmd.type with
  | .rladd => insertFunc me cmd.argv cmd.t h
  | .rlupdate => updateFunc me cmd.argv cmd.t h
  | .rlrem => removeFunc me cmd.argv cmd.t h

/-- Whether `t` is causally ready at a hash that has its clock. -/
def ready (h : Hash n) (t : Vc n) : Bool :=
  match h.fields "current" with
  | some (.clock c) => vcCausallyReady c t
  | _ => false

/-- `notifyLoop`. An application without a defined outcome ends the
loop. -/
def notifyLoop (me : Fin n) (h : Hash n) : Option (Hash n) :=
  (getOps h).bind fun p =>
    let q := Replication.notify
      (fun (h : Option (Hash n)) cmd => h.any fun h => ready h cmd.t)
      (fun h cmd => h.bind (applyCmd me cmd)) (some p.1) p.2
    q.1.map fun h => h.set "ops" (.ops q.2)

/-- The effect phase of the three commands: apply and drain the buffer,
or keep the command in it. -/
def receive (type : RlCmdType) (me : Fin n) (rargv : List (Arg n)) (h : Hash n) :
    Option (Hash n) :=
  (crGetLast rargv).bind fun t =>
    (getCurrent me h).bind fun p =>
      if vcCausallyReady p.2 t then
        (applyCmd me ⟨type, rargv.drop 1, t⟩ p.1).bind (notifyLoop me)
      else
        (getOps p.1).map fun q =>
          q.1.set "ops" (.ops (q.2 ++ [rlCmdNew type rargv t]))

/-- `RARGV_ADD_SDS(vc_now(getCurrent(..)))`. -/
def stampNow (me : Fin n) (h : Hash n) : Option (Hash n × Vc n) :=
  (getCurrent me h).map fun p => (p.1, vcNow p.2)

/-- The preparation of `rlinsertCommand`. -/
def insertPrepare (me : Fin n) (argv : List String) (ho : Option (Hash n)) :
    Option (Option (Hash n) × Except Reply (List (Arg n))) :=
  let oid := argv.getD 3 ""
  (rleKind.checkPre Rle.lookup ho (argv.getD 2 "")).bind fun pre =>
    match pre with
    | .error reply => some (ho, .error reply)
    | .ok (pre, preArg) =>
        (rleKind.findOrCreate me (ho.getD .empty) oid).bind fun p =>
          (p.1.rles p.2).bind fun e =>
            if e.lookup then some (some p.1, .error .eleExist)
            else
              (rleKind.placeAt me (fun c => c) p.1 pre preArg oid e).bind fun q =>
                match q with
                | (h, .error reply) => some (some h, .error reply)
                | (h, .ok pos) => (stampNow me h).map fun s =>
                    (some s.1, .ok ((argv.set 2 preArg).map Arg.str ++ [.leid pos, .vc s.2]))

/-- The preparation of `rlupdateCommand` and `rlremCommand`; `sent` is
the argument vector as it is broadcast. -/
def nonAddPrepare (sent : List String) (me : Fin n) (argv : List String)
    (ho : Option (Hash n)) :
    Option (Option (Hash n) × Except Reply (List (Arg n))) :=
  match ho with
  | none => some (none, .error .eleNexist)
  | some h =>
      (rleKind.find h (argv.getD 2 "")).bind fun addr =>
        match addr with
        | none => some (some h, .error .eleNexist)
        | some a => (h.rles a).bind fun e =>
            if e.lookup then (stampNow me h).map fun s =>
              (some s.1, .ok (sent.map Arg.str ++ [.vc s.2]))
            else some (some h, .error .eleNexist)

section Prepared

variable {me : Fin n} {argv : List String} {ho ho' : Option (Hash n)}
  {res : Except Reply (List (Arg n))}

theorem insertPrepare_cases (hp : insertPrepare me argv ho = some (ho', res)) :
    rleKind.InsertPrepared Rle.lookup me argv ho (fun c => c) (fun h _ => stampNow me h)
      ho' res := by
  obtain ⟨pre, hpre, hp⟩ := Option.bind_eq_some_iff.mp hp
  cases pre with
  | error reply =>
      obtain ⟨rfl, rfl⟩ := Prod.mk.inj (Option.some.inj hp)
      exact .noPre hpre
  | ok pre =>
      obtain ⟨⟨h₁, addr⟩, hget, hp⟩ := Option.bind_eq_some_iff.mp hp
      obtain ⟨e, he, hp⟩ := Option.bind_eq_some_iff.mp hp
      split at hp
      · next hshown =>
          obtain ⟨rfl, rfl⟩ := Prod.mk.inj (Option.some.inj hp)
          exact .shown ⟨hpre, hget, he⟩ hshown
      · next hhid =>
          have hhid : e.lookup = false := Bool.eq_false_iff.mpr hhid
          obtain ⟨⟨h₂, place⟩, hplace, hp⟩ := Option.bind_eq_some_iff.mp hp
          cases place with
          | error reply =>
              obtain ⟨rfl, rfl⟩ := Prod.mk.inj (Option.some.inj hp)
              exact .noPlace ⟨hpre, hget, he⟩ hhid hplace
          | ok pos =>
              obtain ⟨⟨h₃, t⟩, hst, heq⟩ := Option.map_eq_some_iff.mp hp
              obtain ⟨rfl, rfl⟩ := Prod.mk.inj heq
              exact .placed ⟨hpre, hget, he⟩ hhid hplace hst

theorem nonAddPrepare_cases {sent : List String}
    (hp : nonAddPrepare sent me argv ho = some (ho', res)) :
    rleKind.NonAddPrepared Rle.lookup argv ho
      (fun h _ => (stampNow me h).map fun s => (s.1, [.vc s.2])) sent ho' res := by
  unfold nonAddPrepare at hp
  cases ho with
  | none =>
      obtain ⟨rfl, rfl⟩ := Prod.mk.inj (Option.some.inj hp)
      exact .nexist
  | some h =>
      obtain ⟨addr, hfind, hp⟩ := Option.bind_eq_some_iff.mp hp
      cases addr with
      | none =>
          obtain ⟨rfl, rfl⟩ := Prod.mk.inj (Option.some.inj hp)
          exact .nexist
      | some a =>
          obtain ⟨e, he, hp⟩ := Option.bind_eq_some_iff.mp hp
          split at hp
          · next hshown =>
              obtain ⟨⟨h₁, t⟩, hst, heq⟩ := Option.map_eq_some_iff.mp hp
              obtain ⟨rfl, rfl⟩ := Prod.mk.inj heq
              exact .accepted rfl hfind he hshown (by rw [hst]; rfl)
          · obtain ⟨rfl, rfl⟩ := Prod.mk.inj (Option.some.inj hp)
            exact .nexist

end Prepared

/-- What `rllistCommand` sends for one element. -/
def elementReply (e : Rle n) : Option (Option String × Option String × Props) :=
  (e.body.entry RlAse.t).map fun a => (e.oid, e.content, a.props)

/-- The loop of `rllistCommand` from the record at `addr` on. -/
def listFrom (h : Hash n) : ℕ → Option String →
    Option (List (Option String × Option String × Props))
  | _, none => some []
  | 0, some _ => none
  | fuel + 1, some a =>
      (h.rles a).bind fun e =>
        (listFrom h fuel e.next).bind fun rest =>
          if e.lookup then (elementReply e).map (· :: rest) else some rest

end Rl

/-- `rlinsertCommand`. -/
def rlinsertCommand : ListCommand n where
  maxArgc := 9
  checks := [(5, .int), (6, .int), (7, .int), (8, .int)]
  prepare := Rl.insertPrepare
  effect := Rl.receive .rladd

/-- `rlupdateCommand`. The effect lowers the property name in place,
before the vector is broadcast. -/
def rlupdateCommand : ListCommand n where
  maxArgc := 5
  checks := [(4, .int)]
  prepare := fun me argv =>
    Rl.nonAddPrepare (argv.set 3 (sdstolower (argv.getD 3 ""))) me argv
  effect := Rl.receive .rlupdate

/-- `rlremCommand`. -/
def rlremCommand : ListCommand n where
  maxArgc := 3
  checks := []
  prepare := fun me argv => Rl.nonAddPrepare argv me argv
  effect := Rl.receive .rlrem

/-- `rllenCommand` on a key that holds a list or nothing. -/
def rllenCommand (h : Hash n) : Option ℤ := getLen h

/-- `rllistCommand`: the number of elements announced, then the
elements. -/
def rllistCommand (h : Hash n) :
    Option (ℤ × List (Option String × Option String × Props)) :=
  (getLen h).bind fun len =>
    (rleKind.getHead h).bind fun head =>
      (Rl.listFrom h h.allocs head).map fun elems => (len, elems)

end CrdtRedis
