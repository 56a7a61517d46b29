/-
The key space of one server (RWFramework.c, `getZsetOrCreate` of
t_ozset.c): what the CRDT commands keep under which key.

A container `tname` of the element-per-record types owns two keys: the
sorted set `tname` that clients read, and the hash `tname` + suffix that
holds the records. A list owns one hash, where the records of its
elements and the list's own `head`, `current`, `length` and `ops` share
one set of fields, told apart by name only.

A hash stores bytes; `Value` says what they are. Reading one kind of
value as another, or one type of object as another, has no defined
outcome and is `none` here. List records are reached through pointers
(fields, `head`, `next`), so a hash also has the records by address; a
record's address is the field it was created under, which no two records
share because a field, once set, stays set.
-/
import CrdtRedis.Ori.Set
import CrdtRedis.Ori.Zset
import CrdtRedis.Rwf.Set
import CrdtRedis.Rwf.Zset
import CrdtRedis.Rw.Zset
import CrdtRedis.ListElem

namespace CrdtRedis

variable {n : ℕ}

/-- What a hash field stores. -/
inductive Value (n : ℕ)
  | oze (e : Oze)
  | rze (e : Rze n)
  | rwfze (e : Rwfze n)
  | ose (e : Ose)
  | rwfse (e : Rwfse n)
  /-- A pointer to the remove-wins list record created under `addr`. -/
  | rle (addr : String)
  /-- A pointer to the RWF list record created under `addr`. -/
  | rwfle (addr : String)
  | clock (c : Vc n)
  | ops (cmds : List (RlCmd n))
  | length (len : ℤ)

/-- A hash object: its fields, the list records by address, and how many
of these were ever made. -/
structure Hash (n : ℕ) where
  fields : String → Option (Value n)
  rles : String → Option (Rle n)
  rwfles : String → Option (Rwfle n)
  allocs : ℕ

/-- `createHashObject`. -/
def Hash.empty : Hash n := ⟨fun _ => none, fun _ => none, fun _ => none, 0⟩

/-- `RWFHT_SET`. -/
def Hash.set (h : Hash n) (field : String) (v : Value n) : Hash n :=
  { h with fields := Function.update h.fields field (some v) }

/-- The objects a key can hold: `OBJ_ZSET` and `OBJ_HASH`. -/
inductive Obj (n : ℕ)
  | zset (members : String → Option Score)
  | hash (h : Hash n)

/-- A database. -/
abbrev Db (n : ℕ) := String → Option (Obj n)

/-- `getInnerHT`, with the name already put together. -/
def getInnerHT (db : Db n) (htname : String) (create : Bool) :
    Db n × Option (Obj n) :=
  match db htname with
  | some o => (db, some o)
  | none =>
      if create then
        (Function.update db htname (some (.hash .empty)), some (.hash .empty))
      else (db, none)

/-- A kind of record kept one per element: the suffix of its table, its
constructor, and how it sits in a field. -/
structure Table (n : ℕ) (R : Type) where
  suffix : String
  new : Fin n → R
  wrap : R → Value n
  unwrap : Value n → Option R
  unwrap_wrap : ∀ e, unwrap (wrap e) = some e
  suffix_ne : suffix ≠ ""

namespace Table

variable {R : Type} (T : Table n R)

/-- The key of the record table of container `tname`. -/
def key (tname : String) : String := tname ++ T.suffix

/-- Store record `e` of element `key` in the table `h` of `tname`. -/
def store (db : Db n) (tname key : String) (h : Hash n) (e : R) : Db n :=
  Function.update db (T.key tname) (some (.hash (h.set key (T.wrap e))))

/-- `rehHTGet`: the database after it, the table, and the record. -/
def get (me : Fin n) (db : Db n) (tname key : String) (create : Bool) :
    Option (Db n × Option (Hash n × R)) :=
  match getInnerHT db (T.key tname) create with
  | (db, none) => some (db, none)
  | (_, some (.zset _)) => none
  | (db, some (.hash h)) =>
      match h.fields key with
      | some v => (T.unwrap v).map fun e => (db, some (h, e))
      | none =>
          if create then
            let e := T.new me
            some (T.store db tname key h e, some (h.set key (T.wrap e), e))
          else some (db, none)

end Table

/-- `ORI_RPQ_TABLE_SUFFIX`. -/
def ozeTable : Table n Oze where
  suffix := "_ozets_"
  new := fun _ => Oze.new
  wrap := .oze
  unwrap := fun v => match v with | .oze e => some e | _ => none
  unwrap_wrap := fun _ => rfl
  suffix_ne := by decide

/-- `RW_RPQ_TABLE_SUFFIX`. -/
def rzeTable : Table n (Rze n) where
  suffix := "_rzets_"
  new := Rze.new
  wrap := .rze
  unwrap := fun v => match v with | .rze e => some e | _ => none
  unwrap_wrap := fun _ => rfl
  suffix_ne := by decide

/-- `RWF_RPQ_TABLE_SUFFIX`. -/
def rwfzeTable : Table n (Rwfze n) where
  suffix := "_rwfzsets_"
  new := Rwfze.new
  wrap := .rwfze
  unwrap := fun v => match v with | .rwfze e => some e | _ => none
  unwrap_wrap := fun _ => rfl
  suffix_ne := by decide

/-- `ORI_SET_TABLE_SUFFIX`. -/
def oseTable : Table n Ose where
  suffix := "_osets_"
  new := fun _ => Ose.new
  wrap := .ose
  unwrap := fun v => match v with | .ose e => some e | _ => none
  unwrap_wrap := fun _ => rfl
  suffix_ne := by decide

/-- `RWF_SET_TABLE_SUFFIX`. -/
def rwfseTable : Table n (Rwfse n) where
  suffix := "_rwfsets_"
  new := Rwfse.new
  wrap := .rwfse
  unwrap := fun v => match v with | .rwfse e => some e | _ => none
  unwrap_wrap := fun _ => rfl
  suffix_ne := by decide

/-- One call on the sorted set `tname`: `getZsetOrCreate`, then `zsetAdd`
or `zsetDel` of the element. -/
def zsetCall (db : Db n) (tname key : String) (c : ZCall) : Option (Db n) :=
  match db tname with
  | some (.hash _) => none
  | some (.zset m) =>
      some (Function.update db tname
        (some (.zset (Function.update m key (c.run (m key))))))
  | none =>
      some (Function.update db tname
        (some (.zset (Function.update (fun _ => none) key (c.run none)))))

/-- The calls of one effect phase, in order. -/
def zsetCalls (db : Db n) (tname key : String) : List ZCall → Option (Db n)
  | [] => some db
  | c :: cs => (zsetCall db tname key c).bind fun db => zsetCalls db tname key cs

-- ============================================= the frame of a command

namespace ElemCommand

variable {R : Type}

/-- The prepare phase: the database after it and the refusal or the
broadcast. -/
def runPrepare (cmd : ElemCommand n R) (T : Table n R)
    (dbl : String → Option ℤ) (me : Fin n) (argv : List String) (db : Db n) :
    Option (Db n × Except Reply (List (Arg n))) :=
  if cmd.maxArgc < argv.length ∨ argv.length < 2 then
    some (db, .error .syntaxerr)
  else
    let tname := argv.getD 1 ""
    let key := argv.getD 2 ""
    match db tname with
    | some (.hash _) => some (db, .error .wrongtypeerr)
    | _ =>
        match failedCheck dbl cmd.checks argv with
        | some reply => some (db, .error reply)
        | none =>
            (T.get me db tname key cmd.create).map fun p =>
              match cmd.prepare me (p.2.map Prod.snd), p.2 with
              | .error reply, _ => (p.1, .error reply)
              | .ok (e, args), some (h, _) =>
                  (T.store p.1 tname key h e, .ok (argv.map Arg.str ++ args))
              | .ok (_, args), none => (p.1, .ok (argv.map Arg.str ++ args))

/-- The effect phase, on what was broadcast. -/
def runEffect (cmd : ElemCommand n R) (T : Table n R)
    (dbl : String → Option ℤ) (me : Fin n) (rargv : List (Arg n))
    (db : Db n) : Option (Db n) :=
  (strAt 1 rargv).bind fun tname => (strAt 2 rargv).bind fun key =>
    (cmd.effect dbl rargv).bind fun f =>
      (T.get me db tname key true).bind fun p =>
        match p.2 with
        | none => none
        | some (h, e) =>
            zsetCalls (T.store p.1 tname key h (f e).1) tname key (f e).2

end ElemCommand

-- ================================================ reading an element

/-- The record of element `key` of container `tname` as server `me` has
it: a missing one is as good as a new one. -/
def Table.recordOf {R : Type} (T : Table n R) (me : Fin n) (db : Db n)
    (tname key : String) : R :=
  match db (T.key tname) with
  | some (.hash h) => ((h.fields key).bind T.unwrap).getD (T.new me)
  | _ => T.new me

/-- The score `tname` shows for `key`, if it shows the element. -/
def scoreOf (db : Db n) (tname key : String) : Option Score :=
  match db tname with
  | some (.zset m) => m key
  | _ => none

namespace Table

variable {R : Type} (T : Table n R) {me : Fin n} {db db' : Db n}
  {tname key t k : String} {h : Hash n}

theorem key_injective : Function.Injective T.key := by
  intro a b hab
  exact String.append_left_inj _ |>.mp hab

theorem key_ne_self (tname : String) : T.key tname ≠ tname := by
  intro hcon
  have hlen := congrArg String.length hcon
  rw [key, String.length_append] at hlen
  have hzero : T.suffix.length = 0 := by omega
  exact T.suffix_ne (String.length_eq_zero_iff.mp hzero)

/-- Only the object under the table's key matters to a record. -/
theorem recordOf_congr (h : db' (T.key t) = db (T.key t)) :
    T.recordOf me db' t k = T.recordOf me db t k := by
  simp only [recordOf, h]

/-- A record after a store. -/
theorem recordOf_store (hdb : db (T.key tname) = some (.hash h)) (e : R) :
    T.recordOf me (T.store db tname key h e) t k
      = if t = tname ∧ k = key then e else T.recordOf me db t k := by
  by_cases ht : t = tname
  · subst ht
    by_cases hk : k = key
    · subst hk
      simp [recordOf, store, Hash.set, T.unwrap_wrap]
    · simp [recordOf, store, Hash.set, hk, hdb]
  · have hne : T.key t ≠ T.key tname := fun hcon => ht (T.key_injective hcon)
    rw [if_neg (fun hcon => ht hcon.1)]
    exact T.recordOf_congr (by simp [store, hne])

theorem scoreOf_store (hdb : db (T.key tname) = some (.hash h)) (e : R) :
    scoreOf (T.store db tname key h e) t k = scoreOf db t k := by
  by_cases ht : t = T.key tname
  · subst ht
    simp [scoreOf, store, hdb]
  · simp [scoreOf, store, ht]

/-- What `rehHTGet` leaves: the same records and scores, and a record to
work on if it was asked to create one. -/
structure Got (T : Table n R) (me : Fin n) (db : Db n) (tname key : String)
    (create : Bool) (db' : Db n) (res : Option (Hash n × R)) : Prop where
  record : ∀ t k, T.recordOf me db' t k = T.recordOf me db t k
  score : ∀ t k, scoreOf db' t k = scoreOf db t k
  found : ∀ h e, res = some (h, e) →
    e = T.recordOf me db tname key ∧ db' (T.key tname) = some (.hash h)
  created : create = true → res.isSome

/-- `getInnerHT` shows no difference. -/
theorem getInnerHT_spec (me : Fin n) {create : Bool} {o : Option (Obj n)}
    (hget : getInnerHT db (T.key tname) create = (db', o)) :
    (∀ t k, T.recordOf me db' t k = T.recordOf me db t k) ∧
      (∀ t k, scoreOf db' t k = scoreOf db t k) ∧
      db' (T.key tname) = o ∧ (create = true → o.isSome) := by
  unfold getInnerHT at hget
  cases hdb : db (T.key tname) with
  | some obj =>
      rw [hdb] at hget
      obtain ⟨rfl, rfl⟩ := Prod.mk.inj hget
      exact ⟨fun _ _ => rfl, fun _ _ => rfl, hdb, fun _ => rfl⟩
  | none =>
      rw [hdb] at hget
      cases create with
      | false =>
          obtain ⟨rfl, rfl⟩ := Prod.mk.inj hget
          exact ⟨fun _ _ => rfl, fun _ _ => rfl, hdb, fun hc => by cases hc⟩
      | true =>
          obtain ⟨rfl, rfl⟩ := Prod.mk.inj hget
          refine ⟨fun t k => ?_, fun t k => ?_, by simp, fun _ => rfl⟩
          · by_cases ht : T.key t = T.key tname
            · simp [recordOf, ht, hdb, Hash.empty]
            · exact T.recordOf_congr (by simp [ht])
          · by_cases ht : t = T.key tname
            · simp [scoreOf, ht, hdb]
            · simp [scoreOf, ht]

theorem get_spec {create : Bool} {res : Option (Hash n × R)}
    (hget : T.get me db tname key create = some (db', res)) :
    T.Got me db tname key create db' res := by
  unfold get at hget
  rcases hin : getInnerHT db (T.key tname) create with ⟨db₁, o⟩
  obtain ⟨hrec, hscore, hat, hcreate⟩ := T.getInnerHT_spec me hin
  rw [hin] at hget
  match o with
  | none =>
      obtain ⟨rfl, rfl⟩ := Prod.mk.inj (Option.some.inj hget)
      exact ⟨hrec, hscore, by simp, fun hc => by cases hcreate hc⟩
  | some (.zset m) => cases hget
  | some (.hash h) =>
      have hview : ∀ e, (h.fields key).bind T.unwrap = some e →
          e = T.recordOf me db tname key := by
        intro e he
        rw [← hrec]
        simp [recordOf, hat, he]
      simp only at hget
      split at hget
      · next v hv =>
          obtain ⟨e, he, heq⟩ := Option.map_eq_some_iff.mp hget
          obtain ⟨rfl, rfl⟩ := Prod.mk.inj heq
          refine ⟨hrec, hscore, ?_, fun _ => rfl⟩
          rintro h' e' ⟨⟩
          exact ⟨hview e (by rw [hv]; exact he), hat⟩
      · next hv =>
          split at hget
          · obtain ⟨rfl, rfl⟩ := Prod.mk.inj (Option.some.inj hget)
            have hnew : T.new me = T.recordOf me db tname key := by
              rw [← hrec]
              simp [recordOf, hat, hv]
            refine ⟨fun t k => ?_, fun t k => ?_, ?_, fun _ => rfl⟩
            · rw [T.recordOf_store hat]
              split
              · next heq => rw [heq.1, heq.2, hnew]
              · exact hrec t k
            · rw [T.scoreOf_store hat]
              exact hscore t k
            · rintro h' e' ⟨⟩
              exact ⟨hnew, by simp [store]⟩
          · next hc =>
              obtain ⟨rfl, rfl⟩ := Prod.mk.inj (Option.some.inj hget)
              exact ⟨hrec, hscore, by simp, fun hcon => absurd hcon hc⟩

/-- All that `rehHTGet` can do: find the record, find none, or make one in
a table that may have to be made as well. -/
inductive Fetched (T : Table n R) (me : Fin n) (db : Db n) (tname key : String) :
    Bool → Db n → Option (Hash n × R) → Prop
  | found {create : Bool} {h : Hash n} {v : Value n} {e : R}
      (hdb : db (T.key tname) = some (.hash h)) (hv : h.fields key = some v)
      (he : T.unwrap v = some e) : Fetched T me db tname key create db (some (h, e))
  | missing (hno : ∀ h, db (T.key tname) = some (.hash h) → h.fields key = none) :
      Fetched T me db tname key false db none
  | made {h : Hash n}
      (hdb : db (T.key tname) = some (.hash h) ∨ db (T.key tname) = none ∧ h = .empty)
      (hf : h.fields key = none) :
      Fetched T me db tname key true (T.store db tname key h (T.new me))
        (some (h.set key (T.wrap (T.new me)), T.new me))

theorem fetched {create : Bool} {res : Option (Hash n × R)}
    (hget : T.get me db tname key create = some (db', res)) :
    T.Fetched me db tname key create db' res := by
  unfold get getInnerHT at hget
  cases hdb : db (T.key tname) with
  | none =>
      rw [hdb] at hget
      cases create with
      | false =>
          obtain ⟨rfl, rfl⟩ := Prod.mk.inj (Option.some.inj hget)
          exact .missing fun h hcon => by rw [hdb] at hcon; cases hcon
      | true =>
          obtain ⟨rfl, rfl⟩ := Prod.mk.inj (Option.some.inj hget)
          have hidem : T.store (Function.update db (T.key tname) (some (.hash .empty))) tname key
              .empty (T.new me) = T.store db tname key .empty (T.new me) :=
            Function.update_idem ..
          rw [hidem]
          exact .made (Or.inr ⟨hdb, rfl⟩) rfl
  | some o =>
      rw [hdb] at hget
      cases o with
      | zset m => cases hget
      | hash h =>
          dsimp only at hget
          cases hv : h.fields key with
          | some v =>
              rw [hv] at hget
              obtain ⟨e, he, heq⟩ := Option.map_eq_some_iff.mp hget
              obtain ⟨rfl, rfl⟩ := Prod.mk.inj heq
              exact .found hdb hv he
          | none =>
              rw [hv] at hget
              cases create with
              | false =>
                  obtain ⟨rfl, rfl⟩ := Prod.mk.inj (Option.some.inj hget)
                  refine .missing fun h' hh' => ?_
                  obtain rfl := Obj.hash.inj (Option.some.inj (hdb.symm.trans hh'))
                  exact hv
              | true =>
                  obtain ⟨rfl, rfl⟩ := Prod.mk.inj (Option.some.inj hget)
                  exact .made (Or.inl hdb) hv

end Table

/-- One sorted-set call moves one entry and no record. -/
theorem zsetCall_spec {R : Type} (T : Table n R) (me : Fin n) {db db' : Db n}
    {tname key : String} {c : ZCall} (hcall : zsetCall db tname key c = some db') :
    (∀ t k, T.recordOf me db' t k = T.recordOf me db t k) ∧
      ∀ t k, scoreOf db' t k
        = if t = tname ∧ k = key then c.run (scoreOf db t k) else scoreOf db t k := by
  -- a key that held no hash holds none after the call, so no record changed
  have hframe : ∀ m : String → Option Score,
      (∀ h, db tname ≠ some (.hash h)) → ∀ t k,
      T.recordOf me (Function.update db tname (some (.zset m))) t k
        = T.recordOf me db t k := by
    intro m hno t k
    by_cases ht : T.key t = tname
    · unfold Table.recordOf
      rw [ht, Function.update_self]
      show T.new me = _
      split
      · next h heq => exact absurd heq (hno h)
      · rfl
    · exact T.recordOf_congr (by simp [ht])
  unfold zsetCall at hcall
  split at hcall
  · cases hcall
  · next m hm =>
      injection hcall with hcall
      subst hcall
      refine ⟨hframe _ (by simp [hm]), fun t k => ?_⟩
      by_cases ht : t = tname
      · subst ht
        by_cases hk : k = key
        · subst hk
          simp [scoreOf, hm]
        · simp [scoreOf, hm, hk]
      · simp [scoreOf, ht]
  · next hm =>
      injection hcall with hcall
      subst hcall
      refine ⟨hframe _ (by simp [hm]), fun t k => ?_⟩
      by_cases ht : t = tname
      · subst ht
        by_cases hk : k = key
        · subst hk
          simp [scoreOf, hm]
        · simp [scoreOf, hm, hk]
      · simp [scoreOf, ht]

theorem zsetCalls_spec {R : Type} (T : Table n R) (me : Fin n)
    {tname key : String} {calls : List ZCall} {db db' : Db n}
    (hcalls : zsetCalls db tname key calls = some db') :
    (∀ t k, T.recordOf me db' t k = T.recordOf me db t k) ∧
      ∀ t k, scoreOf db' t k
        = if t = tname ∧ k = key then runCalls calls (scoreOf db t k)
          else scoreOf db t k := by
  induction calls generalizing db with
  | nil =>
      injection hcalls with hcalls
      subst hcalls
      exact ⟨fun _ _ => rfl, fun _ _ => by simp⟩
  | cons c cs ih =>
      obtain ⟨db₁, hc, hcs⟩ := Option.bind_eq_some_iff.mp hcalls
      obtain ⟨hrec, hscore⟩ := zsetCall_spec T me hc
      obtain ⟨hrec', hscore'⟩ := ih hcs
      refine ⟨fun t k => (hrec' t k).trans (hrec t k), fun t k => ?_⟩
      rw [hscore', hscore]
      split <;> rfl

namespace ElemCommand

variable {R : Type} {cmd : ElemCommand n R} {T : Table n R}
  {dbl : String → Option ℤ} {me : Fin n} {db db' : Db n}

/-- A refusal shows no difference. -/
theorem runPrepare_error {argv : List String} {reply : Reply}
    (hp : cmd.runPrepare T dbl me argv db = some (db', .error reply)) :
    (∀ t k, T.recordOf me db' t k = T.recordOf me db t k) ∧
      ∀ t k, scoreOf db' t k = scoreOf db t k := by
  have hsame : db' = db → (∀ t k, T.recordOf me db' t k = T.recordOf me db t k) ∧
      ∀ t k, scoreOf db' t k = scoreOf db t k := by
    rintro rfl
    exact ⟨fun _ _ => rfl, fun _ _ => rfl⟩
  unfold runPrepare at hp
  split at hp
  · exact hsame (by simpa using (congrArg (Option.map Prod.fst) hp).symm)
  · simp only at hp
    split at hp
    · exact hsame (by simpa using (congrArg (Option.map Prod.fst) hp).symm)
    · split at hp
      · exact hsame (by simpa using (congrArg (Option.map Prod.fst) hp).symm)
      · obtain ⟨⟨db₁, res⟩, hget, heq⟩ := Option.map_eq_some_iff.mp hp
        have hgot := T.get_spec hget
        split at heq
        · obtain ⟨rfl, -⟩ := Prod.mk.inj heq
          exact ⟨hgot.record, hgot.score⟩
        · cases (Prod.mk.inj heq).2
        · cases (Prod.mk.inj heq).2

/-- An accepted command replaces its own record by what the preparation
makes of it, and broadcasts its words and what was appended. -/
theorem runPrepare_ok {argv : List String} {rargv : List (Arg n)}
    (habsent : cmd.create = false → ∃ reply, cmd.prepare me none = .error reply)
    (hp : cmd.runPrepare T dbl me argv db = some (db', .ok rargv)) :
    argv.length ≤ cmd.maxArgc ∧ failedCheck dbl cmd.checks argv = none ∧
      ∃ e args, cmd.prepare me (some (T.recordOf me db (argv.getD 1 "") (argv.getD 2 "")))
          = .ok (e, args) ∧
        rargv = argv.map Arg.str ++ args ∧
        (∀ t k, T.recordOf me db' t k
          = if t = argv.getD 1 "" ∧ k = argv.getD 2 "" then e
            else T.recordOf me db t k) ∧
        ∀ t k, scoreOf db' t k = scoreOf db t k := by
  unfold runPrepare at hp
  split at hp
  · simp at hp
  · next hlen =>
      simp only at hp
      split at hp
      · simp at hp
      · split at hp
        · simp at hp
        · next hchecks =>
            refine ⟨not_lt.mp fun hcon => hlen (Or.inl hcon), hchecks, ?_⟩
            obtain ⟨⟨db₁, res⟩, hget, heq⟩ := Option.map_eq_some_iff.mp hp
            have hgot := T.get_spec hget
            match res with
            | none =>
                -- nothing was found, so nothing was to be created
                have hc : cmd.create = false := by
                  by_contra hcon
                  have hsome := hgot.created (by simpa using hcon)
                  cases hsome
                obtain ⟨reply, hreply⟩ := habsent hc
                simp [hreply] at heq
            | some (h, e₀) =>
                obtain ⟨he₀, hat⟩ := hgot.found h e₀ rfl
                cases hprep : cmd.prepare me (some e₀) with
                | error reply => simp [hprep] at heq
                | ok p =>
                    obtain ⟨e, args⟩ := p
                    simp only [Option.map_some, hprep] at heq
                    obtain ⟨rfl, hok⟩ := Prod.mk.inj heq
                    injection hok with hok
                    refine ⟨e, args, he₀ ▸ hprep, hok.symm, fun t k => ?_, fun t k => ?_⟩
                    · rw [T.recordOf_store hat, hgot.record]
                    · rw [T.scoreOf_store hat, hgot.score]

/-- An application acts on its own record and its own entry. -/
theorem runEffect_spec {rargv : List (Arg n)}
    (he : cmd.runEffect T dbl me rargv db = some db') :
    ∃ tname key f, strAt 1 rargv = some tname ∧ strAt 2 rargv = some key ∧
      cmd.effect dbl rargv = some f ∧
      (∀ t k, T.recordOf me db' t k
        = if t = tname ∧ k = key then (f (T.recordOf me db tname key)).1
          else T.recordOf me db t k) ∧
      ∀ t k, scoreOf db' t k
        = if t = tname ∧ k = key
          then runCalls (f (T.recordOf me db tname key)).2 (scoreOf db t k)
          else scoreOf db t k := by
  unfold runEffect at he
  obtain ⟨tname, htname, he⟩ := Option.bind_eq_some_iff.mp he
  obtain ⟨key, hkey, he⟩ := Option.bind_eq_some_iff.mp he
  obtain ⟨f, hf, he⟩ := Option.bind_eq_some_iff.mp he
  obtain ⟨⟨db₁, res⟩, hget, he⟩ := Option.bind_eq_some_iff.mp he
  refine ⟨tname, key, f, htname, hkey, hf, ?_⟩
  have hgot := T.get_spec hget
  match res with
  | none => cases he
  | some (h, e) =>
      obtain ⟨rfl, hat⟩ := hgot.found h e rfl
      obtain ⟨hrec, hscore⟩ := zsetCalls_spec T me he
      refine ⟨fun t k => ?_, fun t k => ?_⟩
      · rw [hrec, T.recordOf_store hat, hgot.record]
      · rw [hscore, T.scoreOf_store hat, hgot.score]

end ElemCommand

end CrdtRedis
