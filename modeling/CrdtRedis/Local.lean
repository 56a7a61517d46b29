/-
One client command at its server, from the vector to the end of its own
effect phase (`CRDT_PREPARE` to `CRDT_END` of CRDT.h).

The macros around the body of a command can end in undefined behaviour in
two places only: where the table of the container is no hash, and where
the container itself is one when the sorted set is written. Where the keys
have their types (`Table.Typed`) and the table its kind of records
(`Table.Uniform`), which runs of one family of commands keep, every
command with well-formed arguments runs through, is accepted or refused by
what its body says of the record, and touches no other element
(`runCommand_spec`).
-/
import CrdtRedis.Element

namespace CrdtRedis

open Replication

variable {n : ℕ} {R : Type}

/-- A client's vector at its server: the keys after the preparation and,
if that accepts, the local application; and whether it accepts. -/
def runCommand (dbl : String → Option ℤ) (me : Fin n) (argv : List String) (db : Db n) :
    Option (Db n × Bool) :=
  (prepareCommand dbl me argv db).bind fun p =>
    match p.2 with
    | .error _ => some (p.1, false)
    | .ok rargv => (effectCommand dbl me rargv p.1).map fun db => (db, true)

-- ============================================== what a command leaves

namespace Table

/-- Element `key` of `tname` apart, nothing differs: no other key, no
other record, no other entry of a sorted set. -/
structure Frame (T : Table n R) (me : Fin n) (tname key : String) (db db' : Db n) :
    Prop where
  other : ∀ k, k ≠ tname → k ≠ T.key tname → db' k = db k
  record : ∀ t k, ¬ (t = tname ∧ k = key) → T.recordOf me db' t k = T.recordOf me db t k
  score : ∀ t k, ¬ (t = tname ∧ k = key) → scoreOf db' t k = scoreOf db t k

/-- The keys of container `tname` have their types, as far as they
exist. -/
structure Typed (T : Table n R) (tname : String) (db : Db n) : Prop where
  container : ∀ h, db tname ≠ some (.hash h)
  table : ∀ m, db (T.key tname) ≠ some (.zset m)

/-- A decidable form. -/
def types (T : Table n R) (tname : String) (db : Db n) : Bool :=
  (match db tname with | some (.hash _) => false | _ => true) &&
    (match db (T.key tname) with | some (.zset _) => false | _ => true)

theorem Typed.of_types {T : Table n R} {tname : String} {db : Db n}
    (h : T.types tname db = true) : T.Typed tname db := by
  constructor
  · intro hash hcon
    simp [types, hcon] at h
  · intro m hcon
    simp [types, hcon] at h

/-- Every hash holds records of the one kind. -/
def Uniform (T : Table n R) (db : Db n) : Prop :=
  ∀ k h f v, db k = some (.hash h) → h.fields f = some v → (T.unwrap v).isSome = true

variable {T : Table n R} {me : Fin n} {db db' : Db n} {tname key : String} {h : Hash n}
  {res : Option (Hash n × R)} {create : Bool} {e : R}

theorem store_other {k : String} (hk : k ≠ T.key tname) :
    T.store db tname key h e k = db k := Function.update_of_ne hk _ _

theorem store_self : T.store db tname key h e (T.key tname)
    = some (.hash (h.set key (T.wrap e))) := Function.update_self ..

-- ------------------------------------------------------------- rehHTGet

theorem get_other (hget : T.get me db tname key create = some (db', res)) {k : String}
    (hk : k ≠ T.key tname) : db' k = db k := by
  cases T.fetched hget with
  | found _ _ _ => rfl
  | missing _ => rfl
  | made _ _ => exact store_other hk

/-- It ends where the table is a hash of the right records. -/
theorem get_total (hun : T.Uniform db) (htable : ∀ m, db (T.key tname) ≠ some (.zset m))
    (me : Fin n) (key : String) (create : Bool) :
    ∃ db' res, T.get me db tname key create = some (db', res) := by
  unfold get getInnerHT
  cases hdb : db (T.key tname) with
  | none => cases create <;> exact ⟨_, _, rfl⟩
  | some o =>
      cases o with
      | zset m => exact absurd hdb (htable m)
      | hash h =>
          dsimp only
          cases hv : h.fields key with
          | none => cases create <;> exact ⟨_, _, rfl⟩
          | some v =>
              obtain ⟨e, he⟩ := Option.isSome_iff_exists.mp (hun _ h key v hdb hv)
              refine ⟨db, some (h, e), ?_⟩
              show (T.unwrap v).map _ = _
              rw [he, Option.map_some]

/-- What it does not find is as good as new. -/
theorem get_none (hget : T.get me db tname key create = some (db', none)) :
    T.recordOf me db tname key = T.new me := by
  cases T.fetched hget with
  | missing hno =>
      unfold recordOf
      split
      · next h hdb => rw [hno h hdb, Option.bind_none, Option.getD_none]
      · rfl

/-- A stored record is found. -/
theorem get_store (db : Db n) (e : R) :
    T.get me (T.store db tname key h e) tname key create
      = some (T.store db tname key h e, some (h.set key (T.wrap e), e)) := by
  unfold get getInnerHT
  rw [store_self]
  simp [Hash.set, T.unwrap_wrap]

end Table

-- ------------------------------------------------------ the sorted set

section Zset

variable {db db' : Db n} {tname key : String} {c : ZCall} {calls : List ZCall}

/-- A call writes a sorted set, where there is no hash. -/
theorem zsetCall_eq (h : ∀ h, db tname ≠ some (.hash h)) (key : String) (c : ZCall) :
    ∃ m, zsetCall db tname key c = some (Function.update db tname (some (.zset m))) := by
  unfold zsetCall
  cases hdb : db tname with
  | none => exact ⟨_, rfl⟩
  | some o =>
      cases o with
      | hash h' => exact absurd hdb (h h')
      | zset m => exact ⟨_, rfl⟩

theorem zsetCall_some (hcall : zsetCall db tname key c = some db') :
    ∃ m, db' = Function.update db tname (some (.zset m)) := by
  have hno : ∀ h, db tname ≠ some (.hash h) := by
    intro h hdb
    simp [zsetCall, hdb] at hcall
  obtain ⟨m, hm⟩ := zsetCall_eq hno key c
  exact ⟨m, Option.some.inj (hcall.symm.trans hm)⟩

theorem zsetCalls_total (h : ∀ h, db tname ≠ some (.hash h)) (key : String)
    (calls : List ZCall) : ∃ db', zsetCalls db tname key calls = some db' := by
  induction calls generalizing db with
  | nil => exact ⟨db, rfl⟩
  | cons c calls ih =>
      obtain ⟨m, hm⟩ := zsetCall_eq h key c
      rw [zsetCalls, hm, Option.bind_some]
      refine ih ?_
      intro h' hcon
      rw [Function.update_self] at hcon
      cases hcon

/-- All that the calls change is a sorted set. -/
theorem zsetCalls_keys (hcalls : zsetCalls db tname key calls = some db') :
    (∀ k, k ≠ tname → db' k = db k) ∧
      ∀ h, db' tname = some (.hash h) → db tname = some (.hash h) := by
  induction calls generalizing db with
  | nil =>
      obtain rfl := Option.some.inj hcalls
      exact ⟨fun _ _ => rfl, fun _ hh => hh⟩
  | cons c calls ih =>
      obtain ⟨db₁, hc, hcs⟩ := Option.bind_eq_some_iff.mp hcalls
      obtain ⟨m, rfl⟩ := zsetCall_some hc
      obtain ⟨hother, hhash⟩ := ih hcs
      refine ⟨fun k hk => (hother k hk).trans (Function.update_of_ne hk _ _), ?_⟩
      intro h hh
      have hcon := hhash h hh
      rw [Function.update_self] at hcon
      cases hcon

end Zset

-- =================================================== what is kept

/-- A property of all hashes of a database. -/
def EveryHash (P : Hash n → Prop) (db : Db n) : Prop := ∀ k h, db k = some (.hash h) → P h

namespace EveryHash

variable {P : Hash n → Prop} {T : Table n R} {I : R → Prop} {me : Fin n} {db db' : Db n}
  {tname key : String}

theorem empty : EveryHash P fun _ => none := by
  intro k h hk
  cases hk

theorem update (hdb : EveryHash P db) (k : String) {o : Option (Obj n)}
    (ho : ∀ h, o = some (.hash h) → P h) : EveryHash P (Function.update db k o) := by
  intro k' h hk'
  by_cases hkey : k' = k
  · rw [hkey, Function.update_self] at hk'
    exact ho h hk'
  · rw [Function.update_of_ne hkey] at hk'
    exact hdb k' h hk'

theorem zsetCalls {calls : List ZCall} (hdb : EveryHash P db)
    (hcalls : zsetCalls db tname key calls = some db') : EveryHash P db' := by
  obtain ⟨hother, hhash⟩ := zsetCalls_keys hcalls
  intro k h hk
  by_cases hkey : k = tname
  · subst hkey
    exact hdb k h (hhash h hk)
  · rw [hother k hkey] at hk
    exact hdb k h hk

end EveryHash

/-- What holds of all hashes is kept by storing records with `I`, and the
records in such hashes have `I`. -/
structure Table.Stores (T : Table n R) (P : Hash n → Prop) (I : R → Prop) : Prop where
  empty : P .empty
  new : ∀ me, I (T.new me)
  load : ∀ {h f v e}, P h → h.fields f = some v → T.unwrap v = some e → I e
  store : ∀ {h f e}, P h → I e → P (h.set f (T.wrap e))

namespace Table

variable {P : Hash n → Prop} {T : Table n R} {I : R → Prop} {me : Fin n} {db db' : Db n}
  {tname key : String}

theorem Stores.put (hT : T.Stores P I) (hdb : EveryHash P db) {h : Hash n} (hh : P h) {e : R}
    (he : I e) : EveryHash P (T.store db tname key h e) := by
  refine hdb.update _ ?_
  intro h' hh'
  obtain rfl := Obj.hash.inj (Option.some.inj hh')
  exact hT.store hh he

theorem Stores.get (hT : T.Stores P I) (hdb : EveryHash P db) {create : Bool}
    {res : Option (Hash n × R)} (hget : T.get me db tname key create = some (db', res)) :
    EveryHash P db' ∧ ∀ h e, res = some (h, e) → P h ∧ I e := by
  cases T.fetched hget with
  | found hat hv he =>
      refine ⟨hdb, ?_⟩
      intro h e heq
      obtain ⟨rfl, rfl⟩ := Prod.mk.inj (Option.some.inj heq)
      exact ⟨hdb _ _ hat, hT.load (hdb _ _ hat) hv he⟩
  | missing _ => exact ⟨hdb, fun h e heq => by cases heq⟩
  | @made h₀ hat _ =>
      have hh : P h₀ := by
        rcases hat with hat | ⟨-, rfl⟩
        · exact hdb _ _ hat
        · exact hT.empty
      refine ⟨hT.put hdb hh (hT.new me), ?_⟩
      intro h e heq
      obtain ⟨rfl, rfl⟩ := Prod.mk.inj (Option.some.inj heq)
      exact ⟨hT.store hh (hT.new me), hT.new me⟩

/-- The hashes that hold records of the one kind store such records. -/
theorem stores_uniform (T : Table n R) :
    T.Stores (fun h => ∀ f v, h.fields f = some v → (T.unwrap v).isSome = true) fun _ => True := by
  refine ⟨?_, fun _ => trivial, fun _ _ _ => trivial, ?_⟩
  · intro f v hv
    cases hv
  · intro h f e hh _ f' v hv
    by_cases hf : f' = f
    · have hself : (h.set f (T.wrap e)).fields f = some (T.wrap e) := Function.update_self ..
      rw [hf, hself] at hv
      rw [← Option.some.inj hv, T.unwrap_wrap]
      rfl
    · have hne : (h.set f (T.wrap e)).fields f' = h.fields f' := Function.update_of_ne hf _ _
      exact hh f' v (hne ▸ hv)

theorem uniform_iff : T.Uniform db ↔
    EveryHash (fun h => ∀ f v, h.fields f = some v → (T.unwrap v).isSome = true) db :=
  ⟨fun hun k h hk f v hv => hun k h f v hk hv, fun hdb k h f v hk hv => hdb k h hk f v hv⟩

end Table

-- ==================================================== the two phases

namespace ElemCommand

variable {cmd : ElemCommand n R} {T : Table n R} {dbl : String → Option ℤ} {me : Fin n}
  {db db' : Db n} {argv : List String}

/-- The preparation of a vector whose arguments pass. -/
theorem runPrepare_eq (hmax : argv.length ≤ cmd.maxArgc) (hmin : 2 ≤ argv.length)
    (htype : ∀ h, db (argv.getD 1 "") ≠ some (.hash h))
    (hcheck : failedCheck dbl cmd.checks argv = none) :
    cmd.runPrepare T dbl me argv db
      = (T.get me db (argv.getD 1 "") (argv.getD 2 "") cmd.create).map fun p =>
          match cmd.prepare me (p.2.map Prod.snd), p.2 with
          | .error reply, _ => (p.1, .error reply)
          | .ok (e, args), some (h, _) =>
              (T.store p.1 (argv.getD 1 "") (argv.getD 2 "") h e,
                .ok (argv.map Arg.str ++ args))
          | .ok (_, args), none => (p.1, .ok (argv.map Arg.str ++ args)) := by
  unfold runPrepare
  rw [if_neg (by omega)]
  generalize failedCheck dbl cmd.checks argv = failed at hcheck ⊢
  subst hcheck
  dsimp only
  cases hdb : db (argv.getD 1 "") with
  | none => rfl
  | some o =>
      cases o with
      | hash h => exact absurd hdb (htype h)
      | zset m => rfl

theorem runPrepare_every {P : Hash n → Prop} {I : R → Prop} (hT : T.Stores P I)
    (hcmd : ∀ o e args, (∀ e₀ ∈ o, I e₀) → cmd.prepare me o = .ok (e, args) → I e)
    (hdb : EveryHash P db) {res : Except Reply (List (Arg n))}
    (hp : cmd.runPrepare T dbl me argv db = some (db', res)) : EveryHash P db' := by
  have hsame : ∀ {r : Except Reply (List (Arg n))}, some (db, r) = some (db', res) →
      EveryHash P db' := fun heq => (Prod.mk.inj (Option.some.inj heq)).1 ▸ hdb
  unfold runPrepare at hp
  split at hp
  · exact hsame hp
  · dsimp only at hp
    split at hp
    · exact hsame hp
    · split at hp
      · exact hsame hp
      · obtain ⟨⟨db₁, found⟩, hget, heq⟩ := Option.map_eq_some_iff.mp hp
        obtain ⟨hdb₁, hfound⟩ := hT.get hdb hget
        dsimp only at heq
        split at heq
        · exact (Prod.mk.inj heq).1 ▸ hdb₁
        · next e args h e₀ hprep =>
            obtain ⟨hh, he₀⟩ := hfound h e₀ rfl
            have he : I e := hcmd _ e args (by simpa using he₀) hprep
            exact (Prod.mk.inj heq).1 ▸ hT.put hdb₁ hh he
        · exact (Prod.mk.inj heq).1 ▸ hdb₁

theorem runEffect_every {P : Hash n → Prop} {I : R → Prop} (hT : T.Stores P I)
    {rargv : List (Arg n)} (hcmd : ∀ f e, cmd.effect dbl rargv = some f → I e → I (f e).1)
    (hdb : EveryHash P db) (he : cmd.runEffect T dbl me rargv db = some db') :
    EveryHash P db' := by
  unfold runEffect at he
  obtain ⟨tname, -, he⟩ := Option.bind_eq_some_iff.mp he
  obtain ⟨key, -, he⟩ := Option.bind_eq_some_iff.mp he
  obtain ⟨f, hf, he⟩ := Option.bind_eq_some_iff.mp he
  obtain ⟨⟨db₁, res⟩, hget, he⟩ := Option.bind_eq_some_iff.mp he
  obtain ⟨hdb₁, hfound⟩ := hT.get hdb hget
  match res with
  | none => cases he
  | some (h, e) =>
      obtain ⟨hh, hI⟩ := hfound h e rfl
      exact (hT.put hdb₁ hh (hcmd f e hf hI)).zsetCalls he

theorem runPrepare_uniform (hun : T.Uniform db) {res : Except Reply (List (Arg n))}
    (hp : cmd.runPrepare T dbl me argv db = some (db', res)) : T.Uniform db' := by
  rw [Table.uniform_iff] at hun ⊢
  exact runPrepare_every T.stores_uniform (fun _ _ _ _ _ => trivial) hun hp

theorem runEffect_uniform (hun : T.Uniform db) {rargv : List (Arg n)}
    (he : cmd.runEffect T dbl me rargv db = some db') : T.Uniform db' := by
  rw [Table.uniform_iff] at hun ⊢
  exact runEffect_every T.stores_uniform (fun _ _ _ _ => trivial) hun he

/-- What the body of a command says of a record `e`: refuse, or accept and
leave, after the local effect, a record with `post`. -/
def Does (cmd : ElemCommand n R) (dbl : String → Option ℤ) (me : Fin n)
    (argv : List String) (e : R) (post : R → Prop) : Bool → Prop
  | false => ∃ reply, cmd.prepare me (some e) = .error reply
  | true => ∃ e₁ args f, cmd.prepare me (some e) = .ok (e₁, args) ∧
      cmd.effect dbl (argv.map Arg.str ++ args) = some f ∧ post (f e₁).1

/-- A command that makes no record refuses where there is none, as it does
on a new one. -/
def RefusesMissing (cmd : ElemCommand n R) (new : R) (me : Fin n) : Prop :=
  cmd.create = false → (∃ reply, cmd.prepare me none = .error reply) ∧
    ∃ reply, cmd.prepare me (some new) = .error reply

/-- The arguments of a vector pass the checks of the command. -/
structure WellFormed (cmd : ElemCommand n R) (dbl : String → Option ℤ)
    (argv : List String) : Prop where
  min : 3 ≤ argv.length
  max : argv.length ≤ cmd.maxArgc
  checks : failedCheck dbl cmd.checks argv = none

variable (hwf : cmd.WellFormed dbl argv) (hun : T.Uniform db)
  (htyped : T.Typed (argv.getD 1 "") db)

include hwf hun htyped

/-- A preparation that refuses touches no other element. -/
theorem runPrepare_refuses (hmissing : cmd.RefusesMissing (T.new me) me) {reply : Reply}
    (hprep : cmd.prepare me (some (T.recordOf me db (argv.getD 1 "") (argv.getD 2 "")))
      = .error reply) :
    ∃ db₁ reply, cmd.runPrepare T dbl me argv db = some (db₁, .error reply) ∧
      T.Frame me (argv.getD 1 "") (argv.getD 2 "") db db₁ := by
  obtain ⟨db₁, res, hget⟩ := Table.get_total hun htyped.table me (argv.getD 2 "") cmd.create
  have hgot := T.get_spec hget
  have hframe : T.Frame me (argv.getD 1 "") (argv.getD 2 "") db db₁ :=
    ⟨fun k _ hk => Table.get_other hget hk, fun t k _ => hgot.record t k,
      fun t k _ => hgot.score t k⟩
  rw [runPrepare_eq hwf.max (by have := hwf.min; omega) htyped.container hwf.checks, hget,
    Option.map_some]
  match res with
  | none =>
      have hcreate : cmd.create = false := by
        by_contra hcon
        cases hgot.created (by simpa using hcon)
      obtain ⟨reply', hreply⟩ := (hmissing hcreate).1
      exact ⟨db₁, reply', by rw [Option.map_none, hreply], hframe⟩
  | some (h, e) =>
      obtain ⟨rfl, -⟩ := hgot.found h e rfl
      exact ⟨db₁, reply, by rw [Option.map_some, hprep], hframe⟩

/-- A preparation that accepts stores the record it leaves. -/
theorem runPrepare_accepts (hmissing : cmd.RefusesMissing (T.new me) me) {e₁ : R}
    {args : List (Arg n)}
    (hprep : cmd.prepare me (some (T.recordOf me db (argv.getD 1 "") (argv.getD 2 "")))
      = .ok (e₁, args)) :
    ∃ db₁ h, cmd.runPrepare T dbl me argv db
        = some (T.store db₁ (argv.getD 1 "") (argv.getD 2 "") h e₁,
            .ok (argv.map Arg.str ++ args)) ∧
      ∀ k, k ≠ T.key (argv.getD 1 "") → db₁ k = db k := by
  obtain ⟨db₁, res, hget⟩ := Table.get_total hun htyped.table me (argv.getD 2 "") cmd.create
  have hgot := T.get_spec hget
  rw [runPrepare_eq hwf.max (by have := hwf.min; omega) htyped.container hwf.checks, hget,
    Option.map_some]
  match res with
  | none =>
      -- a record that is not there would have been made, or refused
      have hcreate : cmd.create = false := by
        by_contra hcon
        cases hgot.created (by simpa using hcon)
      obtain ⟨reply', hreply⟩ := (hmissing hcreate).2
      rw [Table.get_none hget, hreply] at hprep
      cases hprep
  | some (h, e) =>
      obtain ⟨rfl, -⟩ := hgot.found h e rfl
      exact ⟨db₁, h, by rw [Option.map_some, hprep], fun k hk => Table.get_other hget hk⟩

end ElemCommand

section

variable {T : Table n R} {cmd : ElemCommand n R} {dbl : String → Option ℤ} {me : Fin n}
  {db db' : Db n} {argv : List String} {c : Cmd} {accept : Bool} {post : R → Prop}

/-- The effect phase on a record that was just stored. -/
theorem ElemCommand.runEffect_store (T : Table n R) (me : Fin n) {tname key : String}
    {rargv : List (Arg n)} {f : R → R × List ZCall} (ht : strAt 1 rargv = some tname)
    (hk : strAt 2 rargv = some key) (hf : cmd.effect dbl rargv = some f)
    (hcontainer : ∀ h, db tname ≠ some (.hash h)) (h : Hash n) (e₁ : R) :
    ∃ db', cmd.runEffect T dbl me rargv (T.store db tname key h e₁) = some db' ∧
      ∀ k, k ≠ tname → k ≠ T.key tname → db' k = db k := by
  have hne : tname ≠ T.key tname := (T.key_ne_self tname).symm
  have hcont : ∀ h', T.store (T.store db tname key h e₁) tname key (h.set key (T.wrap e₁))
      (f e₁).1 tname ≠ some (.hash h') := by
    intro h'
    rw [Table.store_other hne, Table.store_other hne]
    exact hcontainer h'
  obtain ⟨db', hcalls⟩ := zsetCalls_total hcont key (f e₁).2
  refine ⟨db', ?_, ?_⟩
  · unfold ElemCommand.runEffect
    rw [ht, Option.bind_some, hk, Option.bind_some, hf, Option.bind_some, Table.get_store,
      Option.bind_some]
    exact hcalls
  · intro k hkt hkT
    rw [(zsetCalls_keys hcalls).1 k hkt, Table.store_other hkT, Table.store_other hkT]

/-- A vector with well-formed arguments, at a server where the keys of its
container have their types: it is accepted or refused by the body of the
command, the record is what the body leaves, and nothing else changes. -/
theorem runCommand_spec (hproc : c.proc = Proc.elem T cmd) (hc : cmdOf argv = some c)
    (harity : c.arity ≤ argv.length) (hwf : cmd.WellFormed dbl argv)
    (hmissing : cmd.RefusesMissing (T.new me) me) (hun : T.Uniform db)
    (htyped : T.Typed (argv.getD 1 "") db)
    (hdoes : cmd.Does dbl me argv (T.recordOf me db (argv.getD 1 "") (argv.getD 2 "")) post
      accept) :
    ∃ db', runCommand dbl me argv db = some (db', accept) ∧
      (accept = true → post (T.recordOf me db' (argv.getD 1 "") (argv.getD 2 ""))) ∧
      T.Frame me (argv.getD 1 "") (argv.getD 2 "") db db' := by
  have hprep : prepareCommand dbl me argv db = cmd.runPrepare T dbl me argv db := by
    unfold prepareCommand
    rw [hc, Option.bind_some, if_neg (not_lt.mpr harity), hproc]
    rfl
  unfold runCommand
  rw [hprep]
  cases accept with
  | false =>
      obtain ⟨reply, hreply⟩ := hdoes
      obtain ⟨db₁, reply', hrun, hframe⟩ :=
        ElemCommand.runPrepare_refuses hwf hun htyped hmissing hreply
      exact ⟨db₁, by rw [hrun]; rfl, (fun hcon => nomatch hcon), hframe⟩
  | true =>
      obtain ⟨e₁, args, f, hok, hf, hpost⟩ := hdoes
      obtain ⟨db₁, h, hrun, hother⟩ :=
        ElemCommand.runPrepare_accepts hwf hun htyped hmissing hok
      have hat : ∀ i, i < 3 →
          strAt i (argv.map Arg.str ++ args) = some (argv.getD i "") :=
        fun i hi => strAt_map_append (hi.trans_le hwf.min) args
      have hne := (T.key_ne_self (argv.getD 1 "")).symm
      have hcontainer : ∀ h', db₁ (argv.getD 1 "") ≠ some (.hash h') := by
        rw [hother _ hne]
        exact htyped.container
      obtain ⟨db₂, heff, hother₂⟩ := ElemCommand.runEffect_store T me (hat 1 (by omega))
        (hat 2 (by omega)) hf hcontainer h e₁
      have hmsg : effectCommand dbl me (argv.map Arg.str ++ args)
          (T.store db₁ (argv.getD 1 "") (argv.getD 2 "") h e₁) = some db₂ := by
        unfold effectCommand cmdOfMsg
        rw [hat 0 (by omega), Option.bind_some, show lookupCommand _ = some c from hc,
          Option.bind_some, hproc]
        exact heff
      -- what the two phases did to records and entries
      obtain ⟨-, -, e₁', args', hok', -, hrec, hscore⟩ :=
        ElemCommand.runPrepare_ok (fun hcreate => (hmissing hcreate).1) hrun
      obtain ⟨rfl, rfl⟩ := Prod.mk.inj (Except.ok.inj (hok.symm.trans hok'))
      obtain ⟨t, k, f', ht, hk, hf', hrec', hscore'⟩ := ElemCommand.runEffect_spec heff
      obtain rfl : argv.getD 1 "" = t := Option.some.inj ((hat 1 (by omega)).symm.trans ht)
      obtain rfl : argv.getD 2 "" = k := Option.some.inj ((hat 2 (by omega)).symm.trans hk)
      obtain rfl : f = f' := Option.some.inj (hf.symm.trans hf')
      refine ⟨db₂, ?_, fun _ => ?_, ⟨?_, ?_, ?_⟩⟩
      · rw [hrun, Option.bind_some]
        show (effectCommand dbl me _ _).map _ = _
        rw [hmsg]
        rfl
      · rw [hrec', if_pos ⟨rfl, rfl⟩, hrec, if_pos ⟨rfl, rfl⟩]
        exact hpost
      · exact fun k hkt hkT => (hother₂ k hkt hkT).trans (hother k hkT)
      · intro t k hno
        rw [hrec', if_neg hno, hrec, if_neg hno]
      · intro t k hno
        rw [hscore', if_neg hno, hscore]

end

-- ============================================================ in runs

/-- In runs of one family every hash holds the family's records. -/
theorem ElemType.uniform {Cl O : Type} {E : ElemType n R Cl O} {dbl : String → Option ℤ}
    {pol : Policy n (Db n) (List String) (List (Arg n))} {k : Net n}
    (hallowed : ∀ argv, pol.allowed argv →
      ∃ c ec, cmdOf argv = some c ∧ E.command c = some ec)
    (hk : Reachable (crdtService dbl) pol k) (r : Fin n) : E.table.Uniform (k.site r) := by
  refine (hk.run_forall (I := fun _ db _ => E.table.Uniform db)
    (Q := fun o => E.Member o.msg) (F := fun _ => True) (fun _ _ => trivial)
    (fun _ => Table.uniform_iff.mpr .empty) ?_ ?_ ?_).1 r
  · intro me argv db db' m l hall hun hp
    obtain ⟨c, ec, hc, hec⟩ := hallowed argv hall
    obtain ⟨res, hprep⟩ := crdtService_prepares hp
    unfold prepareCommand at hprep
    rw [hc, Option.bind_some] at hprep
    split at hprep
    · exact (Prod.mk.inj (Option.some.inj hprep)).1 ▸ hun
    · rw [E.proc_eq hec] at hprep
      exact ElemCommand.runPrepare_uniform hun hprep
  · intro me argv db db' rargv l u hall _ hp _
    obtain ⟨c, ec, hc, hec⟩ := hallowed argv hall
    exact (ElemType.prepareCommand_ok hc hec (crdtService_accepts hp)).1
  · intro me o db db' l _ hun _ hm he
    obtain ⟨c, ec, hc, hec⟩ := hm
    have he : effectCommand dbl me o.msg db = some db' := he
    unfold effectCommand at he
    rw [hc, Option.bind_some, E.proc_eq hec] at he
    exact ElemCommand.runEffect_uniform hun he

end CrdtRedis
