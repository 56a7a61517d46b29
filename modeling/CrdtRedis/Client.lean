/-
One client of a server in replication mode: how a vector it sends becomes
a broadcast (networking.c, `processCommand` and `call` of server.c,
multi.c, the macros of CRDT.h).

# rargv

`c->rargv` is NULL when a command of the client begins. The preparation
of a CRDT write makes it from the client's arguments and appends to it;
`call` broadcasts it after the command, if it is not NULL; `resetClient`
frees it once the command is processed. EXEC is one command of the client
that calls `call` for each queued one, with `argv` and `cmd` exchanged
and `rargv` as it stands. A script calls `call` on `server.lua_client`, one
client for all scripts of all clients, whose `rargv` nobody frees.

The own vector of a command is the one its preparation makes of a NULL
`rargv`, with the words it and the effect lower in place; a vector that
another command left keeps the case of its words here. An append writes
to the next slot. The slots are allocated by the command
that made the vector, while the test for a full vector uses the capacity
of the command that appends; a write past the slots is undefined (`none`).

# What is left out

Commands outside the CRDT writes, the transactions and the scripts do not
touch `rargv`; what they do to the keys is a parameter (`Others`), and so is
what a script calls (`Script`). Scripts that do not end are left out. The
client is no replica and sends no QUIT. Between two commands other clients
and replicas may change the keys, touch watched ones and run scripts, and
what the server decides for reasons of its own (memory, access rights,
persistence, redirection) is part of the input (`Verdict`).
-/
import CrdtRedis.Server

namespace CrdtRedis

variable {n : ℕ}

-- =============================================================== rargv

/-- `c->rargv`, with the slots allocated for it. -/
structure Rargv (n : ℕ) where
  args : List (Arg n)
  slots : ℕ

/-- `ADDITIONAL_CAPACITY`. -/
def additionalCapacity : ℕ := 4

/-- `_RARGV_ADD` on a vector that is not NULL, with `__capacity__`. -/
def rargvAdd (argc : ℕ) (p : Rargv n × ℕ) (obj : Arg n) : Option (Rargv n × ℕ) :=
  let p :=
    if p.1.args.length = p.2 then
      ({ p.1 with slots := 2 * p.2 - argc }, 2 * p.2 - argc)
    else p
  if p.1.args.length < p.1.slots then
    some ({ p.1 with args := p.1.args ++ [obj] }, p.2)
  else none

/-- The vector after a preparation that appends to `rargv`: `own` is what
it makes of a NULL one, the `argc` arguments of the command and what it
appends. `INIT_RARGV` runs before the first append, or at `CRDT_EFFECT` if
there is none. -/
def rargvAddAll (argc : ℕ) (rargv : Option (Rargv n)) (own : List (Arg n)) :
    Option (Rargv n) :=
  let capacity := argc + additionalCapacity
  ((own.drop argc).foldlM (rargvAdd argc)
    (rargv.getD ⟨own.take argc, capacity⟩, capacity)).map Prod.fst

-- ============================================================ commands

/-- The procedures that call no others: a CRDT write, `unwatchCommand`, or
any other. -/
inductive Plain
  | crdt (cmd : Cmd)
  | unwatch
  | other
deriving DecidableEq

/-- The procedures that are queued in a transaction: a plain one, or that
of EVAL and EVALSHA. -/
inductive Queued
  | plain (p : Plain)
  | eval
deriving DecidableEq

/-- The procedures of the command table. -/
inductive Row
  | queued (p : Queued)
  | multi | exec | discard | watch
deriving DecidableEq

/-- A script that comes to its end: what it hands to `redis.call` or
`redis.pcall` next, as that depends on the keys. `denied` is whether a test
of `luaRedisGenericCommand` turns the command down (access rights,
persistence, memory, the flag CMD_NOSCRIPT of other commands). -/
inductive Script (n : ℕ)
  | done
  | call (argv : List String) (denied : Bool) (next : Db n → Script n)

/-- The rest of the command table: the arity of each name and its flag
CMD_WRITE, what its procedure does to the keys, and the scripts. -/
structure Others (n : ℕ) where
  arity : String → Option ℤ
  isWrite : String → Bool
  run : List String → Db n → Db n
  script : List String → Db n → Script n

/-- `lookupCommand`, with the arity. -/
def lookupRow (others : Others n) (name : String) : Option (Row × ℤ) :=
  match sdstolower name with
  | "multi" => some (.multi, 1)
  | "exec" => some (.exec, 1)
  | "discard" => some (.discard, 1)
  | "watch" => some (.watch, -2)
  | "unwatch" => some (.queued (.plain .unwatch), 1)
  | "eval" | "evalsha" => some (.queued .eval, -3)
  | lower =>
      match lookupCommand name with
      | some cmd => some (.queued (.plain (.crdt cmd)), -cmd.arity)
      | none => (others.arity lower).map fun a => (.queued (.plain .other), a)

/-- The arity test of `processCommand`. -/
def wrongArity (arity : ℤ) (argc : ℕ) : Bool :=
  decide (0 < arity ∧ arity ≠ argc) || decide ((argc : ℤ) < -arity)

/-- The command of a script, where `luaRedisGenericCommand` knows it, takes
its number of arguments and allows it in scripts: the transactions,
UNWATCH, EVAL and EVALSHA have the flag CMD_NOSCRIPT, CRDT writes have
not. -/
def scriptCommand (others : Others n) (argv : List String) : Option Plain :=
  match lookupRow others (argv.getD 0 "") with
  | some (.queued (.plain (.crdt cmd)), arity) =>
      if wrongArity arity argv.length then none else some (.crdt cmd)
  | some (.queued (.plain .other), arity) =>
      if wrongArity arity argv.length then none else some .other
  | _ => none

/-- The flag CMD_WRITE of a queued command. -/
def isWrite (others : Others n) (c : Queued × List String) : Bool :=
  match c.1 with
  | .plain (.crdt _) => true
  | .plain .other => others.isWrite (sdstolower (c.2.getD 0 ""))
  | .plain .unwatch | .eval => false

/-- What the tests of `processCommand` between the lookup and the execution
do about a command they turn down: reply, flag the transaction, or redirect
the client, which flags it or, at EXEC, discards it. -/
inductive Denied
  | reply | flag | redirect
deriving DecidableEq

/-- What the server decides about a command of the client: whether it is
turned down, and at EXEC whether a script is timed out, whether the server
is a read-only replica by now, and what `ACLCheckCommandPerm` answers to
the queued commands (to all others it says yes). -/
structure Verdict where
  denied : Option Denied := none
  luaTimedout : Bool := false
  readOnly : Bool := false
  acl : List Bool := []

-- ============================================================== clients

/-- The fields of `struct client` the commands read: `rargv`, the flags
CLIENT_MULTI, CLIENT_DIRTY_EXEC and CLIENT_DIRTY_CAS, and the queue
`mstate.commands`. -/
structure Client (n : ℕ) where
  rargv : Option (Rargv n)
  multi : Bool
  dirtyExec : Bool
  dirtyCas : Bool
  mstate : List (Queued × List String)

/-- `createClient`. -/
def Client.new : Client n := ⟨none, false, false, false, []⟩

/-- The keys of the server, the client, and `server.lua_client->rargv`. -/
structure Session (n : ℕ) where
  db : Db n
  c : Client n
  lua : Option (Rargv n)

/-- What one run of `call` did. -/
structure Called (n : ℕ) where
  /-- The arguments of a CRDT write whose preparation succeeded, followed
  by those it appended. -/
  own : Option (List (Arg n))
  /-- What its effect phase ran on. -/
  ran : Option (List (Arg n))
  /-- What was broadcast, one message to every client of
  `server.replicas`. -/
  sent : Option (List (Arg n))

namespace Session

/-- A new client of a server that has no keys and ran no scripts. -/
def new : Session n := ⟨fun _ => none, .new, none⟩

/-- `server.lua_client`. -/
def luaClient (s : Session n) : Client n := { (Client.new : Client n) with rargv := s.lua }

/-- `flagTransaction`. -/
def flagTransaction (s : Session n) : Session n :=
  if s.c.multi then { s with c := { s.c with dirtyExec := true } } else s

/-- `discardTransaction`. -/
def discardTransaction (s : Session n) : Session n :=
  { s with c := { s.c with multi := false, dirtyExec := false, dirtyCas := false, mstate := [] } }

/-- `queueMultiCommand`. -/
def queueMultiCommand (p : Queued) (argv : List String) (s : Session n) : Session n :=
  if s.c.dirtyExec then s
  else { s with c := { s.c with mstate := s.c.mstate ++ [(p, argv)] } }

/-- `freeClientArgv`. -/
def freeClientArgv (s : Session n) : Session n :=
  { s with c := { s.c with rargv := none } }

/-- The end of `call` after a procedure that is no CRDT write, or one
that refused: broadcast `rargv`. -/
def broadcast (s : Session n) (r : Option (List (Arg n) × List (Arg n))) : Called n :=
  ⟨r.map Prod.fst, r.map Prod.snd, s.c.rargv.map Rargv.args⟩

section

variable (dbl : String → Option ℤ) (others : Others n) (me : Fin n)

/-- `c->cmd->proc(c)` for a plain procedure: the session after it, and for
a CRDT write that ran its effect phase its own vector and the one it ran
on. -/
def proc (p : Plain) (argv : List String) (s : Session n) :
    Option (Session n × Option (List (Arg n) × List (Arg n))) :=
  match p with
  | .crdt cmd =>
      (cmd.proc.prepare dbl me argv s.db).bind fun q =>
        match q.2 with
        | .error _ => some ({ s with db := q.1 }, none)
        | .ok own =>
            (rargvAddAll argv.length s.c.rargv own).bind fun rargv =>
              (cmd.proc.effect dbl me rargv.args q.1).map fun db =>
                ({ s with db := db, c := { s.c with rargv := some rargv } },
                  some (own, rargv.args))
  | .unwatch => some ({ s with c := { s.c with dirtyCas := false } }, none)
  | .other => some ({ s with db := others.run argv s.db }, none)

/-- `call` for such a procedure. -/
def call (p : Plain) (argv : List String) (s : Session n) :
    Option (Session n × Called n) :=
  (s.proc dbl others me p argv).map fun q => (q.1, q.1.broadcast q.2)

/-- `luaRedisGenericCommand`: `call` on `server.lua_client`. -/
def luaRedisGenericCommand (argv : List String) (denied : Bool) (s : Session n) :
    Option (Session n × List (Called n)) :=
  match denied, scriptCommand others argv with
  | false, some p =>
      (call dbl others me p argv { s with c := s.luaClient }).map fun q =>
        ({ q.1 with c := s.c, lua := q.1.c.rargv }, [q.2])
  | _, _ => some (s, [])

/-- The run of a script. -/
def runScript : Script n → Session n → Option (Session n × List (Called n))
  | .done, s => some (s, [])
  | .call argv denied next, s =>
      (s.luaRedisGenericCommand dbl others me argv denied).bind fun q =>
        (runScript (next q.1.db) q.1).map fun q' => (q'.1, q.2 ++ q'.2)

/-- `evalCommand` and `evalShaCommand`. -/
def evalCommand (argv : List String) (s : Session n) : Option (Session n × List (Called n)) :=
  s.runScript dbl others me (others.script argv s.db)

/-- `call` for a procedure that can be queued, with what the calls it makes
did. -/
def callQueued (p : Queued) (argv : List String) (s : Session n) :
    Option (Session n × List (Called n)) :=
  match p with
  | .plain p => (s.call dbl others me p argv).map fun q => (q.1, [q.2])
  | .eval => (s.evalCommand dbl others me argv).map fun q => (q.1, q.2 ++ [q.1.broadcast none])

/-- The loop of `execCommand`; a command that the access rights forbid by
now is passed over. -/
def execLoop : List (Queued × List String) → List Bool → Session n →
    Option (Session n × List (Called n))
  | [], _, s => some (s, [])
  | (p, argv) :: queue, acl, s =>
      if acl.headD true then
        (s.callQueued dbl others me p argv).bind fun q =>
          (execLoop queue acl.tail q.1).map fun q' => (q'.1, q.2 ++ q'.2)
      else execLoop queue acl.tail s

/-- `execCommand`. -/
def execCommand (v : Verdict) (s : Session n) : Option (Session n × List (Called n)) :=
  if !s.c.multi then some (s, [])
  else if v.luaTimedout then some (s.flagTransaction, [])
  else if s.c.dirtyCas || s.c.dirtyExec then some (s.discardTransaction, [])
  else if v.readOnly && s.c.mstate.any (isWrite others) then some (s.discardTransaction, [])
  else (execLoop dbl others me s.c.mstate v.acl s).map fun q => (q.1.discardTransaction, q.2)

/-- `call` for every procedure. -/
def callRow (row : Row) (argv : List String) (v : Verdict) (s : Session n) :
    Option (Session n × List (Called n)) :=
  match row with
  | .queued p => s.callQueued dbl others me p argv
  | .multi =>
      let s := if s.c.multi then s else { s with c := { s.c with multi := true } }
      some (s, [s.broadcast none])
  | .discard =>
      let s := if s.c.multi then s.discardTransaction else s
      some (s, [s.broadcast none])
  | .watch => some (s, [s.broadcast none])
  | .exec =>
      (s.execCommand dbl others me v).map fun q => (q.1, q.2 ++ [q.1.broadcast none])

/-- What `processCommand` does to the transaction when it turns a command
down. -/
def deny (row : Row) (s : Session n) : Denied → Session n
  | .reply => s
  | .flag => s.flagTransaction
  | .redirect => if row = .exec then s.discardTransaction else s.flagTransaction

/-- `processCommand` and `resetClient`. -/
def processCommand (argv : List String) (v : Verdict) (s : Session n) :
    Option (Session n × List (Called n)) :=
  match lookupRow others (argv.getD 0 "") with
  | none => some (s.flagTransaction.freeClientArgv, [])
  | some (row, arity) =>
      if wrongArity arity argv.length then some (s.flagTransaction.freeClientArgv, [])
      else match v.denied with
        | some d => some ((s.deny row d).freeClientArgv, [])
        | none =>
            match s.c.multi, row with
            | true, .queued p => some ((s.queueMultiCommand p argv).freeClientArgv, [])
            | _, row => (s.callRow dbl others me row argv v).map fun q =>
                (q.1.freeClientArgv, q.2)

end

end Session

/-- What happens at a server while the client is connected: it sends a
vector, something else changes the keys and touches those it watches or
does not, or another client runs a script. -/
inductive Input (n : ℕ)
  | command (argv : List String) (v : Verdict)
  | world (db : Db n) (touched : Bool)
  | script (argv : List String)

namespace Session

variable (dbl : String → Option ℤ) (others : Others n) (me : Fin n)

/-- One input. -/
def input (i : Input n) (s : Session n) : Option (Session n × List (Called n)) :=
  match i with
  | .command argv v => s.processCommand dbl others me argv v
  | .world db touched =>
      some ({ s with db := db, c := { s.c with dirtyCas := s.c.dirtyCas || touched } }, [])
  | .script argv => s.evalCommand dbl others me argv

/-- A sequence of inputs. -/
def inputs : List (Input n) → Session n → Option (Session n × List (Called n))
  | [], s => some (s, [])
  | i :: rest, s =>
      (s.input dbl others me i).bind fun q =>
        (inputs rest q.1).map fun q' => (q'.1, q.2 ++ q'.2)

end Session

end CrdtRedis
