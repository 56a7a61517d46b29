/-
Servers that replicate to each other over byte streams: p2p.c, the reading
and writing of networking.c, the vectors of `rargv` as strings.

# A run

A server that is told to opens a connection (`replicationHandler`): its
first output is a handshake, and the new client enters `server.replicas`
at once. At the other end the connection is an ordinary client until the
handshake is executed (`replicateCommand`); from then on it is a replica
there, too. Every server accepts commands of clients all the time, writes
their vectors to its replicas, and the event loop sends what is pending
and reads what arrives, in pieces of any size.

`link r q` is one direction of the connection between two servers: the
output buffers of the client for `q` at `r`, the bytes under way, and the
query buffer of the client for `r` at `q`.

# What is left out

Every server knows the number of servers and its own from the beginning;
two servers have one connection, as construct_replication.sh makes them,
and it does not break. A client's vector is one CRDT write (transactions
are the subject of `Client.lean`); numbers are those of an `int` and
strings no longer than the reader takes (`InLimits`). No server refuses
commands for reasons of its own (memory, persistence, access rights).
-/
import CrdtRedis.Codec
import CrdtRedis.OutputStream
import CrdtRedis.QueryReader
import CrdtRedis.Replication.Mesh
import Mathlib.Data.Fintype.Basic

namespace CrdtRedis

variable {n : ℕ}

/-- One direction of a connection: the output of the client at the one
end, the bytes under way, the input of the client at the other. -/
structure Link where
  out : Output
  wire : Sds
  inp : Query

/-- A connection nobody wrote to. -/
def Link.new : Link := ⟨.createClient, [], .createClient⟩

/-- The servers: keys, `server.replicas` with each client named by the
server at its other end, and the connections with who opened them. -/
structure Cluster (n : ℕ) where
  db : Fin n → Db n
  replicas : Fin n → List (Fin n)
  connected : Fin n → Fin n → Bool
  link : Fin n → Fin n → Link

/-- `shared.replhandshake`. -/
def replhandshake : Sds :=
  "*3\r\n$9\r\nREPLICATE\r\n$7\r\nreplica\r\n$9\r\nhandshake\r\n".toList

/-- `replicationHandler`, on the new client: the handshake is added before
the flag is set. -/
def Output.replicationHandler (A : Alloc) : Output :=
  { Output.createClient.addReplyProto A replhandshake with replica := true }

namespace Cluster

/-- Servers without keys or connections. -/
def start : Cluster n := ⟨fun _ _ => none, fun _ => [], fun _ _ => false, fun _ _ => .new⟩

def setDb (c : Cluster n) (r : Fin n) (db : Db n) : Cluster n :=
  { c with db := Function.update c.db r db }

def setLink (c : Cluster n) (r q : Fin n) (l : Link) : Cluster n :=
  { c with link := Function.update c.link r (Function.update (c.link r) q l) }

/-- `listAddNodeTail(server.replicas, c)` at server `r`. -/
def addReplica (c : Cluster n) (r q : Fin n) : Cluster n :=
  { c with replicas := Function.update c.replicas r (c.replicas r ++ [q]) }

/-- Server `r` opened a connection to `q`, which accepted it. -/
def connect (A : Alloc) (r q : Fin n) (c : Cluster n) : Cluster n :=
  let c := c.setLink q r .new
  let c := (c.setLink r q { Link.new with out := .replicationHandler A }).addReplica r q
  { c with connected := Function.update c.connected r (Function.update (c.connected r) q true) }

/-- `replicationBroadcast` at server `r`. -/
def replicationBroadcast (A : Alloc) (r : Fin n) (texts : List Sds) (c : Cluster n) : Cluster n :=
  (c.replicas r).foldl (fun c q =>
    c.setLink r q { c.link r q with out := (c.link r q).out.broadcastTo A texts }) c

/-- The handshake branch of `replicateCommand`, at the client of server
`q` for `r`. -/
def replicateCommand (r q : Fin n) (c : Cluster n) : Cluster n :=
  (c.setLink q r { c.link q r with
    out := { (c.link q r).out with replica := true } }).addReplica q r

/-- `processCommand` on a vector that the client of server `q` for `r`
sent: a handshake, or a vector of a replica, which is applied and gets no
reply. Other vectors are outside this model. -/
def processCommand (dbl : String → Option ℤ) (r q : Fin n) (argv : List Sds) (c : Cluster n) :
    Option (Cluster n) :=
  let word := fun i => String.ofList (argv.getD i [])
  if sdstolower (word 0) = "replicate" then
    if 3 ≤ argv.length ∧ sdstolower (cText (word 1)) = "replica" ∧
        sdstolower (cText (word 2)) = "handshake" then
      some (c.replicateCommand r q)
    else none
  else (cmdOfText argv).bind fun cmd =>
    if cmd.arity ≤ argv.length ∧ (c.link q r).out.replica = true then
      (applyVector dbl q argv (c.db q)).map (c.setDb q)
    else none

/-- The vectors of one read, in order. -/
def processCommands (dbl : String → Option ℤ) (r q : Fin n) :
    List (List Sds) → Cluster n → Option (Cluster n)
  | [], c => some c
  | argv :: vs, c => (c.processCommand dbl r q argv).bind (processCommands dbl r q vs)

end Cluster

/-- A vector within what the reader takes. -/
def Limits.InLimits (conf : Limits) (texts : List Sds) : Prop :=
  texts.length ≤ 1024 * 1024 ∧ ∀ s ∈ texts, s.length ≤ conf.protoMaxBulkLen

/-- The event loop comes to a client with pending output, and its
connection does not fail. -/
def OutputEvent.Writes : OutputEvent → Prop
  | .pendingWrites _ ws installs => .error ∉ ws ∧ installs = true
  | .writable _ ws => .error ∉ ws
  | _ => False

/-- One step of the servers. Clients submit the commands `allowed`; where
`full` is demanded they do so only at servers that have all others among
their replicas. -/
inductive ClusterStep (conf : Limits) (A : Alloc) (dbl : String → Option ℤ)
    (allowed : List String → Prop) (full : Prop) : Cluster n → Cluster n → Prop
  /-- A command is refused. -/
  | reject {c : Cluster n} {db : Db n} {reply : Reply} (r : Fin n) (argv : List String)
      (hc : allowed argv) (hp : prepareCommand dbl r argv (c.db r) = some (db, .error reply)) :
      ClusterStep conf A dbl allowed full c (c.setDb r db)
  /-- A command is accepted: prepared, applied and broadcast. -/
  | issue {c : Cluster n} {db db' : Db n} {rargv : List (Arg n)} {texts : List Sds}
      (r : Fin n) (argv : List String) (hc : allowed argv)
      (hp : prepareCommand dbl r argv (c.db r) = some (db, .ok rargv))
      (ht : vectorText rargv = some texts) (hsend : ∀ a ∈ rargv, a.Sendable)
      (hlimits : conf.InLimits texts) (he : applyVector dbl r texts db = some db')
      (hfull : full → ∀ q, q ≠ r → q ∈ c.replicas r) :
      ClusterStep conf A dbl allowed full c ((c.setDb r db').replicationBroadcast A r texts)
  /-- A connection is made. -/
  | connect {c : Cluster n} (r q : Fin n) (hne : r ≠ q) (hrq : c.connected r q = false)
      (hqr : c.connected q r = false) : ClusterStep conf A dbl allowed full c (c.connect A r q)
  /-- A connection takes some of the pending bytes. -/
  | write {c : Cluster n} {out : Output} {w : Sds} (r q : Fin n) (e : OutputEvent)
      (he : e.Writes) (hw : (c.link r q).out.step A e = some (out, w)) :
      ClusterStep conf A dbl allowed full c
        (c.setLink r q { c.link r q with out := out, wire := (c.link r q).wire ++ w })
  /-- Some of the bytes under way are read, and the vectors they complete
  are processed. -/
  | read {c c' : Cluster n} {s rest : Sds} {inp : Query} {vs : List (List Sds)} (r q : Fin n)
      (hs : (c.link r q).wire = s ++ rest) (hne : s ≠ [])
      (hlen : s.length ≤ (c.link r q).inp.readlen)
      (hread : (c.link r q).inp.readQueryFromClient conf (.bytes s) = some (inp, vs))
      (hexec : (c.setLink r q { c.link r q with wire := rest, inp := inp }).processCommands
        dbl r q vs = some c') : ClusterStep conf A dbl allowed full c c'

/-- The clusters some run reaches. -/
inductive ClusterReachable (conf : Limits) (A : Alloc) (dbl : String → Option ℤ)
    (allowed : List String → Prop) (full : Prop) : Cluster n → Prop
  | start : ClusterReachable conf A dbl allowed full .start
  | step {c c' : Cluster n} : ClusterReachable conf A dbl allowed full c →
      ClusterStep conf A dbl allowed full c c' → ClusterReachable conf A dbl allowed full c'

-- ======================================================= scheduled runs

instance (conf : Limits) (texts : List Sds) : Decidable (conf.InLimits texts) :=
  inferInstanceAs (Decidable (_ ∧ _))

instance : (e : OutputEvent) → Decidable e.Writes
  | .pendingWrites _ ws installs => inferInstanceAs (Decidable (.error ∉ ws ∧ installs = true))
  | .writable _ ws => inferInstanceAs (Decidable (.error ∉ ws))
  | .reply _ | .broadcast _ | .becomeReplica | .close => isFalse id

/-- A scheduled step: a client's command, a connection, an event of the
output, or a read of at most `k` bytes. -/
inductive ClusterAct (n : ℕ)
  | submit (r : Fin n) (argv : List String)
  | connect (r q : Fin n)
  | write (r q : Fin n) (e : OutputEvent)
  | read (r q : Fin n) (k : ℕ)

namespace Cluster

variable (conf : Limits) (A : Alloc) (dbl : String → Option ℤ)

/-- Run one scheduled step; a command is accepted where all other servers
are replicas. -/
def exec (act : ClusterAct n) (c : Cluster n) : Option (Cluster n) :=
  match act with
  | .submit r argv =>
      match prepareCommand dbl r argv (c.db r) with
      | none => none
      | some (db, .error _) => some (c.setDb r db)
      | some (db, .ok rargv) =>
          (vectorText rargv).bind fun texts =>
            if (∀ a ∈ rargv, a.Sendable) ∧ conf.InLimits texts ∧
                ∀ q, q ≠ r → (c.replicas r).contains q then
              (applyVector dbl r texts db).map fun db =>
                (c.setDb r db).replicationBroadcast A r texts
            else none
  | .connect r q =>
      if r ≠ q ∧ c.connected r q = false ∧ c.connected q r = false then some (c.connect A r q)
      else none
  | .write r q e =>
      if e.Writes then
        ((c.link r q).out.step A e).map fun p =>
          c.setLink r q { c.link r q with out := p.1, wire := (c.link r q).wire ++ p.2 }
      else none
  | .read r q k =>
      let s := (c.link r q).wire.take k
      if s ≠ [] ∧ s.length ≤ (c.link r q).inp.readlen then
        ((c.link r q).inp.readQueryFromClient conf (.bytes s)).bind fun p =>
          (c.setLink r q { c.link r q with
            wire := (c.link r q).wire.drop k, inp := p.1 }).processCommands dbl r q p.2
      else none

/-- Run a schedule. -/
def run : List (ClusterAct n) → Cluster n → Option (Cluster n)
  | [], c => some c
  | act :: acts, c => (c.exec conf A dbl act).bind (run acts)

end Cluster

/-- The commands a schedule submits are all among `allowed`. -/
def ClusterAct.Submits (allowed : List String → Prop) : ClusterAct n → Prop
  | .submit _ argv => allowed argv
  | _ => True

instance {allowed : List String → Prop} [DecidablePred allowed] :
    (act : ClusterAct n) → Decidable (act.Submits allowed)
  | .submit _ argv => inferInstanceAs (Decidable (allowed argv))
  | .connect _ _ | .write _ _ _ | .read _ _ _ => isTrue trivial

section

variable {conf : Limits} {A : Alloc} {dbl : String → Option ℤ} {allowed : List String → Prop}
  {c c' : Cluster n}

/-- A scheduled step is a step. -/
theorem Cluster.exec_step {act : ClusterAct n} (ha : act.Submits allowed)
    (hex : c.exec conf A dbl act = some c') : ClusterStep conf A dbl allowed True c c' := by
  cases act with
  | submit r argv =>
      simp only [exec] at hex
      split at hex
      · cases hex
      · next db reply hp =>
          obtain rfl := Option.some.inj hex
          exact .reject r argv ha hp
      · next db rargv hp =>
          obtain ⟨texts, ht, hex⟩ := Option.bind_eq_some_iff.mp hex
          split at hex
          · next hok =>
              obtain ⟨db', he, rfl⟩ := Option.map_eq_some_iff.mp hex
              exact .issue r argv ha hp ht hok.1 hok.2.1 he fun _ q hq =>
                List.contains_iff_mem.mp (hok.2.2 q hq)
          · cases hex
  | connect r q =>
      simp only [exec] at hex
      split at hex
      · next hok =>
          obtain rfl := Option.some.inj hex
          exact .connect r q hok.1 hok.2.1 hok.2.2
      · cases hex
  | write r q e =>
      simp only [exec] at hex
      split at hex
      · next he =>
          obtain ⟨p, hw, rfl⟩ := Option.map_eq_some_iff.mp hex
          exact .write r q e he hw
      · cases hex
  | read r q k =>
      simp only [exec] at hex
      split at hex
      · next hok =>
          obtain ⟨p, hread, hexec⟩ := Option.bind_eq_some_iff.mp hex
          exact .read r q (List.take_append_drop k _).symm hok.1 hok.2 hread hexec
      · cases hex

/-- A schedule that runs through reaches its last cluster. -/
theorem Cluster.run_reachable {acts : List (ClusterAct n)}
    (hc : ClusterReachable conf A dbl allowed True c)
    (hacts : ∀ act ∈ acts, act.Submits allowed) (hrun : c.run conf A dbl acts = some c') :
    ClusterReachable conf A dbl allowed True c' := by
  induction acts generalizing c with
  | nil => exact Option.some.inj hrun ▸ hc
  | cons act acts ih =>
      obtain ⟨c₁, hex, hrun⟩ := Option.bind_eq_some_iff.mp hrun
      exact ih (hc.step (exec_step (hacts act List.mem_cons_self) hex))
        (fun a ha => hacts a (List.mem_cons_of_mem act ha)) hrun

end

end CrdtRedis
