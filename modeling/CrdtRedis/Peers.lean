/-
The clients of a server and the list `server.replicas` that
`replicationBroadcast` writes to (p2p.c, `freeClient` and its queue in
networking.c).

A client enters the list in three places: a connection this server made
(`replicationHandler`), a handshake it received (`replicateCommand`) and a
listening `repltest`. No code takes one out: `unlinkClient` removes a
client from every other list that can mention it, and `freeClient` then
frees the structure. So the list holds live clients as long as no client
is freed that is in it (`replicas_live_iff`), and the next broadcast after
that writes to freed memory (`broadcast_to_freed`).

A client is named by the number of clients created before it, so a freed
one is told apart from a later one that got its memory. What other
commands do to the flags read here, and to the pointers to the master, is
the input `world`; the lists of monitors and of classic replicas are left
out.
-/
import CrdtRedis.Basic
import Mathlib.Data.List.Basic

namespace CrdtRedis

variable {M : Type}

/-- The flags of a client that other commands set: CLIENT_PROTECTED,
CLIENT_MASTER, CLIENT_LUA, and whether one of CLIENT_PROTOCOL_ERROR and
CLIENT_BLOCKED is set. -/
structure PeerFlags where
  isProtected : Bool
  master : Bool
  lua : Bool
  stuck : Bool
deriving DecidableEq

/-- A client: its flags, those p2p.c and the freeing queue set, and the
vectors written to it. -/
structure Peer (M : Type) where
  flags : PeerFlags
  closeAsap : Bool
  replica : Bool
  written : List M
deriving DecidableEq

/-- `createClient`. -/
def Peer.new : Peer M := ⟨⟨false, false, false, false⟩, false, false, []⟩

/-- The part of `struct redisServer` that names clients. -/
structure Peers (M : Type) where
  clients : ℕ → Option (Peer M)
  created : ℕ
  replicas : List ℕ
  clientsToClose : List ℕ
  master : Option ℕ
  cachedMaster : Option ℕ
  clusterEnabled : Bool

/-- What happens at a server. -/
inductive PeerEvent (M : Type)
  | accept
  | replicationHandler
  | repltest (c argc : ℕ)
  | replicate (c : ℕ) (argv : List String)
  | freeClient (c : ℕ)
  | freeClientAsync (c : ℕ)
  | freeClientsInAsyncFreeQueue
  | broadcast (rargv : M)
  | world (flags : ℕ → PeerFlags) (master cachedMaster : Option ℕ)

namespace Peers

/-- `initServer`. -/
def boot (clusterEnabled : Bool) : Peers M := ⟨fun _ => none, 0, [], [], none, none, clusterEnabled⟩

/-- Write to the structure of client `c`; undefined if it was freed. -/
def modify (c : ℕ) (f : Peer M → Peer M) (s : Peers M) : Option (Peers M) :=
  (s.clients c).map fun p => { s with clients := Function.update s.clients c (some (f p)) }

/-- `createClient` for a connection. -/
def createClient (p : Peer M) (s : Peers M) : Peers M :=
  { s with clients := Function.update s.clients s.created (some p), created := s.created + 1 }

/-- `listAddNodeTail(server.replicas, c)`. -/
def addReplica (c : ℕ) (s : Peers M) : Peers M := { s with replicas := s.replicas ++ [c] }

/-- `replicationHandler`. -/
def replicationHandler (s : Peers M) : Peers M :=
  (s.createClient { Peer.new with replica := true }).addReplica s.created

/-- `repltestCommand`. -/
def repltestCommand (c argc : ℕ) (s : Peers M) : Option (Peers M) :=
  if s.clusterEnabled then some s
  else (s.modify c fun p => { p with replica := true }).map fun s =>
    if argc = 1 then s.addReplica c else s

/-- `replicateCommand`. Its other form opens the connections whose
handler is `replicationHandler`. -/
def replicateCommand (c : ℕ) (argv : List String) (s : Peers M) : Option (Peers M) :=
  if s.clusterEnabled then some s
  else if sdstolower (cText (argv.getD 1 "")) = "replica" ∧
      sdstolower (cText (argv.getD 2 "")) = "handshake" then
    (s.modify c fun p => { p with replica := true }).map (addReplica c)
  else some s

/-- `freeClientAsync`. -/
def freeClientAsync (c : ℕ) (s : Peers M) : Option (Peers M) :=
  (s.clients c).bind fun p =>
    if p.closeAsap || p.flags.lua then some s
    else (s.modify c fun p => { p with closeAsap := true }).map fun s =>
      { s with clientsToClose := s.clientsToClose ++ [c] }

/-- `freeClient`; a failed assertion has no outcome. -/
def freeClient (c : ℕ) (s : Peers M) : Option (Peers M) :=
  (s.clients c).bind fun p =>
    if p.flags.isProtected then s.freeClientAsync c
    else if p.closeAsap && decide (c ∉ s.clientsToClose) then none
    else
      let s := if p.closeAsap then { s with clientsToClose := s.clientsToClose.erase c } else s
      if s.master.isSome && p.flags.master && !p.flags.stuck then
        -- `replicationCacheMaster` keeps the structure
        if s.cachedMaster.isSome then none
        else (s.modify c fun p => { p with closeAsap := false }).map fun s =>
          { s with cachedMaster := s.master, master := none }
      else some { s with clients := Function.update s.clients c none }

/-- One round of the loop of `freeClientsInAsyncFreeQueue`. -/
def freeQueued (c : ℕ) (s : Peers M) : Option (Peers M) :=
  (s.clients c).bind fun p =>
    if p.flags.isProtected then some s
    else ((s.modify c fun p => { p with closeAsap := false }).bind (freeClient c)).map fun s =>
      { s with clientsToClose := s.clientsToClose.erase c }

/-- That loop. -/
def freeLoop : List ℕ → Peers M → Option (Peers M)
  | [], s => some s
  | c :: queue, s => (s.freeQueued c).bind (freeLoop queue)

/-- The loop of `replicationBroadcast`. -/
def broadcastLoop (rargv : M) : List ℕ → Peers M → Option (Peers M)
  | [], s => some s
  | c :: replicas, s =>
      (s.modify c fun p => { p with written := p.written ++ [rargv] }).bind
        (broadcastLoop rargv replicas)

/-- `replicationBroadcast`. -/
def replicationBroadcast (rargv : M) (s : Peers M) : Option (Peers M) :=
  broadcastLoop rargv s.replicas s

/-- One event. -/
def step (e : PeerEvent M) (s : Peers M) : Option (Peers M) :=
  match e with
  | .accept => some (s.createClient .new)
  | .replicationHandler => some s.replicationHandler
  | .repltest c argc => s.repltestCommand c argc
  | .replicate c argv => s.replicateCommand c argv
  | .freeClient c => s.freeClient c
  | .freeClientAsync c => s.freeClientAsync c
  | .freeClientsInAsyncFreeQueue => freeLoop s.clientsToClose s
  | .broadcast rargv => s.replicationBroadcast rargv
  | .world flags master cachedMaster =>
      some { s with
        clients := fun c => (s.clients c).map fun p => { p with flags := flags c }
        master := master
        cachedMaster := cachedMaster }

-- =========================================================== liveness

/-- Every entry of `server.replicas` is a client that was not freed. -/
def Live (s : Peers M) : Prop := ∀ c ∈ s.replicas, (s.clients c).isSome

/-- `freeClient` on client `c` frees the structure: it neither puts the
client off, because it is protected, nor caches it as the master. -/
def Frees (c : ℕ) (s : Peers M) : Prop :=
  ∃ p, s.clients c = some p ∧ p.flags.isProtected = false ∧
    ¬ (s.master.isSome ∧ p.flags.master = true ∧ p.flags.stuck = false)

/-- The queue holds a client of `server.replicas` that the loop frees. -/
def LoopFrees : List ℕ → Peers M → Prop
  | [], _ => False
  | c :: queue, s =>
      c ∈ s.replicas ∧ s.Frees c ∨ ∃ s', s.freeQueued c = some s' ∧ LoopFrees queue s'

/-- The event frees a client of `server.replicas`. -/
def FreesReplica (e : PeerEvent M) (s : Peers M) : Prop :=
  match e with
  | .freeClient c => c ∈ s.replicas ∧ s.Frees c
  | .freeClientsInAsyncFreeQueue => LoopFrees s.clientsToClose s
  | _ => False

/-- `P` holds in every state the events lead through. -/
def Throughout (P : Peers M → Prop) : List (PeerEvent M) → Peers M → Prop
  | [], s => P s
  | e :: es, s => P s ∧ ∀ s', s.step e = some s' → Throughout P es s'

/-- No event frees a client of `server.replicas`. -/
def Spares : List (PeerEvent M) → Peers M → Prop
  | [], _ => True
  | e :: es, s => ∀ s', s.step e = some s' → ¬ s.FreesReplica e ∧ Spares es s'

variable {s s' : Peers M} {c : ℕ}

/-- A step that adds no replica, and whose clients are those of before. -/
theorem live_congr (hr : s'.replicas = s.replicas)
    (hc : ∀ a, (s'.clients a).isSome = (s.clients a).isSome) : s'.Live ↔ s.Live := by
  unfold Live
  simp only [hr, hc]

/-- Writing to a client keeps who lives. -/
theorem modify_spec {f : Peer M → Peer M} (h : s.modify c f = some s') :
    s'.replicas = s.replicas ∧ s'.clientsToClose = s.clientsToClose ∧ s'.master = s.master ∧
      (s.clients c).isSome ∧ (∀ a, (s'.clients a).isSome = (s.clients a).isSome) ∧
      ∀ a, (s'.clients a) = if a = c then (s.clients c).map f else s.clients a := by
  obtain ⟨p, hp, rfl⟩ := Option.map_eq_some_iff.mp h
  have hat : ∀ a, Function.update s.clients c (some (f p)) a
      = if a = c then (s.clients c).map f else s.clients a := by
    intro a
    rw [Function.update_apply, hp]
    rfl
  refine ⟨rfl, rfl, rfl, by rw [hp]; rfl, fun a => ?_, hat⟩
  show (Function.update s.clients c (some (f p)) a).isSome = _
  rw [hat]
  split
  · next ha => rw [ha, Option.isSome_map]
  · rfl

theorem freeClientAsync_spec (h : s.freeClientAsync c = some s') :
    s'.replicas = s.replicas ∧ ∀ a, (s'.clients a).isSome = (s.clients a).isSome := by
  obtain ⟨p, -, h⟩ := Option.bind_eq_some_iff.mp h
  split at h
  · cases h
    exact ⟨rfl, fun _ => rfl⟩
  · obtain ⟨s₁, hm, rfl⟩ := Option.map_eq_some_iff.mp h
    obtain ⟨hr, -, -, -, hlive, -⟩ := modify_spec hm
    exact ⟨hr, hlive⟩

/-- Who is left after `freeClient`. -/
theorem freeClient_spec (h : s.freeClient c = some s') :
    s'.replicas = s.replicas ∧
      ∀ a, (s'.clients a).isSome ↔ (s.clients a).isSome ∧ ¬ (a = c ∧ s.Frees c) := by
  obtain ⟨p, hp, h⟩ := Option.bind_eq_some_iff.mp h
  have hkeeps : ¬ s.Frees c → (∀ a, (s'.clients a).isSome = (s.clients a).isSome) →
      ∀ a, (s'.clients a).isSome ↔ (s.clients a).isSome ∧ ¬ (a = c ∧ s.Frees c) := by
    intro hnot hlive a
    rw [hlive, and_iff_left fun hcon => hnot hcon.2]
  split at h
  · next hprot =>
      obtain ⟨hr, hlive⟩ := freeClientAsync_spec h
      refine ⟨hr, hkeeps (fun ⟨p', hp', hno, _⟩ => ?_) hlive⟩
      rw [hp] at hp'
      rw [← Option.some.inj hp', hprot] at hno
      cases hno
  · next hprot =>
      split at h
      · cases h
      · -- taking the client off the queue changes neither list
        generalize hs₁ : (if p.closeAsap then
          { s with clientsToClose := s.clientsToClose.erase c } else s) = s₁ at h
        have hsame : s₁.replicas = s.replicas ∧ s₁.clients = s.clients ∧
            s₁.master = s.master := by
          rw [← hs₁]
          split <;> exact ⟨rfl, rfl, rfl⟩
        obtain ⟨hr, hc, hmaster⟩ := hsame
        dsimp only at h
        split at h
        · next hcache =>
            split at h
            · cases h
            · obtain ⟨s₂, hm, rfl⟩ := Option.map_eq_some_iff.mp h
              obtain ⟨hr₂, -, -, -, hlive, -⟩ := modify_spec hm
              refine ⟨hr₂.trans hr, hkeeps (fun ⟨p', hp', _, hno⟩ => hno ?_) fun a => ?_⟩
              · rw [hp] at hp'
                rw [← Option.some.inj hp', ← hmaster]
                simpa [and_assoc] using hcache
              · rw [← hc]
                exact hlive a
        · next hcache =>
            cases h
            refine ⟨hr, fun a => ?_⟩
            have hfrees : s.Frees c := by
              refine ⟨p, hp, by simpa using hprot, fun hcon => hcache ?_⟩
              rw [hmaster]
              simpa [and_assoc] using hcon
            by_cases ha : a = c
            · subst ha
              simp [hfrees]
            · simp [ha, hc]

/-- A step that loses client `c`, if it loses one. -/
theorem live_iff_of_frees (hs : s.Live) (hr : s'.replicas = s.replicas)
    (hc : ∀ a, (s'.clients a).isSome ↔ (s.clients a).isSome ∧ ¬ (a = c ∧ s.Frees c)) :
    s'.Live ↔ ¬ (c ∈ s.replicas ∧ s.Frees c) := by
  constructor
  · intro hlive hcon
    exact ((hc c).mp (hlive c (hr ▸ hcon.1))).2 ⟨rfl, hcon.2⟩
  · intro hnot a ha
    rw [hr] at ha
    refine (hc a).mpr ⟨hs a ha, ?_⟩
    intro hcon
    obtain ⟨rfl, hfrees⟩ := hcon
    exact hnot ⟨ha, hfrees⟩

/-- Who is left after one round of the freeing loop. -/
theorem freeQueued_spec (h : s.freeQueued c = some s') :
    s'.replicas = s.replicas ∧
      ∀ a, (s'.clients a).isSome ↔ (s.clients a).isSome ∧ ¬ (a = c ∧ s.Frees c) := by
  obtain ⟨p, hp, h⟩ := Option.bind_eq_some_iff.mp h
  split at h
  · next hprot =>
      cases h
      refine ⟨rfl, fun a => (and_iff_left fun hcon => ?_).symm⟩
      obtain ⟨-, p', hp', hno, -⟩ := hcon
      rw [hp] at hp'
      rw [← Option.some.inj hp', hprot] at hno
      cases hno
  · obtain ⟨s₂, hbind, rfl⟩ := Option.map_eq_some_iff.mp h
    obtain ⟨s₁, hm, hfree⟩ := Option.bind_eq_some_iff.mp hbind
    obtain ⟨hr, -, hmaster, -, hlive, hat⟩ := modify_spec hm
    obtain ⟨hr₂, hc⟩ := freeClient_spec hfree
    have hfrees : s₁.Frees c ↔ s.Frees c := by
      unfold Frees
      rw [hat, if_pos rfl, hp, hmaster]
      simp
    refine ⟨hr₂.trans hr, fun a => ?_⟩
    rw [hc, hlive, hfrees]

/-- A client that is gone stays gone. -/
theorem freeLoop_live {queue : List ℕ} (h : freeLoop queue s = some s') (hs : s'.Live) :
    s.Live := by
  induction queue generalizing s with
  | nil =>
      cases h
      exact hs
  | cons c queue ih =>
      obtain ⟨s₁, hq, h⟩ := Option.bind_eq_some_iff.mp h
      obtain ⟨hr, hc⟩ := freeQueued_spec hq
      exact fun a ha => ((hc a).mp (ih h a (hr ▸ ha))).1

theorem freeLoop_live_iff {queue : List ℕ} (hs : s.Live) (h : freeLoop queue s = some s') :
    s'.Live ↔ ¬ LoopFrees queue s := by
  induction queue generalizing s with
  | nil =>
      cases h
      exact iff_of_true hs id
  | cons c queue ih =>
      obtain ⟨s₁, hq, h⟩ := Option.bind_eq_some_iff.mp h
      obtain ⟨hr, hc⟩ := freeQueued_spec hq
      have hiff := live_iff_of_frees hs hr hc
      have hrest : (∃ s'', s.freeQueued c = some s'' ∧ LoopFrees queue s'') ↔
          LoopFrees queue s₁ := by
        rw [hq]
        simp
      rw [LoopFrees, not_or, ← hiff, hrest]
      constructor
      · intro hlive
        have hs₁ := freeLoop_live h hlive
        exact ⟨hs₁, (ih hs₁ h).mp hlive⟩
      · intro hand
        exact (ih hand.1 h).mpr hand.2

theorem broadcastLoop_spec {rargv : M} {replicas : List ℕ}
    (h : broadcastLoop rargv replicas s = some s') :
    s'.replicas = s.replicas ∧ ∀ a, (s'.clients a).isSome = (s.clients a).isSome := by
  induction replicas generalizing s with
  | nil =>
      cases h
      exact ⟨rfl, fun _ => rfl⟩
  | cons c replicas ih =>
      obtain ⟨s₁, hm, h⟩ := Option.bind_eq_some_iff.mp h
      obtain ⟨hr, -, -, -, hlive, -⟩ := modify_spec hm
      obtain ⟨hr', hlive'⟩ := ih h
      exact ⟨hr'.trans hr, fun a => (hlive' a).trans (hlive a)⟩

/-- A broadcast has an outcome where it writes to live clients. -/
theorem broadcastLoop_isSome_iff (rargv : M) (replicas : List ℕ) (s : Peers M) :
    (broadcastLoop rargv replicas s).isSome ↔ ∀ c ∈ replicas, (s.clients c).isSome := by
  induction replicas generalizing s with
  | nil => simp [broadcastLoop]
  | cons c replicas ih =>
      rw [broadcastLoop, List.forall_mem_cons]
      cases hm : s.modify c (fun p => { p with written := p.written ++ [rargv] }) with
      | none =>
          refine iff_of_false (by simp) fun hcon => ?_
          rw [modify, Option.map_eq_none_iff] at hm
          rw [hm] at hcon
          cases hcon.1
      | some s₁ =>
          obtain ⟨-, -, -, hsome, hlive, -⟩ := modify_spec hm
          rw [Option.bind_some, ih, and_iff_right hsome]
          simp only [hlive]

/-- A client that enters the list is there. -/
theorem addReplica_live (hs : s.Live) (hc : (s.clients c).isSome) : (s.addReplica c).Live := by
  intro a ha
  rcases List.mem_append.mp ha with ha | ha
  · exact hs a ha
  · obtain rfl := List.mem_singleton.mp ha
    exact hc

theorem createClient_live (hs : s.Live) (p : Peer M) : (s.createClient p).Live := by
  intro a ha
  by_cases hnew : a = s.created
  · simp [createClient, hnew]
  · simpa [createClient, hnew] using hs a ha

/-- Which steps keep the list live. -/
theorem step_live_iff {e : PeerEvent M} (hs : s.Live) (h : s.step e = some s') :
    s'.Live ↔ ¬ s.FreesReplica e := by
  -- a write to a client that then may enter the list
  have hwrite : ∀ {c f s₁}, s.modify c f = some s₁ → s₁.Live ∧ (s₁.clients c).isSome := by
    intro c f s₁ hm
    obtain ⟨hr, -, -, hsome, hlive, -⟩ := modify_spec hm
    exact ⟨(live_congr hr hlive).mpr hs, (hlive c).trans hsome⟩
  cases e with
  | accept =>
      cases h
      exact iff_of_true (createClient_live hs _) id
  | replicationHandler =>
      cases h
      refine iff_of_true (addReplica_live (createClient_live hs _) ?_) id
      simp [createClient]
  | repltest c argc =>
      refine iff_of_true ?_ id
      simp only [step, repltestCommand] at h
      split at h
      · cases h
        exact hs
      · obtain ⟨s₁, hm, rfl⟩ := Option.map_eq_some_iff.mp h
        obtain ⟨hlive, hc⟩ := hwrite hm
        split
        · exact addReplica_live hlive hc
        · exact hlive
  | replicate c argv =>
      refine iff_of_true ?_ id
      simp only [step, replicateCommand] at h
      split at h
      · cases h
        exact hs
      · split at h
        · obtain ⟨s₁, hm, rfl⟩ := Option.map_eq_some_iff.mp h
          obtain ⟨hlive, hc⟩ := hwrite hm
          exact addReplica_live hlive hc
        · cases h
          exact hs
  | freeClient c =>
      obtain ⟨hr, hc⟩ := freeClient_spec h
      exact live_iff_of_frees hs hr hc
  | freeClientAsync c =>
      obtain ⟨hr, hc⟩ := freeClientAsync_spec h
      exact iff_of_true ((live_congr hr hc).mpr hs) id
  | freeClientsInAsyncFreeQueue => exact freeLoop_live_iff hs h
  | broadcast rargv =>
      obtain ⟨hr, hc⟩ := broadcastLoop_spec h
      exact iff_of_true ((live_congr hr hc).mpr hs) id
  | world flags master cachedMaster =>
      cases h
      exact iff_of_true (fun a ha => Option.isSome_map.trans (hs a ha)) id

theorem throughout_live_iff {es : List (PeerEvent M)} (hs : s.Live) :
    Throughout Live es s ↔ Spares es s := by
  induction es generalizing s with
  | nil => exact iff_of_true hs trivial
  | cons e es ih =>
      rw [Throughout, and_iff_right hs]
      refine forall₂_congr fun s' hstep => ?_
      have hiff := step_live_iff hs hstep
      constructor
      · intro hall
        have hs' : s'.Live := by
          cases es with
          | nil => exact hall
          | cons => exact hall.1
        exact ⟨hiff.mp hs', (ih hs').mp hall⟩
      · intro hall
        exact (ih (hiff.mpr hall.1)).mpr hall.2

end Peers

/-- Whatever happens at a server, a broadcast has an outcome exactly where
every entry of `server.replicas` is live, and every entry is live in every
state reached exactly if no event frees a client that is in the list. -/
theorem replicas_live_iff (clusterEnabled : Bool) (es : List (PeerEvent M)) :
    (∀ (rargv : M) (s : Peers M), (s.replicationBroadcast rargv).isSome ↔ s.Live) ∧
      (Peers.Throughout Peers.Live es (Peers.boot clusterEnabled) ↔
        Peers.Spares es (Peers.boot clusterEnabled)) :=
  ⟨fun rargv s => Peers.broadcastLoop_isSome_iff rargv s.replicas s,
    Peers.throughout_live_iff fun _ hc => nomatch hc⟩

/-- A peer sends its handshake and drops; the next broadcast writes to the
client that was freed. -/
theorem broadcast_to_freed :
    ∃ s : Peers (List String),
      [PeerEvent.accept, .replicate 0 ["replicate", "replica", "handshake"],
        .broadcast ["ozadd", "z", "a", "1"], .freeClient 0].foldlM
        (fun s e => Peers.step e s) (Peers.boot false) = some s ∧
      s.replicas = [0] ∧ s.clients 0 = none ∧
      s.step (.broadcast ["ozadd", "z", "b", "1"]) = none :=
  ⟨_, rfl, rfl, rfl, rfl⟩

end CrdtRedis
