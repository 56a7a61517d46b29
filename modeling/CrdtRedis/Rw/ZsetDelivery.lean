/-
The remove-wins priority queue delivers in causal order: an element of it
is an instance of the causal delivery of the replication library, with the
element's own clock and buffer.

`Rze.applies` is what one effect phase applies, in order, and `Rze.run` an
element after a sequence of arrivals together with everything applied so
far. The record without its buffer, and the entry in the sorted set, are
what applying those operations in that order makes of a new element
(`rz_core`).
-/
import CrdtRedis.Element
import CrdtRedis.Replication.CausalDelivery

namespace CrdtRedis

open Replication

variable {n : ℕ}

-- ============================================= the element by itself

/-- What a client asks of an element. -/
inductive RzReq
  | add (v : ℤ)
  | incrby (v : ℤ)
  | rem

/-- The command a request makes of a timestamp. -/
def RzReq.cmd : RzReq → Vc n → RzCmd n
  | add v, t => ⟨.rzadd, v, t⟩
  | incrby v, t => ⟨.rzincby, v, t⟩
  | rem, t => ⟨.rzrem, 0, t⟩

/-- Whether the preconditions let the request through. -/
def RzReq.admits : RzReq → Rze n → Bool
  | add _, e => !e.lookup
  | incrby _, e => e.lookup
  | rem, e => e.lookup

/-- The preconditions, and what passes them. -/
def rzIssue (c : RzReq) (e : Rze n) : Option (Rze n × RzCmd n) :=
  if c.admits e then some (e, c.cmd (vcNow e.current)) else none

/-- All a request can issue. -/
theorem rzIssue_eq {c : RzReq} {e e' : Rze n} {o : RzCmd n}
    (h : rzIssue c e = some (e', o)) :
    e' = e ∧ o = c.cmd (vcNow e.current) ∧ c.admits e = true := by
  unfold rzIssue at h
  split at h
  · next hadm =>
      obtain ⟨rfl, rfl⟩ := Prod.mk.inj (Option.some.inj h)
      exact ⟨rfl, rfl, hadm⟩
  · cases h

@[simp] theorem RzReq.cmd_t (c : RzReq) (t : Vc n) : (c.cmd t).t = t := by
  cases c <;> rfl

/-- The operation a broadcast stands for. -/
def RzCmd.decode (dbl : String → Option ℤ) (c : Cmd) (rargv : List (Arg n)) :
    Option (RzCmd n) :=
  match c with
  | .rzadd =>
      ((strAt 3 rargv).bind dbl).bind fun v => (vcAt 4 rargv).map fun t => ⟨.rzadd, v, t⟩
  | .rzincrby =>
      ((strAt 3 rargv).bind dbl).bind fun v => (vcAt 4 rargv).map fun t => ⟨.rzincby, v, t⟩
  | .rzrem => (vcAt 3 rargv).map fun t => ⟨.rzrem, 0, t⟩
  | _ => none

/-- The commands on remove-wins priority queues. -/
def rzCommand : Cmd → Option (ElemCommand n (Rze n))
  | .rzadd => some rzaddCommand
  | .rzincrby => some rzincrbyCommand
  | .rzrem => some rzremCommand
  | _ => none

/-- The remove-wins priority queue as a family of commands. -/
def rzType : ElemType n (Rze n) RzReq (RzCmd n) where
  table := rzeTable
  command := rzCommand
  issue := fun _ => rzIssue
  decode := RzCmd.decode
  act := Rze.receive
  proc_eq := by
    intro c ec h
    cases c <;> cases h <;> rfl
  arity_ge := by
    intro c ec h
    cases c <;> cases h <;> decide
  effect_eq := by
    intro c ec dbl rargv h
    cases c <;> cases h
    · cases hv : (strAt 3 rargv).bind dbl <;> cases ht : vcAt 4 rargv <;>
        simp [rzaddCommand, RzCmd.decode, hv, ht]
    · cases hv : (strAt 3 rargv).bind dbl <;> cases ht : vcAt 4 rargv <;>
        simp [rzincrbyCommand, RzCmd.decode, hv, ht]
    · cases ht : vcAt 3 rargv <;> simp [rzremCommand, RzCmd.decode, ht]
  absent := by
    intro c ec me h hcreate
    cases c <;> cases h
    · cases hcreate
    · exact ⟨_, rfl⟩
    · exact ⟨_, rfl⟩
  accepts := by
    intro c ec dbl me argv e e' args h harity hmax hcheck hprep
    cases c <;> cases h
    · obtain ⟨v, hv⟩ := strAt_bind_dbl (n := n) harity hcheck
      have hlen : (argv.map (Arg.str (n := n))).length = 4 := by
        rw [List.length_map]
        exact le_antisymm hmax harity
      simp only [rzaddCommand, Option.getD_some] at hprep
      split at hprep
      · cases hprep
      · next hex =>
          simp only [Except.ok.injEq, Prod.mk.injEq] at hprep
          obtain ⟨rfl, rfl⟩ := hprep
          refine ⟨.add v, RzReq.cmd (.add v) (vcNow e.current),
            by simp [rzIssue, RzReq.admits, hex], ?_⟩
          simp only [RzCmd.decode, hv, Option.bind_some, vcAt_append hlen, Option.map_some]
          rfl
    · obtain ⟨v, hv⟩ := strAt_bind_dbl (n := n) harity hcheck
      have hlen : (argv.map (Arg.str (n := n))).length = 4 := by
        rw [List.length_map]
        exact le_antisymm hmax harity
      simp only [rzincrbyCommand, Rze.nonAddPrepare] at hprep
      split at hprep
      · next hex =>
          simp only [Except.ok.injEq, Prod.mk.injEq] at hprep
          obtain ⟨rfl, rfl⟩ := hprep
          refine ⟨.incrby v, RzReq.cmd (.incrby v) (vcNow e.current),
            by simp [rzIssue, RzReq.admits, hex], ?_⟩
          simp only [RzCmd.decode, hv, Option.bind_some, vcAt_append hlen, Option.map_some]
          rfl
      · cases hprep
    · have hlen : (argv.map (Arg.str (n := n))).length = 3 := by
        rw [List.length_map]
        exact le_antisymm hmax harity
      simp only [rzremCommand, Rze.nonAddPrepare] at hprep
      split at hprep
      · next hex =>
          simp only [Except.ok.injEq, Prod.mk.injEq] at hprep
          obtain ⟨rfl, rfl⟩ := hprep
          refine ⟨.rem, RzReq.cmd .rem (vcNow e.current), by simp [rzIssue, RzReq.admits, hex], ?_⟩
          simp only [RzCmd.decode, vcAt_append hlen, Option.map_some]
          rfl
      · cases hprep

-- ======================================================== delivery

namespace RzCmd

/-- The vector of a command. -/
def stamp (cmd : RzCmd n) : Fin n → ℤ := cmd.t.vector

/-- The server that issued it. -/
def src (cmd : RzCmd n) : Fin n := cmd.t.id

end RzCmd

namespace Rze

variable {e : Rze n} {cmd : RzCmd n}

/-- The commands the effect phase of `cmd` applies, in order. -/
def applies (cmd : RzCmd n) (e : Rze n) : List (RzCmd n) :=
  if vcCausallyReady e.current cmd.t then
    cmd :: notified (fun (p : Rze n × List ZCall) c => vcCausallyReady p.1.current c.t)
      stepCmd (e.applyCmd cmd) e.ops
  else []

/-- An element after a sequence of arrivals, and the commands applied on
the way, in order. -/
def run (me : Fin n) (arrivals : List (RzCmd n)) : Rze n × List (RzCmd n) :=
  arrivals.foldl (fun p cmd => ((p.1.receive cmd).1, p.2 ++ p.1.applies cmd)) (new me, [])

/-- What causal delivery sees of an element. -/
def site (e : Rze n) : Site n (RzCmd n) := ⟨e.current.vector, e.ops⟩

/-- Applying a command to an element and its entry in the sorted set. -/
def step (s : Rze n × Option Score) (cmd : RzCmd n) : Rze n × Option Score :=
  ((s.1.applyCmd cmd).1, runCalls (s.1.applyCmd cmd).2 s.2)

/-- The element without its buffer. -/
def core (e : Rze n) : Rze n := { e with ops := [] }

@[simp] theorem applyCmd_current : (e.applyCmd cmd).1.current = vcUpdate e.current cmd.t := by
  unfold applyCmd
  cases cmd.type <;> rfl

@[simp] theorem applyCmd_ops : (e.applyCmd cmd).1.ops = e.ops := by
  unfold applyCmd
  cases cmd.type <;> rfl

/-- No command looks at the buffer. -/
theorem applyCmd_core :
    e.core.applyCmd cmd = ((e.applyCmd cmd).1.core, (e.applyCmd cmd).2) := by
  unfold applyCmd
  cases cmd.type <;> rfl

theorem ready_eq : ready RzCmd.stamp RzCmd.src e.site.clock cmd
    = vcCausallyReady e.current cmd.t := rfl

theorem applyCmd_clock :
    (e.applyCmd cmd).1.current.vector = tick RzCmd.stamp e.current.vector cmd := by
  rw [applyCmd_current, vcUpdate_vector]
  rfl

/-- The draining loop, seen from the clock. -/
theorem notify_clock (p : Rze n × List ZCall) (ops : List (RzCmd n)) :
    notify (ready RzCmd.stamp RzCmd.src) (tick RzCmd.stamp) p.1.current.vector ops
      = ((notify (fun (p : Rze n × List ZCall) c => vcCausallyReady p.1.current c.t)
            stepCmd p ops).1.1.current.vector,
          (notify (fun (p : Rze n × List ZCall) c => vcCausallyReady p.1.current c.t)
            stepCmd p ops).2) ∧
      notified (ready RzCmd.stamp RzCmd.src) (tick RzCmd.stamp) p.1.current.vector ops
        = notified (fun (p : Rze n × List ZCall) c => vcCausallyReady p.1.current c.t)
            stepCmd p ops := by
  have hready : ∀ (p : Rze n × List ZCall) (c : RzCmd n), vcCausallyReady p.1.current c.t
      = ready RzCmd.stamp RzCmd.src p.1.current.vector c := fun _ _ => rfl
  have hstep : ∀ (p : Rze n × List ZCall) (c : RzCmd n), (stepCmd p c).1.current.vector
      = tick RzCmd.stamp p.1.current.vector c := fun _ _ => applyCmd_clock
  exact notifyLoop_view (fun p => p.1.current.vector) hready hstep ops.length p ops

theorem applies_eq : e.applies cmd = e.site.applies RzCmd.stamp RzCmd.src cmd := by
  unfold applies Site.applies
  rw [ready_eq, show e.site.clock = e.current.vector from rfl, ← applyCmd_clock,
    (notify_clock (e.applyCmd cmd) e.site.buf).2]
  rfl

/-- An effect phase is an arrival. -/
theorem receive_site :
    (e.receive cmd).1.site = e.site.arrive RzCmd.stamp RzCmd.src cmd := by
  unfold receive Site.arrive
  rw [ready_eq]
  split
  · rw [show e.site.clock = e.current.vector from rfl, ← applyCmd_clock,
      (notify_clock (e.applyCmd cmd) e.site.buf).1]
    unfold notifyLoop
    rw [applyCmd_ops]
    rfl
  · rfl

/-- What collecting the sorted-set calls comes to. -/
theorem foldl_stepCmd (z : Option Score) (l : List (RzCmd n)) (p : Rze n × List ZCall) :
    l.foldl step (p.1.core, runCalls p.2 z)
      = ((l.foldl stepCmd p).1.core, runCalls (l.foldl stepCmd p).2 z) := by
  induction l generalizing p with
  | nil => rfl
  | cons c l ih =>
      rw [List.foldl_cons, List.foldl_cons, ← ih]
      simp only [step, stepCmd, applyCmd_core, runCalls_append]

/-- An effect phase is the application of what it applies. -/
theorem receive_core (z : Option Score) :
    (e.applies cmd).foldl step (e.core, z)
      = ((e.receive cmd).1.core, runCalls (e.receive cmd).2 z) := by
  unfold receive applies
  split
  · have hstart : step (e.core, z) cmd
        = ((e.applyCmd cmd).1.core, runCalls (e.applyCmd cmd).2 z) := by
      simp only [step, applyCmd_core]
    rw [List.foldl_cons, hstart, foldl_stepCmd]
    unfold notified notifyLoop notify
    rw [applyCmd_ops, ← notifyLoop_state]
    rfl
  · rfl

/-- The clock of an element stays its server's. -/
theorem receive_id : (e.receive cmd).1.current.id = e.current.id := by
  have hfold : ∀ (l : List (RzCmd n)) (s : Rze n × Option Score),
      (l.foldl step s).1.current.id = s.1.current.id := by
    intro l
    induction l with
    | nil => exact fun _ => rfl
    | cons c l ih =>
        intro s
        rw [List.foldl_cons, ih]
        simp [step]
  have hcore : (e.applies cmd).foldl step (e.core, none) = _ := receive_core none
  have hid := congrArg (fun s => s.1.current.id) hcore
  rw [hfold] at hid
  exact hid.symm

theorem run_snoc (me : Fin n) (l : List (RzCmd n)) (cmd : RzCmd n) :
    run me (l ++ [cmd])
      = (((run me l).1.receive cmd).1, (run me l).2 ++ (run me l).1.applies cmd) := by
  simp [run]

/-- A sequence of arrivals, seen from the clock. -/
theorem run_site (me : Fin n) (l : List (RzCmd n)) :
    ((run me l).1.site, (run me l).2) = history RzCmd.stamp RzCmd.src l := by
  induction l using List.reverseRecOn with
  | nil => rfl
  | append_singleton l cmd ih =>
      rw [run_snoc, history_snoc, ← ih]
      simp only [receive_site, applies_eq]

end Rze

/-- An element of a remove-wins priority queue is delivered to in causal
order. -/
theorem rz_causal : Causal (rzType (n := n)).service (fun _ => True) id RzCmd.stamp
    RzCmd.src (fun s => s.1.site) (fun r s => s.1.current.id = r) where
  inv_init := fun _ => rfl
  inv_prepare := by
    intro r c s s' m _ hs hp
    rcases ElemType.service_prepare hp with ⟨rfl, -⟩ | ⟨e, o, hissue, rfl, -⟩
    · exact hs
    · rw [(rzIssue_eq hissue).1]
      exact hs
  inv_effect := by
    intro r m s s' hs he
    obtain rfl := Option.some.inj he
    exact Rze.receive_id.trans hs
  init := fun _ => rfl
  prepare := by
    intro r c s s' m _ hp
    rcases ElemType.service_prepare hp with ⟨rfl, -⟩ | ⟨e, o, hissue, rfl, -⟩
    · rfl
    · rw [(rzIssue_eq hissue).1]
  stamped := by
    intro r c s s' m _ hs hp
    rcases ElemType.service_prepare hp with ⟨-, hm⟩ | ⟨e, o, hissue, -, hm⟩
    · cases hm
    · obtain rfl := Option.some.inj hm
      obtain ⟨-, rfl, -⟩ := rzIssue_eq hissue
      subst hs
      have ht : (c.cmd (vcNow s.1.current)).t = vcNow s.1.current := c.cmd_t _
      exact ⟨(congrArg Vc.id ht).trans (vcNow_id _), congrArg Vc.vector ht⟩
  effect := by
    intro r m s s' he
    obtain rfl := Option.some.inj he
    exact Rze.receive_site

section

variable {k : Config n (Rze n × Option Score) (RzCmd n)}

/-- The element at a server is what its arrivals made of it. -/
theorem rz_run (hk : Reachable rzType.service (.once fun _ => True) k) (r : Fin n) :
    (k.site r).1 = (Rze.run r ((k.got r).map Op.msg)).1 := by
  have hfold := hk.fold (fun _ s => s.1) (fun _ e cmd => (e.receive cmd).1)
    (fun r c s s' m _ hp => by
      rcases ElemType.service_prepare hp with ⟨rfl, -⟩ | ⟨e, o, hissue, rfl, -⟩
      · rfl
      · exact (rzIssue_eq hissue).1)
    (fun r m s s' _ he => by rw [← Option.some.inj he]; rfl) r
  rw [hfold]
  induction (k.got r).map Op.msg using List.reverseRecOn with
  | nil => rfl
  | append_singleton l cmd ih =>
      rw [List.foldl_append, ih, Rze.run_snoc]
      rfl

theorem rz_log (r : Fin n) :
    rz_causal.log k r = (Rze.run r ((k.got r).map Op.msg)).2 :=
  (congrArg Prod.snd (Rze.run_site r ((k.got r).map Op.msg))).symm

/-- Without its buffer, the element is what the operations applied there
made of a new one, one after the other. -/
theorem rz_core (hk : Reachable rzType.service (.once fun _ => True) k) (r : Fin n) :
    ((k.site r).1.core, (k.site r).2)
      = (Rze.run r ((k.got r).map Op.msg)).2.foldl Rze.step (Rze.new r, none) := by
  rw [← rz_log r]
  refine rz_causal.core_fold (fun _ s => (s.1.core, s.2)) (fun _ => Rze.step) ?_ ?_ hk r
  · intro r c s s' m _ hp
    rcases ElemType.service_prepare hp with ⟨rfl, -⟩ | ⟨e, o, hissue, rfl, -⟩
    · rfl
    · rw [(rzIssue_eq hissue).1]
  · intro r m s s' he
    obtain rfl := Option.some.inj he
    rw [← Rze.applies_eq]
    exact (Rze.receive_core s.2).symm

end

/-- The commands on remove-wins priority queues. -/
def rzCmds : List Cmd := [.rzadd, .rzincrby, .rzrem]

/-- Element `key` of `tname` at server `r`: it is what its arrivals made
of it, the operations `log` applied on the way are in causal order, and
without its buffer it is what applying them made of a new element. -/
def RzDelivers (dbl : String → Option ℤ) (k : Net n) (tname key : String) (r : Fin n) :
    Prop :=
  let c := rzType.readAt dbl tname key k
  let e := rzeTable.recordOf r (k.site r) tname key
  let log := (Rze.run r ((c.got r).map Op.msg)).2
  e = (Rze.run r ((c.got r).map Op.msg)).1 ∧
    (e.core, scoreOf (k.site r) tname key) = log.foldl Rze.step (Rze.new r, none) ∧
    c.InCausalOrder id RzCmd.stamp RzCmd.src r e.site log

/-- Elements of remove-wins priority queues are delivered to in causal
order. -/
theorem rzDelivers {dbl : String → Option ℤ} {k : Net n}
    (hk : Reachable (crdtService dbl) (.once (Issues rzCmds)) k) (tname key : String)
    (r : Fin n) : RzDelivers dbl k tname key r := by
  have hat := ElemType.reachable_once (E := rzType)
    (by simp [rzCmds, rzType, rzCommand]) hk tname key
  refine ⟨rz_run hat r, rz_core hat r, ?_⟩
  have horder := rz_causal.inCausalOrder hat r
  rw [rz_log] at horder
  exact horder

end CrdtRedis
