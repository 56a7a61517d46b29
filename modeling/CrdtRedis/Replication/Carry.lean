/-
Services whose sites carry more state than another's, as a library.

`Carries P' P view I` says that `P'`, seen through `view`, does what `P`
does wherever `I` holds, and keeps `I`. Runs then go both ways: a run of
`P'` is seen as a run of `P` (`Carries.forget`), and every run of `P` is
the view of one (`Carries.lift`), so carrying the state along never stops
a run.
-/
import CrdtRedis.Replication.Service

namespace Replication

variable {n : ℕ} {S S' C M : Type}

/-- A configuration, seen through `view`. -/
def Config.view (view : S' → S) (k : Config n S' M) : Config n S M :=
  ⟨fun r => view (k.site r), k.sent, k.got⟩

/-- `P'` does what `P` does, and keeps `I`. -/
structure Carries (P' : Service n S' C M) (P : Service n S C M) (view : S' → S)
    (I : S' → Prop) : Prop where
  init : ∀ r, view (P'.init r) = P.init r
  start : ∀ r, I (P'.init r)
  prepare : ∀ {s} r c, I s →
    P.prepare r c (view s) = (P'.prepare r c s).map fun p => (view p.1, p.2)
  prepared : ∀ {r c s s' m}, I s → P'.prepare r c s = some (s', m) → I s'
  effect : ∀ {s} r m, I s → P.effect r m (view s) = (P'.effect r m s).map view
  applied : ∀ {r m s s'}, I s → P'.effect r m s = some s' → I s'

section View

variable {view : S' → S} {k : Config n S' M}

theorem Config.view_put (r : Fin n) (s : S') :
    (k.put r s).view view = (k.view view).put r (view s) := by
  simp only [Config.view, Config.put, Config.mk.injEq, and_self, and_true]
  exact Function.comp_update view k.site r s

theorem Config.view_receive (r : Fin n) (o : Op n M) (s : S') :
    (k.receive r o s).view view = (k.view view).receive r o (view s) := by
  simp only [Config.view, Config.receive, Config.mk.injEq, and_self, and_true]
  exact Function.comp_update view k.site r s

theorem Config.view_issue (o : Op n M) (s : S') :
    (k.issue o s).view view = (k.view view).issue o (view s) := by
  simp only [Config.view, Config.issue, Config.receive, Config.mk.injEq, and_self, and_true]
  exact Function.comp_update view k.site o.src s

end View

namespace Carries

variable {P' : Service n S' C M} {P : Service n S C M} {view : S' → S} {I : S' → Prop}
  {allowed : C → Prop}

theorem sites (h : Carries P' P view I) {k : Config n S' M}
    (hk : Reachable P' (.once allowed) k) (r : Fin n) : I (k.site r) :=
  hk.site_forall (I := fun _ s => I s) h.start (fun _ hI hp => h.prepared hI hp)
    (fun _ hI he => h.applied hI he) r

/-- A run is seen as a run. -/
theorem forget (h : Carries P' P view I) {k : Config n S' M}
    (hk : Reachable P' (.once allowed) k) : Reachable P (.once allowed) (k.view view) := by
  induction hk with
  | start =>
      have hstart : P'.start.view view = P.start := by
        simp only [Config.view, Service.start, h.init]
      rw [hstart]
      exact .start
  | @step k _ hk hs ih =>
      refine ih.step ?_
      cases hs with
      | reject r c hc hp =>
          rw [Config.view_put]
          refine .reject r c hc ?_
          exact (h.prepare r c (h.sites hk r)).trans (by rw [hp]; rfl)
      | @issue s s' m r c u hc hp hu hg he =>
          rw [Config.view_issue]
          have hp' := h.prepare r c (h.sites hk r)
          have he' := h.effect r m (h.prepared (h.sites hk r) hp)
          rw [hp] at hp'
          rw [he] at he'
          exact .issue r c u hc hp' hu trivial he'
      | deliver r o ho hd hg he =>
          rw [Config.view_receive]
          refine .deliver r o ho hd trivial ?_
          exact (h.effect r _ (h.sites hk r)).trans (by rw [he]; rfl)

/-- Every run is seen that way. -/
theorem lift (h : Carries P' P view I) {k : Config n S M}
    (hk : Reachable P (.once allowed) k) :
    ∃ k', Reachable P' (.once allowed) k' ∧ k'.view view = k := by
  induction hk with
  | start =>
      refine ⟨P'.start, .start, ?_⟩
      simp only [Config.view, Service.start, h.init]
  | step hk hs ih =>
      obtain ⟨k', hk', rfl⟩ := ih
      cases hs with
      | reject r c hc hp =>
          obtain ⟨p, hp', heq⟩ :=
            Option.map_eq_some_iff.mp ((h.prepare r c (h.sites hk' r)).symm.trans hp)
          obtain ⟨s', m⟩ := p
          obtain ⟨rfl, rfl⟩ := Prod.mk.inj heq
          exact ⟨_, hk'.step (.reject r c hc hp'), Config.view_put r s'⟩
      | issue r c u hc hp hu hg he =>
          obtain ⟨p, hp', heq⟩ :=
            Option.map_eq_some_iff.mp ((h.prepare r c (h.sites hk' r)).symm.trans hp)
          obtain ⟨s', m⟩ := p
          obtain ⟨rfl, rfl⟩ := Prod.mk.inj heq
          obtain ⟨s'', he', rfl⟩ :=
            Option.map_eq_some_iff.mp
              ((h.effect r _ (h.prepared (h.sites hk' r) hp')).symm.trans he)
          exact ⟨_, hk'.step (.issue r c u hc hp' hu trivial he'), Config.view_issue _ s''⟩
      | deliver r o ho hd hg he =>
          obtain ⟨s', he', rfl⟩ :=
            Option.map_eq_some_iff.mp ((h.effect r _ (h.sites hk' r)).symm.trans he)
          exact ⟨_, hk'.step (.deliver r o ho hd trivial he'), Config.view_receive r o s'⟩

end Carries

end Replication
