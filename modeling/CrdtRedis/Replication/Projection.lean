/-
Projections between replicated services: a service that holds many
objects, read at ONE of them, is a run of the service of that object.

A store addressed by keys applies each message to the object its key
names and leaves every other object alone. `Projection` is that fact per
step — preparation and application, read through `view`, either act as
the component's own (when `route` sends the message to it) or change
nothing — and `Projection.reachable` lifts it to runs: the view of a
reachable configuration, its ledgers cut down to the routed messages, is
reachable in the component. What is proved of one object by itself then
holds of every object of the store.

`inv` is a local invariant the per-step facts may assume of the site
they happen at, and `good` what they may assume of a message: something
every message a client can cause has.
-/
import CrdtRedis.Replication.Service

namespace Replication

variable {n : ℕ} {S C M S' C' M' : Type}

/-- Operation `o` as the component sees it, if it is routed there. -/
def Op.route (f : M → Option M') (o : Op n M) : Option (Op n M') :=
  (f o.msg).map fun m => ⟨o.uid, o.src, m⟩

/-- Configuration `k` as the component sees it. -/
def Config.proj (k : Config n S M) (view : Fin n → S → S')
    (f : M → Option M') : Config n S' M' :=
  ⟨fun r => view r (k.site r), k.sent.filterMap (Op.route f),
    fun r => (k.got r).filterMap (Op.route f)⟩

/-- The service `P` under policy `pol`, read through `view`, runs as the
service `Q` under policy `pol'`. -/
structure Projection (P : Service n S C M) (pol : Policy n S C M)
    (Q : Service n S' C' M') (pol' : Policy n S' C' M') where
  view : Fin n → S → S'
  route : M → Option M'
  inv : Fin n → S → Prop
  good : M → Prop
  good_prepare : ∀ {r c s s' m}, pol.allowed c → inv r s →
    P.prepare r c s = some (s', some m) → good m
  inv_init : ∀ r, inv r (P.init r)
  inv_prepare : ∀ {r c s s' m}, pol.allowed c → inv r s →
    P.prepare r c s = some (s', m) → inv r s'
  inv_effect : ∀ {r m s s'}, good m → inv r s → P.effect r m s = some s' →
    inv r s'
  view_init : ∀ r, view r (P.init r) = Q.init r
  /-- A refused command is invisible or refused by the component. -/
  reject : ∀ {r c s s'}, pol.allowed c → inv r s →
    P.prepare r c s = some (s', none) →
    view r s' = view r s ∨ ∃ c', pol'.allowed c' ∧
      Q.prepare r c' (view r s) = some (view r s', none)
  /-- Preparing an operation of another object is invisible. -/
  prepare_other : ∀ {r c s s' m}, pol.allowed c → inv r s →
    P.prepare r c s = some (s', some m) → route m = none →
    view r s' = view r s
  /-- Preparing an operation of this object prepares it there. -/
  prepare_this : ∀ {r c s s' m m'}, pol.allowed c → inv r s →
    P.prepare r c s = some (s', some m) → route m = some m' →
    ∃ c', pol'.allowed c' ∧
      Q.prepare r c' (view r s) = some (view r s', some m')
  /-- Applying an operation of another object is invisible. -/
  effect_other : ∀ {r m s s'}, good m → inv r s → P.effect r m s = some s' →
    route m = none → view r s' = view r s
  /-- Applying an operation of this object applies it there. -/
  effect_this : ∀ {r m s s' m'}, good m → inv r s → P.effect r m s = some s' →
    route m = some m' → Q.effect r m' (view r s) = some (view r s')
  guard : ∀ {r m s m'}, inv r s → pol.guard r m s → route m = some m' →
    pol'.guard r m' (view r s)
  dup : pol.dup → pol'.dup

variable {P : Service n S C M} {pol : Policy n S C M}
  {Q : Service n S' C' M'} {pol' : Policy n S' C' M'} {k : Config n S M}

-- ====================================================== routed ledgers

theorem Op.route_eq_some {f : M → Option M'} {o : Op n M} {o' : Op n M'} :
    o.route f = some o' ↔
      f o.msg = some o'.msg ∧ o'.uid = o.uid ∧ o'.src = o.src := by
  unfold Op.route
  constructor
  · intro h
    obtain ⟨m, hm, rfl⟩ := Option.map_eq_some_iff.mp h
    exact ⟨hm, rfl, rfl⟩
  · rintro ⟨hm, hu, hs⟩
    rw [hm, Option.map_some]
    cases o'
    simp_all

theorem Op.route_eq_none {f : M → Option M'} {o : Op n M} :
    o.route f = none ↔ f o.msg = none := by
  simp [Op.route]

/-- An operation the site has not applied is one the component's site
has not applied either: identities survive the routing. -/
theorem Config.Ledger.route_notMem (h : k.Ledger) {f : M → Option M'}
    {o : Op n M} {o' : Op n M'} (ho : o ∈ k.sent)
    (hr : o.route f = some o') {r : Fin n} (hnot : o ∉ k.got r) :
    o' ∉ (k.got r).filterMap (Op.route f) := by
  intro hmem
  obtain ⟨b, hb, hbr⟩ := List.mem_filterMap.mp hmem
  have huid : b.uid = o.uid :=
    ((Op.route_eq_some.mp hbr).2.1).symm.trans (Op.route_eq_some.mp hr).2.1
  have hbo := h.uid_inj b (h.got_sent r b hb) o ho huid
  exact hnot (hbo ▸ hb)

-- ================================================ one projected step

namespace Config

variable (view : Fin n → S → S') (f : M → Option M')

theorem proj_put (r : Fin n) (s : S) :
    (k.put r s).proj view f = (k.proj view f).put r (view r s) := by
  unfold proj put
  congr 1
  funext q
  by_cases hq : q = r
  · subst hq
    simp
  · simp [hq]

theorem proj_put_view {r : Fin n} {s : S}
    (h : view r s = view r (k.site r)) :
    (k.put r s).proj view f = k.proj view f := by
  rw [proj_put]
  unfold proj put
  congr 1
  funext q
  by_cases hq : q = r
  · subst hq
    simp [h]
  · simp [hq]

theorem proj_receive_this {r : Fin n} {o : Op n M} {o' : Op n M'} (s : S)
    (ho : o.route f = some o') :
    (k.receive r o s).proj view f
      = (k.proj view f).receive r o' (view r s) := by
  unfold proj receive
  congr 1
  · funext q
    by_cases hq : q = r
    · subst hq
      simp
    · simp [hq]
  · funext q
    by_cases hq : q = r
    · subst hq
      simp [List.filterMap_append, ho]
    · simp [hq]

theorem proj_receive_other {r : Fin n} {o : Op n M} {s : S}
    (ho : o.route f = none) (h : view r s = view r (k.site r)) :
    (k.receive r o s).proj view f = k.proj view f := by
  unfold proj receive
  congr 1
  · funext q
    by_cases hq : q = r
    · subst hq
      simp [h]
    · simp [hq]
  · funext q
    by_cases hq : q = r
    · subst hq
      simp [List.filterMap_append, ho]
    · simp [hq]

theorem proj_issue_this {o : Op n M} {o' : Op n M'} (s : S)
    (ho : o.route f = some o') :
    (k.issue o s).proj view f = (k.proj view f).issue o' (view o.src s) := by
  have hsrc : o'.src = o.src := (Op.route_eq_some.mp ho).2.2
  have hrec := proj_receive_this (k := k) view f (r := o.src) s ho
  unfold issue
  rw [hsrc, ← hrec]
  simp [proj, receive, List.filterMap_append, ho]

theorem proj_issue_other {o : Op n M} {s : S} (ho : o.route f = none)
    (h : view o.src s = view o.src (k.site o.src)) :
    (k.issue o s).proj view f = k.proj view f := by
  have hrec := proj_receive_other (k := k) view f (r := o.src) ho h
  rw [← hrec]
  unfold issue
  simp [proj, receive, List.filterMap_append, ho]

end Config

-- ================================================ the run projection

/-- Every message of a reachable configuration is good, and the local
invariant holds at each of its sites. -/
theorem Projection.inv_reachable (H : Projection P pol Q pol')
    (hk : Reachable P pol k) :
    (∀ o ∈ k.sent, H.good o.msg) ∧ ∀ r, H.inv r (k.site r) := by
  refine hk.invariant
    (I := fun k => (∀ o ∈ k.sent, H.good o.msg) ∧ ∀ r, H.inv r (k.site r))
    ⟨by simp [Service.start], H.inv_init⟩ ?_
  rintro k k' _ ⟨hgood, ih⟩ hs
  cases hs with
  | reject r c hc hp =>
      refine ⟨hgood, fun q => ?_⟩
      by_cases hq : q = r
      · subst hq
        rw [Config.put_site_self]
        exact H.inv_prepare hc (ih q) hp
      · rw [Config.put_site_ne k _ hq]
        exact ih q
  | issue r c u hc hp hu hg he =>
      have hm := H.good_prepare hc (ih r) hp
      refine ⟨fun o ho => ?_, fun q => ?_⟩
      · rw [Config.issue_sent, List.mem_append, List.mem_singleton] at ho
        rcases ho with ho | rfl
        · exact hgood o ho
        · exact hm
      · by_cases hq : q = r
        · subst hq
          rw [show (k.issue _ _).site q = _ from Config.issue_site_self k _ _]
          exact H.inv_effect hm (H.inv_prepare hc (ih q) hp) he
        · rw [Config.issue_site_ne k _ _ hq]
          exact ih q
  | deliver r o ho hd hg he =>
      refine ⟨hgood, fun q => ?_⟩
      by_cases hq : q = r
      · subst hq
        rw [Config.receive_site_self]
        exact H.inv_effect (hgood o ho) (ih q) he
      · rw [Config.receive_site_ne k _ _ hq]
        exact ih q

/-- A step of the store is a step of the component, or invisible. -/
theorem Projection.step (H : Projection P pol Q pol') {k' : Config n S M}
    (hk : Reachable P pol k) (hs : Step P pol k k') :
    Step Q pol' (k.proj H.view H.route) (k'.proj H.view H.route) ∨
      k'.proj H.view H.route = k.proj H.view H.route := by
  obtain ⟨hgood, hinv⟩ := H.inv_reachable hk
  cases hs with
  | reject r c hc hp =>
      rcases H.reject hc (hinv r) hp with hv | ⟨c', hc', hp'⟩
      · exact Or.inr (Config.proj_put_view _ _ hv)
      · rw [Config.proj_put]
        exact Or.inl (.reject r c' hc' hp')
  | @issue s s' m r c u hc hp hu hg he =>
      have hinv' := H.inv_prepare hc (hinv r) hp
      have hgm := H.good_prepare hc (hinv r) hp
      cases hm : H.route m with
      | none =>
          refine Or.inr (Config.proj_issue_other _ _ ?_ ?_)
          · exact Op.route_eq_none.mpr hm
          · exact (H.effect_other hgm hinv' he hm).trans
              (H.prepare_other hc (hinv r) hp hm)
      | some m' =>
          obtain ⟨c', hc', hp'⟩ := H.prepare_this hc (hinv r) hp hm
          have hroute : (⟨u, r, m⟩ : Op n M).route H.route
              = some ⟨u, r, m'⟩ := Op.route_eq_some.mpr ⟨hm, rfl, rfl⟩
          rw [Config.proj_issue_this _ _ _ hroute]
          refine Or.inl (.issue r c' u hc' hp' ?_ (H.guard hinv' hg hm)
            (H.effect_this hgm hinv' he hm))
          intro o ho
          obtain ⟨b, hb, hbr⟩ := List.mem_filterMap.mp ho
          rw [(Op.route_eq_some.mp hbr).2.1]
          exact hu b hb
  | deliver r o ho hd hg he =>
      cases hm : H.route o.msg with
      | none =>
          exact Or.inr (Config.proj_receive_other _ _
            (Op.route_eq_none.mpr hm) (H.effect_other (hgood o ho) (hinv r) he hm))
      | some m' =>
          have hroute : o.route H.route = some ⟨o.uid, o.src, m'⟩ :=
            Op.route_eq_some.mpr ⟨hm, rfl, rfl⟩
          rw [Config.proj_receive_this _ _ _ hroute]
          refine Or.inl (.deliver r _ (List.mem_filterMap.mpr ⟨o, ho, hroute⟩)
            ?_ (H.guard (hinv r) hg hm) (H.effect_this (hgood o ho) (hinv r) he hm))
          rcases hd with hd | hd
          · exact Or.inl (H.dup hd)
          · exact Or.inr (hk.ledger.route_notMem ho hroute hd)

/-- The view of a reachable configuration is reachable. -/
theorem Projection.reachable (H : Projection P pol Q pol')
    (hk : Reachable P pol k) :
    Reachable Q pol' (k.proj H.view H.route) := by
  refine hk.invariant
    (I := fun k => Reachable Q pol' (k.proj H.view H.route)) ?_ ?_
  · have hstart : P.start.proj H.view H.route = Q.start := by
      unfold Config.proj Service.start
      congr 1
      funext r
      exact H.view_init r
    rw [hstart]
    exact .start
  · intro k k' hr ih hs
    rcases H.step hr hs with hstep | heq
    · exact ih.step hstep
    · rw [heq]
      exact ih

/-- A projection of the unrestricted runs is one of the runs whose
applications are admitted. -/
def Projection.guarded {allowed : C → Prop} {allowed' : C' → Prop}
    {g : Fin n → M → S → Prop} {g' : Fin n → M' → S' → Prop}
    (H : Projection P (.once allowed) Q (.once allowed'))
    (hguard : ∀ r m s m', H.inv r s → g r m s → H.route m = some m' → g' r m' (H.view r s)) :
    Projection P ⟨allowed, g, False⟩ Q ⟨allowed', g', False⟩ where
  view := H.view
  route := H.route
  inv := H.inv
  good := H.good
  good_prepare := H.good_prepare
  inv_init := H.inv_init
  inv_prepare := H.inv_prepare
  inv_effect := H.inv_effect
  view_init := H.view_init
  reject := H.reject
  prepare_other := H.prepare_other
  prepare_this := H.prepare_this
  effect_other := H.effect_other
  effect_this := H.effect_this
  guard := hguard _ _ _ _
  dup := fun h => h

-- ============================================== one object, seen coarsely

/-- An operation with its message rewritten. -/
def Op.map (f : M → M') (o : Op n M) : Op n M' := ⟨o.uid, o.src, f o.msg⟩

theorem filterMap_route_some (f : M → M') (l : List (Op n M)) :
    l.filterMap (Op.route fun m => some (f m)) = l.map (Op.map f) := by
  rw [← List.filterMap_eq_map]
  rfl

/-- Configuration `k` with states and messages seen through `view` and
`f`. -/
def Config.map (k : Config n S M) (view : S → S') (f : M → M') :
    Config n S' M' :=
  ⟨fun r => view (k.site r), k.sent.map (Op.map f),
    fun r => (k.got r).map (Op.map f)⟩

/-- A service whose every step is a step of `Q` once states are seen
through `view` and messages through `f` runs as `Q`. -/
theorem Reachable.map {allowed : C → Prop} {allowed' : C' → Prop}
    (view : S → S') (f : M → M') (hinit : ∀ r, view (P.init r) = Q.init r)
    (hreject : ∀ {r c s s'}, allowed c → P.prepare r c s = some (s', none) →
      view s' = view s)
    (hissue : ∀ {r c s s' m}, allowed c → P.prepare r c s = some (s', some m) →
      ∃ c', allowed' c' ∧ Q.prepare r c' (view s) = some (view s', some (f m)))
    (heffect : ∀ {r m s s'}, P.effect r m s = some s' →
      Q.effect r (f m) (view s) = some (view s'))
    (hk : Reachable P (.once allowed) k) :
    Reachable Q (.once allowed') (k.map view f) := by
  let H : Projection P (.once allowed) Q (.once allowed') :=
    { view := fun _ => view
      route := fun m => some (f m)
      inv := fun _ _ => True
      good := fun _ => True
      good_prepare := fun _ _ _ => trivial
      inv_init := fun _ => trivial
      inv_prepare := fun _ _ _ => trivial
      inv_effect := fun _ _ _ => trivial
      view_init := hinit
      reject := fun hc _ hp => Or.inl (hreject hc hp)
      prepare_other := fun _ _ _ hm => by cases hm
      prepare_this := by
        intro r c s s' m m' hc _ hp hm
        obtain rfl := Option.some.inj hm
        exact hissue hc hp
      effect_other := fun _ _ _ hm => by cases hm
      effect_this := by
        intro r m s s' m' _ _ he hm
        obtain rfl := Option.some.inj hm
        exact heffect he
      guard := fun _ _ _ => trivial
      dup := fun h => h }
  have heq : k.proj H.view H.route = k.map view f := by
    unfold Config.proj Config.map
    congr 1
    · exact filterMap_route_some f k.sent
    · exact funext fun r => filterMap_route_some f (k.got r)
  rw [← heq]
  exact H.reachable hk

end Replication
