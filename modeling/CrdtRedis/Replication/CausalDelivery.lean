/-
Networks of sites that deliver in causal order.

`Causal` says of a service that its states, read through `site`, move by
`Site.arrive`, and that a site stamps what it issues with the clock it has
plus one for the new operation. No link delivers in order: what order
there is comes from the buffers.

The network invariant (`Delivery`) has three parts: a site has applied
what it issued; no stamp counts more operations of `i` than `i` has
issued; and a stamp that counts an operation was made after it was applied
there, so that it contains the operation's whole stamp. From these follow
that stamps identify operations (`stamp_inj`), that the operations of one
site are ordered (`stamp_total`), that order of stamps is causal order
(`before_of_lt`), and that a site with nothing missing has nothing in its
buffer (`buf_eq_nil`).
-/
import CrdtRedis.Replication.Causal
import CrdtRedis.Replication.Causality
import Mathlib.Order.Preorder.Finite

namespace Replication

variable {n : ℕ} {S C M O : Type}

/-- A service that delivers in causal order. `I` is what its laws may
assume of a site. -/
structure Causal (P : Service n S C M) (allowed : C → Prop) (tok : M → O)
    (stamp : O → Fin n → ℤ) (src : O → Fin n) (site : S → Site n O)
    (I : Fin n → S → Prop) : Prop where
  inv_init : ∀ r, I r (P.init r)
  inv_prepare : ∀ {r c s s' m}, allowed c → I r s →
    P.prepare r c s = some (s', m) → I r s'
  inv_effect : ∀ {r m s s'}, I r s → P.effect r m s = some s' → I r s'
  init : ∀ r, site (P.init r) = .empty
  prepare : ∀ {r c s s' m}, allowed c → P.prepare r c s = some (s', m) →
    site s' = site s
  stamped : ∀ {r c s s' m}, allowed c → I r s →
    P.prepare r c s = some (s', some m) → src (tok m) = r ∧
      stamp (tok m) = Function.update (site s).clock r ((site s).clock r + 1)
  effect : ∀ {r m s s'}, P.effect r m s = some s' →
    site s' = (site s).arrive stamp src (tok m)

/-- Site `r`, with state `s`, has applied `log`, in causal order. -/
structure Config.InCausalOrder (k : Config n S M) (tok : M → O)
    (stamp : O → Fin n → ℤ) (src : O → Fin n) (r : Fin n) (s : Site n O)
    (log : List O) : Prop where
  /-- What was received or issued was applied once, or is in the buffer. -/
  once : ∃ A B : List (Op n M), (A ++ B).Perm (k.got r) ∧ (A ++ B).Nodup ∧
    A.map (fun o => tok o.msg) = log ∧ B.map (fun o => tok o.msg) = s.buf
  nodup : (log ++ s.buf).Nodup
  ordered : log.Pairwise fun x y => ¬ stamp y < stamp x
  /-- The clock counts what was applied, by the site that issued it. -/
  source : ∀ o ∈ k.sent, src (tok o.msg) = o.src
  count : ∀ i, s.clock i = ((log.filter fun x => decide (src x = i)).length : ℤ)
  quiet : ∀ x ∈ s.buf, ready stamp src s.clock x = false
  /-- Nothing below what was received is missing: the buffer is empty. -/
  drained : (∀ x ∈ k.got r, ∀ y ∈ k.sent, stamp (tok y.msg) < stamp (tok x.msg) →
    y ∈ k.got r) → s.buf = []
  /-- The same for the causal order of the run. -/
  drained_causal : (∀ x ∈ k.got r, ∀ y ∈ k.sent, k.HappensBefore y x → y ∈ k.got r) →
    s.buf = []

/-- What arrived at a site, in order. -/
def Config.arrivals (tok : M → O) (k : Config n S M) (r : Fin n) : List O :=
  (k.got r).map fun o => tok o.msg

/-- The service with, at each site, the record of what its effects
applied, in order. -/
def Service.logged (P : Service n S C M) (applies : Fin n → M → S → List O) :
    Service n (S × List O) C M where
  init := fun r => (P.init r, [])
  prepare := fun r c s => (P.prepare r c s.1).map fun p => ((p.1, s.2), p.2)
  effect := fun r m s => (P.effect r m s.1).map fun s' => (s', s.2 ++ applies r m s.1)

/-- A configuration without the record. -/
def Config.forget (k : Config n (S × List O) M) : Config n S M :=
  ⟨fun r => (k.site r).1, k.sent, k.got⟩

theorem Config.forget_put (k : Config n (S × List O) M) (r : Fin n) (s : S × List O) :
    (k.put r s).forget = k.forget.put r s.1 := by
  unfold Config.forget Config.put
  congr 1
  funext q
  by_cases hq : q = r
  · subst hq
    simp
  · simp [hq]

theorem Config.forget_receive (k : Config n (S × List O) M) (r : Fin n) (o : Op n M)
    (s : S × List O) : (k.receive r o s).forget = k.forget.receive r o s.1 := by
  unfold Config.forget Config.receive
  congr 1
  funext q
  by_cases hq : q = r
  · subst hq
    simp
  · simp [hq]

theorem Config.forget_issue (k : Config n (S × List O) M) (o : Op n M)
    (s : S × List O) : (k.issue o s).forget = k.forget.issue o s.1 := by
  have hrec := k.forget_receive o.src o s
  unfold Config.issue
  rw [← hrec]
  rfl

/-- Every run can be recorded. -/
theorem Reachable.exists_logged {P : Service n S C M} {allowed : C → Prop}
    {k : Config n S M} (applies : Fin n → M → S → List O)
    (hk : Reachable P (.once allowed) k) :
    ∃ k', Reachable (P.logged applies) (.once allowed) k' ∧ k'.forget = k := by
  induction hk with
  | start => exact ⟨_, .start, rfl⟩
  | step hr hs ih =>
      obtain ⟨k', hk', rfl⟩ := ih
      cases hs with
      | reject r c hc hp =>
          rename_i s
          refine ⟨_, hk'.step (.reject (s := (s, (k'.site r).2)) r c hc ?_),
            k'.forget_put r _⟩
          show (P.prepare r c (k'.site r).1).map _ = _
          rw [show P.prepare r c (k'.site r).1 = _ from hp]
          rfl
      | issue r c u hc hp hu hg he =>
          rename_i s s' m
          refine ⟨k'.issue ⟨u, r, m⟩ (s', (k'.site r).2 ++ applies r m s),
            hk'.step (.issue (s := (s, (k'.site r).2)) r c u hc ?_ hu trivial ?_),
            k'.forget_issue _ _⟩
          · show (P.prepare r c (k'.site r).1).map _ = _
            rw [show P.prepare r c (k'.site r).1 = _ from hp]
            rfl
          · show (P.effect r m s).map _ = _
            rw [he]
            rfl
      | deliver r o ho hd hg he =>
          rename_i s
          refine ⟨_, hk'.step (.deliver
            (s := (s, (k'.site r).2 ++ applies r o.msg (k'.site r).1)) r o ho hd trivial ?_),
            k'.forget_receive r o _⟩
          show (P.effect r o.msg (k'.site r).1).map _ = _
          rw [show P.effect r o.msg (k'.site r).1 = _ from he]
          rfl

/-- A permutation of an image is the image of a permutation. -/
theorem exists_perm_of_perm_map {α β : Type} {f : α → β} {l : List α} {m : List β}
    (h : m.Perm (l.map f)) : ∃ l' : List α, l'.Perm l ∧ l'.map f = m := by
  generalize hm : l.map f = m' at h
  induction h generalizing l with
  | nil => exact ⟨[], by rw [List.map_eq_nil_iff.mp hm], rfl⟩
  | cons b _ ih =>
      obtain ⟨a, l, rfl, rfl, hl⟩ := List.map_eq_cons_iff.mp hm
      obtain ⟨l', hperm, rfl⟩ := ih hl
      exact ⟨a :: l', hperm.cons a, rfl⟩
  | swap b c m =>
      obtain ⟨a, l, rfl, rfl, hl⟩ := List.map_eq_cons_iff.mp hm
      obtain ⟨a', l, rfl, rfl, rfl⟩ := List.map_eq_cons_iff.mp hl
      exact ⟨a' :: a :: l, List.Perm.swap _ _ _, rfl⟩
  | trans _ _ ih₁ ih₂ =>
      obtain ⟨l₂, hperm₂, hmap⟩ := ih₂ hm
      obtain ⟨l₁, hperm₁, rfl⟩ := ih₁ hmap
      exact ⟨l₁, hperm₁.trans hperm₂, rfl⟩

namespace Causal

variable {P : Service n S C M} {allowed : C → Prop} {tok : M → O}
  {stamp : O → Fin n → ℤ} {src : O → Fin n} {site : S → Site n O}
  {I : Fin n → S → Prop} {k : Config n S M}

/-- The operations applied at a site, in order. -/
def log (_ : Causal P allowed tok stamp src site I) (k : Config n S M) (r : Fin n) :
    List O := (history stamp src (k.arrivals tok r)).2

variable (hC : Causal P allowed tok stamp src site I)

include hC

/-- What the laws may assume of a site holds of every one. -/
theorem inv (hk : Reachable P (.once allowed) k) (r : Fin n) : I r (k.site r) :=
  hk.site_forall hC.inv_init (fun hc h hp => hC.inv_prepare hc h hp)
    (fun _ h he => hC.inv_effect h he) r

/-- A site is what its arrivals made of it. -/
theorem site_eq (hk : Reachable P (.once allowed) k) (r : Fin n) :
    site (k.site r) = (history stamp src (k.arrivals tok r)).1 := by
  have hfold := hk.fold (fun _ s => site s) (fun _ s m => s.arrive stamp src (tok m))
    (fun _ _ _ _ _ hc hp => hC.prepare hc hp) (fun _ _ _ _ _ he => hC.effect he) r
  rw [hfold, hC.init]
  unfold Config.arrivals
  induction k.got r using List.reverseRecOn with
  | nil => rfl
  | append_singleton l o ih =>
      rw [List.map_append, List.foldl_append, ih, List.map_append]
      simp only [List.map_cons, List.map_nil, history_snoc]
      rfl

theorem applied (hk : Reachable P (.once allowed) k) (r : Fin n) :
    Applied stamp src (site (k.site r)).clock (hC.log k r) := by
  rw [hC.site_eq hk r]
  exact (history_inv _).applied

/-- Nothing in a buffer is ready. -/
theorem quiet (hk : Reachable P (.once allowed) k) (r : Fin n) :
    ∀ x ∈ (site (k.site r)).buf, ready stamp src (site (k.site r)).clock x = false := by
  rw [hC.site_eq hk r]
  exact (history_inv _).quiet

/-- What a site received is in its log or in its buffer. -/
theorem perm (hk : Reachable P (.once allowed) k) (r : Fin n) :
    (hC.log k r ++ (site (k.site r)).buf).Perm (k.arrivals tok r) := by
  rw [hC.site_eq hk r]
  exact history_perm _

/-- What is in a log was received. -/
theorem log_got (hk : Reachable P (.once allowed) k) {r : Fin n} {x : O}
    (hx : x ∈ hC.log k r) : ∃ o ∈ k.got r, tok o.msg = x :=
  List.mem_map.mp ((hC.perm hk r).mem_iff.mp (List.mem_append_left _ hx))

/-- A state that is the fold of what is applied: a part `core` of the
state that no preparation touches and that every arrival moves by `apply`
over what it applies is the fold of `apply` over the log. -/
theorem core_fold {T : Type} (core : Fin n → S → T) (apply : Fin n → T → O → T)
    (hprep : ∀ {r c s s' m}, allowed c → P.prepare r c s = some (s', m) →
      core r s' = core r s)
    (heff : ∀ {r m s s'}, P.effect r m s = some s' → core r s'
      = ((site s).applies stamp src (tok m)).foldl (apply r) (core r s))
    (hk : Reachable P (.once allowed) k) (r : Fin n) :
    core r (k.site r) = (hC.log k r).foldl (apply r) (core r (P.init r)) := by
  -- the arrivals move the site and the part together
  have hfold := hk.fold (fun r s => (site s, core r s))
    (fun r p m => (p.1.arrive stamp src (tok m),
      (p.1.applies stamp src (tok m)).foldl (apply r) p.2))
    (fun _ _ _ _ _ hc hp => by rw [hC.prepare hc hp, hprep hc hp])
    (fun _ _ _ _ _ he => by rw [hC.effect he, heff he]) r
  suffices key : ∀ l : List (Op n M),
      ((l.map Op.msg).foldl (fun p m => (p.1.arrive stamp src (tok m),
        (p.1.applies stamp src (tok m)).foldl (apply r) p.2))
        (site (P.init r), core r (P.init r)))
      = ((history stamp src (l.map fun o => tok o.msg)).1,
          (history stamp src (l.map fun o => tok o.msg)).2.foldl (apply r)
            (core r (P.init r))) by
    rw [key] at hfold
    exact (Prod.mk.inj hfold).2
  intro l
  induction l using List.reverseRecOn with
  | nil =>
      show (site (P.init r), _) = _
      rw [hC.init]
      rfl
  | append_singleton l o ih =>
      rw [List.map_append, List.foldl_append, ih, List.map_append]
      simp only [List.map_cons, List.map_nil, history_snoc, List.foldl_append]
      rfl

/-- What the record of a causal service holds. -/
theorem logged_log {applies : Fin n → M → S → List O}
    (happlies : ∀ {r m s s'}, P.effect r m s = some s' →
      applies r m s = (site s).applies stamp src (tok m))
    {k' : Config n (S × List O) M}
    (hk' : Reachable (P.logged applies) (.once allowed) k') (r : Fin n) :
    (k'.site r).2 = hC.log k'.forget r := by
  have hfold := hk'.fold (fun _ s => (site s.1, s.2))
    (fun _ p m => (p.1.arrive stamp src (tok m), p.2 ++ p.1.applies stamp src (tok m)))
    (fun r c s s' m hc hp => by
      obtain ⟨p, hp₁, heq⟩ := Option.map_eq_some_iff.mp hp
      obtain ⟨rfl, rfl⟩ := Prod.mk.inj heq
      rw [hC.prepare hc hp₁])
    (fun r m s s' _ he => by
      obtain ⟨s₁, he₁, rfl⟩ := Option.map_eq_some_iff.mp he
      rw [hC.effect he₁, happlies he₁]) r
  have hstart : (site ((P.logged applies).init r).1, ((P.logged applies).init r).2)
      = (Site.empty, []) := by
    rw [← hC.init r]
    rfl
  rw [hstart] at hfold
  have hlog := congrArg Prod.snd hfold
  rw [List.foldl_map] at hlog
  refine hlog.trans ?_
  unfold log Config.arrivals history
  rw [List.foldl_map]
  rfl

-- ================================================== what is sent

/-- The stamp a site gives. -/
theorem stamp_issue (hk : Reachable P (.once allowed) k) {r : Fin n} {c : C} {s : S}
    {m : M} (hc : allowed c) (hp : P.prepare r c (k.site r) = some (s, some m)) :
    src (tok m) = r ∧ stamp (tok m)
      = Function.update (site (k.site r)).clock r ((site (k.site r)).clock r + 1) :=
  hC.stamped hc (hC.inv hk r) hp

theorem src_eq (hk : Reachable P (.once allowed) k) :
    ∀ o ∈ k.sent, src (tok o.msg) = o.src := by
  refine hk.sent_forall (Q := fun o => src (tok o.msg) = o.src) ?_
  intro k r c s m u hr _ hc hp
  exact (hC.stamp_issue hr hc hp).1

/-- Operations are numbered from one. -/
theorem one_le_seq (hk : Reachable P (.once allowed) k) :
    ∀ o ∈ k.sent, 1 ≤ stamp (tok o.msg) o.src := by
  refine hk.sent_forall (Q := fun o => 1 ≤ stamp (tok o.msg) o.src) ?_
  intro k r c s m u hr _ hc hp
  show 1 ≤ stamp (tok m) r
  rw [(hC.stamp_issue hr hc hp).2, Function.update_self]
  have hnonneg : 0 ≤ (site (k.site r)).clock r := (hC.applied hr r).nonneg r
  omega

-- ================================================= the network invariant

/-- What holds between the sites. -/
structure Delivery (k : Config n S M) : Prop where
  own_applied : ∀ o ∈ k.sent, tok o.msg ∈ hC.log k o.src
  entry_le : ∀ o ∈ k.sent, ∀ i, stamp (tok o.msg) i ≤ (site (k.site i)).clock i
  seen : ∀ x ∈ k.sent, ∀ y ∈ k.sent,
    stamp (tok y.msg) y.src ≤ stamp (tok x.msg) y.src →
      y = x ∨ stamp (tok y.msg) < stamp (tok x.msg) ∧ k.Before y x

variable {hC}

/-- Stamps with the same number of the same source are of one operation. -/
theorem Delivery.eq_of_seq (h : hC.Delivery k) {x y : Op n M} (hx : x ∈ k.sent)
    (hy : y ∈ k.sent) (hsrc : x.src = y.src)
    (hseq : stamp (tok x.msg) x.src = stamp (tok y.msg) y.src) : x = y := by
  rcases h.seen x hx y hy (by rw [← hseq, hsrc]) with heq | ⟨hlt, -⟩
  · exact heq.symm
  · rcases h.seen y hy x hx (by rw [hseq, hsrc]) with heq | ⟨hgt, -⟩
    · exact heq
    · exact absurd hgt hlt.asymm

/-- An operation with a number the clock of `r` has reached is applied at
`r`. -/
theorem Delivery.mem_log (h : hC.Delivery k) (hk : Reachable P (.once allowed) k)
    {r : Fin n} {y : Op n M} (hy : y ∈ k.sent)
    (hle : stamp (tok y.msg) y.src ≤ (site (k.site r)).clock y.src) :
    y ∈ k.got r ∧ tok y.msg ∈ hC.log k r := by
  obtain ⟨w, hw, hwsrc, hwseq⟩ :=
    (hC.applied hk r).seq y.src _ (hC.one_le_seq hk y hy) hle
  obtain ⟨z, hz, rfl⟩ := hC.log_got hk hw
  have hzsent := hk.ledger.got_sent r z hz
  rw [hC.src_eq hk z hzsent] at hwsrc
  have heq : z = y := h.eq_of_seq hzsent hy hwsrc (by rw [hwsrc, hwseq])
  subst heq
  exact ⟨hz, hw⟩

/-- No site has applied more operations of `i` than `i` itself. -/
theorem Delivery.clock_le (h : hC.Delivery k) (hk : Reachable P (.once allowed) k)
    (r i : Fin n) : (site (k.site r)).clock i ≤ (site (k.site i)).clock i := by
  by_cases hpos : 1 ≤ (site (k.site r)).clock i
  · obtain ⟨w, hw, -, hwi⟩ := (hC.applied hk r).seq i _ hpos le_rfl
    obtain ⟨o, ho, rfl⟩ := hC.log_got hk hw
    rw [← hwi]
    exact h.entry_le o (hk.ledger.got_sent r o ho) i
  · have hnonneg : 0 ≤ (site (k.site i)).clock i := (hC.applied hk i).nonneg i
    omega

/-- The new operation contains what its site has applied. -/
theorem clock_lt_stamp (hk : Reachable P (.once allowed) k) {r : Fin n} {c : C} {s : S}
    {m : M} (hc : allowed c) (hp : P.prepare r c (k.site r) = some (s, some m)) :
    (site (k.site r)).clock < stamp (tok m) := by
  rw [(hC.stamp_issue hk hc hp).2, Pi.lt_def]
  refine ⟨?_, r, by rw [Function.update_self]; omega⟩
  intro i
  by_cases hi : i = r
  · subst hi
    rw [Function.update_self]
    exact (lt_add_one _).le
  · rw [Function.update_of_ne hi]

/-- A site is ready for what it issues. -/
theorem ready_issue (hk : Reachable P (.once allowed) k) {r : Fin n} {c : C} {s : S}
    {m : M} (hc : allowed c) (hp : P.prepare r c (k.site r) = some (s, some m)) :
    ready stamp src (site (k.site r)).clock (tok m) = true := by
  obtain ⟨hsrc, hstamp⟩ := hC.stamp_issue hk hc hp
  rw [ready_iff, hsrc, hstamp]
  refine ⟨?_, Function.update_self ..⟩
  intro i hi
  rw [Function.update_of_ne hi]

/-- Logs and clocks only grow when site `r` applies one more message. -/
theorem grows (hk : Reachable P (.once allowed) k) {k' : Config n S M}
    (hk' : Reachable P (.once allowed) k') {r : Fin n} {o : Op n M}
    (hself : k'.got r = k.got r ++ [o]) (hother : ∀ q, q ≠ r → k'.got q = k.got q)
    (q : Fin n) : (∀ x ∈ hC.log k q, x ∈ hC.log k' q) ∧
      (site (k.site q)).clock ≤ (site (k'.site q)).clock := by
  rw [hC.site_eq hk q, hC.site_eq hk' q]
  unfold log Config.arrivals
  by_cases hq : q = r
  · subst hq
    rw [hself, List.map_append]
    exact history_grows _ _
  · rw [hother q hq]
    exact ⟨fun _ hx => hx, le_rfl⟩

/-- The step lemma for a delivery. -/
theorem Delivery.receive (h : hC.Delivery k) (hk : Reachable P (.once allowed) k)
    {r : Fin n} {o : Op n M} {s : S} (hk' : Reachable P (.once allowed) (k.receive r o s)) :
    hC.Delivery (k.receive r o s) := by
  have hgrow := hC.grows hk hk' (k.receive_got_self r o s)
    (fun q hq => k.receive_got_ne o s hq)
  refine ⟨?_, ?_, ?_⟩
  · intro x hx
    exact (hgrow x.src).1 _ (h.own_applied x hx)
  · intro x hx i
    exact (h.entry_le x hx i).trans ((hgrow i).2 i)
  · intro x hx y hy hle
    refine (h.seen x hx y hy hle).imp_right fun hyx => ⟨hyx.1, ?_⟩
    exact hyx.2.trans (k.got_sublist_receive r x.src o s)

/-- The step lemma for an acceptance. -/
theorem Delivery.issue (h : hC.Delivery k) (hk : Reachable P (.once allowed) k)
    {r : Fin n} {c : C} {s s' : S} {m : M} {u : ℕ} (hc : allowed c)
    (hp : P.prepare r c (k.site r) = some (s, some m))
    (hk' : Reachable P (.once allowed) (k.issue ⟨u, r, m⟩ s')) :
    hC.Delivery (k.issue ⟨u, r, m⟩ s') := by
  obtain ⟨hsrc, hstamp⟩ := hC.stamp_issue hk hc hp
  have hself : (k.issue ⟨u, r, m⟩ s').got r = k.got r ++ [⟨u, r, m⟩] :=
    k.issue_got_self ⟨u, r, m⟩ s'
  have hgrow := hC.grows hk hk' hself (fun q hq => k.issue_got_ne ⟨u, r, m⟩ s' hq)
  have hnew : tok m ∈ hC.log (k.issue ⟨u, r, m⟩ s') r := by
    unfold log Config.arrivals
    rw [hself, List.map_append, List.map_singleton, history_snoc]
    refine List.mem_append_right _ (Site.mem_applies ?_)
    have hsite := hC.site_eq hk r
    unfold Config.arrivals at hsite
    rw [← hsite]
    exact hC.ready_issue hk hc hp
  refine ⟨?_, ?_, ?_⟩
  · intro x hx
    rw [Config.issue_sent, List.mem_append, List.mem_singleton] at hx
    rcases hx with hx | rfl
    · exact (hgrow x.src).1 _ (h.own_applied x hx)
    · exact hnew
  · intro x hx i
    rw [Config.issue_sent, List.mem_append, List.mem_singleton] at hx
    rcases hx with hx | rfl
    · exact (h.entry_le x hx i).trans ((hgrow i).2 i)
    · by_cases hi : i = r
      · subst hi
        exact (hC.applied hk' i).le_clock _ hnew i
      · show stamp (tok m) i ≤ _
        rw [hstamp, Function.update_of_ne hi]
        exact (h.clock_le hk r i).trans ((hgrow i).2 i)
  · intro x hx y hy hle
    rw [Config.issue_sent, List.mem_append, List.mem_singleton] at hx hy
    rcases hx with hx | rfl <;> rcases hy with hy | rfl
    · refine (h.seen x hx y hy hle).imp_right fun hyx => ⟨hyx.1, ?_⟩
      exact hyx.2.trans (k.got_sublist_issue x.src ⟨u, r, m⟩ s')
    · -- no earlier stamp counts the new operation
      have hnum : stamp (tok m) r = (site (k.site r)).clock r + 1 := by
        rw [hstamp, Function.update_self]
      have hold : stamp (tok x.msg) r ≤ (site (k.site r)).clock r := h.entry_le x hx r
      have hcon : stamp (tok m) r ≤ stamp (tok x.msg) r := hle
      omega
    · -- what the new stamp counts is applied where it is made
      have hmem : y ∈ k.got r ∧ tok y.msg ∈ hC.log k r := by
        by_cases hyr : y.src = r
        · subst hyr
          exact ⟨hk.ledger.own_got y hy, h.own_applied y hy⟩
        · refine h.mem_log hk hy ?_
          have hcount : stamp (tok m) y.src = (site (k.site r)).clock y.src := by
            rw [hstamp, Function.update_of_ne hyr]
          rw [← hcount]
          exact hle
      refine Or.inr ⟨?_, Config.Before.issue hmem.1⟩
      exact ((hC.applied hk r).le_clock _ hmem.2).trans_lt (hC.clock_lt_stamp hk hc hp)
    · exact Or.inl rfl

/-- The run lemma. -/
theorem delivery (hk : Reachable P (.once allowed) k) : hC.Delivery k := by
  induction hk with
  | start => exact ⟨by simp [Service.start], by simp [Service.start], by simp [Service.start]⟩
  | step hr hs ih =>
      have hk' := hr.step hs
      cases hs with
      | reject r c hc hp =>
          rename_i k s
          have hsite : ∀ q, site ((k.put r s).site q) = site (k.site q) := by
            intro q
            by_cases hq : q = r
            · subst hq
              rw [Config.put_site_self]
              exact hC.prepare hc hp
            · rw [Config.put_site_ne k s hq]
          refine ⟨ih.own_applied, ?_, ih.seen⟩
          intro o ho i
          rw [hsite]
          exact ih.entry_le o ho i
      | issue r c u hc hp hu hg he => exact ih.issue hr hc hp hk'
      | deliver r o ho hd hg he => exact ih.receive hr hk'

-- ========================================================== consequences

/-- Distinct operations have distinct tokens. -/
theorem Delivery.tok_inj (h : hC.Delivery k) (hk : Reachable P (.once allowed) k)
    {x y : Op n M} (hx : x ∈ k.sent) (hy : y ∈ k.sent) (heq : tok x.msg = tok y.msg) :
    x = y := by
  have hsrc : x.src = y.src := by
    rw [← hC.src_eq hk x hx, ← hC.src_eq hk y hy, heq]
  exact h.eq_of_seq hx hy hsrc (by rw [heq, hsrc])

/-- Nothing is applied twice, or applied and still buffered. -/
theorem Delivery.nodup (h : hC.Delivery k) (hk : Reachable P (.once allowed) k)
    (r : Fin n) : (hC.log k r ++ (site (k.site r)).buf).Nodup := by
  rw [(hC.perm hk r).nodup_iff]
  refine List.Nodup.map_on ?_ (hk.got_nodup (fun h => h) r)
  intro x hx y hy heq
  exact h.tok_inj hk (hk.ledger.got_sent r x hx) (hk.ledger.got_sent r y hy) heq

/-- What a site issues it applies alone: nothing in its buffer waits for
an operation of the site itself. -/
theorem applies_issue (hk : Reachable P (.once allowed) k) {r : Fin n} {c : C} {s : S}
    {m : M} (hc : allowed c) (hp : P.prepare r c (k.site r) = some (s, some m)) :
    (site (k.site r)).applies stamp src (tok m) = [tok m] := by
  have hready := hC.ready_issue hk hc hp
  have hm := (hC.stamp_issue hk hc hp).1
  have h := hC.delivery hk
  unfold Site.applies
  rw [if_pos hready, notified_eq_nil]
  intro x hx
  obtain ⟨o, ho, rfl⟩ : ∃ o ∈ k.got r, tok o.msg = x :=
    List.mem_map.mp ((hC.perm hk r).mem_iff.mp (List.mem_append_right _ hx))
  have hsent := hk.ledger.got_sent r o ho
  have hsrc := hC.src_eq hk o hsent
  -- the site's own operations are applied, so the source is another site
  have hother : o.src ≠ r := by
    intro hcon
    have hlog := h.own_applied o hsent
    rw [hcon] at hlog
    exact (List.nodup_append.mp (h.nodup hk r)).2.2 _ hlog _ hx rfl
  have hquiet := hC.quiet hk r _ hx
  rw [← Bool.not_eq_true, ready_iff] at hquiet ⊢
  intro ⟨hle, hseq⟩
  refine hquiet ⟨?_, ?_⟩
  · intro i hi
    by_cases hir : i = r
    · rw [hir]
      exact h.entry_le o hsent r
    · have hentry := hle i hi
      rw [tick_of_ready hready, hm, if_neg (Ne.symm hir), add_zero] at hentry
      exact hentry
  · rw [tick_of_ready hready, hm, hsrc, if_neg (Ne.symm hother), add_zero] at hseq
    rw [hsrc]
    exact hseq

/-- The operations of one site are ordered by their stamps. -/
theorem Delivery.stamp_total (h : hC.Delivery k) {x y : Op n M} (hx : x ∈ k.sent)
    (hy : y ∈ k.sent) (hsrc : x.src = y.src) :
    stamp (tok x.msg) ≤ stamp (tok y.msg) ∨ stamp (tok y.msg) ≤ stamp (tok x.msg) := by
  rcases le_total (stamp (tok x.msg) x.src) (stamp (tok y.msg) x.src) with hle | hle
  · rcases h.seen y hy x hx hle with heq | hlt
    · exact Or.inl (by rw [heq])
    · exact Or.inl hlt.1.le
  · rw [hsrc] at hle
    rcases h.seen x hx y hy hle with heq | hlt
    · exact Or.inl (by rw [heq])
    · exact Or.inr hlt.1.le

/-- The order of stamps is causal. -/
theorem Delivery.before_of_lt (h : hC.Delivery k) {x y : Op n M} (hx : x ∈ k.sent)
    (hy : y ∈ k.sent) (hlt : stamp (tok x.msg) < stamp (tok y.msg)) : k.Before x y := by
  rcases h.seen y hy x hx (hlt.le x.src) with heq | hbefore
  · rw [heq] at hlt
    exact absurd hlt (lt_irrefl _)
  · exact hbefore.2

/-- What is below an operation a site applied, the site applied before. -/
theorem Delivery.mem_before (h : hC.Delivery k) (hk : Reachable P (.once allowed) k)
    {r : Fin n} {y : Op n M} {x : O} {l₁ l₂ : List O} (hy : y ∈ k.sent)
    (hlog : hC.log k r = l₁ ++ x :: l₂) (hlt : stamp (tok y.msg) < stamp x) :
    tok y.msg ∈ l₁ := by
  have hx : x ∈ hC.log k r := by
    rw [hlog]
    exact List.mem_append_right _ List.mem_cons_self
  have hle : stamp x ≤ (site (k.site r)).clock := (hC.applied hk r).le_clock x hx
  have hmem := (h.mem_log hk hy ((hlt.le y.src).trans (hle y.src))).2
  have hordered := (hC.applied hk r).ordered
  rw [hlog] at hmem hordered
  rcases List.mem_append.mp hmem with hmem | hmem
  · exact hmem
  rcases List.mem_cons.mp hmem with heq | hmem
  · rw [heq] at hlt
    exact absurd hlt (lt_irrefl _)
  · have hafter := (List.pairwise_cons.mp (List.pairwise_append.mp hordered).2.1).1
    exact absurd hlt.le (hafter _ hmem)

/-- A site that received everything below what it received has nothing
left in its buffer: the least operation there would be ready. -/
theorem Delivery.buf_eq_nil (h : hC.Delivery k) (hk : Reachable P (.once allowed) k)
    {r : Fin n} (hclosed : ∀ x ∈ k.got r, ∀ y ∈ k.sent,
      stamp (tok y.msg) < stamp (tok x.msg) → y ∈ k.got r) :
    (site (k.site r)).buf = [] := by
  by_contra hne
  obtain ⟨x₀, hx₀⟩ := List.exists_mem_of_ne_nil _ hne
  -- take a buffered operation with a least stamp
  have hfin : {o : Op n M | o ∈ k.got r ∧ tok o.msg ∈ (site (k.site r)).buf}.Finite :=
    (List.finite_toSet (k.got r)).subset fun o ho => ho.1
  have hinbuf : ∀ x ∈ (site (k.site r)).buf, ∃ o ∈ k.got r, tok o.msg = x := fun x hx =>
    List.mem_map.mp ((hC.perm hk r).mem_iff.mp (List.mem_append_right _ hx))
  obtain ⟨o₀, ho₀, rfl⟩ := hinbuf x₀ hx₀
  obtain ⟨b, ⟨hb, hbuf⟩, hmin⟩ :=
    hfin.exists_minimalFor (fun o => stamp (tok o.msg)) _ ⟨o₀, ho₀, hx₀⟩
  have hbsent := hk.ledger.got_sent r b hb
  have hsplit := List.nodup_append.mp (h.nodup hk r)
  -- so that everything below it is applied
  have hbelow : ∀ y ∈ k.sent, stamp (tok y.msg) < stamp (tok b.msg) →
      stamp (tok y.msg) ≤ (site (k.site r)).clock := by
    intro y hy hlt
    have hgot := hclosed b hb y hy hlt
    have hmem : tok y.msg ∈ hC.log k r ++ (site (k.site r)).buf :=
      (hC.perm hk r).mem_iff.mpr (List.mem_map_of_mem hgot)
    rcases List.mem_append.mp hmem with hlog | hybuf
    · exact (hC.applied hk r).le_clock _ hlog
    · exact absurd (hmin ⟨hgot, hybuf⟩ hlt.le) hlt.not_ge
  -- an operation its stamp counts, other than itself, is below it
  have hcounted : ∀ i m, 1 ≤ m → m ≤ stamp (tok b.msg) i →
      (i = b.src → m < stamp (tok b.msg) i) → m ≤ (site (k.site r)).clock i := by
    intro i m hm hmi hself
    have hmi' : m ≤ (site (k.site i)).clock i := hmi.trans (h.entry_le b hbsent i)
    obtain ⟨w, hw, hwsrc, hwi⟩ := (hC.applied hk i).seq i m hm hmi'
    obtain ⟨y, hy, rfl⟩ := hC.log_got hk hw
    have hysent := hk.ledger.got_sent i y hy
    rw [hC.src_eq hk y hysent] at hwsrc
    subst hwsrc
    rcases h.seen b hbsent y hysent (by rw [hwi]; exact hmi) with heq | hlt
    · subst heq
      have := hself rfl
      omega
    · rw [← hwi]
      exact hbelow y hysent hlt.1 y.src
  have hready : ready stamp src (site (k.site r)).clock (tok b.msg) = true := by
    rw [ready_iff, hC.src_eq hk b hbsent]
    constructor
    · intro i hi
      by_cases hpos : 1 ≤ stamp (tok b.msg) i
      · exact hcounted i _ hpos le_rfl fun hib => absurd hib hi
      · have hnonneg : 0 ≤ (site (k.site r)).clock i := (hC.applied hk r).nonneg i
        omega
    · have hone := hC.one_le_seq hk b hbsent
      have hnonneg : 0 ≤ (site (k.site r)).clock b.src := (hC.applied hk r).nonneg b.src
      have hprev : stamp (tok b.msg) b.src - 1 ≤ (site (k.site r)).clock b.src := by
        by_cases hpos : 1 ≤ stamp (tok b.msg) b.src - 1
        · exact hcounted b.src _ hpos (by omega) fun _ => by omega
        · omega
      have hnot : ¬ stamp (tok b.msg) b.src ≤ (site (k.site r)).clock b.src := by
        intro hle
        exact hsplit.2.2 _ (h.mem_log hk hbsent hle).2 _ hbuf rfl
      omega
  rw [hC.quiet hk r _ hbuf] at hready
  cases hready

/-- Every site of a causal service delivers in causal order. -/
theorem inCausalOrder (hk : Reachable P (.once allowed) k) (r : Fin n) :
    k.InCausalOrder tok stamp src r (site (k.site r)) (hC.log k r) := by
  have h := hC.delivery hk
  have hdrained : (∀ x ∈ k.got r, ∀ y ∈ k.sent,
      stamp (tok y.msg) < stamp (tok x.msg) → y ∈ k.got r) → (site (k.site r)).buf = [] :=
    h.buf_eq_nil hk
  refine ⟨?_, h.nodup hk r, ?_, hC.src_eq hk, (hC.applied hk r).count, hC.quiet hk r,
    hdrained, ?_⟩
  · obtain ⟨l, hl, hmap⟩ := exists_perm_of_perm_map (hC.perm hk r)
    obtain ⟨A, B, rfl, hA, hB⟩ := List.map_eq_append_iff.mp hmap
    exact ⟨A, B, hl, hl.nodup_iff.mpr (hk.got_nodup (fun h => h) r), hA, hB⟩
  · exact (hC.applied hk r).ordered.imp fun hnle hlt => hnle hlt.le
  · intro hclosed
    refine hdrained fun x hx y hy hlt => hclosed x hx y hy ?_
    exact Relation.TransGen.single (h.before_of_lt hy (hk.ledger.got_sent r x hx) hlt)

end Causal

end Replication
