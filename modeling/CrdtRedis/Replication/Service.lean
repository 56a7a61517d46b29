/-
Operation-based replication, stated once for every data type: `n` sites
hold a state each, a client command is PREPARED against the local state
of the site it reaches, and what the preparation yields is applied there
and broadcast; every other site applies the message when it arrives.

# What a run is

A run is a sequence of three kinds of step (`Step`): a command is
refused, a command is accepted (prepared, applied, broadcast), a
broadcast message is delivered. Delivery order is unconstrained — any
site may receive any message that was ever sent — and the `Policy` says
what else is promised: which commands clients submit (`allowed`), which
applications the run admits (`guard`), and whether a message may arrive
again where it already arrived (`dup`).

`prepare` and `effect` are partial. `none` is the absence of a defined
next state (the program leaves its defined behaviour there), so a run
has no step through it: every statement about reachable configurations
is about the runs that stay defined.

# The two ledgers

`sent` is every message of the run with the identity `uid` of its
operation, and `got r` the messages applied at `r`, own ones included,
in the order of their application. They are what a property of the run
reads: no state of the service mentions them.
-/
import Mathlib.Algebra.GroupWithZero.Nat
import Mathlib.Data.List.Nodup
import Mathlib.Logic.Function.Basic
import Mathlib.Logic.Relation

namespace Replication

/-- A replicated data type at `n` sites: the initial state of each site,
the preparation of a client command (a refusal carries no message), and
the application of a message. -/
structure Service (n : ℕ) (S C M : Type) where
  init : Fin n → S
  prepare : Fin n → C → S → Option (S × Option M)
  effect : Fin n → M → S → Option S

/-- One accepted operation: its identity in the run, the site that
accepted it, and the message it broadcasts. -/
structure Op (n : ℕ) (M : Type) where
  uid : ℕ
  src : Fin n
  msg : M

/-- A configuration of a run: site states and the two ledgers. -/
structure Config (n : ℕ) (S M : Type) where
  site : Fin n → S
  sent : List (Op n M)
  got : Fin n → List (Op n M)

/-- What a run promises beyond the service itself. -/
structure Policy (n : ℕ) (S C M : Type) where
  /-- The commands clients submit, accepted or not. -/
  allowed : C → Prop
  /-- The applications the run admits, read off the state before. -/
  guard : Fin n → M → S → Prop
  /-- Whether a message may reach a site it already reached. -/
  dup : Prop

variable {n : ℕ} {S C M : Type}

/-- Every application is admitted and each message arrives at most once
at a site; clients submit the commands `allowed`. -/
def Policy.once (allowed : C → Prop) : Policy n S C M :=
  ⟨allowed, fun _ _ _ => True, False⟩

/-- Every application is admitted and messages may arrive repeatedly. -/
def Policy.repeated (allowed : C → Prop) : Policy n S C M :=
  ⟨allowed, fun _ _ _ => True, True⟩

-- ==================================================== configurations

namespace Config

/-- Overwrite the state of site `r`. -/
def put (k : Config n S M) (r : Fin n) (s : S) : Config n S M :=
  { k with site := Function.update k.site r s }

/-- Site `r` applied `o` and moved to `s`. -/
def receive (k : Config n S M) (r : Fin n) (o : Op n M) (s : S) :
    Config n S M :=
  { k with
    site := Function.update k.site r s
    got := Function.update k.got r (k.got r ++ [o]) }

/-- Site `o.src` accepted `o`, applied it and broadcast it. -/
def issue (k : Config n S M) (o : Op n M) (s : S) : Config n S M :=
  { k.receive o.src o s with sent := k.sent ++ [o] }

variable (k : Config n S M) (r q : Fin n) (o : Op n M) (s : S)

@[simp] theorem put_sent : (k.put r s).sent = k.sent := rfl
@[simp] theorem put_got : (k.put r s).got = k.got := rfl
@[simp] theorem put_site_self : (k.put r s).site r = s := by simp [put]
@[simp] theorem receive_sent : (k.receive r o s).sent = k.sent := rfl
@[simp] theorem receive_site_self : (k.receive r o s).site r = s := by
  simp [receive]
@[simp] theorem receive_got_self :
    (k.receive r o s).got r = k.got r ++ [o] := by simp [receive]
@[simp] theorem issue_sent : (k.issue o s).sent = k.sent ++ [o] := rfl
@[simp] theorem issue_site_self : (k.issue o s).site o.src = s := by
  simp [issue]
@[simp] theorem issue_got_self :
    (k.issue o s).got o.src = k.got o.src ++ [o] := by simp [issue]

variable {q r}

theorem put_site_ne (h : q ≠ r) : (k.put r s).site q = k.site q := by
  simp [put, h]

theorem receive_site_ne (h : q ≠ r) :
    (k.receive r o s).site q = k.site q := by simp [receive, h]

theorem receive_got_ne (h : q ≠ r) :
    (k.receive r o s).got q = k.got q := by simp [receive, h]

theorem issue_site_ne (h : q ≠ o.src) :
    (k.issue o s).site q = k.site q := k.receive_site_ne o s h

theorem issue_got_ne (h : q ≠ o.src) :
    (k.issue o s).got q = k.got q := k.receive_got_ne o s h

variable (q r)

/-- Ledgers only grow. -/
theorem got_sublist_receive : (k.got q).Sublist ((k.receive r o s).got q) := by
  by_cases h : q = r
  · subst h
    rw [receive_got_self]
    exact List.sublist_append_left _ _
  · rw [k.receive_got_ne o s h]

theorem got_sublist_issue : (k.got q).Sublist ((k.issue o s).got q) :=
  k.got_sublist_receive o.src q o s

end Config

-- =============================================================== runs

/-- One step of a run. -/
inductive Step (P : Service n S C M) (pol : Policy n S C M) :
    Config n S M → Config n S M → Prop
  /-- The preparation refused the command; it may still have touched the
  local state. -/
  | reject {k : Config n S M} {s : S} (r : Fin n) (c : C)
      (hc : pol.allowed c) (hp : P.prepare r c (k.site r) = some (s, none)) :
      Step P pol k (k.put r s)
  /-- The command was accepted: applied locally and broadcast. -/
  | issue {k : Config n S M} {s s' : S} {m : M} (r : Fin n) (c : C) (u : ℕ)
      (hc : pol.allowed c) (hp : P.prepare r c (k.site r) = some (s, some m))
      (hu : ∀ o ∈ k.sent, o.uid ≠ u) (hg : pol.guard r m s)
      (he : P.effect r m s = some s') :
      Step P pol k (k.issue ⟨u, r, m⟩ s')
  /-- A broadcast message arrived at `r` and was applied. -/
  | deliver {k : Config n S M} {s : S} (r : Fin n) (o : Op n M)
      (ho : o ∈ k.sent) (hd : pol.dup ∨ o ∉ k.got r)
      (hg : pol.guard r o.msg (k.site r))
      (he : P.effect r o.msg (k.site r) = some s) :
      Step P pol k (k.receive r o s)

/-- The configuration every run starts from. -/
def Service.start (P : Service n S C M) : Config n S M :=
  ⟨P.init, [], fun _ => []⟩

/-- The configurations some run reaches. -/
inductive Reachable (P : Service n S C M) (pol : Policy n S C M) :
    Config n S M → Prop
  | start : Reachable P pol P.start
  | step {k k' : Config n S M} :
      Reachable P pol k → Step P pol k k' → Reachable P pol k'

variable {P : Service n S C M} {pol : Policy n S C M} {k : Config n S M}

/-- The invariant rule: true at the start, kept by every step of a
reachable configuration, hence true of every reachable one. -/
theorem Reachable.invariant {I : Config n S M → Prop} (h0 : I P.start)
    (hstep : ∀ {k k'}, Reachable P pol k → I k → Step P pol k k' → I k')
    (hk : Reachable P pol k) : I k := by
  induction hk with
  | start => exact h0
  | step hr hs ih => exact hstep hr ih hs

/-- A run of one service is a run of another that starts and prepares
alike and follows every application the first admits. -/
theorem Reachable.transfer {P' : Service n S C M} {pol' : Policy n S C M}
    (hinit : P'.init = P.init) (hprep : P'.prepare = P.prepare)
    (hallowed : ∀ c, pol.allowed c → pol'.allowed c)
    (heff : ∀ r m s s', pol.guard r m s → P.effect r m s = some s' →
      pol'.guard r m s ∧ P'.effect r m s = some s')
    (hdup : pol.dup → pol'.dup) (hk : Reachable P pol k) : Reachable P' pol' k := by
  induction hk with
  | start =>
      rw [show P.start = P'.start by rw [Service.start, Service.start, hinit]]
      exact .start
  | step _ hs ih =>
      refine ih.step ?_
      cases hs with
      | reject r c hc hp => exact .reject r c (hallowed c hc) (hprep ▸ hp)
      | issue r c u hc hp hu hg he =>
          obtain ⟨hg', he'⟩ := heff _ _ _ _ hg he
          exact .issue r c u (hallowed c hc) (hprep ▸ hp) hu hg' he'
      | deliver r o ho hd hg he =>
          obtain ⟨hg', he'⟩ := heff _ _ _ _ hg he
          exact .deliver r o ho (hd.imp_left hdup) hg' he'

/-- A run without repetition is a run with it. -/
theorem Reachable.repeated {allowed : C → Prop}
    (hk : Reachable P (.once allowed) k) : Reachable P (.repeated allowed) k := by
  refine hk.transfer rfl rfl ?_ ?_ ?_
  · exact fun _ hc => hc
  · exact fun _ _ _ _ _ he => ⟨trivial, he⟩
  · exact fun h => h.elim

/-- The service that applies a message only where `ok` says so: its runs
are the runs of `P` all of whose applications are admitted. -/
def Service.restrict (P : Service n S C M) (ok : Fin n → M → S → Bool) :
    Service n S C M :=
  { P with effect := fun r m s => if ok r m s then P.effect r m s else none }

theorem Reachable.of_restrict {ok : Fin n → M → S → Bool} {allowed : C → Prop}
    {guard : Fin n → M → S → Prop} (hok : ∀ r m s, ok r m s = true → guard r m s)
    (hk : Reachable (P.restrict ok) (.once allowed) k) :
    Reachable P ⟨allowed, guard, False⟩ k := by
  refine Reachable.transfer (P := P.restrict ok) rfl rfl ?_ ?_ ?_ hk
  · exact fun _ hc => hc
  · intro r m s s' _ he
    simp only [Service.restrict] at he
    split at he
    · next h => exact ⟨hok r m s h, he⟩
    · cases he
  · exact fun h => h

/-- The service that accepts a command only where `ok` says so: its runs
are the runs of `P` all of whose accepted commands were issued there. -/
def Service.limit (P : Service n S C M) (ok : Fin n → C → S → Bool) : Service n S C M :=
  { P with prepare := fun r c s => (P.prepare r c s).bind fun p =>
      if p.2.isNone || ok r c s then some p else none }

theorem Service.limit_prepare {ok : Fin n → C → S → Bool} {r : Fin n} {c : C} {s s' : S}
    {m : Option M} (hp : (P.limit ok).prepare r c s = some (s', m)) :
    P.prepare r c s = some (s', m) ∧ (m.isSome → ok r c s = true) := by
  obtain ⟨p, hp, hif⟩ := Option.bind_eq_some_iff.mp hp
  split at hif
  · next hok =>
      obtain rfl := Option.some.inj hif
      refine ⟨hp, fun hm => ?_⟩
      simpa [Option.isSome_iff_ne_none.mp hm] using hok
  · cases hif

theorem Service.limit_true (P : Service n S C M) : P.limit (fun _ _ _ => true) = P := by
  simp [Service.limit]

theorem Reachable.of_limit {ok : Fin n → C → S → Bool}
    (hk : Reachable (P.limit ok) pol k) : Reachable P pol k := by
  induction hk with
  | start => exact .start
  | step _ hs ih =>
      refine ih.step ?_
      cases hs with
      | reject r c hc hp => exact .reject r c hc (Service.limit_prepare hp).1
      | issue r c u hc hp hu hg he =>
          exact .issue r c u hc (Service.limit_prepare hp).1 hu hg he
      | deliver r o ho hd hg he => exact .deliver r o ho hd hg he

/-- A run that sends only good messages is a limited run, where a command
accepted outside the limits sends one that is not good. -/
theorem Reachable.limit {ok : Fin n → C → S → Bool} {G : M → Prop}
    (hok : ∀ {k : Config n S M} {r c s m}, Reachable P pol k →
      P.prepare r c (k.site r) = some (s, some m) → G m → ok r c (k.site r) = true)
    (hk : Reachable P pol k) (hgood : ∀ o ∈ k.sent, G o.msg) :
    Reachable (P.limit ok) pol k := by
  induction hk with
  | start => exact .start
  | @step k _ hr hs ih =>
      cases hs with
      | reject r c hc hp =>
          refine (ih hgood).step (.reject r c hc ?_)
          simp [Service.limit, hp]
      | issue r c u hc hp hu hg he =>
          refine (ih fun o ho => hgood o (List.mem_append_left _ ho)).step
            (.issue r c u hc ?_ hu hg he)
          have hin := hok hr hp (hgood ⟨u, r, _⟩ (List.mem_append_right _ List.mem_cons_self))
          simp [Service.limit, hp, hin]
      | deliver r o ho hd hg he => exact (ih hgood).step (.deliver r o ho hd hg he)

/-- The invariant rule for single sites: a relation between the state of
a site and what it applied. -/
theorem Reachable.got_forall {I : Fin n → S → List (Op n M) → Prop}
    (h0 : ∀ r, I r (P.init r) [])
    (hprep : ∀ {r c s s' m l}, pol.allowed c → I r s l →
      P.prepare r c s = some (s', m) → I r s' l)
    (heff : ∀ {r s s' l} (o : Op n M), pol.guard r o.msg s → I r s l →
      P.effect r o.msg s = some s' → I r s' (l ++ [o]))
    (hk : Reachable P pol k) : ∀ r, I r (k.site r) (k.got r) := by
  refine hk.invariant (I := fun k => ∀ r, I r (k.site r) (k.got r)) h0 ?_
  intro k k' _ ih hs q
  cases hs with
  | reject r c hc hp =>
      by_cases hq : q = r
      · subst hq
        rw [Config.put_site_self, Config.put_got]
        exact hprep hc (ih q) hp
      · rw [Config.put_site_ne k _ hq, Config.put_got]
        exact ih q
  | issue r c u hc hp hu hg he =>
      by_cases hq : q = r
      · subst hq
        rw [show (k.issue _ _).site q = _ from Config.issue_site_self k _ _,
          show (k.issue _ _).got q = k.got q ++ [_] from Config.issue_got_self k _ _]
        exact heff _ hg (hprep hc (ih q) hp) he
      · rw [Config.issue_site_ne k _ _ hq, Config.issue_got_ne k _ _ hq]
        exact ih q
  | deliver r o ho hd hg he =>
      by_cases hq : q = r
      · subst hq
        rw [Config.receive_site_self, Config.receive_got_self]
        exact heff o hg (ih q) he
      · rw [Config.receive_site_ne k _ _ hq, Config.receive_got_ne k _ _ hq]
        exact ih q

/-- The invariant rule for a property of single site states. -/
theorem Reachable.site_forall {I : Fin n → S → Prop} (h0 : ∀ r, I r (P.init r))
    (hprep : ∀ {r c s s' m}, pol.allowed c → I r s →
      P.prepare r c s = some (s', m) → I r s')
    (heff : ∀ {r m s s'}, pol.guard r m s → I r s →
      P.effect r m s = some s' → I r s')
    (hk : Reachable P pol k) : ∀ r, I r (k.site r) :=
  hk.got_forall (I := fun r s _ => I r s) h0 (fun hc h hp => hprep hc h hp)
    (fun _ hg h he => heff hg h he)

/-- The invariant rule for sites, their ledgers and messages together: a
site where `I` holds issues only messages of which `Q` holds, and applying
such a message keeps `I`. `F` is what is known of all the run sends. -/
theorem Reachable.run_forall {I : Fin n → S → List (Op n M) → Prop} {Q F : Op n M → Prop}
    (hF : ∀ o ∈ k.sent, F o) (h0 : ∀ r, I r (P.init r) [])
    (hprep : ∀ {r c s s' m l}, pol.allowed c → I r s l →
      P.prepare r c s = some (s', m) → I r s' l)
    (hnew : ∀ {r c s s' m l u}, pol.allowed c → I r s l →
      P.prepare r c s = some (s', some m) → F ⟨u, r, m⟩ → Q ⟨u, r, m⟩)
    (heff : ∀ {r o s s' l}, pol.guard r o.msg s → I r s l → F o → Q o →
      P.effect r o.msg s = some s' → I r s' (l ++ [o]))
    (hk : Reachable P pol k) :
    (∀ r, I r (k.site r) (k.got r)) ∧ ∀ o ∈ k.sent, Q o := by
  refine hk.invariant (I := fun k => (∀ o ∈ k.sent, F o) →
    (∀ r, I r (k.site r) (k.got r)) ∧ ∀ o ∈ k.sent, Q o)
    (fun _ => ⟨h0, by simp [Service.start]⟩) ?_ hF
  intro k k' _ ih hs hF
  cases hs with
  | reject r c hc hp =>
      obtain ⟨hI, hsent⟩ := ih hF
      refine ⟨fun q => ?_, hsent⟩
      by_cases hq : q = r
      · rw [hq, Config.put_site_self, Config.put_got]
        exact hprep hc (hI r) hp
      · rw [Config.put_site_ne k _ hq, Config.put_got]
        exact hI q
  | issue r c u hc hp hu hg he =>
      rw [Config.issue_sent] at hF
      obtain ⟨hI, hsent⟩ := ih fun o ho => hF o (List.mem_append_left _ ho)
      have hnewF := hF _ (List.mem_append_right _ List.mem_cons_self)
      have hm := hnew hc (hI r) hp hnewF
      refine ⟨fun q => ?_, fun o ho => ?_⟩
      · by_cases hq : q = r
        · rw [hq, show (k.issue _ _).site r = _ from Config.issue_site_self k _ _,
            show (k.issue _ _).got r = k.got r ++ [_] from Config.issue_got_self k _ _]
          exact heff hg (hprep hc (hI r) hp) hnewF hm he
        · rw [Config.issue_site_ne k _ _ hq, Config.issue_got_ne k _ _ hq]
          exact hI q
      · rw [Config.issue_sent, List.mem_append, List.mem_singleton] at ho
        rcases ho with ho | rfl
        · exact hsent o ho
        · exact hm
  | deliver r o ho hd hg he =>
      obtain ⟨hI, hsent⟩ := ih hF
      refine ⟨fun q => ?_, hsent⟩
      by_cases hq : q = r
      · rw [hq, Config.receive_site_self, Config.receive_got_self]
        exact heff hg (hI r) (hF o ho) (hsent o ho) he
      · rw [Config.receive_site_ne k _ _ hq, Config.receive_got_ne k _ _ hq]
        exact hI q

-- ======================================================== the ledgers

/-- What the ledgers of a run always satisfy: identities are unique, a
site applies only what was sent, and it applied everything it sent. -/
structure Config.Ledger (k : Config n S M) : Prop where
  uid_inj : ∀ o ∈ k.sent, ∀ o' ∈ k.sent, o.uid = o'.uid → o = o'
  got_sent : ∀ r, ∀ o ∈ k.got r, o ∈ k.sent
  own_got : ∀ o ∈ k.sent, o ∈ k.got o.src

theorem Config.Ledger.put (h : k.Ledger) (r : Fin n) (s : S) :
    (k.put r s).Ledger := ⟨h.uid_inj, h.got_sent, h.own_got⟩

theorem Config.Ledger.receive (h : k.Ledger) {r : Fin n} {o : Op n M}
    (ho : o ∈ k.sent) (s : S) : (k.receive r o s).Ledger := by
  refine ⟨h.uid_inj, ?_, ?_⟩
  · intro q o' ho'
    by_cases hq : q = r
    · subst hq
      rw [Config.receive_got_self, List.mem_append] at ho'
      rcases ho' with hold | hnew
      · exact h.got_sent q o' hold
      · rw [List.mem_singleton.mp hnew]
        exact ho
    · rw [Config.receive_got_ne k o s hq] at ho'
      exact h.got_sent q o' ho'
  · intro o' ho'
    have hown := h.own_got o' ho'
    by_cases hq : o'.src = r
    · rw [hq, Config.receive_got_self]
      rw [hq] at hown
      exact List.mem_append_left _ hown
    · rw [Config.receive_got_ne k o s hq]
      exact hown

theorem Config.Ledger.issue (h : k.Ledger) {o : Op n M}
    (hu : ∀ o' ∈ k.sent, o'.uid ≠ o.uid) (s : S) : (k.issue o s).Ledger := by
  refine ⟨?_, ?_, ?_⟩
  · intro a ha b hb hab
    rw [Config.issue_sent, List.mem_append, List.mem_singleton] at ha hb
    rcases ha with ha | ha <;> rcases hb with hb | hb
    · exact h.uid_inj a ha b hb hab
    · rw [hb] at hab
      exact absurd hab (hu a ha)
    · rw [ha] at hab
      exact absurd hab.symm (hu b hb)
    · rw [ha, hb]
  · intro q o' ho'
    rw [Config.issue_sent]
    by_cases hq : q = o.src
    · subst hq
      rw [Config.issue_got_self, List.mem_append] at ho'
      rcases ho' with hold | hnew
      · exact List.mem_append_left _ (h.got_sent _ o' hold)
      · exact List.mem_append_right _ hnew
    · rw [Config.issue_got_ne k o s hq] at ho'
      exact List.mem_append_left _ (h.got_sent q o' ho')
  · intro o' ho'
    rw [Config.issue_sent, List.mem_append, List.mem_singleton] at ho'
    rcases ho' with hold | hnew
    · have hown := h.own_got o' hold
      by_cases hq : o'.src = o.src
      · rw [hq, Config.issue_got_self]
        rw [hq] at hown
        exact List.mem_append_left _ hown
      · rw [Config.issue_got_ne k o s hq]
        exact hown
    · rw [hnew, Config.issue_got_self]
      exact List.mem_append_right _ (List.mem_singleton.mpr rfl)

/-- Every reachable configuration keeps its ledgers. -/
theorem Reachable.ledger (hk : Reachable P pol k) : k.Ledger := by
  refine hk.invariant ?_ ?_
  · exact ⟨by simp [Service.start], by simp [Service.start],
      by simp [Service.start]⟩
  · intro k k' _ hl hs
    cases hs with
    | reject r c hc hp => exact hl.put r _
    | issue r c u hc hp hu hg he => exact hl.issue hu _
    | deliver r o ho hd hg he => exact hl.receive ho _

/-- An accepted operation is new to every site. -/
theorem Config.Ledger.fresh (h : k.Ledger) {o : Op n M}
    (hu : ∀ o' ∈ k.sent, o'.uid ≠ o.uid) (r : Fin n) : o ∉ k.got r :=
  fun ho => hu o (h.got_sent r o ho) rfl

/-- A site that applied the identities another did applied the same. -/
theorem Config.Ledger.got_subset_of_uid (h : k.Ledger) {r q : Fin n}
    (hsub : ∀ u ∈ (k.got r).map Op.uid, u ∈ (k.got q).map Op.uid) :
    ∀ o ∈ k.got r, o ∈ k.got q := by
  intro o ho
  obtain ⟨o', ho', huid⟩ := List.mem_map.mp (hsub o.uid (List.mem_map_of_mem ho))
  exact h.uid_inj o' (h.got_sent q o' ho') o (h.got_sent r o ho) huid ▸ ho'

/-- Where the identities of all that was sent have arrived, all that was
sent has. -/
theorem Config.Ledger.got_of_uid (h : k.Ledger)
    (hall : ∀ r, ∀ u ∈ k.sent.map Op.uid, u ∈ (k.got r).map Op.uid) :
    ∀ r, ∀ o ∈ k.sent, o ∈ k.got r := by
  intro r o ho
  obtain ⟨o', ho', huid⟩ := List.mem_map.mp (hall r o.uid (List.mem_map_of_mem ho))
  exact h.uid_inj o' (h.got_sent r o' ho') o ho huid ▸ ho'

/-- Where messages arrive at most once, no site applies one twice. -/
theorem Reachable.got_nodup (hdup : ¬ pol.dup) (hk : Reachable P pol k) :
    ∀ r, (k.got r).Nodup := by
  refine hk.invariant (I := fun k => ∀ r, (k.got r).Nodup) ?_ ?_
  · exact fun _ => List.nodup_nil
  · intro k k' hr hnd hs
    have hsnoc : ∀ {r o}, o ∉ k.got r → (k.got r ++ [o]).Nodup := by
      intro r o ho
      exact List.nodup_append_comm.mp (List.nodup_cons.mpr ⟨ho, hnd r⟩)
    cases hs with
    | reject r c hc hp => exact hnd
    | issue r c u hc hp hu hg he =>
        intro q
        by_cases hq : q = r
        · subst hq
          rw [show ((k.issue _ _).got q) = k.got q ++ [_] from
            Config.issue_got_self k _ _]
          exact hsnoc (hr.ledger.fresh hu q)
        · rw [Config.issue_got_ne k _ _ hq]
          exact hnd q
    | deliver r o ho hd hg he =>
        intro q
        by_cases hq : q = r
        · subst hq
          rw [Config.receive_got_self]
          exact hsnoc (hd.resolve_left hdup)
        · rw [Config.receive_got_ne k _ _ hq]
          exact hnd q

-- ============================================ facts about what is sent

/-- What every acceptance makes true of the new operation is true of
every operation sent. -/
theorem Reachable.sent_forall {Q : Op n M → Prop}
    (h : ∀ {k r c s m u}, Reachable P pol k → (∀ o ∈ k.sent, Q o) →
      pol.allowed c → P.prepare r c (k.site r) = some (s, some m) →
      Q ⟨u, r, m⟩)
    (hk : Reachable P pol k) : ∀ o ∈ k.sent, Q o := by
  refine hk.invariant (I := fun k => ∀ o ∈ k.sent, Q o)
    (by simp [Service.start]) ?_
  intro k k' hr ih hs
  cases hs with
  | reject r c hc hp => exact ih
  | issue r c u hc hp hu hg he =>
      intro o ho
      rw [Config.issue_sent, List.mem_append, List.mem_singleton] at ho
      rcases ho with ho | rfl
      · exact ih o ho
      · exact h hr ih hc hp
  | deliver r o ho hd hg he => exact ih

/-- What every acceptance makes true between the operations sent before
and the new one is true between any two operations sent, one way round or
the other. -/
theorem Reachable.sent_pairs {Q : Op n M → Op n M → Prop}
    (h : ∀ {k r c s m u}, Reachable P pol k → pol.allowed c →
      P.prepare r c (k.site r) = some (s, some m) →
      ∀ o ∈ k.sent, Q o ⟨u, r, m⟩)
    (hk : Reachable P pol k) :
    ∀ a ∈ k.sent, ∀ b ∈ k.sent, a ≠ b → Q a b ∨ Q b a := by
  refine hk.invariant
    (I := fun k => ∀ a ∈ k.sent, ∀ b ∈ k.sent, a ≠ b → Q a b ∨ Q b a)
    (by simp [Service.start]) ?_
  intro k k' hr ih hs
  cases hs with
  | reject r c hc hp => exact ih
  | issue r c u hc hp hu hg he =>
      intro a ha b hb hab
      rw [Config.issue_sent, List.mem_append, List.mem_singleton] at ha hb
      rcases ha with ha | rfl <;> rcases hb with hb | rfl
      · exact ih a ha b hb hab
      · exact Or.inl (h hr hc hp a ha)
      · exact Or.inr (h hr hc hp b hb)
      · exact absurd rfl hab
  | deliver r o ho hd hg he => exact ih

/-- What every acceptance makes true of the new operation and its site,
and every step of that site keeps, is true of every operation sent. -/
theorem Reachable.own_forall {Q : Op n M → S → Prop}
    (hnew : ∀ {r c u s s' s'' m}, pol.allowed c →
      P.prepare r c s = some (s', some m) → P.effect r m s' = some s'' →
      Q ⟨u, r, m⟩ s'')
    (hprep : ∀ {o r c s s' m}, pol.allowed c → Q o s →
      P.prepare r c s = some (s', m) → Q o s')
    (heff : ∀ {o r m s s'}, Q o s → P.effect r m s = some s' → Q o s')
    (hk : Reachable P pol k) : ∀ o ∈ k.sent, Q o (k.site o.src) := by
  refine hk.invariant (I := fun k => ∀ o ∈ k.sent, Q o (k.site o.src))
    (by simp [Service.start]) ?_
  intro k k' _ ih hs o ho
  cases hs with
  | reject r c hc hp =>
      by_cases hq : o.src = r
      · rw [hq, Config.put_site_self]
        have hold := ih o ho
        rw [hq] at hold
        exact hprep hc hold hp
      · rw [Config.put_site_ne k _ hq]
        exact ih o ho
  | issue r c u hc hp hu hg he =>
      rw [Config.issue_sent, List.mem_append, List.mem_singleton] at ho
      rcases ho with ho | rfl
      · by_cases hq : o.src = r
        · rw [hq, show (k.issue _ _).site r = _ from Config.issue_site_self k _ _]
          have hold := ih o ho
          rw [hq] at hold
          exact heff (hprep hc hold hp) he
        · rw [Config.issue_site_ne k _ _ hq]
          exact ih o ho
      · rw [Config.issue_site_self]
        exact hnew hc hp he
  | deliver r o' ho' hd hg he =>
      by_cases hq : o.src = r
      · rw [hq, Config.receive_site_self]
        have hold := ih o ho
        rw [hq] at hold
        exact heff hold he
      · rw [Config.receive_site_ne k _ _ hq]
        exact ih o ho

/-- What every acceptance makes true between the new operation and what
its site had applied is true of every operation sent and what its site had
applied before it. -/
theorem Reachable.sent_got {Q : List (Op n M) → Op n M → Prop}
    (h : ∀ {k r c s m u}, Reachable P pol k → pol.allowed c →
      P.prepare r c (k.site r) = some (s, some m) → Q (k.got r) ⟨u, r, m⟩)
    (hk : Reachable P pol k) : ∀ o ∈ k.sent,
      ∃ l₁ l₂, k.got o.src = l₁ ++ o :: l₂ ∧ o ∉ l₁ ∧ Q l₁ o := by
  refine hk.invariant (I := fun k => ∀ o ∈ k.sent,
    ∃ l₁ l₂, k.got o.src = l₁ ++ o :: l₂ ∧ o ∉ l₁ ∧ Q l₁ o) (by simp [Service.start]) ?_
  -- a ledger that grows at its end keeps what comes before `o`
  have hgrow : ∀ {l l₁ l₂ : List (Op n M)} {o o' : Op n M}, l = l₁ ++ o :: l₂ →
      l ++ [o'] = l₁ ++ o :: (l₂ ++ [o']) := by
    intro l l₁ l₂ o o' heq
    rw [heq, List.append_assoc, List.cons_append]
  intro k k' hr ih hs o ho
  cases hs with
  | reject r c hc hp => exact ih o ho
  | @issue s s' m r c u hc hp hu hg he =>
      rw [Config.issue_sent, List.mem_append, List.mem_singleton] at ho
      rcases ho with ho | rfl
      · obtain ⟨l₁, l₂, hgot, hnot, hQ⟩ := ih o ho
        by_cases hq : o.src = r
        · refine ⟨l₁, l₂ ++ [⟨u, r, m⟩], ?_, hnot, hQ⟩
          rw [hq, show (k.issue _ _).got r = k.got r ++ [_] from
            Config.issue_got_self k _ _]
          rw [hq] at hgot
          exact hgrow hgot
        · rw [Config.issue_got_ne k _ _ hq]
          exact ⟨l₁, l₂, hgot, hnot, hQ⟩
      · rw [Config.issue_got_self]
        exact ⟨k.got r, [], rfl, hr.ledger.fresh hu r, h hr hc hp⟩
  | deliver r o' ho' hd hg he =>
      obtain ⟨l₁, l₂, hgot, hnot, hQ⟩ := ih o ho
      by_cases hq : o.src = r
      · refine ⟨l₁, l₂ ++ [o'], ?_, hnot, hQ⟩
        rw [hq, Config.receive_got_self]
        rw [hq] at hgot
        exact hgrow hgot
      · rw [Config.receive_got_ne k _ _ hq]
        exact ⟨l₁, l₂, hgot, hnot, hQ⟩

/-- What comes before the first occurrence of an entry. -/
theorem eq_of_first {α : Type} {l₁ l₂ l₁' l₂' : List α} {o : α}
    (h : l₁ ++ o :: l₂ = l₁' ++ o :: l₂') (hl : o ∉ l₁) (hl' : o ∉ l₁') : l₁ = l₁' := by
  -- the longer of the two would hold `o`
  rcases List.append_eq_append_iff.mp h with ⟨as, rfl, has⟩ | ⟨as, rfl, has⟩
  all_goals
    cases as with
    | nil => rw [List.append_nil]
    | cons x as =>
        rw [List.cons_append] at has
        obtain ⟨rfl, -⟩ := List.cons.inj has
        simp at hl hl'

/-- Site `o.src` had applied `a` when it accepted `o`: `a` comes before
the first application of `o` there. -/
def Config.Saw (k : Config n S M) (o a : Op n M) : Prop :=
  ∃ l₁ l₂, k.got o.src = l₁ ++ o :: l₂ ∧ o ∉ l₁ ∧ a ∈ l₁

-- ================================================= states as folds

/-- The fold rule: a view of the state that no preparation changes and
every application moves by `g` is the fold of `g` over the messages
applied at the site. -/
theorem Reachable.fold {T : Type} (view : Fin n → S → T)
    (g : Fin n → T → M → T)
    (hprep : ∀ r c s s' m, pol.allowed c → P.prepare r c s = some (s', m) →
      view r s' = view r s)
    (heff : ∀ r m s s', pol.guard r m s → P.effect r m s = some s' →
      view r s' = g r (view r s) m)
    (hk : Reachable P pol k) :
    ∀ r, view r (k.site r)
      = ((k.got r).map Op.msg).foldl (g r) (view r (P.init r)) := by
  refine hk.got_forall
    (I := fun r s l => view r s = (l.map Op.msg).foldl (g r) (view r (P.init r)))
    (fun _ => rfl) ?_ ?_
  · intro r c s s' m l hc ih hp
    rw [hprep r c s s' m hc hp]
    exact ih
  · intro r s s' l o hg ih he
    rw [List.map_append, List.foldl_append, ← ih, heff r o.msg s s' hg he]
    rfl

-- ================================================== executable runs

/-- A schedule names its sites by literals: two sites, or three. -/
instance (priority := 2000) neZero_two : NeZero 2 := ⟨by decide⟩

instance (priority := 2000) neZero_three : NeZero 3 := ⟨by decide⟩

/-- A scheduled step: submit a command, or deliver the `i`-th message
ever sent. -/
inductive Act (n : ℕ) (C : Type)
  | submit (r : Fin n) (c : C)
  | deliver (r : Fin n) (i : ℕ)

/-- Run one scheduled step; operations are identified by their position
in `sent`. -/
def Service.exec (P : Service n S C M) (k : Config n S M) :
    Act n C → Option (Config n S M)
  | .submit r c =>
      match P.prepare r c (k.site r) with
      | none => none
      | some (s, none) => some (k.put r s)
      | some (s, some m) =>
          (P.effect r m s).map (k.issue ⟨k.sent.length, r, m⟩)
  | .deliver r i =>
      match k.sent[i]? with
      | none => none
      | some o =>
          if ∃ o' ∈ k.got r, o'.uid = o.uid then none
          else (P.effect r o.msg (k.site r)).map (k.receive r o)

/-- Run a schedule from `k`. -/
def Service.run (P : Service n S C M) (k : Config n S M) :
    List (Act n C) → Option (Config n S M)
  | [] => some k
  | a :: rest => (P.exec k a).bind fun k' => P.run k' rest

/-- The commands a schedule submits are all among `allowed`. -/
def Act.Submits (allowed : C → Prop) : Act n C → Prop
  | .submit _ c => allowed c
  | .deliver _ _ => True

instance {allowed : C → Prop} [DecidablePred allowed] (a : Act n C) :
    Decidable (a.Submits allowed) :=
  match a with
  | .submit _ c => inferInstanceAs (Decidable (allowed c))
  | .deliver _ _ => inferInstanceAs (Decidable True)

/-- Identities below the length of the ledger stay so along a scheduled
step, and the step is a step of the runs without repetition. -/
theorem Service.exec_step {allowed : C → Prop} {a : Act n C}
    {k' : Config n S M} (ha : a.Submits allowed)
    (hlt : ∀ o ∈ k.sent, o.uid < k.sent.length)
    (hex : P.exec k a = some k') :
    Step P (Policy.once allowed) k k' ∧
      ∀ o ∈ k'.sent, o.uid < k'.sent.length := by
  cases a with
  | submit r c =>
      simp only [Service.exec] at hex
      split at hex
      · cases hex
      · next s hp =>
          injection hex with hk'
          subst hk'
          exact ⟨.reject r c ha hp, hlt⟩
      · next s m hp =>
          cases he : P.effect r m s with
          | none => simp [he] at hex
          | some s' =>
              rw [he, Option.map_some] at hex
              injection hex with hk'
              subst hk'
              refine ⟨.issue r c _ ha hp (fun o ho => Nat.ne_of_lt (hlt o ho)) trivial he,
                ?_⟩
              intro o ho
              rw [Config.issue_sent, List.mem_append, List.mem_singleton] at ho
              rw [Config.issue_sent, List.length_append, List.length_singleton]
              rcases ho with ho | rfl
              · exact Nat.lt_succ_of_lt (hlt o ho)
              · exact Nat.lt_succ_self _
  | deliver r i =>
      simp only [Service.exec] at hex
      split at hex
      · cases hex
      · next o ho =>
          split at hex
          · cases hex
          · next hnew =>
              cases he : P.effect r o.msg (k.site r) with
              | none => simp [he] at hex
              | some s' =>
                  rw [he, Option.map_some] at hex
                  injection hex with hk'
                  subst hk'
                  refine ⟨.deliver r o (List.mem_of_getElem? ho)
                    (Or.inr fun hmem => hnew ⟨o, hmem, rfl⟩) trivial he, hlt⟩

/-- A schedule that runs through reaches its last configuration. -/
theorem Service.run_reachable {allowed : C → Prop} {acts : List (Act n C)}
    (hacts : ∀ a ∈ acts, a.Submits allowed)
    (hrun : P.run P.start acts = some k) :
    Reachable P (Policy.once allowed) k := by
  suffices key : ∀ (acts : List (Act n C)) (k₀ : Config n S M),
      (∀ a ∈ acts, a.Submits allowed) →
      Reachable P (Policy.once allowed) k₀ →
      (∀ o ∈ k₀.sent, o.uid < k₀.sent.length) →
      P.run k₀ acts = some k → Reachable P (Policy.once allowed) k from
    key acts P.start hacts .start (by simp [Service.start]) hrun
  intro acts
  induction acts with
  | nil =>
      intro k₀ _ hr _ hrun
      simp only [Service.run, Option.some.injEq] at hrun
      exact hrun ▸ hr
  | cons a rest ih =>
      intro k₀ hsub hr hlt hrun
      unfold Service.run at hrun
      cases hex : P.exec k₀ a with
      | none => simp [hex] at hrun
      | some k₁ =>
          rw [hex, Option.bind_some] at hrun
          obtain ⟨hs, hlt'⟩ :=
            Service.exec_step (hsub a List.mem_cons_self) hlt hex
          exact ih k₁ (fun b hb => hsub b (List.mem_cons_of_mem a hb))
            (hr.step hs) hlt' hrun

end Replication
