/-
A network of first-in first-out links between the sites of a replicated
data type, and the runs of `Service.lean` it gives.

# The network

Every ordered pair of sites has a link, a queue of frames. A site that
opens a connection sends a greeting on it and counts the other end among
its peers at once; the other end does so when the greeting arrives. An
accepted command is posted to the peers of the moment, and nothing is
ever sent again: what was accepted before a site became a peer does not
reach that site.

# What is shown

A run of the network is a run of the service in which no message arrives
twice, with the same site states (`MeshReachable.tracks`). For two sites
`r` and `q` the operations of `r` are, in order: those accepted before `q`
was a peer of `r`, those `q` applied, those on the link (`Mesh.Flow`). So
the operations of one site are applied by another in the order they were
accepted, without gaps.

`full` is the discipline of a network whose sites accept commands only
when every other site is their peer. There nothing is accepted too early,
and where the links are empty every site applied everything
(`Mesh.Tracks.got_all`).
-/
import CrdtRedis.Replication.Service
import Mathlib.Order.Fin.Basic

namespace Replication

/-- What a link carries: the greeting of a connection, or a message. -/
inductive Frame (M : Type)
  | hello
  | msg (m : M)

/-- Site states, the queue of each link, the peers of each site, and which
site opened a connection to which. -/
structure Mesh (n : ℕ) (S M : Type) where
  site : Fin n → S
  link : Fin n → Fin n → List (Frame M)
  peers : Fin n → List (Fin n)
  joined : Fin n → Fin n → Prop

variable {n : ℕ} {S C M : Type}

namespace Mesh

/-- Overwrite the queue from `r` to `q`. -/
def put (m : Mesh n S M) (r q : Fin n) (fs : List (Frame M)) : Mesh n S M :=
  { m with link := Function.update m.link r (Function.update (m.link r) q fs) }

/-- Put a frame on the links from `r` to its peers. -/
def post (m : Mesh n S M) (r : Fin n) (f : Frame M) : Mesh n S M :=
  { m with link := Function.update m.link r fun q =>
      if q ∈ m.peers r then m.link r q ++ [f] else m.link r q }

/-- Site `r` counts `q` among its peers. -/
def meet (m : Mesh n S M) (r q : Fin n) : Mesh n S M :=
  { m with peers := Function.update m.peers r (m.peers r ++ [q]) }

/-- Site `r` moved to `s`. -/
def move (m : Mesh n S M) (r : Fin n) (s : S) : Mesh n S M :=
  { m with site := Function.update m.site r s }

/-- Site `r` opens a connection to `q`. -/
def connect (m : Mesh n S M) (r q : Fin n) : Mesh n S M :=
  { (m.put r q (m.link r q ++ [.hello])).meet r q with
    joined := fun a b => m.joined a b ∨ a = r ∧ b = q }

variable {m : Mesh n S M} {r q a b : Fin n} {fs : List (Frame M)}

theorem put_link (m : Mesh n S M) (r q : Fin n) (fs : List (Frame M)) (a b : Fin n) :
    (m.put r q fs).link a b = if a = r ∧ b = q then fs else m.link a b := by
  unfold put
  by_cases ha : a = r
  · subst ha
    by_cases hb : b = q
    · subst hb
      simp
    · simp [hb]
  · simp [ha]

theorem post_link (m : Mesh n S M) (r : Fin n) (f : Frame M) (a b : Fin n) :
    (m.post r f).link a b
      = if a = r ∧ b ∈ m.peers r then m.link a b ++ [f] else m.link a b := by
  show Function.update m.link r
    (fun q => if q ∈ m.peers r then m.link r q ++ [f] else m.link r q) a b = _
  by_cases ha : a = r
  · subst ha
    rw [Function.update_self]
    exact if_congr (by rw [eq_self_iff_true, true_and]) rfl rfl
  · rw [Function.update_of_ne ha, if_neg fun hcon => ha hcon.1]

theorem mem_meet_peers : b ∈ (m.meet r q).peers a ↔ b ∈ m.peers a ∨ a = r ∧ b = q := by
  unfold meet
  by_cases ha : a = r
  · subst ha
    simp
  · simp [ha]

end Mesh

/-- One step of the network. -/
inductive MeshStep (P : Service n S C M) (allowed : C → Prop) (full : Prop) :
    Mesh n S M → Mesh n S M → Prop
  /-- The preparation refused the command. -/
  | reject {m : Mesh n S M} {s : S} (r : Fin n) (c : C) (hc : allowed c)
      (hp : P.prepare r c (m.site r) = some (s, none)) :
      MeshStep P allowed full m (m.move r s)
  /-- The command was accepted: applied locally and posted to the peers. -/
  | issue {m : Mesh n S M} {s s' : S} {msg : M} (r : Fin n) (c : C) (hc : allowed c)
      (hp : P.prepare r c (m.site r) = some (s, some msg))
      (he : P.effect r msg s = some s') (hf : full → ∀ q, q ≠ r → q ∈ m.peers r) :
      MeshStep P allowed full m ((m.move r s').post r (.msg msg))
  /-- Site `r` opens a connection to a site it has none with. -/
  | connect {m : Mesh n S M} (r q : Fin n) (hne : r ≠ q) (hrq : ¬ m.joined r q)
      (hqr : ¬ m.joined q r) : MeshStep P allowed full m (m.connect r q)
  /-- The greeting of `r` arrives at `q`. -/
  | greet {m : Mesh n S M} {fs : List (Frame M)} (r q : Fin n)
      (hl : m.link r q = .hello :: fs) :
      MeshStep P allowed full m ((m.put r q fs).meet q r)
  /-- A message of `r` arrives at `q` and is applied. -/
  | deliver {m : Mesh n S M} {fs : List (Frame M)} {s : S} {msg : M} (r q : Fin n)
      (hl : m.link r q = .msg msg :: fs) (he : P.effect q msg (m.site q) = some s) :
      MeshStep P allowed full m ((m.put r q fs).move q s)

/-- The network before any connection. -/
def Service.mesh (P : Service n S C M) : Mesh n S M :=
  ⟨P.init, fun _ _ => [], fun _ => [], fun _ _ => False⟩

/-- The networks some run reaches. -/
inductive MeshReachable (P : Service n S C M) (allowed : C → Prop) (full : Prop) :
    Mesh n S M → Prop
  | start : MeshReachable P allowed full P.mesh
  | step {m m' : Mesh n S M} : MeshReachable P allowed full m →
      MeshStep P allowed full m m' → MeshReachable P allowed full m'

-- ========================================================= connections

namespace Mesh

/-- What peers and connections always satisfy. -/
structure Wired (m : Mesh n S M) : Prop where
  met : ∀ r q, m.joined r q → q ∈ m.peers r
  join : ∀ r q, q ∈ m.peers r → m.joined r q ∨ m.joined q r
  oneWay : ∀ r q, m.joined r q → ¬ m.joined q r
  nodup : ∀ r, (m.peers r).Nodup
  others : ∀ r, r ∉ m.peers r

variable {m : Mesh n S M} {r q : Fin n} {fs : List (Frame M)}

theorem Wired.congr {m' : Mesh n S M} (h : m.Wired) (hp : m'.peers = m.peers)
    (hj : m'.joined = m.joined) : m'.Wired := by
  constructor
  · rw [hp, hj]; exact h.met
  · rw [hp, hj]; exact h.join
  · rw [hj]; exact h.oneWay
  · rw [hp]; exact h.nodup
  · rw [hp]; exact h.others

theorem meet_nodup (h : ∀ a, (m.peers a).Nodup) (hq : q ∉ m.peers r) (a : Fin n) :
    ((m.meet r q).peers a).Nodup := by
  show (Function.update m.peers r (m.peers r ++ [q]) a).Nodup
  by_cases ha : a = r
  · subst ha
    rw [Function.update_self, List.nodup_append_comm]
    exact List.nodup_cons.mpr ⟨hq, h a⟩
  · rw [Function.update_of_ne ha]
    exact h a

theorem Wired.connect (h : m.Wired) (hne : r ≠ q) (hrq : ¬ m.joined r q)
    (hqr : ¬ m.joined q r) : (m.connect r q).Wired := by
  have hmem : ∀ a b, b ∈ (m.connect r q).peers a ↔ b ∈ m.peers a ∨ a = r ∧ b = q :=
    fun a b => mem_meet_peers (m := m.put r q _)
  have hnew : q ∉ m.peers r := fun hmem => (h.join r q hmem).elim hrq hqr
  constructor
  · intro a b hj
    rw [hmem]
    exact hj.imp_left (h.met a b)
  · intro a b hb
    rcases (hmem a b).mp hb with hold | hab
    · exact (h.join a b hold).imp Or.inl Or.inl
    · exact Or.inl (Or.inr hab)
  · intro a b hab hba
    rcases hab with hab | ⟨rfl, rfl⟩
    · rcases hba with hba | ⟨rfl, rfl⟩
      · exact h.oneWay a b hab hba
      · exact hqr hab
    · rcases hba with hba | ⟨hb, -⟩
      · exact hqr hba
      · exact hne hb.symm
  · exact meet_nodup (m := m.put r q _) h.nodup hnew
  · intro a ha
    rcases (hmem a a).mp ha with hold | ⟨rfl, hq⟩
    · exact h.others a hold
    · exact hne hq

theorem Wired.meet (h : m.Wired) (hj : m.joined r q) (hr : r ∉ m.peers q) (hne : r ≠ q) :
    (m.meet q r).Wired := by
  constructor
  · exact fun a b hab => mem_meet_peers.mpr (Or.inl (h.met a b hab))
  · intro a b hb
    rcases mem_meet_peers.mp hb with hold | ⟨rfl, rfl⟩
    · exact h.join a b hold
    · exact Or.inr hj
  · exact h.oneWay
  · exact meet_nodup h.nodup hr
  · intro a ha
    rcases mem_meet_peers.mp ha with hold | ⟨rfl, hq⟩
    · exact h.others a hold
    · exact hne hq.symm

-- ================================================== what a link carries

/-- The operations of a ledger that site `r` accepted. -/
def opsOf (r : Fin n) (l : List (Op n M)) : List (Op n M) := l.filter fun o => decide (o.src = r)

theorem opsOf_append (r : Fin n) (l₁ l₂ : List (Op n M)) :
    opsOf r (l₁ ++ l₂) = opsOf r l₁ ++ opsOf r l₂ := List.filter_append ..

theorem opsOf_self {o : Op n M} (h : o.src = r) : opsOf r [o] = [o] := by simp [opsOf, h]

theorem opsOf_other {o : Op n M} (h : o.src ≠ r) : opsOf r [o] = [] := by simp [opsOf, h]

theorem mem_opsOf {o : Op n M} {l : List (Op n M)} : o ∈ opsOf r l ↔ o ∈ l ∧ o.src = r := by
  simp [opsOf]

/-- The link from `r` to `q` holds the messages of `due`, behind the
greeting as long as that has not arrived. -/
inductive Owes (m : Mesh n S M) (r q : Fin n) (due : List (Op n M)) : Prop
  | greeted (hmet : m.joined r q → r ∈ m.peers q)
      (hl : m.link r q = due.map fun o => .msg o.msg)
  | hello (hj : m.joined r q) (hnew : r ∉ m.peers q)
      (hl : m.link r q = .hello :: due.map fun o => .msg o.msg)

/-- Where the operations of `r` are, seen from `q`. -/
structure Flow (full : Prop) (m : Mesh n S M) (k : Config n S M) (r q : Fin n)
    (before due : List (Op n M)) : Prop where
  split : opsOf r k.sent = before ++ opsOf r (k.got q) ++ due
  owes : m.Owes r q due
  early : q ∉ m.peers r → opsOf r (k.got q) = [] ∧ due = []
  whole : full → before = []

/-- A network and the configuration of the service it shows. -/
structure Tracks (full : Prop) (m : Mesh n S M) (k : Config n S M) : Prop where
  site : k.site = m.site
  wired : m.Wired
  self : ∀ r, m.link r r = []
  uid : ∀ o ∈ k.sent, o.uid < k.sent.length
  nodup : k.sent.Nodup
  flow : ∀ r q, r ≠ q → ∃ before due, m.Flow full k r q before due

variable {full : Prop} {k : Config n S M} {before due : List (Op n M)}

theorem Owes.congr {m' : Mesh n S M} (h : m.Owes r q due) (hl : m'.link r q = m.link r q)
    (hj : m'.joined r q ↔ m.joined r q) (hp : r ∈ m'.peers q ↔ r ∈ m.peers q) :
    m'.Owes r q due := by
  cases h with
  | greeted hmet hlink =>
      exact .greeted (fun hjoin => hp.mpr (hmet (hj.mp hjoin))) (hl.trans hlink)
  | hello hjoin hnew hlink =>
      exact .hello (hj.mpr hjoin) (fun hmem => hnew (hp.mp hmem)) (hl.trans hlink)

/-- Nothing is due on an empty link. -/
theorem Owes.of_nil (h : m.Owes r q due) (hl : m.link r q = []) : due = [] := by
  cases h with
  | greeted _ hlink =>
      rw [hl] at hlink
      exact List.map_eq_nil_iff.mp hlink.symm
  | hello _ _ hlink =>
      rw [hl] at hlink
      cases hlink

/-- A step elsewhere leaves the flow from `r` to `q` alone. -/
theorem Flow.congr {m' : Mesh n S M} {k' : Config n S M} (h : m.Flow full k r q before due)
    (hs : opsOf r k'.sent = opsOf r k.sent) (hg : opsOf r (k'.got q) = opsOf r (k.got q))
    (hl : m'.link r q = m.link r q) (hj : m'.joined r q ↔ m.joined r q)
    (hp : r ∈ m'.peers q ↔ r ∈ m.peers q) (hq : q ∈ m.peers r → q ∈ m'.peers r) :
    m'.Flow full k' r q before due := by
  refine ⟨?_, h.owes.congr hl hj hp, fun hnot => ?_, h.whole⟩
  · rw [hs, hg]
    exact h.split
  · rw [hg]
    exact h.early fun hmem => hnot (hq hmem)

/-- A site with messages on the way to `q` is a peer of `q`. -/
theorem Tracks.peer (h : m.Tracks full k) {msg : M} (hl : m.link r q = .msg msg :: fs) :
    r ∈ m.peers q := by
  have hne : r ≠ q := by
    rintro rfl
    rw [h.self] at hl
    cases hl
  obtain ⟨before, due, hflow⟩ := h.flow r q hne
  cases hflow.owes with
  | hello _ _ hlink =>
      rw [hlink] at hl
      cases hl
  | greeted hmet hlink =>
      have hpeer : q ∈ m.peers r := by
        by_contra hnot
        rw [hlink, (hflow.early hnot).2] at hl
        cases hl
      exact (h.wired.join r q hpeer).elim hmet (h.wired.met q r)

-- ============================================================ the steps

variable {P : Service n S C M} {allowed : C → Prop}

theorem Tracks.start : P.mesh.Tracks full P.start := by
  refine ⟨rfl, ?_, fun _ => rfl, ?_, List.nodup_nil, fun r q _ => ?_⟩
  · exact ⟨fun _ _ hj => hj.elim, fun _ _ hq => absurd hq List.not_mem_nil,
      fun _ _ hj => hj.elim, fun _ => List.nodup_nil, fun _ => List.not_mem_nil⟩
  · exact fun o ho => absurd ho List.not_mem_nil
  · exact ⟨[], [], rfl, .greeted (fun hj => hj.elim) rfl, fun _ => ⟨rfl, rfl⟩, fun _ => rfl⟩

theorem Tracks.reject (h : m.Tracks full k) (s : S) : (m.move r s).Tracks full (k.put r s) := by
  refine ⟨?_, h.wired.congr rfl rfl, h.self, h.uid, h.nodup, fun a b hab => ?_⟩
  · rw [Config.put, Mesh.move, h.site]
  · obtain ⟨before, due, hflow⟩ := h.flow a b hab
    exact ⟨before, due, hflow.congr rfl rfl rfl Iff.rfl Iff.rfl id⟩

/-- The operation that is accepted next. -/
def Tracks.next (k : Config n S M) (r : Fin n) (msg : M) : Op n M := ⟨k.sent.length, r, msg⟩

theorem Tracks.next_fresh (h : m.Tracks full k) (msg : M) :
    ∀ o ∈ k.sent, o.uid ≠ (Tracks.next k r msg).uid :=
  fun o ho => Nat.ne_of_lt (h.uid o ho)

theorem Tracks.issue (h : m.Tracks full k) (msg : M) (s : S)
    (hfull : full → ∀ q, q ≠ r → q ∈ m.peers r) :
    ((m.move r s).post r (.msg msg)).Tracks full (k.issue (Tracks.next k r msg) s) := by
  have hfresh := h.next_fresh (r := r) msg
  have hpost := post_link (m.move r s) r (.msg msg)
  refine ⟨?_, h.wired.congr rfl rfl, fun a => ?_, fun o ho => ?_, ?_, fun a b hab => ?_⟩
  · show Function.update k.site r s = Function.update m.site r s
    rw [h.site]
  · rw [hpost, if_neg]
    · exact h.self a
    · rintro ⟨rfl, hmem⟩
      exact h.wired.others a hmem
  · rw [Config.issue_sent, List.length_append, List.length_singleton]
    rcases List.mem_append.mp ho with hold | hnew
    · exact Nat.lt_succ_of_lt (h.uid o hold)
    · rw [List.mem_singleton.mp hnew]
      exact Nat.lt_succ_self _
  · rw [Config.issue_sent, List.nodup_append_comm]
    exact List.nodup_cons.mpr ⟨fun hmem => hfresh _ hmem rfl, h.nodup⟩
  · obtain ⟨before, due, hflow⟩ := h.flow a b hab
    by_cases ha : a = r
    · -- the new operation is of `a`: on the link, or accepted too early
      subst ha
      have hsent : opsOf a (k.issue (next k a msg) s).sent = opsOf a k.sent ++ [next k a msg] := by
        rw [Config.issue_sent, opsOf_append, opsOf_self (show (next k a msg).src = a from rfl)]
      have hgot : (k.issue (next k a msg) s).got b = k.got b :=
        Config.issue_got_ne k _ s hab.symm
      by_cases hpeer : b ∈ m.peers a
      · have hlink : ((m.move a s).post a (.msg msg)).link a b = m.link a b ++ [.msg msg] :=
          (hpost a b).trans (if_pos ⟨rfl, hpeer⟩)
        refine ⟨before, due ++ [next k a msg], ?_, ?_, fun hnot => absurd hpeer hnot, hflow.whole⟩
        · rw [hsent, hgot, hflow.split, List.append_assoc]
        · cases hflow.owes with
          | greeted hmet hl =>
              refine .greeted hmet ?_
              rw [hlink, hl, List.map_append]
              rfl
          | hello hj hnew hl =>
              refine .hello hj hnew ?_
              rw [hlink, hl, List.map_append]
              rfl
      · have hlink : ((m.move a s).post a (.msg msg)).link a b = m.link a b :=
          (hpost a b).trans (if_neg fun hcon => hpeer hcon.2)
        obtain ⟨hnone, rfl⟩ := hflow.early hpeer
        refine ⟨before ++ [next k a msg], [], ?_, hflow.owes.congr hlink Iff.rfl Iff.rfl,
          fun _ => ⟨?_, rfl⟩, fun hf => absurd (hfull hf b hab.symm) hpeer⟩
        · rw [hsent, hgot, hflow.split, hnone]
          simp
        · rw [hgot]
          exact hnone
    · have hsent : opsOf a (k.issue (next k r msg) s).sent = opsOf a k.sent := by
        rw [Config.issue_sent, opsOf_append, opsOf_other (Ne.symm ha), List.append_nil]
      have hgot : opsOf a ((k.issue (next k r msg) s).got b) = opsOf a (k.got b) := by
        by_cases hb : b = r
        · subst hb
          rw [show (k.issue (next k b msg) s).got b = k.got b ++ [next k b msg] from
            Config.issue_got_self k _ s, opsOf_append, opsOf_other (Ne.symm ha), List.append_nil]
        · rw [show (k.issue (next k r msg) s).got b = k.got b from Config.issue_got_ne k _ s hb]
      have hlink : ((m.move r s).post r (.msg msg)).link a b = m.link a b :=
        (hpost a b).trans (if_neg fun hcon => ha hcon.1)
      exact ⟨before, due, hflow.congr hsent hgot hlink Iff.rfl Iff.rfl id⟩

/-- Two sites without a connection send each other nothing. -/
theorem Tracks.early (h : m.Tracks full k) (hne : r ≠ q) (hrq : ¬ m.joined r q)
    (hqr : ¬ m.joined q r) : m.link r q = [] ∧ ∃ before, m.Flow full k r q before [] := by
  obtain ⟨before, due, hflow⟩ := h.flow r q hne
  obtain ⟨-, rfl⟩ := hflow.early fun hpeer => (h.wired.join r q hpeer).elim hrq hqr
  refine ⟨?_, before, hflow⟩
  cases hflow.owes with
  | greeted _ hl => exact hl
  | hello hj _ _ => exact absurd hj hrq

theorem Tracks.connect (h : m.Tracks full k) (hne : r ≠ q) (hrq : ¬ m.joined r q)
    (hqr : ¬ m.joined q r) : (m.connect r q).Tracks full k := by
  have hlink := put_link m r q (m.link r q ++ [.hello])
  have hmem : ∀ a b, b ∈ (m.connect r q).peers a ↔ b ∈ m.peers a ∨ a = r ∧ b = q :=
    fun a b => mem_meet_peers (m := m.put r q _)
  refine ⟨h.site, h.wired.connect hne hrq hqr, fun a => ?_, h.uid, h.nodup, fun a b hab => ?_⟩
  · refine (hlink a a).trans ((if_neg ?_).trans (h.self a))
    rintro ⟨rfl, hq⟩
    exact hne hq
  · by_cases hpair : a = r ∧ b = q
    · obtain ⟨rfl, rfl⟩ := hpair
      obtain ⟨hempty, before, hflow⟩ := h.early hne hrq hqr
      refine ⟨before, [], hflow.split, .hello (Or.inr ⟨rfl, rfl⟩) (fun hpeer => ?_) ?_,
        fun _ => hflow.early fun hpeer => (h.wired.join a b hpeer).elim hrq hqr, hflow.whole⟩
      · rcases (hmem b a).mp hpeer with hold | ⟨hb, -⟩
        · exact (h.wired.join b a hold).elim hqr hrq
        · exact hne hb.symm
      · refine (hlink a b).trans ((if_pos ⟨rfl, rfl⟩).trans ?_)
        rw [hempty]
        rfl
    · obtain ⟨before, due, hflow⟩ := h.flow a b hab
      refine ⟨before, due, hflow.split, ?_, fun hnot => ?_, hflow.whole⟩
      · have hl : (m.connect r q).link a b = m.link a b := (hlink a b).trans (if_neg hpair)
        cases hflow.owes with
        | greeted hmet hl' =>
            refine .greeted (fun hj => (hmem b a).mpr (Or.inl ?_)) (hl.trans hl')
            exact hj.elim hmet fun hab' => absurd hab' hpair
        | hello hj hnew hl' =>
            refine .hello (Or.inl hj) (fun hpeer => ?_) (hl.trans hl')
            rcases (hmem b a).mp hpeer with hold | ⟨rfl, rfl⟩
            · exact hnew hold
            · exact hqr hj
      · exact hflow.early fun hpeer => hnot ((hmem a b).mpr (Or.inl hpeer))

theorem Tracks.ne (h : m.Tracks full k) {f : Frame M} (hl : m.link r q = f :: fs) : r ≠ q := by
  rintro rfl
  rw [h.self] at hl
  cases hl

/-- A greeting on a link is that of a connection not yet noticed. -/
theorem Tracks.greeting (h : m.Tracks full k) (hl : m.link r q = .hello :: fs) :
    m.joined r q ∧ r ∉ m.peers q := by
  obtain ⟨before, due, hflow⟩ := h.flow r q (h.ne hl)
  cases hflow.owes with
  | greeted _ hlink =>
      rw [hlink] at hl
      cases due with
      | nil => cases hl
      | cons o due => cases hl
  | hello hj hnew _ => exact ⟨hj, hnew⟩

theorem Tracks.greet (h : m.Tracks full k) (hl : m.link r q = .hello :: fs) :
    ((m.put r q fs).meet q r).Tracks full k := by
  have hne := h.ne hl
  obtain ⟨hj, hnew⟩ := h.greeting hl
  have hlink := put_link m r q fs
  refine ⟨h.site, Wired.meet (m := m.put r q fs) (h.wired.congr rfl rfl) hj hnew hne,
    fun a => ?_, h.uid, h.nodup, fun a b hab => ?_⟩
  · refine (hlink a a).trans ((if_neg ?_).trans (h.self a))
    rintro ⟨rfl, hq⟩
    exact hne hq
  · obtain ⟨before, due, hflow⟩ := h.flow a b hab
    have hpeers : b ∈ m.peers a → b ∈ ((m.put r q fs).meet q r).peers a :=
      fun hold => mem_meet_peers.mpr (Or.inl hold)
    by_cases hpair : a = r ∧ b = q
    · obtain ⟨rfl, rfl⟩ := hpair
      refine ⟨before, due, hflow.split, ?_, fun hnot => hflow.early fun hold => hnot (hpeers hold),
        hflow.whole⟩
      refine .greeted (fun _ => mem_meet_peers.mpr (Or.inr ⟨rfl, rfl⟩)) ?_
      refine (hlink a b).trans ((if_pos ⟨rfl, rfl⟩).trans ?_)
      cases hflow.owes with
      | greeted hmet _ => exact absurd (hmet hj) hnew
      | hello _ _ hl' =>
          rw [hl] at hl'
          exact (List.cons.inj hl').2
    · refine ⟨before, due, hflow.congr rfl rfl ((hlink a b).trans (if_neg hpair)) Iff.rfl
        ⟨fun hmem => ?_, fun hold => mem_meet_peers.mpr (Or.inl hold)⟩ hpeers⟩
      rcases mem_meet_peers.mp hmem with hold | ⟨hb, ha⟩
      · exact hold
      · exact absurd ⟨ha, hb⟩ hpair

/-- The operation whose message is next on a link. -/
theorem Tracks.head (h : m.Tracks full k) {msg : M} (hl : m.link r q = .msg msg :: fs) :
    ∃ before due o, o.msg = msg ∧ m.Flow full k r q before (o :: due) ∧
      (m.joined r q → r ∈ m.peers q) ∧ fs = due.map fun o => .msg o.msg := by
  obtain ⟨before, due, hflow⟩ := h.flow r q (h.ne hl)
  have howes := hflow.owes
  cases howes with
  | hello _ _ hlink =>
      rw [hlink] at hl
      cases hl
  | greeted hmet hlink =>
      rw [hlink] at hl
      cases due with
      | nil => cases hl
      | cons o due =>
          obtain ⟨hmsg, hfs⟩ := List.cons.inj hl
          exact ⟨before, due, o, Frame.msg.inj hmsg, hflow, hmet, hfs.symm⟩

theorem Tracks.deliver (h : m.Tracks full k) {msg : M} (hl : m.link r q = .msg msg :: fs) (s : S) :
    ∃ o ∈ k.sent, o.msg = msg ∧ o ∉ k.got q ∧
      ((m.put r q fs).move q s).Tracks full (k.receive q o s) := by
  have hne := h.ne hl
  obtain ⟨before, due, o, hmsg, hflow, hmet, hfs⟩ := h.head hl
  have hmem : o ∈ opsOf r k.sent := by
    rw [hflow.split]
    exact List.mem_append_right _ List.mem_cons_self
  obtain ⟨hsent, hsrc⟩ := mem_opsOf.mp hmem
  have hnew : o ∉ k.got q := by
    -- the operations of `r` are all different, and `o` stands behind those `q` has
    intro hgot
    have hnd : (opsOf r k.sent).Nodup := h.nodup.filter _
    rw [hflow.split, List.nodup_append] at hnd
    refine hnd.2.2 o (List.mem_append_right _ (mem_opsOf.mpr ⟨hgot, hsrc⟩)) o
      List.mem_cons_self rfl
  have hlink := put_link m r q fs
  refine ⟨o, hsent, hmsg, hnew, ?_, h.wired.congr rfl rfl, fun a => ?_, h.uid, h.nodup,
    fun a b hab => ?_⟩
  · show Function.update k.site q s = Function.update m.site q s
    rw [h.site]
  · refine (hlink a a).trans ((if_neg ?_).trans (h.self a))
    rintro ⟨rfl, hq⟩
    exact hne hq
  · by_cases hpair : a = r ∧ b = q
    · obtain ⟨rfl, rfl⟩ := hpair
      refine ⟨before, due, ?_, .greeted hmet ?_, fun hnot => ?_, hflow.whole⟩
      · rw [Config.receive_sent, Config.receive_got_self, opsOf_append, opsOf_self hsrc,
          hflow.split]
        simp
      · exact (hlink a b).trans ((if_pos ⟨rfl, rfl⟩).trans hfs)
      · exact absurd (hflow.early hnot).2 (List.cons_ne_nil o due)
    · obtain ⟨before, due, hflow⟩ := h.flow a b hab
      refine ⟨before, due, hflow.congr rfl ?_ ((hlink a b).trans (if_neg hpair)) Iff.rfl
        Iff.rfl id⟩
      by_cases hb : b = q
      · subst hb
        have ha : o.src ≠ a := fun heq => hpair ⟨heq.symm.trans hsrc, rfl⟩
        rw [Config.receive_got_self, opsOf_append, opsOf_other ha, List.append_nil]
      · rw [Config.receive_got_ne k o s hb]

end Mesh

-- ================================================================= runs

variable {P : Service n S C M} {allowed : C → Prop} {full : Prop} {m : Mesh n S M}

/-- A run of the network is a run of the service in which every message
arrives at most once. -/
theorem MeshReachable.tracks (h : MeshReachable P allowed full m) :
    ∃ k, Reachable P (.once allowed) k ∧ m.Tracks full k := by
  induction h with
  | start => exact ⟨P.start, .start, .start⟩
  | step _ hs ih =>
      obtain ⟨k, hk, h⟩ := ih
      cases hs with
      | reject r c hc hp =>
          rw [← h.site] at hp
          exact ⟨_, hk.step (.reject r c hc hp), h.reject _⟩
      | @issue s s' msg r c hc hp he hf =>
          rw [← h.site] at hp
          have hfresh := h.next_fresh (r := r) msg
          exact ⟨_, hk.step (.issue r c _ hc hp hfresh trivial he), h.issue msg _ hf⟩
      | connect r q hne hrq hqr => exact ⟨k, hk, h.connect hne hrq hqr⟩
      | greet r q hl => exact ⟨k, hk, h.greet hl⟩
      | deliver r q hl he =>
          rw [← h.site] at he
          obtain ⟨o, hsent, rfl, hnew, h'⟩ := h.deliver hl _
          exact ⟨_, hk.step (.deliver q o hsent (Or.inr hnew) trivial he), h'⟩

/-- Where commands were accepted only among peers and a link is empty, all
that was accepted at its one end was applied at the other. -/
theorem Mesh.Tracks.got_all {k : Config n S M} (h : m.Tracks full k) (hf : full)
    (hk : k.Ledger) {q : Fin n} (hl : ∀ r, m.link r q = []) : ∀ o ∈ k.sent, o ∈ k.got q := by
  intro o ho
  by_cases hself : o.src = q
  · exact hself ▸ hk.own_got o ho
  · obtain ⟨before, due, hflow⟩ := h.flow o.src q hself
    have hmem := mem_opsOf.mpr ⟨ho, rfl⟩
    rw [hflow.split, hflow.whole hf, hflow.owes.of_nil (hl o.src), List.append_nil,
      List.nil_append] at hmem
    exact (mem_opsOf.mp hmem).1

end Replication
