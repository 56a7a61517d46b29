/-
The servers of `Cluster.lean` are a run of `crdtService`.

The byte streams are taken away in two steps. A direction of a connection
CONVEYS vectors: what the reader keeps, what is under way and what is
pending are together the texts of a list of vectors (`Link.Conveys`). So
the servers are a network of queues (`Cluster.Shows`), whose frames are
the handshakes and the vectors; a write is no step of that network, and a
read is as many steps as it completes vectors. The library then makes the
network a run of the service in which no message arrives twice
(`cluster_refines`).

The invariant the reading needs of the network is that a vector never
arrives before the handshake in front of it was executed
(`Mesh.Tracks.peer`): the client that reads it is a replica by then, and
the vector is applied, not prepared again.
-/
import CrdtRedis.Cluster

namespace CrdtRedis

open CString Replication Request

variable {n : ℕ}

-- ======================================================== one direction

/-- The vector of the handshake. -/
def handshake : List Sds := ["REPLICATE".toList, "replica".toList, "handshake".toList]

/-- What the reader keeps, what is under way and what is pending are the
texts of `vs`. -/
structure Link.Conveys (conf : Limits) (l : Link) (vs : List (List Sds)) : Prop where
  between : l.out.Between
  isOpen : l.out.closeAfterReply = false
  kept : l.out.closeAsap = false
  expects : l.inp.Expects conf vs (l.wire ++ l.out.pending)

namespace Link.Conveys

variable {conf : Limits} {A : Alloc} {l : Link} {vs : List (List Sds)} {texts : List Sds}
  {e : OutputEvent} {out : Output} {w : Sds}

theorem new (conf : Limits) : Link.new.Conveys conf [] :=
  ⟨Output.Between.createClient, rfl, rfl, Query.Expects.createClient conf⟩

/-- What an event does to the output. -/
theorem event (h : l.Conveys conf vs) (he : e.Sized) (hclean : e.Clean) (hclose : e ≠ .close)
    (hstep : l.out.step A e = some (out, w)) :
    out.Between ∧ out.closeAfterReply = false ∧ out.closeAsap = false ∧
      out.replica = (l.out.replica || decide (e = .becomeReplica)) ∧
      w ++ out.pending = l.out.pending ++ e.adds l.out.replica false := by
  obtain ⟨out', w', hstep', hbetween, hstream, hreplica, hcloses, hkept⟩ :=
    Output.step_stream A h.between he
  rw [hstep] at hstep'
  obtain ⟨rfl, rfl⟩ := Prod.mk.inj (Option.some.inj hstep')
  rw [h.isOpen] at hstream hcloses
  rw [decide_eq_false hclose] at hcloses
  exact ⟨hbetween, hcloses, (hkept hclean h.isOpen).trans h.kept, hreplica, hstream⟩

theorem becomeReplica (h : l.Conveys conf vs) :
    { l with out := { l.out with replica := true } : Link }.Conveys conf vs := by
  obtain ⟨hbetween, hopen, hkept, -, -⟩ :=
    h.event (A := ⟨id, fun _ => le_rfl⟩) (e := .becomeReplica) trivial trivial (by decide) rfl
  exact ⟨hbetween, hopen, hkept, h.expects⟩

theorem broadcastTo (A : Alloc) (h : l.Conveys conf vs) (hfits : conf.format.Fits texts) :
    { l with out := l.out.broadcastTo A texts : Link }.Conveys conf (vs ++ [texts]) ∧
      (l.out.broadcastTo A texts).replica = l.out.replica := by
  have hsized : (OutputEvent.broadcast texts).Sized := by
    have hbulk := conf.bulk_lt
    have hcount : (texts.length : ℤ) ≤ 1024 * 1024 := hfits.count
    refine ⟨by omega, fun s hs => ?_⟩
    have hlen : s.length ≤ conf.protoMaxBulkLen := hfits.len s hs
    omega
  obtain ⟨hbetween, hopen, hkept, hreplica, hstream⟩ :=
    h.event (e := .broadcast texts) (A := A) hsized trivial (by simp) rfl
  refine ⟨⟨hbetween, hopen, hkept, ?_⟩, hreplica.trans (Bool.or_false _)⟩
  have hpending : (l.out.broadcastTo A texts).pending = l.out.pending ++ encode texts := hstream
  show l.inp.Expects conf (vs ++ [texts]) (l.wire ++ (l.out.broadcastTo A texts).pending)
  rw [hpending, ← List.append_assoc]
  exact h.expects.snoc hfits

theorem write (h : l.Conveys conf vs) (he : e.Writes)
    (hstep : l.out.step A e = some (out, w)) :
    { l with out := out, wire := l.wire ++ w : Link }.Conveys conf vs ∧
      out.replica = l.out.replica := by
  have hkind : e.Sized ∧ e.Clean ∧ e ≠ .close ∧ e ≠ .becomeReplica ∧
      e.adds l.out.replica false = [] := by
    cases e with
    | pendingWrites _ _ _ => exact ⟨trivial, he, by simp, by simp, rfl⟩
    | writable _ _ => exact ⟨trivial, he, by simp, by simp, rfl⟩
    | _ => exact he.elim
  obtain ⟨hsized, hclean, hclose, hbecome, hadds⟩ := hkind
  obtain ⟨hbetween, hopen, hkept, hreplica, hstream⟩ := h.event hsized hclean hclose hstep
  rw [hadds, List.append_nil] at hstream
  rw [decide_eq_false hbecome, Bool.or_false] at hreplica
  refine ⟨⟨hbetween, hopen, hkept, ?_⟩, hreplica⟩
  show l.inp.Expects conf vs (l.wire ++ w ++ out.pending)
  rw [List.append_assoc, hstream]
  exact h.expects

/-- A read completes some of the vectors. -/
theorem read (hconf : conf.Roomy) (h : l.Conveys conf vs) {s rest : Sds}
    (hs : l.wire = s ++ rest) (hlen : s.length ≤ l.inp.readlen) :
    ∃ inp vs₁ vs₂, l.inp.readQueryFromClient conf (.bytes s) = some (inp, vs₁) ∧
      vs = vs₁ ++ vs₂ ∧ { l with wire := rest, inp := inp : Link }.Conveys conf vs₂ := by
  have hexpects := h.expects
  rw [hs, List.append_assoc] at hexpects
  obtain ⟨inp, vs₁, vs₂, hread, hvs, hrest⟩ :=
    hexpects.read hconf (hlen.trans l.inp.readlen_le)
  exact ⟨inp, vs₁, vs₂, hread, hvs, h.between, h.isOpen, h.kept, hrest⟩

/-- The first output of a connection is the handshake. -/
theorem replicationHandler (A : Alloc) (conf : Limits) (hfits : conf.format.Fits handshake) :
    { Link.new with out := .replicationHandler A : Link }.Conveys conf [handshake] := by
  obtain ⟨hbetween, hopen, hkept, -, hstream⟩ :=
    (new conf).event (A := A) (e := .reply replhandshake) trivial trivial (by simp) rfl
  have htext : Output.createClient.pending ++
      OutputEvent.adds Output.createClient.replica false (.reply replhandshake)
      = encode handshake := by decide +kernel
  have hpending : (Output.createClient.addReplyProto A replhandshake).pending
      = encode handshake := by
    rw [← htext, ← List.nil_append (Output.pending _)]
    exact hstream
  have hconveys : { Link.new with out := Output.createClient.addReplyProto A replhandshake :
      Link }.Conveys conf [handshake] := by
    refine ⟨hbetween, hopen, hkept, ?_⟩
    show Query.createClient.Expects conf [handshake]
      ([] ++ (Output.createClient.addReplyProto A replhandshake).pending)
    rw [hpending]
    exact (Query.Expects.createClient conf).snoc hfits
  exact hconveys.becomeReplica

/-- What is pending is scheduled. -/
theorem scheduled (h : l.Conveys conf vs) (hmore : l.out.hasPendingReplies = true) :
    l.out.scheduled = true := by
  have hattended : l.out.attended = true := h.between.watched hmore
  rw [Output.attended, h.kept, Bool.or_false] at hattended
  exact hattended

/-- Nothing is under way or pending. -/
theorem quiet (h : l.Conveys conf vs) (hwire : l.wire = [])
    (hout : l.out.hasPendingReplies = false) : vs = [] := by
  have hpending : l.out.pending = [] := by
    have hnone : l.out.buf = [] ∧ l.out.reply = [] := by
      simpa [Output.hasPendingReplies] using hout
    simp [Output.pending, Output.content, hnone]
  have hexpects := h.expects
  rw [hwire, hpending] at hexpects
  exact hexpects.done

end Link.Conveys

-- =========================================================== the frames

theorem lookupCommand_head {name : String} {cmd : Cmd} (h : lookupCommand name = some cmd) :
    (sdstolower name).toList.head? = some 'o' ∨ (sdstolower name).toList.head? = some 'r' := by
  unfold lookupCommand at h
  split at h
  case h_22 => cases h
  all_goals
    next heq =>
      rw [heq]
      decide

/-- No command is called `quit`. -/
theorem isQuit_of_cmd {texts : List Sds} {cmd : Cmd} (h : cmdOfText texts = some cmd) :
    isQuit texts = false := by
  rw [isQuit, decide_eq_false_iff_not]
  intro hquit
  have hhead := lookupCommand_head h
  generalize texts.getD 0 [] = w at hhead hquit
  -- a name that begins with `quit` does not begin as a command does
  have hsplit : (sdstolower (String.ofList w)).toList
      = "quit".toList ++ (w.dropWhile (· ≠ nul)).map Char.toLower := by
    rw [← hquit, sdstolower, sdstolower, String.toList_ofList, String.toList_ofList,
      String.toList_ofList, String.toList_ofList, ← List.map_append,
      List.takeWhile_append_dropWhile]
  rw [hsplit] at hhead
  revert hhead
  simp

theorem fits_of_cmd {conf : Limits} {texts : List Sds} {cmd : Cmd}
    (h : cmdOfText texts = some cmd) (hmin : cmd.arity ≤ texts.length)
    (hlimits : conf.InLimits texts) : conf.format.Fits texts := by
  refine ⟨?_, ?_, hlimits.2, ?_⟩
  · rintro rfl
    cases cmd <;> exact absurd hmin (by decide)
  · show (texts.length : ℤ) ≤ 1024 * 1024
    have hcount := hlimits.1
    omega
  · rw [conf.format_quits]
    exact isQuit_of_cmd h

/-- The vector a frame of the network is on a connection. -/
inductive FrameText : Frame (List (Arg n)) → List Sds → Prop
  | hello : FrameText .hello handshake
  | msg {rargv : List (Arg n)} {texts : List Sds} {cmd : Cmd}
      (hread : readVector texts = some rargv) (hcmd : cmdOfText texts = some cmd)
      (hmin : cmd.arity ≤ texts.length) :
      FrameText (.msg rargv) texts

-- ========================================================== the servers

namespace Cluster

/-- The servers are the network `m`, and the connections carry `fs`. -/
structure Shows (conf : Limits) (c : Cluster n) (m : Mesh n (Db n) (List (Arg n)))
    (fs : Fin n → Fin n → List (Frame (List (Arg n)))) : Prop where
  db : c.db = m.site
  replicas : c.replicas = m.peers
  connected : ∀ r q, c.connected r q = true ↔ m.joined r q
  replica : ∀ r q, (c.link r q).out.replica = true ↔ q ∈ c.replicas r
  link : ∀ r q, ∃ vs, List.Forall₂ FrameText (fs r q) vs ∧ (c.link r q).Conveys conf vs

variable {conf : Limits} {A : Alloc} {dbl : String → Option ℤ} {c c' : Cluster n}
  {m : Mesh n (Db n) (List (Arg n))} {fs fs' : Fin n → Fin n → List (Frame (List (Arg n)))}
  {r q a b : Fin n} {l : Link}

theorem setLink_link (c : Cluster n) (r q : Fin n) (l : Link) (a b : Fin n) :
    (c.setLink r q l).link a b = if a = r ∧ b = q then l else c.link a b := by
  unfold setLink
  by_cases ha : a = r
  · subst ha
    by_cases hb : b = q
    · subst hb
      simp
    · simp [hb]
  · simp [ha]

theorem mem_addReplica : b ∈ (c.addReplica r q).replicas a ↔ b ∈ c.replicas a ∨ a = r ∧ b = q := by
  unfold addReplica
  by_cases ha : a = r
  · subst ha
    simp
  · simp [ha]

theorem shows_start (conf : Limits) :
    (start : Cluster n).Shows conf (crdtService dbl).mesh fun _ _ => [] := by
  refine ⟨rfl, rfl, fun r q => ?_, fun r q => ?_, fun r q => ?_⟩
  · exact ⟨fun h => Bool.noConfusion h, fun h => h.elim⟩
  · exact ⟨fun h => Bool.noConfusion h, fun h => absurd h List.not_mem_nil⟩
  · exact ⟨[], .nil, Link.Conveys.new conf⟩

/-- The keys of a server change. -/
theorem Shows.setDb (h : c.Shows conf m fs) (r : Fin n) (db : Db n) :
    (c.setDb r db).Shows conf (m.move r db) fs := by
  refine ⟨?_, h.replicas, h.connected, h.replica, h.link⟩
  show Function.update c.db r db = Function.update m.site r db
  rw [h.db]

/-- The queues of the network are not those of the connections: they are
only compared. -/
theorem Shows.congr {m' : Mesh n (Db n) (List (Arg n))} (h : c.Shows conf m fs)
    (hs : m'.site = m.site) (hp : m'.peers = m.peers) (hj : m'.joined = m.joined)
    (hfs : ∀ a b, fs' a b = fs a b) : c.Shows conf m' fs' := by
  refine ⟨h.db.trans hs.symm, h.replicas.trans hp.symm, ?_, h.replica, ?_⟩
  · rw [hj]
    exact h.connected
  · intro a b
    rw [hfs]
    exact h.link a b

/-- One direction of one connection changes. -/
theorem Shows.setLink (h : c.Shows conf m fs) {vs : List (List Sds)}
    (hreplica : l.out.replica = (c.link r q).out.replica)
    (hframes : List.Forall₂ FrameText (fs' r q) vs) (hconveys : l.Conveys conf vs)
    (hother : ∀ a b, ¬ (a = r ∧ b = q) → fs' a b = fs a b) :
    (c.setLink r q l).Shows conf m fs' := by
  refine ⟨h.db, h.replicas, h.connected, fun a b => ?_, fun a b => ?_⟩
  · rw [setLink_link]
    split
    · next hab =>
        obtain ⟨rfl, rfl⟩ := hab
        rw [hreplica]
        exact h.replica a b
    · exact h.replica a b
  · rw [setLink_link]
    split
    · next hab =>
        obtain ⟨rfl, rfl⟩ := hab
        exact ⟨vs, hframes, hconveys⟩
    · next hab =>
        rw [hother a b hab]
        exact h.link a b

-- ------------------------------------------------------------ broadcasts

/-- The loop of `replicationBroadcast`. -/
theorem broadcastLoop_shows (A : Alloc) {f : Frame (List (Arg n))} {texts : List Sds}
    (hf : FrameText f texts) (hfits : conf.format.Fits texts) {peers : List (Fin n)}
    (hnd : peers.Nodup) (h : c.Shows conf m fs)
    (hfs : ∀ a b, fs' a b = if a = r ∧ b ∈ peers then fs a b ++ [f] else fs a b) :
    (peers.foldl (fun c q =>
      c.setLink r q { c.link r q with out := (c.link r q).out.broadcastTo A texts }) c).Shows
        conf m fs' := by
  induction peers generalizing c fs with
  | nil =>
      refine h.congr rfl rfl rfl fun a b => (hfs a b).trans (if_neg ?_)
      exact fun hcon => List.not_mem_nil hcon.2
  | cons q peers ih =>
      obtain ⟨hq, hnd⟩ := List.nodup_cons.mp hnd
      obtain ⟨vs, hframes, hconveys⟩ := h.link r q
      obtain ⟨hconveys', hreplica⟩ := hconveys.broadcastTo A hfits
      let fs₁ := fun a b => if a = r ∧ b = q then fs a b ++ [f] else fs a b
      have hframes₁ : List.Forall₂ FrameText (fs₁ r q) (vs ++ [texts]) := by
        rw [show fs₁ r q = fs r q ++ [f] from if_pos ⟨rfl, rfl⟩]
        exact List.rel_append hframes (.cons hf .nil)
      rw [List.foldl_cons]
      refine ih hnd (h.setLink hreplica hframes₁ hconveys' fun a b hab => if_neg hab) ?_
      intro a b
      rw [hfs]
      by_cases hb : b = q
      · subst hb
        simp [fs₁, hq]
      · simp [fs₁, hb]

theorem Shows.replicationBroadcast (h : c.Shows conf m m.link) {rargv : List (Arg n)}
    {texts : List Sds} (hf : FrameText (.msg rargv) texts) (hfits : conf.format.Fits texts)
    (hnd : (m.peers r).Nodup) :
    (c.replicationBroadcast A r texts).Shows conf (m.post r (.msg rargv))
      (m.post r (.msg rargv)).link := by
  have hlink : ∀ a b, (m.post r (.msg rargv)).link a b
      = if a = r ∧ b ∈ c.replicas r then m.link a b ++ [.msg rargv] else m.link a b := by
    intro a b
    rw [Mesh.post_link, h.replicas]
  have hloop := broadcastLoop_shows A hf hfits (h.replicas ▸ hnd) h hlink
  exact hloop.congr rfl rfl rfl fun _ _ => rfl

-- --------------------------------------------------------- connections

theorem Shows.connect (h : c.Shows conf m m.link) (hne : r ≠ q) (hrq : m.link r q = [])
    (hqr : m.link q r = []) (hr : r ∉ m.peers q) (hfits : conf.format.Fits handshake) :
    (c.connect A r q).Shows conf (m.connect r q) (m.connect r q).link := by
  have hlink : ∀ a b, (c.connect A r q).link a b
      = if a = r ∧ b = q then { Link.new with out := .replicationHandler A }
        else if a = q ∧ b = r then .new else c.link a b := by
    intro a b
    show ((c.setLink q r .new).setLink r q _).link a b = _
    rw [setLink_link, setLink_link]
  have hmem : ∀ a b, b ∈ (c.connect A r q).replicas a ↔ b ∈ c.replicas a ∨ a = r ∧ b = q :=
    fun a b => mem_addReplica (c := (c.setLink q r .new).setLink r q _)
  refine ⟨h.db, ?_, fun a b => ?_, fun a b => ?_, fun a b => ?_⟩
  · show Function.update c.replicas r (c.replicas r ++ [q])
      = Function.update m.peers r (m.peers r ++ [q])
    rw [h.replicas]
  · show Function.update c.connected r (Function.update (c.connected r) q true) a b = true ↔
      m.joined a b ∨ a = r ∧ b = q
    rw [← h.connected]
    by_cases ha : a = r
    · subst ha
      by_cases hb : b = q
      · subst hb
        simp
      · simp [hb]
    · simp [ha]
  · rw [hlink, hmem]
    split
    · next hab => exact iff_of_true rfl (Or.inr hab)
    · next hab =>
        rw [or_iff_left hab]
        split
        · next hba =>
            obtain ⟨rfl, rfl⟩ := hba
            rw [h.replicas]
            exact iff_of_false (fun hcon => Bool.noConfusion hcon) hr
        · exact h.replica a b
  · have hfs : (m.connect r q).link a b
        = if a = r ∧ b = q then m.link r q ++ [.hello] else m.link a b :=
      Mesh.put_link m r q (m.link r q ++ [Frame.hello]) a b
    rw [hlink, hfs]
    split
    · rw [hrq]
      exact ⟨[handshake], .cons .hello .nil, .replicationHandler A conf hfits⟩
    · split
      · next hba =>
          obtain ⟨rfl, rfl⟩ := hba
          rw [hqr]
          exact ⟨[], .nil, .new conf⟩
      · exact h.link a b

-- -------------------------------------------------------------- reading

/-- The frames of the connections while the read from `r` to `q` is
processed. -/
def ahead (m : Mesh n (Db n) (List (Arg n))) (r q : Fin n)
    (fs : List (Frame (List (Arg n)))) : Fin n → Fin n → List (Frame (List (Arg n))) :=
  fun a b => if a = r ∧ b = q then fs else m.link a b

theorem ahead_put (m : Mesh n (Db n) (List (Arg n))) (r q : Fin n)
    (fs fs' : List (Frame (List (Arg n)))) (a b : Fin n) :
    ahead (m.put r q fs') r q fs a b = ahead m r q fs a b := by
  unfold ahead
  split
  · rfl
  · next hab => rw [Mesh.put_link, if_neg hab]

theorem processCommand_handshake (dbl : String → Option ℤ) (r q : Fin n) (c : Cluster n) :
    c.processCommand dbl r q handshake = some (c.replicateCommand r q) := by
  unfold processCommand
  rw [if_pos (by decide +kernel), if_pos (by decide +kernel)]

theorem Shows.replicateCommand {fs : List (Frame (List (Arg n)))}
    (h : c.Shows conf m (ahead m r q fs)) (hne : r ≠ q) (fs' : List (Frame (List (Arg n)))) :
    (c.replicateCommand r q).Shows conf ((m.put r q fs').meet q r)
      (ahead ((m.put r q fs').meet q r) r q fs) := by
  have hlink := setLink_link c q r
    { c.link q r with out := { (c.link q r).out with replica := true } }
  have hmem : ∀ a b, b ∈ (c.replicateCommand r q).replicas a ↔ b ∈ c.replicas a ∨ a = q ∧ b = r :=
    fun a b => mem_addReplica (c := c.setLink q r _)
  refine ⟨h.db, ?_, h.connected, fun a b => ?_, fun a b => ?_⟩
  · show Function.update c.replicas q (c.replicas q ++ [r])
      = Function.update m.peers q (m.peers q ++ [r])
    rw [h.replicas]
  · rw [show (c.replicateCommand r q).link a b = _ from hlink a b, hmem]
    split
    · next hab => exact iff_of_true rfl (Or.inr hab)
    · next hab =>
        rw [or_iff_left hab]
        exact h.replica a b
  · rw [show (c.replicateCommand r q).link a b = _ from hlink a b,
      show ahead ((m.put r q fs').meet q r) r q fs a b = _ from ahead_put m r q fs fs' a b]
    obtain ⟨vs, hframes, hconveys⟩ := h.link a b
    split
    · next hab =>
        obtain ⟨rfl, rfl⟩ := hab
        exact ⟨vs, hframes, hconveys.becomeReplica⟩
    · exact ⟨vs, hframes, hconveys⟩

/-- A vector of a replica is applied. -/
theorem processCommand_vector {texts : List Sds} {rargv : List (Arg n)} {cmd : Cmd}
    (hread : readVector texts = some rargv) (hcmd : cmdOfText texts = some cmd)
    (hmin : cmd.arity ≤ texts.length) (hreplica : (c.link q r).out.replica = true) :
    c.processCommand dbl r q texts = (effectCommand dbl q rargv (c.db q)).map (c.setDb q) := by
  have hname : ¬ sdstolower (String.ofList (texts.getD 0 [])) = "replicate" := by
    intro heq
    rw [cmdOfText, lookupCommand, heq] at hcmd
    cases hcmd
  unfold processCommand
  dsimp only
  rw [if_neg hname, hcmd, Option.bind_some, if_pos ⟨hmin, hreplica⟩, applyVector, hread,
    Option.bind_some]

variable {allowed : List String → Prop} {full : Prop} {f : Frame (List (Arg n))} {texts : List Sds}
  {fs₁ fs₂ : List (Frame (List (Arg n)))} {vs : List (List Sds)}

/-- A vector arrives at a client that is a replica by then. -/
theorem Shows.replica_of_msg {rargv : List (Arg n)} {fs : List (Frame (List (Arg n)))}
    (hm : MeshReachable (crdtService dbl) allowed full m) (hlink : m.link r q = .msg rargv :: fs)
    (h : c.Shows conf m fs') : (c.link q r).out.replica = true := by
  obtain ⟨k, -, htracks⟩ := hm.tracks
  rw [h.replica, h.replicas]
  exact htracks.peer hlink

/-- The first vector of a read is one step of the network. -/
theorem Shows.processCommand {c₁ : Cluster n} (hf : FrameText f texts)
    (hm : MeshReachable (crdtService dbl) allowed full m) (hlink : m.link r q = f :: (fs₁ ++ fs₂))
    (h : c.Shows conf m (ahead m r q fs₂)) (hproc : c.processCommand dbl r q texts = some c₁) :
    ∃ m₁, MeshReachable (crdtService dbl) allowed full m₁ ∧ m₁.link r q = fs₁ ++ fs₂ ∧
      c₁.Shows conf m₁ (ahead m₁ r q fs₂) := by
  have hput : (m.put r q (fs₁ ++ fs₂)).link r q = fs₁ ++ fs₂ := by
    rw [Mesh.put_link, if_pos ⟨rfl, rfl⟩]
  cases hf with
  | hello =>
      obtain ⟨k, -, htracks⟩ := hm.tracks
      rw [processCommand_handshake] at hproc
      obtain rfl := Option.some.inj hproc
      exact ⟨_, hm.step (.greet r q hlink), hput,
        h.replicateCommand (htracks.ne hlink) (fs₁ ++ fs₂)⟩
  | msg hread hcmd hmin =>
      rw [processCommand_vector hread hcmd hmin (h.replica_of_msg hm hlink)] at hproc
      obtain ⟨db, heff, rfl⟩ := Option.map_eq_some_iff.mp hproc
      rw [h.db] at heff
      exact ⟨_, hm.step (.deliver r q hlink heff), hput,
        (h.setDb q db).congr rfl rfl rfl fun a b => ahead_put m r q fs₂ (fs₁ ++ fs₂) a b⟩

/-- Processing a handshake leaves the keys, processing a vector is applying
its message. -/
theorem Shows.processCommand_db (hf : FrameText f texts)
    (hm : MeshReachable (crdtService dbl) allowed full m) (hlink : m.link r q = f :: fs₁)
    (h : c.Shows conf m fs') :
    (c.processCommand dbl r q texts).map (fun c₁ => c₁.db q)
      = (readVector texts).elim (some (c.db q)) fun rargv =>
          effectCommand dbl q rargv (c.db q) := by
  cases hf with
  | hello =>
      have hnone : readVector handshake = (none : Option (List (Arg n))) := by
        rw [readVector, show cmdOfText handshake = none by decide +kernel, Option.bind_none]
      rw [processCommand_handshake, hnone]
      rfl
  | msg hread hcmd hmin =>
      rw [processCommand_vector hread hcmd hmin (h.replica_of_msg hm hlink), hread,
        Option.map_map, Option.elim_some]
      have hself : ∀ db, (c.setDb q db).db q = db := fun db => by simp [Cluster.setDb]
      simp only [Function.comp_def, hself, Option.map_id']

/-- The vectors of one read are as many steps of the network. -/
theorem processCommands_shows (hvs : List.Forall₂ FrameText fs₁ vs)
    (hm : MeshReachable (crdtService dbl) allowed full m) (hlink : m.link r q = fs₁ ++ fs₂)
    (h : c.Shows conf m (ahead m r q fs₂))
    (hexec : c.processCommands dbl r q vs = some c') :
    ∃ m', MeshReachable (crdtService dbl) allowed full m' ∧ c'.Shows conf m' m'.link := by
  induction hvs generalizing c m with
  | nil =>
      obtain rfl := Option.some.inj hexec
      refine ⟨m, hm, h.congr rfl rfl rfl fun a b => ?_⟩
      unfold ahead
      split
      · next hab =>
          obtain ⟨rfl, rfl⟩ := hab
          exact hlink
      · rfl
  | cons hf _ ih =>
      obtain ⟨c₁, hproc, hexec⟩ := Option.bind_eq_some_iff.mp hexec
      obtain ⟨m₁, hm₁, hlink₁, h₁⟩ := h.processCommand hf hm hlink hproc
      exact ih hm₁ hlink₁ h₁ hexec

/-- A read of the connection from `r` to `q`: the frames it completes, and
the servers before their vectors are processed. -/
theorem Shows.read (hconf : conf.Roomy) (h : c.Shows conf m m.link) {s rest : Sds}
    (hs : (c.link r q).wire = s ++ rest) (hlen : s.length ≤ (c.link r q).inp.readlen) :
    ∃ inp vs fs₁ fs₂,
      (c.link r q).inp.readQueryFromClient conf (.bytes s) = some (inp, vs) ∧
      inp.closing = false ∧ inp.replies = [] ∧ m.link r q = fs₁ ++ fs₂ ∧
      List.Forall₂ FrameText fs₁ vs ∧
      (c.setLink r q { c.link r q with wire := rest, inp := inp }).Shows conf m
        (ahead m r q fs₂) := by
  obtain ⟨vs', hframes, hconveys⟩ := h.link r q
  obtain ⟨inp, vs, vs₂, hread, rfl, hrest⟩ := hconveys.read hconf hs hlen
  have hafter : List.Forall₂ FrameText
      (ahead m r q ((m.link r q).drop vs.length) r q) vs₂ := by
    rw [ahead, if_pos ⟨rfl, rfl⟩]
    exact List.forall₂_drop_append _ _ _ hframes
  refine ⟨inp, vs, _, _, hread, ?_, ?_, (List.take_append_drop vs.length (m.link r q)).symm,
    List.forall₂_take_append _ _ _ hframes, h.setLink rfl hafter hrest fun a b hab => if_neg hab⟩
  · rw [Query.closing, hrest.expects.isOpen, hrest.expects.asap]
    rfl
  · rw [hrest.expects.told, Query.stop_open hrest.expects.isOpen]
    rfl

/-- Processing the vectors of one read is applying their messages. -/
theorem processCommands_db (hvs : List.Forall₂ FrameText fs₁ vs)
    (hm : MeshReachable (crdtService dbl) allowed full m)
    (hlink : m.link r q = fs₁ ++ fs₂) (h : c.Shows conf m (ahead m r q fs₂)) :
    (c.processCommands dbl r q vs).map (fun c' => c'.db q)
      = (vs.filterMap readVector).foldlM (fun db rargv => effectCommand dbl q rargv db)
        (c.db q) := by
  induction hvs generalizing c m with
  | nil => rfl
  | @cons f texts fs₁ vs hf _ ih =>
      -- what the first vector does to the keys, and the rest from there
      have hfirst := h.processCommand_db hf hm hlink
      have hrest : ((c.processCommand dbl r q texts).map fun c₁ => c₁.db q).bind
            ((vs.filterMap readVector).foldlM fun db rargv => effectCommand dbl q rargv db)
          = (c.processCommands dbl r q (texts :: vs)).map fun c' => c'.db q := by
        rw [processCommands]
        cases hproc : c.processCommand dbl r q texts with
        | none => rfl
        | some c₁ =>
            obtain ⟨m₁, hm₁, hlink₁, h₁⟩ := h.processCommand hf hm hlink hproc
            exact (ih hm₁ hlink₁ h₁).symm
      rw [← hrest, hfirst]
      cases hread : readVector (n := n) texts with
      | none => rw [List.filterMap_cons_none hread]; rfl
      | some rargv => rw [List.filterMap_cons_some hread]; rfl

end Cluster

-- ================================================================= runs

section Run

variable {conf : Limits} {A : Alloc} {dbl : String → Option ℤ} {allowed : List String → Prop}
  {full : Prop} {c : Cluster n}

/-- The servers are a network of queues. -/
theorem ClusterReachable.shows (hconf : conf.Roomy) (hhand : conf.InLimits handshake)
    (h : ClusterReachable conf A dbl allowed full c) :
    ∃ m, MeshReachable (crdtService dbl) allowed full m ∧ c.Shows conf m m.link := by
  have hfits : conf.format.Fits handshake := by
    refine ⟨by decide, ?_, hhand.2, ?_⟩
    · show (handshake.length : ℤ) ≤ 1024 * 1024
      decide
    · rw [conf.format_quits]
      decide +kernel
  induction h with
  | start => exact ⟨_, .start, Cluster.shows_start conf⟩
  | @step c c' _ hs ih =>
      obtain ⟨m, hm, h⟩ := ih
      obtain ⟨k, -, htracks⟩ := hm.tracks
      cases hs with
      | reject r argv hc hp =>
          rw [h.db] at hp
          refine ⟨_, hm.step (.reject r argv hc ?_), h.setDb r _⟩
          show (prepareCommand dbl r argv (m.site r)).map _ = _
          rw [hp]
          rfl
      | @issue db db' rargv texts r argv hc hp ht hsend hlimits he hfull =>
          rw [h.db] at hp
          obtain ⟨cmd, -, hcmd, hmin, htyped⟩ := prepareCommand_typed hp
          obtain ⟨texts', ht', hread, hlen⟩ := readArgs_vectorText htyped hsend
          obtain rfl := Option.some.inj (ht.symm.trans ht')
          have hname := cmdOfText_vectorText ht hcmd
          have hvec : readVector texts = some rargv := by
            rw [readVector, hname, Option.bind_some, hread]
          rw [applyVector, hvec, Option.bind_some] at he
          have hmin' : cmd.arity ≤ texts.length := hlen ▸ hmin
          refine ⟨_, hm.step (.issue r argv hc ?_ he ?_), ?_⟩
          · show (prepareCommand dbl r argv (m.site r)).map _ = _
            rw [hp]
            rfl
          · rw [← h.replicas]
            exact hfull
          · exact Cluster.Shows.replicationBroadcast (m := m.move r db') (h.setDb r db')
              (.msg hvec hname hmin') (fits_of_cmd hname hmin' hlimits) (htracks.wired.nodup r)
      | connect r q hne hrq hqr =>
          have hrq' : ¬ m.joined r q := fun hj => by
            rw [(h.connected r q).mpr hj] at hrq
            cases hrq
          have hqr' : ¬ m.joined q r := fun hj => by
            rw [(h.connected q r).mpr hj] at hqr
            cases hqr
          refine ⟨_, hm.step (.connect r q hne hrq' hqr'), h.connect hne ?_ ?_ ?_ hfits⟩
          · exact (htracks.early hne hrq' hqr').1
          · exact (htracks.early hne.symm hqr' hrq').1
          · exact fun hpeer => (htracks.wired.join q r hpeer).elim hqr' hrq'
      | write r q e he hw =>
          obtain ⟨vs, hframes, hconveys⟩ := h.link r q
          obtain ⟨hconveys', hreplica⟩ := hconveys.write he hw
          exact ⟨m, hm, h.setLink hreplica hframes hconveys' fun _ _ _ => rfl⟩
      | read r q hs hne hlen hread hexec =>
          obtain ⟨inp', vs', fs₁, fs₂, hread', -, -, hfs, hframes, hafter⟩ := h.read hconf hs hlen
          rw [hread] at hread'
          obtain ⟨rfl, rfl⟩ := Prod.mk.inj (Option.some.inj hread')
          exact Cluster.processCommands_shows hframes hm hfs hafter hexec

/-- A direction without bytes under way or pending. -/
def Link.Quiet (l : Link) : Prop := l.wire = [] ∧ l.out.hasPendingReplies = false

theorem Cluster.Shows.quiet {m : Mesh n (Db n) (List (Arg n))} (h : c.Shows conf m m.link)
    {r q : Fin n} (hq : (c.link r q).Quiet) : m.link r q = [] := by
  obtain ⟨vs, hframes, hconveys⟩ := h.link r q
  rw [hconveys.quiet hq.1 hq.2] at hframes
  exact List.forall₂_nil_right_iff.mp hframes

/-- A run of the servers over their byte streams is a run of the service
in which every message arrives at most once, with the same keys. Of the
operations a server accepted another one applied a segment, in order: it
misses those accepted before it was a replica and those that are under
way. What is pending is scheduled to be written. -/
theorem cluster_refines (hconf : conf.Roomy) (hhand : conf.InLimits handshake)
    (h : ClusterReachable conf A dbl allowed full c) :
    ∃ k : Net n, Reachable (crdtService dbl) (.once allowed) k ∧ k.site = c.db ∧
      ∀ r q, r ≠ q →
        (∃ before due,
          Mesh.opsOf r k.sent = before ++ Mesh.opsOf r (k.got q) ++ due ∧
          (full → before = []) ∧ ((c.link r q).Quiet → due = [])) ∧
        ((c.link r q).out.hasPendingReplies = true → (c.link r q).out.scheduled = true) := by
  obtain ⟨m, hm, hshows⟩ := h.shows hconf hhand
  obtain ⟨k, hk, htracks⟩ := hm.tracks
  refine ⟨k, hk, htracks.site.trans hshows.db.symm, fun r q hne => ⟨?_, ?_⟩⟩
  · obtain ⟨before, due, hflow⟩ := htracks.flow r q hne
    exact ⟨before, due, hflow.split, hflow.whole, fun hq => hflow.owes.of_nil (hshows.quiet hq)⟩
  · obtain ⟨vs, -, hconveys⟩ := hshows.link r q
    exact hconveys.scheduled

/-- Server 0 connects to server 1, each accepts an add, and the first of
the vectors arrives in two pieces. -/
def clusterSchedule : List (ClusterAct 2) :=
  [.connect 0 1, .write 0 1 (.pendingWrites false [.wrote 100] true), .read 0 1 16384,
    .submit 1 ["RWFZADD", "z", "a", "5"],
    .write 1 0 (.pendingWrites false [.wrote 30, .again] true),
    .read 1 0 7, .submit 0 ["rwfzadd", "z", "b", "7"], .write 1 0 (.writable false [.wrote 100]),
    .read 1 0 16384]

theorem clusterSchedule_reachable : ∃ c : Cluster 2,
    ClusterReachable .default ⟨id, fun _ => le_rfl⟩ getLongLongFromObject (Issues [.rwfzadd])
      True c ∧ scoreOf (c.db 0) "z" "a" = some (some 5) ∧ (c.link 1 0).wire = [] ∧
      (c.link 1 0).out.hasPendingReplies = false ∧
      (c.link 0 1).out.hasPendingReplies = true := by
  have hrun : ((Cluster.start.run .default ⟨id, fun _ => le_rfl⟩ getLongLongFromObject
      clusterSchedule).map fun c => (scoreOf (c.db 0) "z" "a", (c.link 1 0).wire,
        (c.link 1 0).out.hasPendingReplies, (c.link 0 1).out.hasPendingReplies))
      = some (some (some 5), [], false, true) := by decide +kernel
  obtain ⟨c, hc, heq⟩ := Option.map_eq_some_iff.mp hrun
  simp only [Prod.mk.injEq] at heq
  exact ⟨c, Cluster.run_reachable .start (by decide +kernel) hc, heq⟩

/-- Server 0 has applied all that server 1 accepted. -/
theorem cluster_refines_pair : ∃ (c : Cluster 2) (k : Net 2),
    Reachable (crdtService getLongLongFromObject) (.once (Issues [.rwfzadd])) k ∧
      k.site = c.db ∧ scoreOf (k.site 0) "z" "a" = some (some 5) ∧
      Mesh.opsOf 1 k.sent = Mesh.opsOf 1 (k.got 0) ∧ (c.link 0 1).out.scheduled = true := by
  obtain ⟨c, hc, hscore, hwire, hquiet, hpending⟩ := clusterSchedule_reachable
  obtain ⟨k, hk, hsite, hall⟩ := cluster_refines (by unfold Limits.Roomy; decide)
    (by decide +kernel) hc
  obtain ⟨⟨before, due, hsplit, hbefore, hdue⟩, -⟩ := hall 1 0 (by decide)
  rw [hbefore trivial, hdue ⟨hwire, hquiet⟩, List.append_nil, List.nil_append] at hsplit
  exact ⟨c, k, hk, hsite, hsite ▸ hscore, hsplit, (hall 0 1 (by decide)).2 hpending⟩

/-- Whatever part of the bytes under way a server reads, the reader takes
it and goes on: no reply, no protocol error. The vectors that are complete
are handshakes and vectors a server can read, and processing them is
applying the vectors in order. -/
theorem cluster_reads (hconf : conf.Roomy) (hhand : conf.InLimits handshake)
    (h : ClusterReachable conf A dbl allowed full c) {r q : Fin n} {s rest : Sds}
    (hs : (c.link r q).wire = s ++ rest) (hlen : s.length ≤ (c.link r q).inp.readlen) :
    ∃ inp vs, (c.link r q).inp.readQueryFromClient conf (.bytes s) = some (inp, vs) ∧
      inp.closing = false ∧ inp.replies = [] ∧
      (∀ v ∈ vs, v = handshake ∨ ∃ rargv : List (Arg n), readVector v = some rargv) ∧
      ((c.setLink r q { c.link r q with wire := rest, inp := inp }).processCommands
          dbl r q vs).map (fun c' => c'.db q)
        = (vs.filterMap readVector).foldlM (fun db rargv => effectCommand dbl q rargv db)
          (c.db q) := by
  obtain ⟨m, hm, hshows⟩ := h.shows hconf hhand
  obtain ⟨inp, vs, fs₁, fs₂, hread, hopen, hreplies, hfs, hframes, hafter⟩ :=
    hshows.read hconf hs hlen
  refine ⟨inp, vs, hread, hopen, hreplies, fun v hv => ?_,
    Cluster.processCommands_db hframes hm hfs hafter⟩
  obtain ⟨i, hi, rfl⟩ := List.mem_iff_getElem.mp hv
  obtain ⟨f, hf⟩ : ∃ f, FrameText (n := n) f vs[i] :=
    ⟨_, hframes.get (by rw [hframes.length_eq]; exact hi) hi⟩
  generalize vs[i] = v at hf ⊢
  cases hf with
  | hello => exact Or.inl rfl
  | msg hread _ _ => exact Or.inr ⟨_, hread⟩

/-- The last read of `clusterSchedule` completes the vector of the add. -/
theorem cluster_reads_vector : ∃ (c : Cluster 2) (inp : Query) (v : List Sds)
    (rargv : List (Arg 2)),
    (c.link 1 0).inp.readQueryFromClient .default (.bytes (c.link 1 0).wire) = some (inp, [v]) ∧
      inp.closing = false ∧ inp.replies = [] ∧ readVector v = some rargv ∧
      ((c.setLink 1 0 { c.link 1 0 with wire := [], inp := inp }).processCommands
          getLongLongFromObject 1 0 [v]).map (fun c' => c'.db 0)
        = effectCommand getLongLongFromObject 0 rargv (c.db 0) := by
  have hrun : ((Cluster.start.run .default ⟨id, fun _ => le_rfl⟩ getLongLongFromObject
      clusterSchedule.dropLast).map fun c =>
        (decide ((c.link 1 0).wire.length ≤ (c.link 1 0).inp.readlen),
          ((c.link 1 0).inp.readQueryFromClient .default (.bytes (c.link 1 0).wire)).map fun p =>
            p.2.map fun v => (readVector v : Option (List (Arg 2))).isSome))
      = some (true, some [true]) := by decide +kernel
  obtain ⟨c, hc, heq⟩ := Option.map_eq_some_iff.mp hrun
  obtain ⟨hlen, hvs⟩ := Prod.mk.inj heq
  have hreach : ClusterReachable .default ⟨id, fun _ => le_rfl⟩ getLongLongFromObject
      (Issues [.rwfzadd]) True c := Cluster.run_reachable .start (by decide +kernel) hc
  obtain ⟨inp, vs, hread, hopen, hreplies, -, hdb⟩ := cluster_reads
    (by unfold Limits.Roomy; decide) (by decide +kernel) hreach
    (List.append_nil (c.link 1 0).wire).symm (of_decide_eq_true hlen)
  rw [hread, Option.map_some, Option.some.injEq, List.map_eq_singleton_iff] at hvs
  obtain ⟨v, rfl, hv⟩ := hvs
  obtain ⟨rargv, hrargv⟩ := Option.isSome_iff_exists.mp hv
  rw [List.filterMap_cons_some hrargv, List.filterMap_nil, List.foldlM_cons] at hdb
  refine ⟨c, inp, v, rargv, hread, hopen, hreplies, hrargv, hdb.trans ?_⟩
  exact bind_pure _

end Run

end CrdtRedis
