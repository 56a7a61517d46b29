/-
The length of a remove-wins list, its visible elements and what `rllist`
sends.

The length follows from the bodies alone (`RlBodies.tally`). That `rllist`
announces as many elements as it sends needs the chain as well: a visible
element has to hang in it. An insert is lost to the chain if the
predecessor named by its broadcast is the record it places, which then is
linked to itself only. An element cannot be its own predecessor where the
insert is prepared, so the predecessor is one of the words `null` and
`readd`; the record of an element `readd` has its place when such an
insert is applied, by causal delivery, and that leaves the element `null`.
-/
import CrdtRedis.Rw.ListState

namespace CrdtRedis

open Replication
open Linked (Path)

variable {n : ℕ}

-- ============================================================ the walk

/-- `rllist` sends the visible elements of the chain. -/
theorem Rl.listFrom_path {me : Fin n} {h : Hash n} {l : List String} {start : Option String}
    {fuel : ℕ} (hpath : Path (rleKind.next h) start l) (hmade : ∀ a ∈ l, (h.rles a).isSome)
    (hentry : ∀ a ∈ l, (rleKind.bodyAt me h a).lookup = true →
      ((rleKind.bodyAt me h a).entry RlAse.t).isSome) (hfuel : l.length ≤ fuel) :
    ∃ elems, Rl.listFrom h fuel start = some elems ∧
      elems.length = (l.filter fun a => (rleKind.bodyAt me h a).lookup).length := by
  refine hpath.walk (fun fuel => by cases fuel <;> rfl) ?_ hfuel
  intro a ha fuel rest hrest
  obtain ⟨e, he⟩ := Option.isSome_iff_exists.mp (hmade a ha)
  have hbody : rleKind.bodyAt me h a = e.body := ListKind.bodyAt_of_heap he
  rw [ListKind.next_of_heap he] at hrest
  rw [Rl.listFrom, he, Option.bind_some, hrest, Option.bind_some, Rle.lookup, ← hbody]
  cases hlook : (rleKind.bodyAt me h a).lookup with
  | true =>
      obtain ⟨x, hx⟩ := Option.isSome_iff_exists.mp (hentry a ha hlook)
      rw [hbody] at hx
      exact ⟨_, by rw [if_pos rfl, Rl.elementReply, hx]; rfl, rfl⟩
  | false => exact ⟨rest, rfl, rfl⟩

-- ============================================================ the chain

section

variable {dbl : String → Option ℤ} {allowed : List String → Prop}
  {k : Config n (Option (Hash n)) (RlMsg n)}

/-- The chain of a remove-wins list, in a run without an insert of an
element `null` behind itself. -/
theorem rl_chain (hall : ∀ argv, allowed argv → listOid argv ∉ listFields)
    (hk : Reachable rlType.service
      (.once fun argv => allowed argv ∧ (rlType (n := n)).Submits dbl argv) k)
    (hnull : ∀ o ∈ k.sent, ∀ i, o.msg.cmd.op = .insert i → cText i.oid = "null" → i.pre ≠ i.oid)
    (r : Fin n) : ∃ l, rleKind.Chain ((k.site r).getD .empty) l := by
  have hC := rl_causal (n := n) fun argv => allowed argv ∧ (rlType (n := n)).Submits dbl argv
  have hhead : ∀ a, a ∉ listFields → a ≠ "head" := fun a ha hcon => ha (by rw [hcon]; decide)
  have hinserts : ∀ argv, allowed argv → cmdOf argv = some .rlinsert → listOid argv ≠ "head" :=
    fun argv h _ => hhead _ (hall argv h)
  have hrun := rl_forall (F := fun o => o ∈ k.sent)
    (J := fun r L h => rleKind.Kept h (L.flatMap fun cmd => cmd.op.placements) ∧
      (L <+: hC.log k r → ∃ l, rleKind.Chain h l))
    (Q := fun o => o.msg.cmd.op.oid ∉ listFields ∧ ∀ i, o.msg.cmd.op = .insert i →
      cText i.pre ≠ "readd" → i.pre ≠ i.oid) hk (fun _ ho => ho) ?_ ?_ ?_ ?_ ?_
  · exact (hrun.1 r).2 (List.prefix_refl _)
  · exact fun r => ⟨ListKind.kept_empty fun _ => rfl,
      fun _ => ⟨[], rleKind.chain_empty fun _ => rfl⟩⟩
  · intro r argv ho ho' m L hargv hJ hp
    obtain ⟨hkept, hchain⟩ := hJ
    have hm := (rl_prepared (fun a => a ∉ listFields) hargv.2 hkept.sound
      (hall argv hargv.1) hp).moves
    refine ⟨?_, fun hpre => ?_⟩
    · have hkept' := hkept.moves rleKind_lawful hm fun _ hi => nomatch hi
      rwa [List.append_nil] at hkept'
    · obtain ⟨l, hc⟩ := hchain hpre
      exact hc.moves rleKind_lawful hhead hm fun _ hi => nomatch hi
  · intro r argv ho ho' m L u hargv hJ hp hsent
    obtain ⟨hkept, _⟩ := hJ
    obtain ⟨hoid, hacc⟩ := (rl_prepared (fun _ => True) hargv.2 hkept.sound trivial hp).issue m rfl
    have hname : m.cmd.op.oid ∉ listFields := by
      rw [hoid]
      exact hall argv hargv.1
    refine ⟨hname, ?_⟩
    intro i hi hre hcon
    generalize hw : argv.getD 2 "" = w at hacc
    cases hacc i hi with
    | again hpre _ => exact hre hpre
    | fresh hnone _ hword _ =>
        rw [hcon] at hword
        generalize hio : i.oid = oid at hword
        cases hword with
        | missing hfind hlow => exact hnull _ hsent i hi (hio ▸ hlow) hcon
        | found hfind hsome =>
            -- a predecessor has a place, a new element has none
            rename_i a
            rw [hio, ListKind.posOf, hfind] at hnone
            rw [show rleKind.posAt (ho.getD .empty) a = none from hnone] at hsome
            cases hsome
  · intro r L h h' hJ hc
    obtain ⟨hkept, hchain⟩ := hJ
    refine ⟨hkept.quiet hc.quiet, fun hpre => ?_⟩
    obtain ⟨l, hl⟩ := hchain hpre
    exact ⟨l, hl.quiet hc.quiet⟩
  · intro r L h h' o hJ hsent hQ happ
    obtain ⟨hkept, hchain⟩ := hJ
    obtain ⟨hname, hlink⟩ := hQ
    have hm : rleKind.Moves r (fun a => a ∉ listFields) h _ h' := Rl.applyCmd_moves hname happ
    have hplaces : ∀ i ∈ o.msg.cmd.op.placements, o.msg.cmd.op = .insert i ∧ i.oid ≠ "head" := by
      intro i hi
      have hop := ListOp.eq_insert hi
      rw [hop] at hname
      exact ⟨hop, hhead _ hname⟩
    refine ⟨?_, fun hpre => ?_⟩
    · rw [List.flatMap_append, List.flatMap_singleton]
      exact hkept.moves rleKind_lawful hm fun i hi => (hplaces i hi).2
    · obtain ⟨l, hc⟩ := hchain ((List.prefix_append _ _).trans hpre)
      refine hc.moves rleKind_lawful hhead hm ?_
      intro i hi
      obtain ⟨hop, hne⟩ := hplaces i hi
      by_cases hre : cText i.pre = "readd"
      · -- the insert repeats one that is applied here
        refine Or.inl ?_
        obtain ⟨f, hf, j, hj, -, hjoid, hlt⟩ :=
          rl_fresh_before hinserts hk o hsent i hop hre
        obtain ⟨rest, hlog⟩ := hpre
        rw [List.append_assoc] at hlog
        have hmem := (hC.delivery hk).mem_before hk hf hlog.symm hlt
        obtain ⟨e, he, -, hpos⟩ := hkept.named
          (List.mem_flatMap.mpr ⟨_, hmem, by rw [hj]; exact List.mem_singleton.mpr rfl⟩)
          (by rw [hjoid]; exact hne)
        rw [ListKind.posAt, ← hjoid, he]
        exact hpos
      · exact Or.inr (hlink i hop hre)

/-- Server `r` has applied broadcast `o`: it has received it and does not
keep it in its buffer. -/
structure RlApplied (k : Config n (Option (Hash n)) (RlMsg n)) (r : Fin n)
    (o : Op n (RlMsg n)) : Prop where
  got : o ∈ k.got r
  ready : o.msg.cmd ∉ ((k.site r).getD .empty).buf

/-- What was applied is what the log has. -/
theorem RlApplied.mem_log (hk : Reachable rlType.service (.once allowed) k) {r : Fin n}
    {o : Op n (RlMsg n)} (ho : RlApplied k r o) : o.msg.cmd ∈ (rl_causal allowed).log k r := by
  have hmem := ((rl_causal allowed).perm hk r).mem_iff.mpr (List.mem_map.mpr ⟨o, ho.got, rfl⟩)
  exact (List.mem_append.mp hmem).resolve_right ho.ready

theorem rl_applied_of_log (hk : Reachable rlType.service (.once allowed) k) {r : Fin n}
    {cmd : RlCmd n} (hcmd : cmd ∈ (rl_causal allowed).log k r) :
    ∃ o, RlApplied k r o ∧ o.msg.cmd = cmd := by
  have hC := rl_causal (n := n) allowed
  obtain ⟨o, ho, rfl⟩ := hC.log_got hk hcmd
  have hnodup := List.nodup_append.mp ((hC.delivery hk).nodup hk r)
  exact ⟨o, ⟨ho, fun hbuf => hnodup.2.2 _ hcmd _ hbuf rfl⟩, rfl⟩

end

-- ======================================================== what is counted

/-- `LOOKUP` on an element. -/
def RlVisible (h : Hash n) (oid : String) : Prop :=
  ∃ a e, rleKind.find h oid = some (some a) ∧ h.rles a = some e ∧ e.lookup = true

/-- The elements that server `r` shows, and their number. -/
structure RlCounts (k : Config n (Option (Hash n)) (RlMsg n)) (r : Fin n) : Prop where
  /-- An element is visible if an insert of it was applied, and every
  applied remove of it is below an applied insert. -/
  visible : ∀ oid, oid ∉ listFields → (RlVisible ((k.site r).getD .empty) oid ↔
    (∃ o, RlApplied k r o ∧ o.msg.type = .rladd ∧ o.msg.cmd.op.oid = oid) ∧
    ∀ o, RlApplied k r o → o.msg.type = .rlrem ∧ o.msg.cmd.op.oid = oid →
      ∃ o', RlApplied k r o' ∧ o'.msg.type = .rladd ∧ o'.msg.cmd.op.oid = oid ∧
        o.msg.t.vector < o'.msg.t.vector)
  finite : {oid | oid ∉ listFields ∧ RlVisible ((k.site r).getD .empty) oid}.Finite
  /-- `rllen` returns the number of visible elements. -/
  length : rllenCommand ((k.site r).getD .empty)
    = some ({oid | oid ∉ listFields ∧ RlVisible ((k.site r).getD .empty) oid}.ncard : ℤ)

/-- `rllist` announces as many elements as it sends. -/
def RlListed (h : Hash n) : Prop :=
  ∃ elems, rllistCommand h = some ((elems.length : ℤ), elems)

theorem rlOps_kind (cmd : RlCmd n) : (rlOps.kind cmd = .add ↔ cmd.type = .rladd) ∧
    (rlOps.kind cmd = .rem ↔ cmd.type = .rlrem) := by
  cases hty : cmd.type <;> simp [rlOps, hty]

section

variable {dbl : String → Option ℤ} {allowed : List String → Prop}
  {k : Config n (Option (Hash n)) (RlMsg n)}

/-- The records of the first inserts, in a run that names no element with a
field. -/
theorem rl_kept (hall : ∀ argv, allowed argv → listOid argv ∉ listFields)
    (hk : Reachable rlType.service
      (.once fun argv => allowed argv ∧ (rlType (n := n)).Submits dbl argv) k) (r : Fin n) :
    rleKind.Kept ((k.site r).getD .empty)
      (((rl_causal fun argv => allowed argv ∧ (rlType (n := n)).Submits dbl argv).log
        k r).flatMap fun cmd => cmd.op.placements) := by
  have hrun : ListRun rleKind (fun _ => True) (fun m : RlMsg n => m.cmd.op) k _ :=
    rl_run (fun _ _ => trivial) hk
  refine ((hrun.kept rleKind_lawful (fun _ => rfl) ((rl_places dbl allowed).sent_name ?_ hk)).1 r).1
  exact fun argv hargv _ hcon => hall argv hargv (by rw [hcon]; decide)

/-- The sets of an element say whether it is visible. -/
theorem rl_visible_iff (hall : ∀ argv, allowed argv → listOid argv ∉ listFields)
    (hk : Reachable rlType.service
      (.once fun argv => allowed argv ∧ (rlType (n := n)).Submits dbl argv) k) (r : Fin n)
    {oid : String} (hoid : oid ∉ listFields) : RlVisible ((k.site r).getD .empty) oid ↔
      (rleKind.bodyAt r ((k.site r).getD .empty) oid).lookup = true := by
  have hkept := rl_kept hall hk r
  have hne : oid ≠ "head" := fun hcon => hoid (by rw [hcon]; decide)
  constructor
  · intro hshown
    obtain ⟨a, e, hfind, he, hlook⟩ := hshown
    obtain rfl := hkept.sound.find hne hfind
    rw [ListKind.bodyAt_of_heap he]
    exact hlook
  · intro hlook
    cases he : rleKind.heap ((k.site r).getD .empty) oid with
    | none =>
        rw [ListKind.bodyAt, he] at hlook
        cases hlook
    | some e =>
        refine ⟨oid, e, hkept.found oid hne (by rw [ListKind.mark, he]; rfl), he, ?_⟩
        rwa [ListKind.bodyAt_of_heap he] at hlook

/-- What is visible was inserted here. -/
theorem rl_inserted (hall : ∀ argv, allowed argv → listOid argv ∉ listFields)
    (hk : Reachable rlType.service
      (.once fun argv => allowed argv ∧ (rlType (n := n)).Submits dbl argv) k) (r : Fin n)
    {oid : String} (hlook : (rleKind.bodyAt r ((k.site r).getD .empty) oid).lookup = true) :
    oid ∉ listFields ∧ ∃ e, rleKind.heap ((k.site r).getD .empty) oid = some e ∧
      e.oid.isSome := by
  obtain ⟨⟨cmd, hcmd, hadd⟩, -⟩ := (rl_holds hall hk r oid).lookup_iff.mp hlook
  obtain ⟨hlog, hname⟩ := List.mem_filter.mp hcmd
  have hname : cmd.op.oid = oid := by simpa using hname
  have hC := rl_causal (n := n) fun argv => allowed argv ∧ (rlType (n := n)).Submits dbl argv
  have hrun : ListRun rleKind (fun a => a ∉ listFields) (fun m : RlMsg n => m.cmd.op) k _ :=
    rl_run hall hk
  obtain ⟨o, ho, rfl⟩ := hC.log_got hk hlog
  obtain ⟨i, hi⟩ : ∃ i, o.msg.cmd.op = .insert i := by
    unfold RlCmd.op
    rw [(rlOps_kind _).1.mp hadd]
    exact ⟨_, rfl⟩
  have hfield := hrun.sent_ok o (hk.ledger.got_sent r o ho) i hi
  rw [hi] at hname
  obtain rfl : i.oid = oid := hname
  refine ⟨hfield, ?_⟩
  obtain ⟨e, he, hsome, -⟩ := (rl_kept hall hk r).named
    (List.mem_flatMap.mpr ⟨_, hlog, by rw [hi]; exact List.mem_singleton.mpr rfl⟩)
    fun hcon => hfield (by rw [hcon]; decide)
  exact ⟨e, he, hsome⟩

theorem rl_counts (hall : ∀ argv, allowed argv → listOid argv ∉ listFields)
    (hk : Reachable rlType.service
      (.once fun argv => allowed argv ∧ (rlType (n := n)).Submits dbl argv) k) (r : Fin n) :
    RlCounts k r := by
  have hset : {oid | oid ∉ listFields ∧ RlVisible ((k.site r).getD .empty) oid}
      = rleKind.shown r RwSets.lookup ((k.site r).getD .empty) := by
    ext oid
    constructor
    · intro hboth
      obtain ⟨hoid, hvis⟩ := hboth
      exact (rl_visible_iff hall hk r hoid).mp hvis
    · intro hlook
      have hoid := (rl_inserted hall hk r hlook).1
      exact ⟨hoid, (rl_visible_iff hall hk r hoid).mpr hlook⟩
  have htally := (rl_bodies hall hk r).tally
  refine ⟨?_, by rw [hset]; exact htally.finite, by rw [hset]; exact htally.len⟩
  intro oid hoid
  rw [rl_visible_iff hall hk r hoid, (rl_holds hall hk r oid).lookup_iff]
  have hread : ∀ {cmd : RlCmd n}, cmd ∈ ((rl_causal fun argv =>
      allowed argv ∧ (rlType (n := n)).Submits dbl argv).log k r).filter
        (fun cmd => cmd.op.oid = oid) →
      ∃ o, RlApplied k r o ∧ o.msg.cmd = cmd ∧ o.msg.cmd.op.oid = oid := by
    intro cmd hcmd
    obtain ⟨hlog, hname⟩ := List.mem_filter.mp hcmd
    obtain ⟨o, ho, rfl⟩ := rl_applied_of_log hk hlog
    exact ⟨o, ho, rfl, by simpa using hname⟩
  have hmem : ∀ {o : Op n (RlMsg n)}, RlApplied k r o → o.msg.cmd.op.oid = oid →
      o.msg.cmd ∈ ((rl_causal fun argv =>
        allowed argv ∧ (rlType (n := n)).Submits dbl argv).log k r).filter
          (fun cmd => cmd.op.oid = oid) :=
    fun ho hname => List.mem_filter.mpr ⟨ho.mem_log hk, by simpa using hname⟩
  constructor
  · intro hboth
    obtain ⟨⟨cmd, hcmd, hadd⟩, hrem⟩ := hboth
    refine ⟨?_, ?_⟩
    · obtain ⟨o, ho, rfl, hname⟩ := hread hcmd
      exact ⟨o, ho, (rlOps_kind _).1.mp hadd, hname⟩
    · intro o ho hrm
      obtain ⟨hty, hname⟩ := hrm
      obtain ⟨y, hy, hyadd, hlt⟩ := hrem _ (hmem ho hname) ((rlOps_kind _).2.mpr hty)
      obtain ⟨o', ho', rfl, hname'⟩ := hread hy
      exact ⟨o', ho', (rlOps_kind _).1.mp hyadd, hname', hlt⟩
  · intro hboth
    obtain ⟨⟨o, ho, hty, hname⟩, hrem⟩ := hboth
    refine ⟨⟨_, hmem ho hname, (rlOps_kind _).1.mpr hty⟩, ?_⟩
    intro x hx hxrem
    obtain ⟨p, hp, rfl, hpname⟩ := hread hx
    obtain ⟨o', ho', hty', hname', hlt⟩ := hrem p hp ⟨(rlOps_kind _).2.mp hxrem, hpname⟩
    exact ⟨_, hmem ho' hname', (rlOps_kind _).1.mpr hty', hlt⟩

theorem rl_listed (hall : ∀ argv, allowed argv → listOid argv ∉ listFields)
    (hk : Reachable rlType.service
      (.once fun argv => allowed argv ∧ (rlType (n := n)).Submits dbl argv) k)
    (hnull : ∀ o ∈ k.sent, ∀ i, o.msg.cmd.op = .insert i → cText i.oid = "null" → i.pre ≠ i.oid)
    (r : Fin n) : RlListed ((k.site r).getD .empty) := by
  obtain ⟨l, hc⟩ := rl_chain hall hk hnull r
  have hentry : ∀ a ∈ l, (rleKind.bodyAt r ((k.site r).getD .empty) a).lookup = true →
      ((rleKind.bodyAt r ((k.site r).getD .empty) a).entry RlAse.t).isSome := by
    intro a _ hlook
    obtain ⟨x, -, hentry, -⟩ := (rl_holds hall hk r a).entry hlook
    exact Option.isSome_iff_exists.mpr ⟨_, hentry⟩
  obtain ⟨elems, hlist, hlen⟩ := Rl.listFrom_path hc.path hc.made hentry hc.length_le
  have hcount := (rl_bodies hall hk r).tally.filter hc.nodup (by
    intro a hlook
    obtain ⟨-, e, he, hoid⟩ := rl_inserted hall hk r hlook
    exact hc.mem a e he hoid)
  refine ⟨elems, ?_⟩
  rw [rllistCommand, hcount, Option.bind_some, hc.head, Option.bind_some, hlist, Option.map_some,
    hlen]

end

-- ========================================================== the network

/-- The vectors of the commands `cmds` that name no element with a field of
the list's hash. -/
def Fieldless (cmds : List Cmd) (argv : List String) : Prop :=
  Issues cmds argv ∧ listOid argv ∉ listFields

instance (cmds : List Cmd) : DecidablePred (Fieldless cmds) :=
  fun _ => inferInstanceAs (Decidable (_ ∧ _))

/-- A remove-wins list shows the elements it should, `rllen` counts them,
and `rllist` announces as many as it sends if no insert of an element that
`strcmp` takes for `null` names itself as its predecessor. -/
theorem rl_counts_listed (dbl : String → Option ℤ) {k : Net n}
    (hk : Reachable (crdtService dbl) (.once (Fieldless rlCmds)) k) (tname : String)
    (r : Fin n) : RlCounts (rlType.readAt tname k) r ∧
      ((∀ o ∈ k.sent, ∀ oid, cText oid = "null" → Inserts .rlinsert tname oid o.msg →
        (Placement.ofVector o.msg).pre ≠ oid) → RlListed (listAt (k.site r) tname)) := by
  have hat := ListType.reachable_once (ListType.hallowed rl_commands fun _ h => h.1) hk tname
  refine ⟨rl_counts (fun _ h => h.2) hat r, fun hnull => ?_⟩
  refine rl_listed (fun _ h => h.2) hat ?_ r
  intro o ho i hi hoid
  obtain ⟨o₀, ho₀, -, hc, hlist, rfl⟩ := rl_insertsBy.sent ho hi
  exact hnull o₀ ho₀ _ hoid ⟨hc, hlist, rfl⟩

/-- Two servers insert and remove at the same time; both exchange what they
did. -/
def countedSchedule : List (Act 2 (List String)) :=
  [.submit 0 ["rlinsert", "l", "null", "a", "x", "0", "0", "0", "0"], .deliver 1 0,
    .submit 0 ["rlrem", "l", "a"], .submit 1 ["rlinsert", "l", "a", "b", "y", "0", "0", "0", "0"],
    .deliver 0 2, .deliver 1 1]

theorem rl_counts_listed_schedule : ∃ k : Net 2,
    Reachable (crdtService getLongLongFromObject) (.once (Fieldless rlCmds)) k ∧
    (∀ r, rllenCommand (listAt (k.site r) "l") = some 1) ∧
    ∀ r, RlCounts (rlType.readAt "l" k) r ∧ RlListed (listAt (k.site r) "l") := by
  obtain ⟨k, hrun, hlen, hnull⟩ : ∃ k, (crdtService getLongLongFromObject).run
      (crdtService getLongLongFromObject).start countedSchedule = some k ∧
      (∀ r, rllenCommand (listAt (k.site r) "l") = some 1) ∧
      ∀ o ∈ k.sent, cText (Placement.ofVector o.msg).oid ≠ "null" :=
    ⟨_, rfl, by decide, by decide⟩
  have hk : Reachable (crdtService getLongLongFromObject) (.once (Fieldless rlCmds)) k :=
    Service.run_reachable (by decide) hrun
  refine ⟨k, hk, hlen, fun r => ?_⟩
  obtain ⟨hcounts, hlisted⟩ := rl_counts_listed getLongLongFromObject hk "l" r
  refine ⟨hcounts, hlisted fun o ho oid hoid hins => ?_⟩
  exact absurd (hins.oid ▸ hoid) (hnull o ho)

/-- An element `null` is inserted behind `null` where another element is
in front. -/
theorem rl_null_unlisted : ∃ k : Net 2,
    Reachable (crdtService getLongLongFromObject) (.once (Fieldless rlCmds)) k ∧
    ¬ RlListed (listAt (k.site 0) "l") := by
  obtain ⟨k, hrun, hlist⟩ : ∃ k : Net 2, (crdtService getLongLongFromObject).run
      (crdtService getLongLongFromObject).start
        [.submit 0 ["rlinsert", "l", "null", "z", "x", "0", "0", "0", "0"],
          .submit 1 ["rlinsert", "l", "null", "null", "y", "0", "0", "0", "0"],
          .deliver 0 1] = some k ∧
      (rllistCommand (listAt (k.site 0) "l")).map (fun p => (p.1, p.2.length)) = some (2, 1) :=
    ⟨_, rfl, by decide⟩
  refine ⟨k, Service.run_reachable (by decide) hrun, ?_⟩
  intro hcon
  obtain ⟨elems, helems⟩ := hcon
  rw [helems] at hlist
  obtain ⟨hheader, hsent⟩ : (elems.length : ℤ) = 2 ∧ elems.length = 1 :=
    Prod.mk.inj (Option.some.inj hlist)
  omega

end CrdtRedis
