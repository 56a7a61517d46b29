/-
The RWF set implements remove-wins: once everything has been delivered, an
element is in the set exactly if some add of it has every remove of it in
its causal past.

# How vectors and causality correspond

Nothing in the server tracks operations; an element has one vector, joined
from every message. Entry `i` of it counts removes by server `i`, and the
correspondence is carried by three facts about the operations sent:

* `before_le` — histories grow along the causal order;
* `entry_from_rem` — a positive entry `i` is the entry of a remove that
  server `i` issued;
* `rem_seen` — an operation whose history reaches the entry of a remove
  has that remove in its causal past.

An element is shown where some add has the largest history. That history
then reaches every remove's entry, so the add saw every remove; and an add
that saw every remove has every entry of the largest history.
-/
import CrdtRedis.Element
import CrdtRedis.Rwf.History
import CrdtRedis.Replication.Causality

namespace CrdtRedis

open Replication

variable {n : ℕ}

-- ============================================= the element by itself

/-- What a client asks of an element. -/
inductive RwfsReq
  | add (v : ℤ)
  | rem

/-- What is broadcast about an element; an add carries the integer the
element's name stands for. -/
inductive RwfsOp (n : ℕ)
  | add (v : ℤ) (t : Vc n)
  | rem (t : Vc n)
deriving DecidableEq

namespace RwfsOp

/-- The removal history an operation carries. -/
def stamp : RwfsOp n → Vc n
  | add _ t => t
  | rem t => t

/-- The effect phases. -/
def act : RwfsOp n → Rwfse n → Rwfse n × List ZCall
  | add v t => Rwfse.addEffect v t
  | rem t => Rwfse.remEffect t

/-- The operation a broadcast stands for. -/
def decode (c : Cmd) (rargv : List (Arg n)) : Option (RwfsOp n) :=
  match c with
  | .rwfsadd =>
      (strAt 2 rargv).bind fun key => (crGetLast rargv).map fun t =>
        add ((getLongLongFromObject key).getD 0) t
  | .rwfsrem => (crGetLast rargv).map rem
  | _ => none

/-- What an operation is to the header. -/
def toReh : RwfsOp n → RehOp n
  | add _ t => ⟨.add, t⟩
  | rem t => ⟨.rem, t⟩

theorem toReh_t (o : RwfsOp n) : o.toReh.t = o.stamp := by
  cases o <;> rfl

end RwfsOp

/-- The preconditions, and what passes them. -/
def rwfsIssue : RwfsReq → Rwfse n → Option (Rwfse n × RwfsOp n)
  | .add v, e => if e.header.exist then none else some (e, .add v e.header.current)
  | .rem, e => if e.header.exist then some (e, .rem (vcNow e.header.current)) else none

/-- All a request can issue. -/
theorem rwfsIssue_cases {c : RwfsReq} {e e' : Rwfse n} {o : RwfsOp n}
    (h : rwfsIssue c e = some (e', o)) :
    e' = e ∧ ((∃ v, o = .add v e.header.current ∧ e.header.exist = false) ∨
      (o = .rem (vcNow e.header.current) ∧ e.header.exist = true)) := by
  cases c <;> simp only [rwfsIssue] at h <;> split at h
  all_goals simp only [Option.some.injEq, Prod.mk.injEq, reduceCtorEq] at h
  all_goals
    obtain ⟨rfl, rfl⟩ := h
    simp_all

/-- The commands on RWF sets. -/
def rwfsCommand : Cmd → Option (ElemCommand n (Rwfse n))
  | .rwfsadd => some rwfsaddCommand
  | .rwfsrem => some rwfsremCommand
  | _ => none

/-- The RWF set as a family of commands. -/
def rwfsType : ElemType n (Rwfse n) RwfsReq (RwfsOp n) where
  table := rwfseTable
  command := rwfsCommand
  issue := fun _ => rwfsIssue
  decode := fun _ => RwfsOp.decode
  act := RwfsOp.act
  proc_eq := by
    intro c ec h
    cases c <;> cases h <;> rfl
  arity_ge := by
    intro c ec h
    cases c <;> cases h <;> decide
  effect_eq := by
    intro c ec dbl rargv h
    cases c <;> cases h
    · cases hs : strAt 2 rargv <;> cases ht : crGetLast rargv <;>
        simp [rwfsaddCommand, RwfsOp.decode, RwfsOp.act, hs, ht]
    · cases ht : crGetLast rargv <;>
        simp [rwfsremCommand, RwfsOp.decode, RwfsOp.act, ht]
  absent := by
    intro c ec me h hcreate
    cases c <;> cases h
    · cases hcreate
    · exact ⟨_, rfl⟩
  accepts := by
    intro c ec dbl me argv e e' args h harity hmax hcheck hprep
    cases c <;> cases h
    · have hstr := strAt_map_append (i := 2) harity args
      simp only [rwfsaddCommand, rwfAddPrepare, Option.getD_some] at hprep
      split at hprep
      · cases hprep
      · next hex =>
          simp only [Except.ok.injEq, Prod.mk.injEq] at hprep
          obtain ⟨rfl, rfl⟩ := hprep
          refine ⟨.add ((getLongLongFromObject (argv.getD 2 "")).getD 0), _,
            by simp only [rwfsIssue, hex]; rfl, ?_⟩
          simp only [RwfsOp.decode, hstr, Option.bind_some, crGetLast_append,
            Option.map_some]
    · simp only [rwfsremCommand, rwfNonAddPrepare] at hprep
      split at hprep
      · next hex =>
          simp only [Except.ok.injEq, Prod.mk.injEq] at hprep
          obtain ⟨rfl, rfl⟩ := hprep
          refine ⟨.rem, .rem (vcNow e.header.current), by simp [rwfsIssue, hex], ?_⟩
          simp only [RwfsOp.decode, crGetLast_append, Option.map_some]
      · cases hprep

-- ================================================ reduced to the header

theorem Rwfse.removeFunc_header {e : Rwfse n} {t : Vc n} :
    (e.removeFunc t).1.header = (e.header.removeCheck t).1 :=
  Reh.removeBy_header fun _ _ => rfl

/-- The effects move the header as the header alone would move. -/
theorem RwfsOp.act_header (o : RwfsOp n) (e : Rwfse n) :
    (o.act e).1.header = e.header.apply o.toReh := by
  cases o with
  | add v t =>
      simp only [act, Rwfse.addEffect, toReh, Reh.apply, ← Rwfse.removeFunc_header]
      split
      · next h heq => rw [heq]
      · next h heq => rw [heq, Reh.addCheck_false heq]
  | rem t => exact Rwfse.removeFunc_header

/-- The element is shown exactly where it exists. -/
def RwfsShown (s : Rwfse n × Option Score) : Prop :=
  s.2.isSome ↔ s.1.header.exist = true

theorem RwfsShown.removeFunc {s : Rwfse n × Option Score} (hs : RwfsShown s) (t : Vc n) :
    RwfsShown ((s.1.removeFunc t).1, runCalls (s.1.removeFunc t).2 s.2) := by
  by_cases hle : t.vector ≤ s.1.header.current.vector
  · rw [Rwfse.removeFunc, Reh.removeBy_of_le hle]
    exact hs
  · rw [Rwfse.removeFunc, Reh.removeBy_of_not_le hle]
    simp [RwfsShown, ZCall.run, Reh.exist]

theorem RwfsShown.act {s : Rwfse n × Option Score} (hs : RwfsShown s) (o : RwfsOp n) :
    RwfsShown ((o.act s.1).1, runCalls (o.act s.1).2 s.2) := by
  cases o with
  | add v t =>
      have hrem := hs.removeFunc t
      simp only [RwfsOp.act, Rwfse.addEffect]
      generalize s.1.removeFunc t = p at *
      cases hc : p.1.header.addCheck t with
      | mk h passed =>
          cases passed with
          | false => exact hrem
          | true =>
              have hpid := Reh.addCheck_exist hc
              simp [RwfsShown, ZCall.run, hpid]
  | rem t => exact hs.removeFunc t

-- ============================================== vectors and causality

section Network

variable {k : Config n (Rwfse n × Option Score) (RwfsOp n)}

/-- An element of a set, reduced to its header. -/
theorem rwfs_reh (hk : Reachable rwfsType.service (.once fun _ => True) k) :
    Reachable rehService (.once fun _ => True)
      (k.map (fun s => s.1.header) RwfsOp.toReh) := by
  refine rwfsType.reh (fun _ => rfl) (fun hissue => ?_) RwfsOp.act_header hk
  obtain ⟨rfl, ⟨v, rfl, hex⟩ | ⟨rfl, hex⟩⟩ := rwfsIssue_cases hissue
  · exact ⟨.add, by simp [rehService, hex, RwfsOp.toReh]⟩
  · exact ⟨.rem, by simp [rehService, hex, RwfsOp.toReh]⟩

/-- Where an element exists, it is shown. -/
theorem rwfs_shown (hk : Reachable rwfsType.service (.once fun _ => True) k) (r : Fin n) :
    RwfsShown (k.site r) := by
  refine hk.site_forall (I := fun _ s => RwfsShown s) ?_ ?_ ?_ r
  · intro r
    simp [RwfsShown, rwfsType, ElemType.service, rwfseTable, Rwfse.new, Reh.new, Reh.exist]
  · intro r c s s' m _ hs hp
    rcases ElemType.service_prepare hp with ⟨rfl, -⟩ | ⟨e, o, hissue, rfl, -⟩
    · exact hs
    · rw [(rwfsIssue_cases hissue).1]
      exact hs
  · intro r o s s' _ hs he
    obtain rfl := Option.some.inj he
    exact hs.act o

/-- The history at a server, as a function. -/
def rwfsCur (k : Config n (Rwfse n × Option Score) (RwfsOp n)) (r : Fin n) : Fin n → ℤ :=
  (k.site r).1.header.current.vector

/-- The history of an operation, as a function. -/
def RwfsOp.vec (o : Op n (RwfsOp n)) : Fin n → ℤ := o.msg.stamp.vector

/-- The operation is a remove. -/
def RwfsOp.IsRem (o : Op n (RwfsOp n)) : Prop := ∃ t, o.msg = .rem t

/-- The operation is an add. -/
def RwfsOp.IsAdd (o : Op n (RwfsOp n)) : Prop := ∃ v t, o.msg = .add v t

theorem RwfsOp.not_isRem {o : Op n (RwfsOp n)} (h : IsAdd o) : ¬ IsRem o := by
  intro hrem
  obtain ⟨v, t, hmsg⟩ := h
  obtain ⟨t', hmsg'⟩ := hrem
  rw [hmsg] at hmsg'
  cases hmsg'

open RwfsOp

/-- The header sees the same histories. -/
theorem toReh_vec (o : Op n (RwfsOp n)) : (o.map toReh).msg.t.vector = vec o :=
  congrArg Vc.vector o.msg.toReh_t

theorem rwfs_cur_max (hk : Reachable rwfsType.service (.once fun _ => True) k) (r : Fin n) :
    IsPointwiseMax ((k.got r).map vec) (rwfsCur k r) := by
  have hmax := reh_current_max (rwfs_reh hk) r
  have hmap : ((k.map (fun s => s.1.header) toReh).got r).map (fun o => o.msg.t.vector)
      = (k.got r).map vec := by
    simp only [Config.map, List.map_map, Function.comp_def, toReh_vec]
  rw [hmap] at hmax
  exact hmax

theorem vec_le_cur (hk : Reachable rwfsType.service (.once fun _ => True) k) {r : Fin n}
    {o : Op n (RwfsOp n)} (ho : o ∈ k.got r) : vec o ≤ rwfsCur k r :=
  (rwfs_cur_max hk r).le _ (List.mem_map_of_mem ho)

theorem cur_nonneg (hk : Reachable rwfsType.service (.once fun _ => True) k) (r : Fin n) :
    0 ≤ rwfsCur k r := by
  have hcur := (reh_current (rwfs_reh hk) r).1
  show 0 ≤ (k.site r).1.header.current.vector
  rw [show (k.site r).1.header.current.vector = _ from hcur]
  exact top_nonneg _ _

/-- What an accepted command broadcasts: the local history, a remove with
the local entry counted up. -/
theorem rwfs_issued {r : Fin n} {c : RwfsReq} {s : Rwfse n × Option Score} {u : ℕ}
    {m : RwfsOp n} (hk : Reachable rwfsType.service (.once fun _ => True) k)
    (hp : rwfsType.service.prepare r c (k.site r) = some (s, some m)) :
    (IsAdd ⟨u, r, m⟩ ∧ vec ⟨u, r, m⟩ = rwfsCur k r) ∨
      (IsRem ⟨u, r, m⟩ ∧ vec ⟨u, r, m⟩
        = Function.update (rwfsCur k r) r (rwfsCur k r r + 1)) := by
  have hid : (k.site r).1.header.current.id = r := (reh_current (rwfs_reh hk) r).2
  rcases ElemType.service_prepare hp with ⟨-, hm⟩ | ⟨e, o, hissue, -, hm⟩
  · cases hm
  · obtain rfl := Option.some.inj hm
    obtain ⟨-, ⟨v, rfl, -⟩ | ⟨rfl, -⟩⟩ := rwfsIssue_cases hissue
    · exact Or.inl ⟨⟨v, _, rfl⟩, rfl⟩
    · refine Or.inr ⟨⟨_, rfl⟩, ?_⟩
      show (vcNow (k.site r).1.header.current).vector = _
      unfold vcNow rwfsCur
      rw [hid]

/-- Histories grow along the causal order. -/
theorem before_le (hk : Reachable rwfsType.service (.once fun _ => True) k)
    {x y : Op n (RwfsOp n)} (h : k.HappensBefore x y) : vec x ≤ vec y := by
  refine h.lift (Q := fun x y => vec x ≤ vec y) ?_ fun _ _ _ => le_trans
  refine hk.before_forall ?_
  intro k r c s m u hr _ hp o ho
  have hcur := vec_le_cur hr ho
  rcases rwfs_issued (u := u) hr hp with ⟨-, hvec⟩ | ⟨-, hvec⟩
  · rw [hvec]
    exact hcur
  · rw [hvec]
    intro i
    by_cases hi : i = r
    · subst hi
      rw [Function.update_self]
      exact (hcur i).trans (lt_add_one _).le
    · rw [Function.update_of_ne hi]
      exact hcur i

/-- The entry a remove counts up is positive. -/
theorem rem_entry_pos (hk : Reachable rwfsType.service (.once fun _ => True) k) :
    ∀ o ∈ k.sent, IsRem o → 0 < vec o o.src := by
  refine hk.sent_forall ?_
  rintro k r c s m u hr _ _ hp ⟨t, ht⟩
  rcases rwfs_issued (u := u) hr hp with ⟨⟨v, t', hadd⟩, -⟩ | ⟨-, hvec⟩
  · rw [hadd] at ht
    cases ht
  · rw [hvec, Function.update_self]
    have hnn := cur_nonneg hr r r
    exact lt_of_le_of_lt hnn (lt_add_one _)

/-- A positive entry `i` is the entry of a remove that `i` issued. -/
theorem entry_from_rem (hk : Reachable rwfsType.service (.once fun _ => True) k) :
    ∀ o ∈ k.sent, ∀ i, 0 < vec o i →
      ∃ b ∈ k.sent, IsRem b ∧ b.src = i ∧ vec b i = vec o i := by
  refine hk.invariant (I := fun k => ∀ o ∈ k.sent, ∀ i, 0 < vec o i →
    ∃ b ∈ k.sent, IsRem b ∧ b.src = i ∧ vec b i = vec o i) (by simp [Service.start]) ?_
  intro k k' hr ih hs
  cases hs with
  | reject r c hc hp => exact ih
  | @issue s s' m r c u hc hp hu hg he =>
      -- an entry of the local history belongs to something applied here
      have hlocal : ∀ i, 0 < rwfsCur k r i →
          ∃ b ∈ k.sent, IsRem b ∧ b.src = i ∧ vec b i = rwfsCur k r i := by
        intro i hpos
        rcases (rwfs_cur_max hr r).attained i with ⟨-, hzero⟩ | ⟨t, ht, hti⟩
        · rw [hzero] at hpos
          exact absurd hpos (lt_irrefl 0)
        · obtain ⟨x, hx, rfl⟩ := List.mem_map.mp ht
          rw [← hti] at hpos ⊢
          exact ih x (hr.ledger.got_sent r x hx) i hpos
      have hold : ∀ {v : ℤ} {i : Fin n}, (∃ b ∈ k.sent, IsRem b ∧ b.src = i ∧ vec b i = v) →
          ∃ b ∈ k.sent ++ [⟨u, r, m⟩], IsRem b ∧ b.src = i ∧ vec b i = v := by
        rintro v i ⟨b, hb, hrest⟩
        exact ⟨b, List.mem_append_left _ hb, hrest⟩
      intro o ho i hpos
      rw [Config.issue_sent] at ho ⊢
      rcases List.mem_append.mp ho with ho | ho
      · exact hold (ih o ho i hpos)
      · rw [List.mem_singleton.mp ho] at hpos ⊢
        rcases rwfs_issued (u := u) hr hp with ⟨-, hvec⟩ | ⟨hrem, hvec⟩
        · rw [hvec] at hpos ⊢
          exact hold (hlocal i hpos)
        · by_cases hi : i = r
          · exact ⟨⟨u, r, m⟩, by simp, hrem, hi.symm, rfl⟩
          · rw [hvec, Function.update_of_ne hi] at hpos ⊢
            exact hold (hlocal i hpos)
  | deliver r o ho hd hg he => exact ih

/-- No history is ahead of server `i` in entry `i`. -/
theorem entry_le_own (hk : Reachable rwfsType.service (.once fun _ => True) k)
    {o : Op n (RwfsOp n)} (ho : o ∈ k.sent) (i : Fin n) : vec o i ≤ rwfsCur k i i := by
  by_cases hpos : 0 < vec o i
  · obtain ⟨b, hb, -, rfl, hbi⟩ := entry_from_rem hk o ho i hpos
    rw [← hbi]
    exact vec_le_cur hk (hk.ledger.own_got b hb) b.src
  · exact (not_lt.mp hpos).trans (cur_nonneg hk i i)

/-- An operation whose history reaches the entry of a remove is that
remove or has it in its causal past. -/
theorem rem_seen (hk : Reachable rwfsType.service (.once fun _ => True) k) :
    ∀ b ∈ k.sent, IsRem b → ∀ y ∈ k.sent, vec b b.src ≤ vec y b.src →
      b = y ∨ k.HappensBefore b y := by
  refine hk.invariant (I := fun k => ∀ b ∈ k.sent, IsRem b → ∀ y ∈ k.sent,
    vec b b.src ≤ vec y b.src → b = y ∨ k.HappensBefore b y) (by simp [Service.start]) ?_
  intro k k' hr ih hs
  cases hs with
  | reject r c hc hp => exact ih
  | @issue s s' m r c u hc hp hu hg he =>
      have hgrow := fun q => k.got_sublist_issue q ⟨u, r, m⟩ s'
      intro b hb hbr y hy hle
      rw [Config.issue_sent, List.mem_append, List.mem_singleton] at hb hy
      rcases hb with hb | rfl <;> rcases hy with hy | rfl
      · exact (ih b hb hbr y hy hle).imp_right (Config.HappensBefore.mono hgrow)
      · -- an old remove and the new operation
        right
        by_cases hsrc : b.src = r
        · have hown := hr.ledger.own_got b hb
          rw [hsrc] at hown
          exact .single (Config.Before.issue hown)
        · have hcur : vec ⟨u, r, m⟩ b.src = rwfsCur k r b.src := by
            rcases rwfs_issued (u := u) hr hp with ⟨-, hvec⟩ | ⟨-, hvec⟩
            · rw [hvec]
            · rw [hvec, Function.update_of_ne hsrc]
          have hpos := (rem_entry_pos hr b hb hbr).trans_le (hle.trans hcur.le)
          rcases (rwfs_cur_max hr r).attained b.src with ⟨-, hzero⟩ | ⟨t, ht, hti⟩
          · rw [hzero] at hpos
            exact absurd hpos (lt_irrefl 0)
          · obtain ⟨x, hx, rfl⟩ := List.mem_map.mp ht
            have hbx : vec b b.src ≤ vec x b.src := hti ▸ hle.trans hcur.le
            have hlast : (k.issue ⟨u, r, m⟩ s').Before x ⟨u, r, m⟩ := Config.Before.issue hx
            rcases ih b hb hbr x (hr.ledger.got_sent r x hx) hbx with rfl | hbefore
            · exact .single hlast
            · exact (hbefore.mono hgrow).tail hlast
      · -- the new remove is ahead of everything sent before
        rcases rwfs_issued (u := u) hr hp with ⟨⟨v, t, hadd⟩, -⟩ | ⟨-, hvec⟩
        · obtain ⟨t', ht'⟩ := hbr
          rw [hadd] at ht'
          cases ht'
        · rw [hvec, Function.update_self] at hle
          have hown := entry_le_own hr hy r
          exact absurd (hle.trans hown) (not_le.mpr (lt_add_one _))
      · exact Or.inl rfl
  | deliver r o ho hd hg he =>
      intro b hb hbr y hy hle
      exact (ih b hb hbr y hy hle).imp_right
        (Config.HappensBefore.mono fun q => k.got_sublist_receive r q o _)

/-- Once everything has arrived, the element is shown exactly where some
add saw every remove. -/
theorem rwfs_shown_iff (hk : Reachable rwfsType.service (.once fun _ => True) k)
    (hall : ∀ r, ∀ o ∈ k.sent, o ∈ k.got r) (r : Fin n) :
    (k.site r).2.isSome ↔
      ∃ a ∈ k.sent, IsAdd a ∧ ∀ b ∈ k.sent, IsRem b → k.HappensBefore b a := by
  have hshown : (k.site r).2.isSome ↔ (k.site r).1.header.exist = true := rwfs_shown hk r
  have hexist : (k.site r).1.header.exist = true ↔
      ∃ a ∈ k.got r, IsAdd a ∧ vec a = rwfsCur k r := by
    rw [show (k.site r).1.header.exist = true ↔ _ from reh_exist_iff (rwfs_reh hk) r]
    constructor
    · rintro ⟨x, hx, hkind, htop⟩
      obtain ⟨a, ha, rfl⟩ := List.mem_map.mp hx
      cases hmsg : a.msg with
      | add v t =>
          exact ⟨a, ha, ⟨v, t, hmsg⟩, (toReh_vec a).symm.trans htop⟩
      | rem t => simp [Op.map, hmsg, RwfsOp.toReh] at hkind
    · rintro ⟨a, ha, ⟨v, t, hmsg⟩, hvec⟩
      refine ⟨a.map toReh, List.mem_map_of_mem ha, ?_, (toReh_vec a).trans hvec⟩
      simp [Op.map, hmsg, toReh]
  rw [hshown, hexist]
  constructor
  · rintro ⟨a, ha, hadd, hvec⟩
    have hsent := hk.ledger.got_sent r a ha
    refine ⟨a, hsent, hadd, ?_⟩
    intro b hb hrem
    have hle : vec b b.src ≤ vec a b.src := hvec ▸ vec_le_cur hk (hall r b hb) b.src
    refine (rem_seen hk b hb hrem a hsent hle).resolve_left ?_
    intro heq
    exact not_isRem hadd (heq ▸ hrem)
  · rintro ⟨a, ha, hadd, hseen⟩
    have hgot := hall r a ha
    refine ⟨a, hgot, hadd, le_antisymm (vec_le_cur hk hgot) ?_⟩
    -- each entry of the largest history is zero or a remove's
    intro i
    by_cases hpos : 0 < rwfsCur k r i
    · rcases (rwfs_cur_max hk r).attained i with ⟨-, hzero⟩ | ⟨t, ht, hti⟩
      · rw [hzero] at hpos
        exact absurd hpos (lt_irrefl 0)
      · obtain ⟨x, hx, rfl⟩ := List.mem_map.mp ht
        rw [← hti] at hpos ⊢
        obtain ⟨b, hb, hrem, -, hbi⟩ :=
          entry_from_rem hk x (hk.ledger.got_sent r x hx) i hpos
        rw [← hbi]
        exact before_le hk (hseen b hb hrem) i
    · have hnn : 0 ≤ vec a := toReh_vec a ▸
        (reh_stamp (rwfs_reh hk) (a.map toReh) (List.mem_map_of_mem ha)).1
      exact (not_lt.mp hpos).trans (hnn i)

end Network

-- ========================================================= the network

/-- The commands on RWF sets. -/
def rwfsCmds : List Cmd := [.rwfsadd, .rwfsrem]

/-- Some accepted add of element `key` of `tname` has every accepted remove
of it in its causal past, in the causal order of the element. -/
def AddAfterAll (dbl : String → Option ℤ) (k : Net n) (tname key : String) : Prop :=
  ∃ a ∈ (rwfsType.readAt dbl tname key k).sent, RwfsOp.IsAdd a ∧
    ∀ b ∈ (rwfsType.readAt dbl tname key k).sent, RwfsOp.IsRem b →
      (rwfsType.readAt dbl tname key k).HappensBefore b a

/-- Server `r` shows the element exactly if one add of it saw every
remove. -/
def RemoveWins (dbl : String → Option ℤ) (k : Net n) (tname key : String)
    (r : Fin n) : Prop :=
  (scoreOf (k.site r) tname key).isSome ↔ AddAfterAll dbl k tname key

/-- The RWF set implements remove-wins: whenever every broadcast has been
delivered to every server, every server shows exactly the elements some
add of which saw every remove. -/
theorem rwfs_remove_wins (dbl : String → Option ℤ) {k : Net n}
    (hk : Reachable (crdtService dbl) (.once (Issues rwfsCmds)) k)
    (hall : ∀ r, ∀ o ∈ k.sent, o ∈ k.got r) (tname key : String) (r : Fin n) :
    RemoveWins dbl k tname key r := by
  have hat := ElemType.reachable_once (E := rwfsType)
    (by simp [rwfsCmds, rwfsType, rwfsCommand]) hk tname key
  refine rwfs_shown_iff hat ?_ r
  intro q o ho
  obtain ⟨o', ho', hroute⟩ := List.mem_filterMap.mp ho
  exact List.mem_filterMap.mpr ⟨o', hall q o' ho', hroute⟩

/-- Two servers: one adds and removes the element, the other re-adds it on
top of the remove; a second element is removed by both after an add. -/
def rwfsSchedule : List (Act 2 (List String)) :=
  [.submit 0 ["rwfsadd", "s", "1"], .submit 0 ["rwfsrem", "s", "1"],
    .deliver 1 0, .deliver 1 1, .submit 1 ["rsadd", "s", "1"], .deliver 0 2,
    .submit 0 ["rwfsadd", "s", "2"], .deliver 1 3, .submit 0 ["rwfsrem", "s", "2"],
    .submit 1 ["rwfsrem", "s", "2"], .submit 0 ["rwfsadd", "s", "2"],
    .deliver 1 4, .deliver 0 5, .deliver 1 6]

theorem rwfs_remove_wins_schedule :
    ∃ k : Net 2, Reachable (crdtService getLongLongFromObject) (.once (Issues rwfsCmds)) k ∧
      (∀ r, ∀ o ∈ k.sent, o ∈ k.got r) ∧
      scoreOf (k.site 1) "s" "1" = some (some 1) ∧ scoreOf (k.site 1) "s" "2" = none ∧
      RemoveWins getLongLongFromObject k "s" "1" 1 ∧
      RemoveWins getLongLongFromObject k "s" "2" 1 := by
  obtain ⟨k, hrun, hall, h1, h2⟩ : ∃ k : Net 2, (crdtService getLongLongFromObject).run
      (crdtService getLongLongFromObject).start rwfsSchedule = some k ∧
      (∀ r, ∀ u ∈ k.sent.map Op.uid, u ∈ (k.got r).map Op.uid) ∧
      scoreOf (k.site 1) "s" "1" = some (some 1) ∧ scoreOf (k.site 1) "s" "2" = none :=
    ⟨_, rfl, by decide, by decide, by decide⟩
  have hk : Reachable (crdtService getLongLongFromObject) (.once (Issues rwfsCmds)) k :=
    Service.run_reachable (by decide) hrun
  have hall' := hk.ledger.got_of_uid hall
  exact ⟨k, hk, hall', h1, h2, rwfs_remove_wins _ hk hall' "s" "1" 1,
    rwfs_remove_wins _ hk hall' "s" "2" 1⟩

-- ==================================================== the rs* commands

/-- The client vectors that name `rsadd` or `rsrem`. -/
def IssuesRs (argv : List String) : Prop :=
  sdstolower (argv.getD 0 "") ∈ ["rsadd", "rsrem"]

instance : DecidablePred IssuesRs :=
  fun argv => inferInstanceAs (Decidable (sdstolower (argv.getD 0 "") ∈ ["rsadd", "rsrem"]))

/-- The command table has the procedures of the RWF set under these
names. -/
theorem IssuesRs.issues {argv : List String} (h : IssuesRs argv) : Issues rwfsCmds argv := by
  rcases List.mem_cons.mp h with h | h
  · exact ⟨.rwfsadd, by decide, by simp only [cmdOf, lookupCommand, h]⟩
  · have h := List.mem_singleton.mp h
    exact ⟨.rwfsrem, by decide, by simp only [cmdOf, lookupCommand, h]⟩

/-- What `LOOKUP` of the remove-wins set of t_rset.c says of an element
whose operations have all arrived: it was added, and every remove of it
precedes an add of it. -/
def RsMember (dbl : String → Option ℤ) (k : Net n) (tname key : String) : Prop :=
  (∃ a ∈ (rwfsType.readAt dbl tname key k).sent, RwfsOp.IsAdd a) ∧
    ∀ b ∈ (rwfsType.readAt dbl tname key k).sent, RwfsOp.IsRem b →
      ∃ a ∈ (rwfsType.readAt dbl tname key k).sent, RwfsOp.IsAdd a ∧
        (rwfsType.readAt dbl tname key k).HappensBefore b a

/-- The rs* commands answer as the remove-wins set would, at every server
and for every element, exactly where one add follows all removes if each
remove is followed by an add. -/
theorem rs_member_iff (dbl : String → Option ℤ) {k : Net n}
    (hk : Reachable (crdtService dbl) (.once IssuesRs) k)
    (hall : ∀ r, ∀ o ∈ k.sent, o ∈ k.got r) (tname key : String) (r : Fin n) :
    ((scoreOf (k.site r) tname key).isSome ↔ RsMember dbl k tname key) ↔
      (RsMember dbl k tname key → AddAfterAll dbl k tname key) := by
  have hrwfs : Reachable (crdtService dbl) (.once (Issues rwfsCmds)) k := by
    refine hk.transfer rfl rfl ?_ ?_ ?_
    · exact fun _ hc => hc.issues
    · exact fun _ _ _ _ _ he => ⟨trivial, he⟩
    · exact fun h => h
  have hat := ElemType.reachable_once (E := rwfsType)
    (by simp [rwfsCmds, rwfsType, rwfsCommand]) hrwfs tname key
  have hshown : (scoreOf (k.site r) tname key).isSome ↔ AddAfterAll dbl k tname key := by
    refine rwfs_shown_iff hat ?_ r
    intro q o ho
    obtain ⟨o', ho', hroute⟩ := List.mem_filterMap.mp ho
    exact List.mem_filterMap.mpr ⟨o', hall q o' ho', hroute⟩
  have hweaker : AddAfterAll dbl k tname key → RsMember dbl k tname key := by
    intro hadd
    obtain ⟨a, ha, hisadd, hseen⟩ := hadd
    exact ⟨⟨a, ha, hisadd⟩, fun b hb hrem => ⟨a, ha, hisadd, hseen b hb hrem⟩⟩
  rw [hshown]
  exact ⟨fun h => h.mpr, fun h => ⟨hweaker, h⟩⟩

theorem rs_member_schedule :
    ∃ k : Net 2, Reachable (crdtService getLongLongFromObject) (.once IssuesRs) k ∧
      (∀ r, ∀ o ∈ k.sent, o ∈ k.got r) ∧ scoreOf (k.site 1) "s" "1" = some (some 1) ∧
      (((scoreOf (k.site 1) "s" "1").isSome ↔ RsMember getLongLongFromObject k "s" "1") ↔
        (RsMember getLongLongFromObject k "s" "1" →
          AddAfterAll getLongLongFromObject k "s" "1")) := by
  obtain ⟨k, hrun, hall, h1⟩ : ∃ k : Net 2, (crdtService getLongLongFromObject).run
      (crdtService getLongLongFromObject).start
      [.submit 0 ["rsadd", "s", "1"], .submit 0 ["rsrem", "s", "1"], .deliver 1 0,
        .deliver 1 1, .submit 1 ["RSADD", "s", "1"], .deliver 0 2] = some k ∧
      (∀ r, ∀ u ∈ k.sent.map Op.uid, u ∈ (k.got r).map Op.uid) ∧
      scoreOf (k.site 1) "s" "1" = some (some 1) := ⟨_, rfl, by decide, by decide⟩
  have hk : Reachable (crdtService getLongLongFromObject) (.once IssuesRs) k :=
    Service.run_reachable (by decide) hrun
  have hall' := hk.ledger.got_of_uid hall
  exact ⟨k, hk, hall', h1, rs_member_iff _ hk hall' "s" "1" 1⟩

/-- Two servers that have the element remove it and add it again, each
before it hears of the other. -/
def rsSchedule : List (Act 2 (List String)) :=
  [.submit 0 ["rsadd", "s", "1"], .deliver 1 0,
    .submit 0 ["rsrem", "s", "1"], .submit 0 ["rsadd", "s", "1"],
    .submit 1 ["rsrem", "s", "1"], .submit 1 ["rsadd", "s", "1"],
    .deliver 0 3, .deliver 0 4, .deliver 1 1, .deliver 1 2]

/-- Each remove is followed by an add, and neither server shows the
element. -/
theorem rs_concurrent_readds :
    ∃ k : Net 2, Reachable (crdtService getLongLongFromObject) (.once IssuesRs) k ∧
      (∀ r, ∀ o ∈ k.sent, o ∈ k.got r) ∧
      RsMember getLongLongFromObject k "s" "1" ∧
      scoreOf (k.site 0) "s" "1" = none ∧ scoreOf (k.site 1) "s" "1" = none := by
  obtain ⟨k, hrun, hall, h0, h1, a₀, b₀, b₁, a₁, a₂, hsent, ha₀, ha₁, ha₂, hgot₁, hgot₂⟩ :
      ∃ k : Net 2, (crdtService getLongLongFromObject).run
        (crdtService getLongLongFromObject).start rsSchedule = some k ∧
      (∀ r, ∀ u ∈ k.sent.map Op.uid, u ∈ (k.got r).map Op.uid) ∧
      scoreOf (k.site 0) "s" "1" = none ∧ scoreOf (k.site 1) "s" "1" = none ∧
      ∃ a₀ b₀ b₁ a₁ a₂ : Op 2 (RwfsOp 2),
        (rwfsType.readAt getLongLongFromObject "s" "1" k).sent = [a₀, b₀, a₁, b₁, a₂] ∧
        RwfsOp.IsAdd a₀ ∧ RwfsOp.IsAdd a₁ ∧ RwfsOp.IsAdd a₂ ∧
        (rwfsType.readAt getLongLongFromObject "s" "1" k).got a₁.src = [a₀, b₀, a₁, b₁, a₂] ∧
        (rwfsType.readAt getLongLongFromObject "s" "1" k).got a₂.src = [a₀, b₁, a₂, b₀, a₁] :=
    ⟨_, rfl, by decide, by decide, by decide, _, _, _, _, _, rfl, ⟨_, _, rfl⟩, ⟨_, _, rfl⟩,
      ⟨_, _, rfl⟩, rfl, rfl⟩
  have hk : Reachable (crdtService getLongLongFromObject) (.once IssuesRs) k :=
    Service.run_reachable (by decide) hrun
  refine ⟨k, hk, hk.ledger.got_of_uid hall, ⟨⟨a₀, by simp [hsent], ha₀⟩, ?_⟩, h0, h1⟩
  have hbefore₁ : (rwfsType.readAt getLongLongFromObject "s" "1" k).HappensBefore b₀ a₁ := by
    refine .single ?_
    rw [Config.Before, hgot₁]
    exact .cons _ (.cons_cons _ (.cons_cons _ (List.nil_sublist _)))
  have hbefore₂ : (rwfsType.readAt getLongLongFromObject "s" "1" k).HappensBefore b₁ a₂ := by
    refine .single ?_
    rw [Config.Before, hgot₂]
    exact .cons _ (.cons_cons _ (.cons_cons _ (List.nil_sublist _)))
  intro b hb hrem
  simp only [hsent, List.mem_cons, List.not_mem_nil, or_false] at hb ⊢
  rcases hb with rfl | rfl | rfl | rfl | rfl
  · exact absurd hrem (RwfsOp.not_isRem ha₀)
  · exact ⟨a₁, by simp, ha₁, hbefore₁⟩
  · exact absurd hrem (RwfsOp.not_isRem ha₁)
  · exact ⟨a₂, by simp, ha₂, hbefore₂⟩
  · exact absurd hrem (RwfsOp.not_isRem ha₂)

end CrdtRedis
