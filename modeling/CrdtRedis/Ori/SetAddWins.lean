/-
The add-wins set: an element is in the set of a server exactly if the
server has received an add of it whose tag no remove it has received
lists, in whatever order and however often messages arrive.

What a record holds is a function of the SET of operations applied
(`OsHolds`), so order and repetition do not matter; nothing about the
network enters. The network enters where tags have to be told apart
(`os_tags_distinct`) and where a remove has to list what its server had
seen (`os_rem_lists`).
-/
import CrdtRedis.Ori.Tags

namespace CrdtRedis

open Replication

variable {n : ℕ}

-- ============================================= the element by itself

/-- What a client asks of an element. -/
inductive OsReq
  | add (v : Score)
  | rem

/-- What is broadcast about an element; an add carries the integer the
element's name stands for. -/
inductive OsOp
  | add (v : Score) (t : Lc)
  | rem (tags : List Lc)
deriving DecidableEq

namespace OsOp

/-- The effect phases. -/
def act : OsOp → Ose → Ose × List ZCall
  | add v t => Ose.addEffect v t
  | rem tags => Ose.remEffect tags

/-- The tag an operation brings. -/
def tag : OsOp → Option Lc
  | add _ t => some t
  | rem _ => none

/-- The operation a broadcast stands for. -/
def decode (c : Cmd) (rargv : List (Arg n)) : Option OsOp :=
  match c with
  | .osadd =>
      (strAt 2 rargv).bind fun key => (lcAt 3 rargv).map fun t =>
        add ((getLongLongFromObject key).map toInt) t
  | .osrem => (tagsFrom 3 rargv).map rem
  | _ => none

end OsOp

/-- The preconditions, and what passes them: an add takes the next tag of
its server, a remove lists the tags it finds. -/
def osIssue (me : Fin n) : OsReq → Ose → Option (Ose × OsOp)
  | .add v, e =>
      if e.lookup then none
      else some ({ e with current := e.current + 1 }, .add v ⟨e.current, me⟩)
  | .rem, e => if e.lookup then some (e, .rem (e.aset.map OsAse.t)) else none

/-- All a request can issue. -/
theorem osIssue_cases {me : Fin n} {c : OsReq} {e e' : Ose} {o : OsOp}
    (h : osIssue me c e = some (e', o)) :
    (∃ v, o = .add v ⟨e.current, me⟩ ∧ e' = { e with current := e.current + 1 }) ∨
      (o = .rem (e.aset.map OsAse.t) ∧ e' = e) := by
  cases c <;> simp only [osIssue] at h <;> split at h
  all_goals simp only [Option.some.injEq, Prod.mk.injEq, reduceCtorEq] at h
  all_goals
    obtain ⟨rfl, rfl⟩ := h
    simp

/-- The commands on add-wins sets. -/
def osCommand : Cmd → Option (ElemCommand n Ose)
  | .osadd => some osaddCommand
  | .osrem => some osremCommand
  | _ => none

/-- The add-wins set as a family of commands. -/
def osType : ElemType n Ose OsReq OsOp where
  table := oseTable
  command := osCommand
  issue := osIssue
  decode := fun _ => OsOp.decode
  act := OsOp.act
  proc_eq := by
    intro c ec h
    cases c <;> cases h <;> rfl
  arity_ge := by
    intro c ec h
    cases c <;> cases h <;> decide
  effect_eq := by
    intro c ec dbl rargv h
    cases c <;> cases h
    · cases hs : strAt 2 rargv <;> cases ht : lcAt 3 rargv <;>
        simp [osaddCommand, OsOp.decode, OsOp.act, hs, ht]
    · cases ht : tagsFrom 3 rargv <;>
        simp [osremCommand, OsOp.decode, OsOp.act, ht]
  absent := by
    intro c ec me h hcreate
    cases c <;> cases h
    · cases hcreate
    · exact ⟨_, rfl⟩
  accepts := by
    intro c ec dbl me argv e e' args h harity hmax hcheck hprep
    have hlen : (argv.map (Arg.str (n := n))).length = 3 := by
      rw [List.length_map]
      cases c <;> cases h <;> exact le_antisymm hmax harity
    cases c <;> cases h
    · have hstr := strAt_map_append (i := 2) harity args
      simp only [osaddCommand, Option.getD_some] at hprep
      split at hprep
      · cases hprep
      · next hex =>
          simp only [Except.ok.injEq, Prod.mk.injEq] at hprep
          obtain ⟨rfl, rfl⟩ := hprep
          refine ⟨.add ((getLongLongFromObject (argv.getD 2 "")).map toInt), _,
            by simp only [osIssue, hex]; rfl, ?_⟩
          simp only [OsOp.decode, hstr, Option.bind_some, lcAt_append hlen,
            Option.map_some]
    · simp only [osremCommand] at hprep
      split at hprep
      · next hex =>
          simp only [Except.ok.injEq, Prod.mk.injEq] at hprep
          obtain ⟨rfl, rfl⟩ := hprep
          refine ⟨.rem, .rem (e.aset.map OsAse.t), by simp [osIssue, hex], ?_⟩
          have htags := tagsFrom_words (n := n) (i := 3) (by simpa using hlen)
            (e.aset.map OsAse.t)
          rw [List.map_map] at htags
          exact congrArg (Option.map OsOp.rem) htags
      · cases hprep

-- ================================================== one record

namespace Ose

theorem rsetGet_isSome {e : Ose} {t : Lc} : (e.rsetGet t).isSome = true ↔ t ∈ e.rset := by
  rw [rsetGet, find?_tag_isSome fun a => a, List.map_id']

theorem asetGet_isSome {e : Ose} {t : Lc} :
    (e.asetGet t).isSome = true ↔ t ∈ e.aset.map OsAse.t := find?_tag_isSome OsAse.t

variable {e : Ose}

/-- What `set_remove_tag` works on. -/
def tagRecord : TagRecord Ose OsAse where
  key := OsAse.t
  current := Ose.current
  aset := Ose.aset
  rset := Ose.rset
  pointers := fun e => [e.exist]
  write := fun l ts f e => { e with aset := l, rset := ts, exist := f e.exist }
  current_write := rfl
  aset_write := rfl
  rset_write := rfl
  pointers_write := rfl
  write_write := rfl
  write_congr := fun h => by rw [h _ List.mem_cons_self]
  write_self := fun _ => rfl

/-- The record without the entries of `tags`. -/
def drop (tags : List Lc) (e : Ose) : Ose :=
  { e with
    aset := keep OsAse.t tags e.aset
    rset := tags.foldl push e.rset
    exist := unlink tags e.exist }

/-- The loop of `osremCommand`. -/
theorem removeTags_eq (h : Tagged OsAse.t e.aset e.rset)
    (hx : Names OsAse.t e.aset e.exist) (tags : List Lc) :
    tags.foldl setRemoveTag e = e.drop tags := by
  have hsound : tagRecord.Sound e := ⟨h, fun v hv => List.mem_singleton.mp hv ▸ hx⟩
  exact TagRecord.removeTags_eq hsound tags

/-- `set_resort` finds the greatest tag where there was no pointer. -/
theorem setResort_exist (he : e.exist = none) :
    Pointer.Largest OsAse.t Lc.TagLt e.aset e.setResort.exist := by
  have hscan : e.setResort.exist = Pointer.search OsAse.t Lc.TagLt none e.aset := by
    unfold setResort Pointer.search
    rw [he]
    show e.aset.foldl resortScan none = _
    congr 1
    funext v a
    cases v <;> rfl
  rw [hscan]
  exact Pointer.largest_search Lc.TagLt.irrefl Lc.TagLt.trans e.aset

/-- `update_exist` on a tag that is not removed. -/
theorem updateExist_of_not {t : Lc} (hr : t ∉ e.rset) (v : Score) :
    (e.updateExist t v).1 = { e with
        aset := touch OsAse.t ⟨t, none⟩ (fun a => { a with value := v }) e.aset
        exist := Pointer.larger Lc.TagLt e.exist t } ∧
      ((e.updateExist t v).2 = false → e.exist ≠ none) := by
  have haset : (if (e.asetGet t).isSome then e.aset else e.aset ++ [⟨t, none⟩]).map
      (fun a => if lcCmpAsTag t a.t = 0 then { a with value := v } else a)
        = touch OsAse.t ⟨t, none⟩ (fun a => { a with value := v }) e.aset := by
    simp only [touch, asetGet_isSome, lcCmpAsTag_eq_zero, eq_comm (a := t)]
  unfold updateExist
  rw [if_neg (mt rsetGet_isSome.mp hr)]
  dsimp only
  rw [haset]
  cases hx : e.exist with
  | none => exact ⟨rfl, fun hcon => by cases hcon⟩
  | some x =>
      dsimp only
      by_cases hlt : lcCmpAsTag x t < 0
      · rw [if_pos hlt]
        have hlarger : Pointer.larger Lc.TagLt (some x) t = some t := if_pos hlt
        exact ⟨by rw [hlarger], fun hcon => by cases hcon⟩
      · rw [if_neg hlt]
        have hlarger : Pointer.larger Lc.TagLt (some x) t = some x := if_neg hlt
        exact ⟨by rw [hlarger, ← hx], fun _ hcon => by cases hcon⟩

/-- No operation touches the counter the tags are taken from. -/
theorem act_current (o : OsOp) (e : Ose) : (o.act e).1.current = e.current := by
  have hsort : ∀ e : Ose, e.setResort.current = e.current := by
    intro e
    unfold setResort
    split <;> rfl
  cases o with
  | add v t =>
      have hupd : (e.updateExist t v).1.current = e.current := by
        by_cases hr : t ∈ e.rset
        · rw [show e.updateExist t v = (e, false) from if_pos (rsetGet_isSome.mpr hr)]
        · rw [(updateExist_of_not hr v).1]
      simp only [OsOp.act, addEffect]
      split <;> next h => exact (congrArg (fun p => p.1.current) h).symm.trans hupd
  | rem tags =>
      have htags : (tags.foldl setRemoveTag e).current = e.current :=
        tagRecord.removeTags_current tags
      simp only [OsOp.act, remEffect]
      split
      · exact htags
      · split <;> exact (hsort _).trans htags

end Ose

-- ====================================== a record and what was applied

namespace OsOp

/-- The operations `D` add tag `t`. -/
def Added (D : List OsOp) (t : Lc) : Prop := ∃ v, add v t ∈ D

/-- A remove of `D` lists tag `t`. -/
def Listed (D : List OsOp) (t : Lc) : Prop := ∃ tags, rem tags ∈ D ∧ t ∈ tags

/-- The operation is an add. -/
def IsAdd (o : Op n OsOp) : Prop := ∃ v t, o.msg = add v t

/-- The operation is a remove. -/
def IsRem (o : Op n OsOp) : Prop := ∃ tags, o.msg = rem tags

variable {D : List OsOp} {t u : Lc}

theorem added_snoc_add (v : Score) : Added (D ++ [add v t]) u ↔ Added D u ∨ u = t := by
  unfold Added
  simp only [List.mem_append, List.mem_singleton, add.injEq]
  constructor
  · intro hex
    obtain ⟨w, hw⟩ := hex
    rcases hw with hw | ⟨-, hut⟩
    · exact Or.inl ⟨w, hw⟩
    · exact Or.inr hut
  · intro h
    rcases h with ⟨w, hw⟩ | hut
    · exact ⟨w, Or.inl hw⟩
    · exact ⟨v, Or.inr ⟨rfl, hut⟩⟩

theorem listed_snoc_add (v : Score) : Listed (D ++ [add v t]) u ↔ Listed D u := by
  simp [Listed]

theorem added_snoc_rem (tags : List Lc) : Added (D ++ [rem tags]) u ↔ Added D u := by
  simp [Added]

theorem listed_snoc_rem (tags : List Lc) :
    Listed (D ++ [rem tags]) u ↔ Listed D u ∨ u ∈ tags := by
  unfold Listed
  simp only [List.mem_append, List.mem_singleton, rem.injEq]
  constructor
  · intro hex
    obtain ⟨l, hl, hu⟩ := hex
    rcases hl with hl | rfl
    · exact Or.inl ⟨l, hl, hu⟩
    · exact Or.inr hu
  · intro h
    rcases h with ⟨l, hl, hu⟩ | hu
    · exact ⟨l, Or.inl hl, hu⟩
    · exact ⟨tags, Or.inr rfl, hu⟩

end OsOp

/-- What a server holds and shows for an element after the operations
`D`. -/
structure OsHolds (D : List OsOp) (s : Ose × Option Score) : Prop where
  nodup : (s.1.aset.map OsAse.t).Nodup
  aset : ∀ t, t ∈ s.1.aset.map OsAse.t ↔ OsOp.Added D t ∧ ¬ OsOp.Listed D t
  rset : ∀ t, t ∈ s.1.rset ↔ OsOp.Listed D t
  exist : Pointer.Largest OsAse.t Lc.TagLt s.1.aset s.1.exist
  shown : s.2.isSome ↔ s.1.aset ≠ []

namespace OsHolds

variable {D : List OsOp} {s : Ose × Option Score}

theorem tagged (h : OsHolds D s) : Tagged OsAse.t s.1.aset s.1.rset :=
  ⟨h.nodup, fun t ht hr => ((h.aset t).mp ht).2 ((h.rset t).mp hr)⟩

theorem names (h : OsHolds D s) : Names OsAse.t s.1.aset s.1.exist := by
  intro x hx
  obtain ⟨a, ha, rfl⟩ := (hx ▸ h.exist).of_some.1
  exact List.mem_map_of_mem ha

/-- An add of a removed tag changes nothing, one of another tag makes or
keeps its entry. -/
theorem add (h : OsHolds D s) (v : Score) (t : Lc) :
    OsHolds (D ++ [.add v t]) (((OsOp.add v t).act s.1).1,
      runCalls ((OsOp.add v t).act s.1).2 s.2) := by
  have hlisted : ∀ u, OsOp.Listed D u ↔ OsOp.Listed (D ++ [.add v t]) u := fun u =>
    (OsOp.listed_snoc_add v).symm
  by_cases hr : t ∈ s.1.rset
  · have hnoop : s.1.updateExist t v = (s.1, false) :=
      if_pos (Ose.rsetGet_isSome.mpr hr)
    simp only [OsOp.act, Ose.addEffect, hnoop, runCalls_nil]
    refine ⟨h.nodup, ?_, fun u => (h.rset u).trans (hlisted u), h.exist, h.shown⟩
    intro u
    rw [h.aset, OsOp.added_snoc_add, ← hlisted]
    refine ⟨fun hu => ⟨Or.inl hu.1, hu.2⟩, fun hu => ⟨?_, hu.2⟩⟩
    refine hu.1.resolve_right fun hut => hu.2 ?_
    rw [hut]
    exact (h.rset t).mp hr
  · obtain ⟨hrec, hexist⟩ := Ose.updateExist_of_not hr v
    have hf : ∀ a : OsAse, OsAse.t { a with value := v } = a.t := fun _ => rfl
    have hmem : ∀ u, u ∈ (touch OsAse.t ⟨t, none⟩ (fun a => { a with value := v })
        s.1.aset).map OsAse.t ↔ u ∈ s.1.aset.map OsAse.t ∨ u = t := fun u => mem_touch_key hf
    have hlargest : Pointer.Largest OsAse.t Lc.TagLt
        (touch OsAse.t ⟨t, none⟩ (fun a => { a with value := v }) s.1.aset)
        (Pointer.larger Lc.TagLt s.1.exist t) := by
      refine Pointer.Largest.map (fun a => ?_) ?_
      · split <;> rfl
      · split
        · next hmem =>
            obtain ⟨a, ha, hat⟩ := List.mem_map.mp hmem
            rw [show t = a.t from hat.symm, h.exist.larger_of_mem ha]
            exact h.exist
        · exact h.exist.snoc Lc.TagLt.irrefl Lc.TagLt.trans ⟨t, none⟩
    have hne : touch OsAse.t ⟨t, none⟩ (fun a => { a with value := v }) s.1.aset ≠ [] := by
      intro hnil
      have ht := (hmem t).mpr (Or.inr rfl)
      rw [hnil] at ht
      cases ht
    have hshown : (runCalls ((OsOp.add v t).act s.1).2 s.2).isSome := by
      simp only [OsOp.act, Ose.addEffect]
      cases hres : s.1.updateExist t v with
      | mk e changed =>
          cases changed with
          | true => rfl
          | false =>
              rw [hres] at hexist
              exact h.shown.mpr (mt h.exist.eq_none_iff.mpr (hexist rfl))
    have hact : ((OsOp.add v t).act s.1).1 = (s.1.updateExist t v).1 := by
      simp only [OsOp.act, Ose.addEffect]
      split <;> next hres => rw [hres]
    rw [hact, hrec]
    refine ⟨nodup_touch hf h.nodup, ?_, fun u => (h.rset u).trans (hlisted u), hlargest,
      iff_of_true hshown hne⟩
    intro u
    rw [hmem, h.aset, OsOp.added_snoc_add, ← hlisted]
    constructor
    · intro hu
      rcases hu with hu | rfl
      · exact ⟨Or.inl hu.1, hu.2⟩
      · exact ⟨Or.inr rfl, mt (h.rset _).mpr hr⟩
    · intro hin
      obtain ⟨hu, hun⟩ := hin
      exact hu.imp_left fun hu => ⟨hu, hun⟩

/-- A remove deletes the entries it lists; `exist` is searched again if it
pointed to one. -/
theorem rem (h : OsHolds D s) (tags : List Lc) :
    OsHolds (D ++ [.rem tags]) (((OsOp.rem tags).act s.1).1,
      runCalls ((OsOp.rem tags).act s.1).2 s.2) := by
  have hnodup := (h.tagged.keep tags).nodup
  have haset : ∀ t, t ∈ (keep OsAse.t tags s.1.aset).map OsAse.t ↔
      OsOp.Added (D ++ [.rem tags]) t ∧ ¬ OsOp.Listed (D ++ [.rem tags]) t := by
    intro t
    rw [OsOp.added_snoc_rem, OsOp.listed_snoc_rem, not_or, ← and_assoc, ← h.aset,
      List.mem_map, List.mem_map]
    constructor
    · intro hin
      obtain ⟨a, ha, hat⟩ := hin
      obtain ⟨ha, hnot⟩ := mem_keep.mp ha
      exact ⟨⟨a, ha, hat⟩, hat ▸ hnot⟩
    · intro hin
      obtain ⟨⟨a, ha, hat⟩, hnot⟩ := hin
      exact ⟨a, mem_keep.mpr ⟨ha, hat ▸ hnot⟩, hat⟩
  have hrset : ∀ t, t ∈ tags.foldl push s.1.rset ↔ OsOp.Listed (D ++ [.rem tags]) t := by
    intro t
    rw [mem_push_foldl, h.rset, OsOp.listed_snoc_rem]
  simp only [OsOp.act, Ose.remEffect, Ose.removeTags_eq h.tagged h.names]
  cases hx : unlink tags s.1.exist with
  | some x =>
      have hold : s.1.exist = some x := (unlink_eq_some.mp hx).1
      obtain ⟨a, ha, hax⟩ := List.mem_map.mp (h.names.keep tags x hx)
      rw [if_pos (show (s.1.drop tags).exist.isSome = true by simp [Ose.drop, hx])]
      refine ⟨hnodup, haset, hrset, ?_, iff_of_true (h.shown.mpr ?_) (List.ne_nil_of_mem ha)⟩
      · show Pointer.Largest OsAse.t Lc.TagLt (keep OsAse.t tags s.1.aset)
          (unlink tags s.1.exist)
        rw [hx]
        exact (hold ▸ h.exist).mono ⟨a, ha, hax⟩ fun b hb => (mem_keep.mp hb).1
      · exact List.ne_nil_of_mem (mem_keep.mp ha).1
  | none =>
      have hptr := Ose.setResort_exist (e := s.1.drop tags) hx
      have hsort : (s.1.drop tags).setResort
          = { s.1.drop tags with exist := (s.1.drop tags).setResort.exist } := by
        unfold Ose.setResort
        rw [show (s.1.drop tags).exist = none from hx]
        rfl
      rw [if_neg (show ¬ (s.1.drop tags).exist.isSome = true by simp [Ose.drop, hx])]
      by_cases hlook : (s.1.drop tags).setResort.lookup = true
      · rw [if_pos hlook, hsort]
        refine ⟨hnodup, haset, hrset, hptr, iff_of_true rfl ?_⟩
        rw [hsort] at hlook
        simpa [Ose.lookup] using hlook
      · rw [if_neg hlook, hsort]
        refine ⟨hnodup, haset, hrset, hptr, iff_of_false (by simp [ZCall.run]) ?_⟩
        rw [hsort] at hlook
        simpa [Ose.lookup] using hlook

end OsHolds

-- =================================================== the object in runs

section Network

variable {k : Config n (Ose × Option Score) OsOp}

/-- Adds take fresh tags. -/
theorem os_tagging : Tagging (osType (n := n)) Ose.current OsOp.tag where
  issue := by
    intro me c e e' o hissue
    rcases osIssue_cases hissue with ⟨v, rfl, rfl⟩ | ⟨rfl, rfl⟩
    · refine ⟨(lt_add_one _).le, fun t ht => ⟨(Option.some.inj ht).symm, lt_add_one _⟩⟩
    · exact ⟨le_rfl, fun t ht => nomatch ht⟩
  act := Ose.act_current

/-- Every server holds what it applied says. -/
theorem os_holds (hk : Reachable osType.service (.repeated fun _ => True) k) (r : Fin n) :
    OsHolds ((k.got r).map Op.msg) (k.site r) := by
  refine hk.got_forall (I := fun _ s l => OsHolds (l.map Op.msg) s) ?_ ?_ ?_ r
  · intro r
    have hempty : ∀ t, ¬ OsOp.Added [] t ∧ ¬ OsOp.Listed [] t := by
      simp [OsOp.Added, OsOp.Listed]
    exact ⟨List.nodup_nil, fun t => iff_of_false List.not_mem_nil fun h => (hempty t).1 h.1,
      fun t => iff_of_false List.not_mem_nil (hempty t).2, .nil, by
        simp [osType, oseTable, ElemType.service, Ose.new]⟩
  · intro r c s s' m l _ h hp
    rcases ElemType.service_prepare hp with ⟨rfl, -⟩ | ⟨e, o, hissue, rfl, -⟩
    · exact h
    · rcases osIssue_cases hissue with ⟨v, -, rfl⟩ | ⟨-, rfl⟩
      · exact ⟨h.nodup, h.aset, h.rset, h.exist, h.shown⟩
      · exact h
  · intro r s s' l o _ h he
    obtain rfl := Option.some.inj he
    rw [List.map_append, List.map_singleton]
    cases hmsg : o.msg with
    | add v t => exact h.add v t
    | rem tags => exact h.rem tags

/-- No two adds carry the same tag. -/
theorem os_tags_distinct (hk : Reachable osType.service (.repeated fun _ => True) k) :
    ∀ a ∈ k.sent, ∀ b ∈ k.sent, a ≠ b →
      ∀ v t w u, a.msg = .add v t → b.msg = .add w u → t ≠ u := by
  intro a ha b hb hne v t w u hat hbu htu
  subst htu
  exact hne (os_tagging.distinct hk a ha b hb t (by rw [hat]; rfl) (by rw [hbu]; rfl))

/-- A remove lists the tags its server had seen added and not removed. -/
theorem os_rem_lists (hk : Reachable osType.service (.repeated fun _ => True) k)
    {p : Op n OsOp} (hp : p ∈ k.sent) {tags : List Lc} (hmsg : p.msg = .rem tags)
    {l₁ l₂ : List (Op n OsOp)} (hgot : k.got p.src = l₁ ++ p :: l₂) (hfirst : p ∉ l₁)
    (t : Lc) :
    t ∈ tags ↔ OsOp.Added (l₁.map Op.msg) t ∧ ¬ OsOp.Listed (l₁.map Op.msg) t := by
  obtain ⟨l₁', l₂', hgot', hfirst', hlists⟩ := hk.sent_got
    (Q := fun l o => ∀ tags, o.msg = .rem tags → ∀ t, t ∈ tags ↔
      OsOp.Added (l.map Op.msg) t ∧ ¬ OsOp.Listed (l.map Op.msg) t) (by
    intro k r c s m u hr _ hp tags hmsg t
    rcases ElemType.service_prepare hp with ⟨-, hnone⟩ | ⟨e, o, hissue, -, hm⟩
    · cases hnone
    · obtain rfl := Option.some.inj hm
      rcases osIssue_cases hissue with ⟨w, hadd, -⟩ | ⟨hrem, -⟩
      · rw [show m = .rem tags from hmsg] at hadd
        cases hadd
      · rw [show m = .rem tags from hmsg] at hrem
        rw [OsOp.rem.inj hrem]
        exact (os_holds hr r).aset t) p hp
  rw [hgot] at hgot'
  obtain rfl := eq_of_first hgot' hfirst hfirst'
  exact hlists tags hmsg t

/-- An element is shown where an add was applied whose tag no applied
remove lists. -/
theorem os_shown (hk : Reachable osType.service (.repeated fun _ => True) k) (r : Fin n) :
    (k.site r).2.isSome ↔ ∃ a ∈ k.got r, ∃ v t, a.msg = .add v t ∧
      ∀ p ∈ k.got r, ∀ tags, p.msg = .rem tags → t ∉ tags := by
  have h := os_holds hk r
  have hadded : ∀ t, OsOp.Added ((k.got r).map Op.msg) t ↔
      ∃ a ∈ k.got r, ∃ v, a.msg = .add v t := by
    intro t
    simp only [OsOp.Added, List.mem_map]
    exact ⟨fun ⟨v, a, ha, hmsg⟩ => ⟨a, ha, v, hmsg⟩, fun ⟨a, ha, v, hmsg⟩ => ⟨v, a, ha, hmsg⟩⟩
  have hlisted : ∀ t, ¬ OsOp.Listed ((k.got r).map Op.msg) t ↔
      ∀ p ∈ k.got r, ∀ tags, p.msg = .rem tags → t ∉ tags := by
    intro t
    simp only [OsOp.Listed, List.mem_map]
    exact ⟨fun h p hp tags hmsg ht => h ⟨tags, ⟨p, hp, hmsg⟩, ht⟩,
      fun h ⟨tags, ⟨p, hp, hmsg⟩, ht⟩ => h p hp tags hmsg ht⟩
  rw [h.shown]
  constructor
  · intro hne
    obtain ⟨x, hx⟩ := List.exists_mem_of_ne_nil _ hne
    obtain ⟨hadd, hnot⟩ := (h.aset x.t).mp (List.mem_map_of_mem hx)
    obtain ⟨a, ha, v, hmsg⟩ := (hadded x.t).mp hadd
    exact ⟨a, ha, v, x.t, hmsg, (hlisted x.t).mp hnot⟩
  · intro hadded
    obtain ⟨a, ha, v, t, hmsg, hnot⟩ := hadded
    have ht : t ∈ (k.site r).1.aset.map OsAse.t :=
      (h.aset t).mpr ⟨(hadded t).mpr ⟨a, ha, v, hmsg⟩, (hlisted t).mpr hnot⟩
    obtain ⟨x, hx, -⟩ := List.mem_map.mp ht
    exact List.ne_nil_of_mem hx

/-- Once everything has arrived, an element is shown exactly where some
add was seen by no remove. -/
theorem os_shown_iff (hk : Reachable osType.service (.repeated fun _ => True) k)
    (hall : ∀ r, ∀ o ∈ k.sent, o ∈ k.got r) (r : Fin n) :
    (k.site r).2.isSome ↔ ∃ a ∈ k.sent, OsOp.IsAdd a ∧
      ∀ p ∈ k.sent, OsOp.IsRem p → ¬ k.Saw p a := by
  rw [os_shown hk r]
  constructor
  · intro hadded
    obtain ⟨a, ha, v, t, hadd, hnot⟩ := hadded
    refine ⟨a, hk.ledger.got_sent r a ha, ⟨v, t, hadd⟩, ?_⟩
    intro p hp hlists hseen
    obtain ⟨tags, hrem⟩ := hlists
    obtain ⟨l₁, l₂, hgot, hfirst, hal⟩ := hseen
    -- the remove lists the tag, or an earlier one did
    have hnotin : t ∉ tags := hnot p (hall r p hp) tags hrem
    have hlists := (os_rem_lists hk hp hrem hgot hfirst t).not.mp hnotin
    refine hlists ⟨⟨v, List.mem_map.mpr ⟨a, hal, hadd⟩⟩, ?_⟩
    intro hcon
    obtain ⟨tags', hmem, ht⟩ := hcon
    obtain ⟨q, hq, hqrem⟩ := List.mem_map.mp hmem
    have hqsent : q ∈ k.sent :=
      hk.ledger.got_sent p.src q (hgot ▸ List.mem_append_left _ hq)
    exact hnot q (hall r q hqsent) tags' hqrem ht
  · intro hadded
    obtain ⟨a, ha, ⟨v, t, hadd⟩, hunseen⟩ := hadded
    refine ⟨a, hall r a ha, v, t, hadd, ?_⟩
    intro p hp tags hrem ht
    have hpsent := hk.ledger.got_sent r p hp
    obtain ⟨l₁, l₂, hgot, hfirst, -⟩ := hk.sent_got (Q := fun _ _ => True)
      (fun _ _ _ => trivial) p hpsent
    obtain ⟨⟨v', hmem⟩, -⟩ := (os_rem_lists hk hpsent hrem hgot hfirst t).mp ht
    obtain ⟨b, hb, hbadd⟩ := List.mem_map.mp hmem
    have hbsent : b ∈ k.sent :=
      hk.ledger.got_sent p.src b (hgot ▸ List.mem_append_left _ hb)
    -- the add of the tag it lists is the only one
    have hba : b = a := by
      by_contra hne
      exact os_tags_distinct hk b hbsent a ha hne v' t v t hbadd hadd rfl
    exact hunseen p hpsent ⟨tags, hrem⟩ ⟨l₁, l₂, hgot, hfirst, hba ▸ hb⟩

end Network

-- ========================================================= the network

/-- The commands on add-wins sets. -/
def osCmds : List Cmd := [.osadd, .osrem]

/-- What the servers of a network make of element `key` of `tname`. -/
structure OsAddWins (dbl : String → Option ℤ) (k : Net n) (tname key : String) : Prop where
  /-- A server shows the element if an add it applied carries a tag that
  no remove it applied lists. -/
  shown : ∀ r, (scoreOf (k.site r) tname key).isSome ↔
    ∃ a ∈ (osType.readAt dbl tname key k).got r, ∃ v t, a.msg = .add v t ∧
      ∀ p ∈ (osType.readAt dbl tname key k).got r, ∀ tags, p.msg = .rem tags → t ∉ tags
  /-- No two adds carry the same tag. -/
  distinct : ∀ a ∈ (osType.readAt dbl tname key k).sent,
    ∀ b ∈ (osType.readAt dbl tname key k).sent, a ≠ b →
      ∀ v t w u, a.msg = .add v t → b.msg = .add w u → t ≠ u
  exist_none : ∀ r, (oseTable.recordOf r (k.site r) tname key).exist = none ↔
    (oseTable.recordOf r (k.site r) tname key).aset = []
  /-- Tags tell the entries apart, and the cached one is the greatest. -/
  entries : ∀ r, ((oseTable.recordOf r (k.site r) tname key).aset.map OsAse.t).Nodup
  exist_some : ∀ r t, (oseTable.recordOf r (k.site r) tname key).exist = some t →
    (∃ a ∈ (oseTable.recordOf r (k.site r) tname key).aset, a.t = t) ∧
      ∀ a ∈ (oseTable.recordOf r (k.site r) tname key).aset, a.t ≠ t → a.t.TagLt t
  /-- Once everything has arrived, the element is where some add was seen
  by the server of no remove. -/
  converged : (∀ r, ∀ o ∈ k.sent, o ∈ k.got r) → ∀ r,
    ((scoreOf (k.site r) tname key).isSome ↔
      ∃ a ∈ (osType.readAt dbl tname key k).sent, OsOp.IsAdd a ∧
        ∀ p ∈ (osType.readAt dbl tname key k).sent, OsOp.IsRem p →
          ¬ (osType.readAt dbl tname key k).Saw p a)

/-- The add-wins set is an observed-remove set, whatever the order of the
messages and however often they arrive. -/
theorem os_add_wins (dbl : String → Option ℤ) {k : Net n}
    (hk : Reachable (crdtService dbl) (.repeated (Issues osCmds)) k)
    (tname key : String) : OsAddWins dbl k tname key := by
  have hat := ElemType.reachable_repeated (E := osType)
    (by simp [osCmds, osType, osCommand]) hk tname key
  refine ⟨os_shown hat, os_tags_distinct hat, fun r => (os_holds hat r).exist.eq_none_iff,
    fun r => (os_holds hat r).nodup, ?_, ?_⟩
  · intro r t ht
    have hlargest : Pointer.Largest OsAse.t Lc.TagLt
        (oseTable.recordOf r (k.site r) tname key).aset (some t) := ht ▸ (os_holds hat r).exist
    refine ⟨hlargest.of_some.1, ?_⟩
    intro a ha hne
    by_contra hlt
    exact hne (Lc.TagLt.antisymm hlt (hlargest.of_some.2 a ha))
  · intro hall r
    refine os_shown_iff hat ?_ r
    intro q o ho
    obtain ⟨o', ho', hroute⟩ := List.mem_filterMap.mp ho
    exact List.mem_filterMap.mpr ⟨o', hall q o' ho', hroute⟩

/-- Two servers add element 1, each without the other's add; one removes
it having seen its own only, and the remove overtakes that add. Element 2
is added and removed. -/
def osSchedule : List (Act 2 (List String)) :=
  [.submit 0 ["osadd", "s", "1"], .submit 1 ["osadd", "s", "1"],
    .submit 0 ["osrem", "s", "1"], .deliver 1 2, .deliver 0 1, .deliver 1 0,
    .submit 1 ["osadd", "s", "2"], .deliver 0 3, .submit 0 ["osrem", "s", "2"],
    .deliver 1 4]

theorem os_add_wins_schedule :
    ∃ k : Net 2, Reachable (crdtService getLongLongFromObject)
        (.repeated (Issues osCmds)) k ∧
      (∀ r, ∀ o ∈ k.sent, o ∈ k.got r) ∧
      scoreOf (k.site 0) "s" "1" = some (some 1) ∧ scoreOf (k.site 0) "s" "2" = none ∧
      OsAddWins getLongLongFromObject k "s" "1" ∧
      OsAddWins getLongLongFromObject k "s" "2" := by
  obtain ⟨k, hrun, hall, h1, h2⟩ : ∃ k : Net 2, (crdtService getLongLongFromObject).run
      (crdtService getLongLongFromObject).start osSchedule = some k ∧
      (∀ r, ∀ u ∈ k.sent.map Op.uid, u ∈ (k.got r).map Op.uid) ∧
      scoreOf (k.site 0) "s" "1" = some (some 1) ∧ scoreOf (k.site 0) "s" "2" = none :=
    ⟨_, rfl, by decide, by decide, by decide⟩
  have hk : Reachable (crdtService getLongLongFromObject) (.repeated (Issues osCmds)) k :=
    (Service.run_reachable (by decide) hrun).repeated
  exact ⟨k, hk, hk.ledger.got_of_uid hall, h1, h2, os_add_wins _ hk "s" "1",
    os_add_wins _ hk "s" "2"⟩

end CrdtRedis
