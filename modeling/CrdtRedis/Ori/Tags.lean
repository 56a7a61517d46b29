/-
What the two add-wins types share (t_oset.c, t_ozset.c): an add takes the
next tag of its server, `current` counts the tags taken, and `rset` keeps
the tags removed.

A tag is the number of the add and the id of its server, so no two adds
of an element carry the same one (`Tagging.distinct`), in whatever order
and however often messages arrive: only a preparation moves the counter.
-/
import CrdtRedis.Element
import CrdtRedis.Data.Pointer

namespace CrdtRedis

open Replication

variable {n : ℕ} {R Cl O : Type}

-- ========================================================= fresh tags

/-- A family of commands that counts the tags it gives out: `current`
reads the counter, `tag` the tag an operation brings. -/
structure Tagging (E : ElemType n R Cl O) (current : R → ℤ) (tag : O → Option Lc) :
    Prop where
  issue : ∀ {me cl e e' o}, E.issue me cl e = some (e', o) →
    current e ≤ current e' ∧
      ∀ t, tag o = some t → t = ⟨current e, me⟩ ∧ current e < current e'
  act : ∀ o e, current (E.act o e).1 = current e

namespace Tagging

variable {E : ElemType n R Cl O} {current : R → ℤ} {tag : O → Option Lc}
  {pol : Policy n (R × Option Score) Cl O} {k : Config n (R × Option Score) O}

/-- The tag of an operation names its server, and the server has counted
past it. -/
theorem own (h : Tagging E current tag) (hk : Reachable E.service pol k) :
    ∀ o ∈ k.sent, ∀ t, tag o.msg = some t →
      t.id = o.src ∧ t.x < current (k.site o.src).1 := by
  refine hk.own_forall (Q := fun o s => ∀ t : Lc, tag o.msg = some t →
    t.id = o.src ∧ t.x < current s.1) ?_ ?_ ?_
  · intro r c u s s' s'' m _ hp he t ht
    rcases ElemType.service_prepare hp with ⟨-, hnone⟩ | ⟨e, o, hissue, rfl, hm⟩
    · cases hnone
    · obtain rfl := Option.some.inj hm
      obtain rfl := Option.some.inj he
      obtain ⟨rfl, hlt⟩ := (h.issue hissue).2 t ht
      refine ⟨rfl, ?_⟩
      show current s.1 < current (E.act m e).1
      rw [h.act]
      exact hlt
  · intro o r c s s' m _ hQ hp t ht
    obtain ⟨hid, hlt⟩ := hQ t ht
    refine ⟨hid, hlt.trans_le ?_⟩
    rcases ElemType.service_prepare hp with ⟨rfl, -⟩ | ⟨e, o', hissue, rfl, -⟩
    · exact le_rfl
    · exact (h.issue hissue).1
  · intro o r m s s' hQ he t ht
    obtain rfl := Option.some.inj he
    obtain ⟨hid, hlt⟩ := hQ t ht
    refine ⟨hid, ?_⟩
    show t.x < current (E.act m s.1).1
    rw [h.act]
    exact hlt

/-- No two operations bring the same tag. -/
theorem distinct (h : Tagging E current tag) (hk : Reachable E.service pol k) :
    ∀ a ∈ k.sent, ∀ b ∈ k.sent, ∀ t, tag a.msg = some t → tag b.msg = some t →
      a = b := by
  have hpairs := hk.sent_pairs (Q := fun a b => ∀ t, tag a.msg = some t →
    tag b.msg ≠ some t) ?_
  · intro a ha b hb t hat hbt
    by_contra hne
    rcases hpairs a ha b hb hne with hab | hba
    · exact hab t hat hbt
    · exact hba t hbt hat
  · intro k r c s m u hr _ hp a ha t hat hbt
    rcases ElemType.service_prepare hp with ⟨-, hnone⟩ | ⟨e, o, hissue, -, hm⟩
    · cases hnone
    · obtain rfl := Option.some.inj hm
      obtain ⟨rfl, -⟩ := (h.issue hissue).2 t hbt
      obtain ⟨hid, hlt⟩ := h.own hr a ha _ hat
      have hsrc : r = a.src := Fin.ext (Int.ofNat_inj.mp hid)
      rw [hsrc] at hlt
      exact lt_irrefl _ hlt

end Tagging

-- ======================================================= removed tags

/-- A tag joins `rset` once. -/
def push (rset : List Lc) (t : Lc) : List Lc := if t ∈ rset then rset else rset ++ [t]

theorem mem_push {rset : List Lc} {t u : Lc} : u ∈ push rset t ↔ u ∈ rset ∨ u = t := by
  unfold push
  split
  · next ht => exact ⟨Or.inl, fun hu => hu.elim id fun hut => hut ▸ ht⟩
  · rw [List.mem_append, List.mem_singleton]

theorem mem_push_foldl {tags rset : List Lc} {u : Lc} :
    u ∈ tags.foldl push rset ↔ u ∈ rset ∨ u ∈ tags := by
  induction tags generalizing rset with
  | nil => simp
  | cons t tags ih => rw [List.foldl_cons, ih, mem_push, List.mem_cons, or_assoc]

/-- A pointer into the entries, cleared if its tag is among `tags`. -/
def unlink (tags : List Lc) (v : Option Lc) : Option Lc :=
  v.filter fun x => decide (x ∉ tags)

theorem unlink_eq_some {tags : List Lc} {v : Option Lc} {x : Lc} :
    unlink tags v = some x ↔ v = some x ∧ x ∉ tags := by
  rw [unlink, Option.filter_eq_some_iff, decide_eq_true_iff]

theorem unlink_nil (v : Option Lc) : unlink [] v = v := by
  cases v <;> rfl

theorem unlink_cons (t : Lc) (tags : List Lc) (v : Option Lc) :
    unlink tags (unlink [t] v) = unlink (t :: tags) v := by
  ext x
  simp only [unlink_eq_some, List.mem_cons, List.not_mem_nil, or_false, not_or, and_assoc]

/-- The assignment of `remove_tag` to a pointer. -/
theorem unlink_singleton (v : Option Lc) (t : Lc) :
    (if v = some t then none else v) = unlink [t] v := by
  ext x
  rw [unlink_eq_some, List.mem_singleton]
  split
  · next hv =>
      rw [hv]
      simp only [reduceCtorEq, Option.some.injEq, false_iff, not_and, not_not]
      exact fun h => h.symm
  · next hv => exact ⟨fun h => ⟨h, fun hxt => hv (h.trans (by rw [hxt]))⟩, fun h => h.1⟩

section Entries

variable {A : Type} (key : A → Lc)

/-- The search for a tag, as `asetGet` and `rsetGet` make it. -/
theorem find?_tag_isSome {l : List A} {t : Lc} :
    (l.find? fun a => decide (lcCmpAsTag t (key a) = 0)).isSome = true ↔ t ∈ l.map key := by
  rw [List.find?_isSome, List.mem_map]
  simp [eq_comm]

/-- Entries named by their tags, none of them removed, and a pointer to
one of them. -/
structure Tagged (aset : List A) (rset : List Lc) : Prop where
  nodup : (aset.map key).Nodup
  disjoint : ∀ t ∈ aset.map key, t ∉ rset

/-- A pointer names an entry, or none. -/
def Names (aset : List A) (v : Option Lc) : Prop :=
  ∀ x, v = some x → x ∈ aset.map key

/-- The entries left when `tags` are removed. -/
def keep (tags : List Lc) (aset : List A) : List A :=
  aset.filter fun a => decide (key a ∉ tags)

variable {key} {aset : List A} {rset tags : List Lc} {v : Option Lc} {t : Lc}

theorem mem_keep {a : A} : a ∈ keep key tags aset ↔ a ∈ aset ∧ key a ∉ tags := by
  rw [keep, List.mem_filter, decide_eq_true_iff]

theorem keep_nil : keep key [] aset = aset := by
  simp [keep]

theorem keep_cons : keep key tags (keep key [t] aset) = keep key (t :: tags) aset := by
  simp only [keep, List.filter_filter]
  refine List.filter_congr fun a _ => ?_
  simp only [List.mem_cons, List.not_mem_nil, or_false, not_or, Bool.decide_and,
    Bool.and_comm]

theorem keep_of_notMem (h : t ∉ aset.map key) : keep key [t] aset = aset := by
  refine List.filter_eq_self.mpr fun a ha => ?_
  rw [decide_eq_true_iff, List.mem_singleton]
  exact fun hat => h (List.mem_map.mpr ⟨a, ha, hat⟩)

theorem Tagged.eraseP (h : Tagged key aset rset) (t : Lc) :
    (aset.eraseP fun a => decide (key a = t)) = keep key [t] aset := by
  rw [Pointer.eraseP_key_eq_filter h.nodup, keep]
  simp only [List.mem_singleton]

theorem Tagged.keep (h : Tagged key aset rset) (tags : List Lc) :
    Tagged key (keep key tags aset) (tags.foldl push rset) := by
  refine ⟨h.nodup.sublist (List.filter_sublist.map key), ?_⟩
  intro t ht
  obtain ⟨a, ha, rfl⟩ := List.mem_map.mp ht
  obtain ⟨ha, hnot⟩ := mem_keep.mp ha
  rw [mem_push_foldl, not_or]
  exact ⟨h.disjoint _ (List.mem_map_of_mem ha), hnot⟩

theorem Names.keep (h : Names key aset v) (tags : List Lc) :
    Names key (keep key tags aset) (unlink tags v) := by
  intro x hx
  obtain ⟨hv, hnot⟩ := unlink_eq_some.mp hx
  obtain ⟨a, ha, rfl⟩ := List.mem_map.mp (h x hv)
  exact List.mem_map_of_mem (mem_keep.mpr ⟨ha, hnot⟩)

theorem Names.unlink_of_notMem (h : Names key aset v) (ht : t ∉ aset.map key) :
    unlink [t] v = v := by
  rw [← unlink_singleton, if_neg]
  exact fun hv => ht (h t hv)

-- ====================================================== written tags

variable (key) in
/-- Write `f` to the entry of a tag, which is made of `new` where there is
none. -/
def touch (new : A) (f : A → A) (aset : List A) : List A :=
  (if key new ∈ aset.map key then aset else aset ++ [new]).map fun a =>
    if key a = key new then f a else a

variable {new : A} {f : A → A}

theorem touch_map_key (hf : ∀ a, key (f a) = key a) :
    (touch key new f aset).map key
      = if key new ∈ aset.map key then aset.map key else aset.map key ++ [key new] := by
  have hkey : key ∘ (fun a => if key a = key new then f a else a) = key := by
    funext a
    show key (if key a = key new then f a else a) = key a
    split
    · exact hf a
    · rfl
  rw [touch, List.map_map, hkey]
  split
  · rfl
  · rw [List.map_append, List.map_singleton]

theorem mem_touch_key (hf : ∀ a, key (f a) = key a) :
    t ∈ (touch key new f aset).map key ↔ t ∈ aset.map key ∨ t = key new := by
  rw [touch_map_key hf]
  split
  · next hmem => exact ⟨Or.inl, fun ht => ht.elim id fun ht => ht ▸ hmem⟩
  · rw [List.mem_append, List.mem_singleton]

theorem nodup_touch (hf : ∀ a, key (f a) = key a) (h : (aset.map key).Nodup) :
    ((touch key new f aset).map key).Nodup := by
  rw [touch_map_key hf]
  split
  · exact h
  · next hnot => exact List.nodup_append_comm.mp (List.nodup_cons.mpr ⟨hnot, h⟩)

/-- Where tags do not repeat, one entry is written. -/
theorem mem_touch (h : (aset.map key).Nodup) {old : A}
    (hold : old ∈ aset ∧ key old = key new ∨ key new ∉ aset.map key ∧ old = new) {a : A} :
    a ∈ touch key new f aset ↔ a = f old ∨ key a ≠ key new ∧ a ∈ aset := by
  have hother : ∀ b, key b ≠ key new → (if key b = key new then f b else b) = b :=
    fun b hb => if_neg hb
  unfold touch
  rw [List.mem_map]
  rcases hold with ⟨hmem, hkey⟩ | ⟨hnot, rfl⟩
  · rw [if_pos (List.mem_map.mpr ⟨old, hmem, hkey⟩)]
    constructor
    · intro ⟨b, hb, hba⟩
      by_cases hbk : key b = key new
      · rw [if_pos hbk] at hba
        rw [← List.inj_on_of_nodup_map h hb hmem (hbk.trans hkey.symm)]
        exact Or.inl hba.symm
      · rw [hother b hbk] at hba
        exact Or.inr ⟨hba ▸ hbk, hba ▸ hb⟩
    · intro ha
      rcases ha with rfl | ⟨hak, ha⟩
      · exact ⟨old, hmem, if_pos hkey⟩
      · exact ⟨a, ha, hother a hak⟩
  · rw [if_neg hnot]
    have hne : ∀ b ∈ aset, key b ≠ key old := fun b hb hbk =>
      hnot (List.mem_map.mpr ⟨b, hb, hbk⟩)
    constructor
    · intro ⟨b, hb, hba⟩
      rcases List.mem_append.mp hb with hb | hb
      · rw [hother b (hne b hb)] at hba
        exact Or.inr ⟨hba ▸ hne b hb, hba ▸ hb⟩
      · rw [List.mem_singleton.mp hb, if_pos rfl] at hba
        exact Or.inl hba.symm
    · intro ha
      rcases ha with rfl | ⟨hak, ha⟩
      · exact ⟨old, by simp, if_pos rfl⟩
      · exact ⟨a, List.mem_append_left _ ha, hother a hak⟩

end Entries

-- ============================================== removal from a record

/-- What a removal works on: entries, removed tags, pointers to entries,
and a write to all of them. -/
structure TagRecord (R A : Type) where
  key : A → Lc
  current : R → ℤ
  aset : R → List A
  rset : R → List Lc
  pointers : R → List (Option Lc)
  write : List A → List Lc → (Option Lc → Option Lc) → R → R
  current_write : ∀ {l ts f e}, current (write l ts f e) = current e
  aset_write : ∀ {l ts f e}, aset (write l ts f e) = l
  rset_write : ∀ {l ts f e}, rset (write l ts f e) = ts
  pointers_write : ∀ {l ts f e}, pointers (write l ts f e) = (pointers e).map f
  write_write : ∀ {l ts f l' ts' f' e},
    write l' ts' f' (write l ts f e) = write l' ts' (fun v => f' (f v)) e
  write_congr : ∀ {l ts f f' e}, (∀ v ∈ pointers e, f v = f' v) → write l ts f e = write l ts f' e
  write_self : ∀ e, write (aset e) (rset e) (fun v => v) e = e

namespace TagRecord

variable {A : Type} (T : TagRecord R A) {e : R}

/-- `set_remove_tag`, `remove_tag`. -/
def removeTag (e : R) (t : Lc) : R :=
  if ((T.rset e).find? fun a => decide (lcCmpAsTag t a = 0)).isSome then e
  else if ((T.aset e).find? fun a => decide (lcCmpAsTag t (T.key a) = 0)).isSome then
    T.write ((T.aset e).eraseP fun a => decide (lcCmpAsTag t (T.key a) = 0)) (T.rset e ++ [t])
      (fun v => if v = some t then none else v) e
  else T.write (T.aset e) (T.rset e ++ [t]) (fun v => v) e

/-- The record without the entries of `tags`. -/
def drop (tags : List Lc) (e : R) : R :=
  T.write (keep T.key tags (T.aset e)) (tags.foldl push (T.rset e)) (unlink tags) e

/-- The entries are tagged, and the pointers point to some. -/
structure Sound (e : R) : Prop where
  tagged : Tagged T.key (T.aset e) (T.rset e)
  names : ∀ v ∈ T.pointers e, Names T.key (T.aset e) v

variable {T}

theorem Sound.drop (h : T.Sound e) (tags : List Lc) : T.Sound (T.drop tags e) := by
  constructor
  · rw [TagRecord.drop, T.aset_write, T.rset_write]
    exact h.tagged.keep tags
  · intro v hv
    rw [TagRecord.drop, T.pointers_write] at hv
    obtain ⟨w, hw, rfl⟩ := List.mem_map.mp hv
    rw [TagRecord.drop, T.aset_write]
    exact (h.names w hw).keep tags

/-- The tag goes, and the pointers to its entry with it. -/
theorem removeTag_eq (h : T.Sound e) (t : Lc) : T.removeTag e t = T.drop [t] e := by
  have hrset : ((T.rset e).find? fun a => decide (lcCmpAsTag t a = 0)).isSome = true ↔
      t ∈ T.rset e := by
    rw [find?_tag_isSome fun a => a, List.map_id']
  have hunlink : t ∉ (T.aset e).map T.key → ∀ v ∈ T.pointers e, v = unlink [t] v :=
    fun ht v hv => ((h.names v hv).unlink_of_notMem ht).symm
  unfold removeTag TagRecord.drop
  rw [List.foldl_cons, List.foldl_nil, push]
  simp only [hrset, find?_tag_isSome]
  by_cases hr : t ∈ T.rset e
  · have hnot : t ∉ (T.aset e).map T.key := fun ht => h.tagged.disjoint t ht hr
    rw [if_pos hr, if_pos hr, keep_of_notMem hnot, ← T.write_congr (hunlink hnot), T.write_self]
  · rw [if_neg hr, if_neg hr]
    by_cases ht : t ∈ (T.aset e).map T.key
    · simp only [if_pos ht, lcCmpAsTag_eq_zero, eq_comm (a := t)]
      rw [h.tagged.eraseP]
      exact T.write_congr fun v _ => unlink_singleton v t
    · rw [if_neg ht, keep_of_notMem ht]
      exact T.write_congr (hunlink ht)

/-- The loop of the removes. -/
theorem removeTags_eq (h : T.Sound e) (tags : List Lc) :
    tags.foldl T.removeTag e = T.drop tags e := by
  induction tags generalizing e with
  | nil =>
      rw [TagRecord.drop, keep_nil, T.write_congr fun v _ => unlink_nil v]
      exact (T.write_self e).symm
  | cons t tags ih =>
      rw [List.foldl_cons, removeTag_eq h, ih (h.drop [t])]
      simp only [TagRecord.drop, T.aset_write, T.rset_write, T.write_write, keep_cons, unlink_cons,
        List.foldl_cons, List.foldl_nil]

/-- No removal moves the counter. -/
theorem removeTags_current (tags : List Lc) :
    T.current (tags.foldl T.removeTag e) = T.current e := by
  induction tags generalizing e with
  | nil => rfl
  | cons t tags ih =>
      rw [List.foldl_cons, ih, removeTag]
      split
      · rfl
      · split <;> exact T.current_write

end TagRecord

/-- The tags a command lists are read back. -/
theorem tagsFrom_words {i : ℕ} {argv : List String} (hlen : argv.length = i)
    (tags : List Lc) :
    tagsFrom i (argv.map (Arg.str (n := n)) ++ tags.map Arg.lc) = some tags := by
  have h := tagsFrom_append (argv.map (Arg.str (n := n))) tags
  rw [List.length_map, hlen] at h
  exact h

end CrdtRedis
