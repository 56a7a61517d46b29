/-
What the records of a list hold besides the chain, and the length that
counts the visible ones, for both lists.

`ListKind.Same` is the frame: most writes change neither a body nor the
length. What does is one write to the body of one record with the
correction of the length that goes with it (`ListKind.Written`), and that
keeps the length equal to the number of bodies that are visible
(`ListKind.Tallied`).
-/
import CrdtRedis.ListPlace
import Mathlib.Data.Set.Card

namespace CrdtRedis

variable {n : ℕ} {E : Type}

theorem getLen_congr {h h' : Hash n} (hf : h'.fields "length" = h.fields "length") :
    getLen h' = getLen h := by
  unfold getLen
  rw [hf]

theorem getLen_incrLen {h h' : Hash n} {inc : ℤ} (hincr : incrLen h inc = some h') :
    getLen h' = (getLen h).map fun len => len + inc := by
  obtain ⟨len, hlen, rfl⟩ := Option.map_eq_some_iff.mp hincr
  rw [hlen]
  simp [getLen, Hash.set]

namespace ListKind

variable {K : ListKind n E} {me : Fin n} {h h' h'' : Hash n} {vis : E → Bool}

/-- What the record at `a` holds; a new record's body if there is none. -/
def bodyAt (K : ListKind n E) (me : Fin n) (h : Hash n) (a : String) : E :=
  ((K.heap h a).map ListRec.body).getD (K.new me)

theorem bodyAt_of_heap {a : String} {e : ListRec E} (he : K.heap h a = some e) :
    K.bodyAt me h a = e.body := by
  rw [bodyAt, he]
  rfl

/-- What the record of element `key` holds, as a broadcast that names it
finds or makes it. -/
def bodyOf (K : ListKind n E) (me : Fin n) (h : Hash n) (key : String) : E :=
  K.bodyAt me h (((K.find h key).getD none).getD key)

/-- Where a lookup with creation leads. -/
theorem addr_findOrCreate (hK : K.Lawful) {key addr : String}
    (hget : K.findOrCreate me h key = some (h', addr)) :
    ((K.find h key).getD none).getD key = addr := by
  unfold ListKind.find
  rcases findOrCreate_cases hK hget with ⟨v, hf, hv, -⟩ | ⟨hf, rfl, -⟩
  · rw [hf]
    simp [hv]
  · rw [hf]
    rfl

theorem bodyOf_eq (hs : K.Sound h) {key : String} (hkey : key ≠ "head") :
    K.bodyOf me h key = K.bodyAt me h key := by
  unfold bodyOf
  rcases hfind : K.find h key with _ | _ | a
  · rfl
  · rfl
  · exact congrArg (K.bodyAt me h) (hs.find hkey hfind)

-- ============================================================== the frame

/-- Bodies and length are as before. -/
structure Same (K : ListKind n E) (me : Fin n) (h h' : Hash n) : Prop where
  body : K.bodyAt me h' = K.bodyAt me h
  len : getLen h' = getLen h

theorem Same.refl (h : Hash n) : K.Same me h h := ⟨rfl, rfl⟩

theorem Same.trans (h₁ : K.Same me h h') (h₂ : K.Same me h' h'') : K.Same me h h'' :=
  ⟨h₂.body.trans h₁.body, h₂.len.trans h₁.len⟩

/-- Records with the same bodies under the same length. -/
theorem Same.of_heap (hheap : ∀ a, (K.heap h' a).map ListRec.body = (K.heap h a).map ListRec.body)
    (hf : h'.fields "length" = h.fields "length") : K.Same me h h' := by
  refine ⟨?_, getLen_congr hf⟩
  funext a
  rw [bodyAt, hheap]
  rfl

theorem Same.set (hK : K.Lawful) {f : String} (hf : f ≠ "length") (v : Value n) :
    K.Same me h (h.set f v) :=
  .of_heap (fun a => by rw [hK.heap_set]) (by simp [Hash.set, Ne.symm hf])

theorem Same.getCurrent (hK : K.Lawful) {c : Vc n} (hget : getCurrent me h = some (h', c)) :
    K.Same me h h' := by
  rcases (getCurrent_cases hget).2 with ⟨rfl, -⟩ | ⟨rfl, -⟩
  · exact .refl _
  · exact .set hK (by decide) _

/-- A record that is made holds what no record would. -/
theorem bodyAt_findOrCreate (hK : K.Lawful) (hs : K.Sound h) {key addr : String}
    (hget : K.findOrCreate me h key = some (h', addr)) : K.bodyAt me h' = K.bodyAt me h := by
  rcases findOrCreate_cases hK hget with ⟨-, -, -, rfl⟩ | ⟨hf, rfl, hheap, -, -⟩
  · rfl
  · funext a
    unfold bodyAt
    rw [hheap]
    by_cases ha : a = addr
    · rw [ha, Function.update_self, hs.heap_none hf]
      rfl
    · rw [Function.update_of_ne ha]

theorem getLen_findOrCreate (hK : K.Lawful) {key addr : String} (hkey : key ≠ "length")
    (hget : K.findOrCreate me h key = some (h', addr)) : getLen h' = getLen h := by
  rcases findOrCreate_cases hK hget with ⟨-, -, -, rfl⟩ | ⟨-, -, -, hfields, -⟩
  · rfl
  · exact getLen_congr (by rw [hfields, Function.update_of_ne (Ne.symm hkey)])

theorem Same.findOrCreate (hK : K.Lawful) (hs : K.Sound h) {key addr : String}
    (hkey : key ≠ "length") (hget : K.findOrCreate me h key = some (h', addr)) :
    K.Same me h h' := ⟨bodyAt_findOrCreate hK hs hget, getLen_findOrCreate hK hkey hget⟩

theorem Same.position (hK : K.Lawful) {i : Placement} {addr : String}
    (hpos : K.position h i.pre i.oid i.content addr i.pos = some h') : K.Same me h h' := by
  obtain ⟨e, -, ⟨-, rfl⟩ | ⟨-, hins⟩⟩ := position_cases hpos
  · exact .refl _
  · have hre := insertChain_relinked hK hins
    refine .of_heap ?_ ?_
    · intro a
      have hentry := congrArg (Option.map ListRec.body) (congrFun hre.entry a)
      simp only [ListKind.entry, Option.map_map, Function.comp_def] at hentry
      rw [show (K.heap h' a).map ListRec.body = _ from hentry, heap_modify hK]
      by_cases ha : a = addr
      · rw [ha, Function.update_self]
        cases K.heap h addr <;> rfl
      · rw [Function.update_of_ne ha]
    · rw [hre.fields "length" (by decide), fields_modify hK]

theorem Same.placeAt (hK : K.Lawful) (hP : K.Plain) {count : Vc n → Vc n}
    {pre : Option (ListRec E)} {preArg oid : String} {e : ListRec E} {res : Except Reply Leid}
    (hpl : K.placeAt me count h pre preArg oid e = some (h', res)) : K.Same me h h' := by
  rcases placeAt_cases hP hpl with ⟨rfl, -⟩ | ⟨rfl, -⟩
  · exact .refl _
  · exact .set hK (by decide) _

-- ============================================================= one write

/-- How much a visible body adds to the length. -/
def weight (b : Bool) : ℤ := if b then 1 else 0

/-- The body of the record at `a` became what `f` makes of it, and the
length follows. -/
structure Written (K : ListKind n E) (me : Fin n) (vis : E → Bool) (h : Hash n) (a : String)
    (f : E → E) (h' : Hash n) : Prop where
  quiet : K.Quiet h h'
  body : K.bodyAt me h' = Function.update (K.bodyAt me h) a (f (K.bodyAt me h a))
  len : getLen h' = (getLen h).map fun len =>
    len + (weight (vis (f (K.bodyAt me h a))) - weight (vis (K.bodyAt me h a)))

/-- Nothing was written, and nothing had to be. -/
theorem Written.none {a : String} {f : E → E} (hf : f (K.bodyAt me h a) = K.bodyAt me h a) :
    K.Written me vis h a f h := by
  refine ⟨.refl h, by rw [hf, Function.update_eq_self], ?_⟩
  rw [hf, sub_self]
  simp

/-- A record that is written, with the right correction of the length. -/
theorem Written.of_modify (hK : K.Lawful) (hP : K.Plain) {a : String} {e : ListRec E} {f : E → E}
    {inc : ℤ} (he : K.heap h a = some e)
    (hinc : inc = weight (vis (f e.body)) - weight (vis e.body))
    (hw : inc = 0 ∧ h' = K.modify h a (fun e => { e with body := f e.body }) ∨
      incrLen (K.modify h a fun e => { e with body := f e.body }) inc = some h') :
    K.Written me vis h a f h' := by
  have hq : K.Quiet h (K.modify h a fun e => { e with body := f e.body }) :=
    .modify hK h a fun e => f e.body
  have hbody : K.bodyAt me (K.modify h a fun e => { e with body := f e.body })
      = Function.update (K.bodyAt me h) a (f (K.bodyAt me h a)) := by
    funext b
    rw [bodyAt_of_heap he]
    unfold bodyAt
    rw [heap_modify hK]
    by_cases hb : b = a
    · rw [hb, Function.update_self, Function.update_self, he]
      rfl
    · rw [Function.update_of_ne hb, Function.update_of_ne hb]
  have hlen : getLen (K.modify h a fun e => { e with body := f e.body }) = getLen h :=
    getLen_congr (by rw [fields_modify hK])
  rw [← (bodyAt_of_heap he : K.bodyAt me h a = e.body)] at hinc
  rcases hw with ⟨hzero, rfl⟩ | hincr
  · refine ⟨hq, hbody, ?_⟩
    rw [hlen, ← hinc, hzero]
    simp
  · refine ⟨hq.trans (.incrLen hK hP hincr), ?_, ?_⟩
    · rw [← hbody]
      obtain ⟨len, -, rfl⟩ := Option.map_eq_some_iff.mp hincr
      funext b
      rw [bodyAt, hK.heap_set]
      rfl
    · rw [getLen_incrLen hincr, hlen, hinc]

-- ============================================================= the length

/-- The records whose body is visible. -/
def shown (K : ListKind n E) (me : Fin n) (vis : E → Bool) (h : Hash n) : Set String :=
  {a | vis (K.bodyAt me h a) = true}

/-- The length is the number of visible bodies. -/
structure Tallied (K : ListKind n E) (me : Fin n) (vis : E → Bool) (h : Hash n) : Prop where
  finite : (K.shown me vis h).Finite
  len : getLen h = some ((K.shown me vis h).ncard : ℤ)

theorem tallied_empty (hheap : ∀ a, K.heap (Hash.empty : Hash n) a = none)
    (hnew : vis (K.new me) = false) : K.Tallied me vis (Hash.empty : Hash n) := by
  have hnone : K.shown me vis (Hash.empty : Hash n) = ∅ := by
    ext a
    simp [shown, bodyAt, hheap, hnew]
  refine ⟨by rw [hnone]; exact Set.finite_empty, ?_⟩
  rw [hnone, Set.ncard_empty]
  rfl

theorem Tallied.same (ht : K.Tallied me vis h) (hs : K.Same me h h') : K.Tallied me vis h' := by
  have hshown : K.shown me vis h' = K.shown me vis h := by
    unfold shown
    rw [hs.body]
  exact ⟨by rw [hshown]; exact ht.finite, by rw [hs.len, hshown]; exact ht.len⟩

/-- The number of elements of a set after one may have come or gone. -/
theorem ncard_update {s : Set String} (hs : s.Finite) {a : String} {was now : Bool}
    {s' : Set String} (hwas : a ∈ s ↔ was = true) (hnow : a ∈ s' ↔ now = true)
    (hrest : ∀ b, b ≠ a → (b ∈ s' ↔ b ∈ s)) :
    s'.Finite ∧ (s'.ncard : ℤ) = s.ncard + (weight now - weight was) := by
  have hsub : s' ⊆ insert a s := by
    intro b hb
    by_cases hba : b = a
    · exact Or.inl hba
    · exact Or.inr ((hrest b hba).mp hb)
  refine ⟨(hs.insert a).subset hsub, ?_⟩
  cases hw : was <;> cases hn : now <;> rw [hw] at hwas <;> rw [hn] at hnow <;>
    simp only [Bool.false_eq_true, iff_false, iff_true] at hwas hnow
  · have heq : s' = s := by
      ext b
      by_cases hba : b = a
      · rw [hba]
        exact iff_of_false hnow hwas
      · exact hrest b hba
    rw [heq]
    simp
  · have heq : s' = insert a s := by
      ext b
      by_cases hba : b = a
      · rw [hba]
        exact iff_of_true hnow (Set.mem_insert a s)
      · rw [hrest b hba, Set.mem_insert_iff, or_iff_right hba]
    rw [heq, Set.ncard_insert_of_notMem hwas hs]
    simp [weight]
  · have heq : s = insert a s' := by
      ext b
      by_cases hba : b = a
      · rw [hba]
        exact iff_of_true hwas (Set.mem_insert a s')
      · rw [← hrest b hba, Set.mem_insert_iff, or_iff_right hba]
    rw [heq, Set.ncard_insert_of_notMem hnow ((hs.insert a).subset hsub)]
    simp [weight]
  · have heq : s' = s := by
      ext b
      by_cases hba : b = a
      · rw [hba]
        exact iff_of_true hnow hwas
      · exact hrest b hba
    rw [heq]
    simp

theorem Tallied.written {a : String} {f : E → E} (ht : K.Tallied me vis h)
    (hw : K.Written me vis h a f h') : K.Tallied me vis h' := by
  have hwas : a ∈ K.shown me vis h ↔ vis (K.bodyAt me h a) = true := Iff.rfl
  have hnow : a ∈ K.shown me vis h' ↔ vis (f (K.bodyAt me h a)) = true := by
    show vis (K.bodyAt me h' a) = true ↔ _
    rw [hw.body, Function.update_self]
  have hrest : ∀ b, b ≠ a → (b ∈ K.shown me vis h' ↔ b ∈ K.shown me vis h) := by
    intro b hb
    show vis (K.bodyAt me h' b) = true ↔ vis (K.bodyAt me h b) = true
    rw [hw.body, Function.update_of_ne hb]
  obtain ⟨hfin, hcard⟩ := ncard_update ht.finite hwas hnow hrest
  refine ⟨hfin, ?_⟩
  rw [hw.len, ht.len, hcard]
  rfl

/-- The length, counted along a chain that has every visible record. -/
theorem Tallied.filter (ht : K.Tallied me vis h) {l : List String} (hnodup : l.Nodup)
    (hmem : ∀ a, vis (K.bodyAt me h a) = true → a ∈ l) :
    getLen h = some ((l.filter fun a => vis (K.bodyAt me h a)).length : ℤ) := by
  have hset : K.shown me vis h = ↑(l.filter fun a => vis (K.bodyAt me h a)).toFinset := by
    ext a
    rw [Finset.mem_coe, List.mem_toFinset, List.mem_filter]
    exact ⟨fun ha => ⟨hmem a ha, ha⟩, fun ha => ha.2⟩
  rw [ht.len, hset, Set.ncard_coe_finset, List.toFinset_card_of_nodup (hnodup.filter _)]

end ListKind

end CrdtRedis
