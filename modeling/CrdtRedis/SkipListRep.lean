/-
What a skip list holds, and that its functions keep it.

`Rep z ok l` says that the nodes of `z` are the row `l`: every pointer
forward leads to the next node that is tall enough, every pointer back to
the node before, and the row ascends. Where `ok` holds the spans are right
as well; only they depend on the row being shorter than 2^32, the range of
the ranks in `zslInsert`.

# How the functions are followed

A list is seen through three readings: the part of a node that is written
once (`stemAt`), its pointer back, and its levels (`levelAt`). The loops
over the levels write one level per round, so the rounds do not meet
(`forLevels_spec`). A search ends, on each level, at the last node that
comes before what is looked for and stands on that level (`Tower.Last`);
this is all an insert or a deletion needs to know of `update`.
-/
import CrdtRedis.SkipList
import CrdtRedis.Data.Tower

namespace CrdtRedis

set_option linter.unusedSectionVars false

variable {S : Type} [LinearOrder S] [Zero S]

open Tower

-- ========================================================== the order

/-- `memcmp` and the lengths, as the order of lists. -/
theorem memcmp_then (s t : List Char) :
    (memcmp s t).then (compare s.length t.length)
      = if s < t then .lt else if t < s then .gt else .eq := by
  induction s generalizing t with
  | nil => cases t <;> simp [memcmp, Nat.compare_eq_lt.mpr]
  | cons a s ih =>
      cases t with
      | nil => simp [memcmp, Nat.compare_eq_gt.mpr]
      | cons b t =>
          rw [memcmp]
          by_cases hab : a < b
          · simp [hab, List.cons_lt_cons_iff]
          · by_cases hba : b < a
            · have hne : a ≠ b := fun h => hab (h ▸ hba)
              simp [hab, hba, hne, hne.symm, List.cons_lt_cons_iff]
            · obtain rfl : a = b := le_antisymm (not_lt.mp hba) (not_lt.mp hab)
              have hlen : compare (a :: s).length (a :: t).length
                  = compare s.length t.length := by simp [compare, compareOfLessAndEq]
              rw [if_neg hab, if_neg hab, hlen, ih t]
              simp

theorem sdscmp_eq (s1 s2 : String) :
    sdscmp s1 s2 = if s1 < s2 then .lt else if s2 < s1 then .gt else .eq := by
  rw [sdscmp, ← String.length_toList, ← String.length_toList, memcmp_then]
  simp only [String.lt_iff_toList_lt]

theorem sdscmp_lt {s1 s2 : String} : (sdscmp s1 s2 == .lt) = decide (s1 < s2) := by
  rw [sdscmp_eq]
  split_ifs with h h' <;> simp [h]

theorem sdscmp_le {s1 s2 : String} : (sdscmp s1 s2 != .gt) = decide (s1 ≤ s2) := by
  rw [sdscmp_eq]
  split_ifs with h h'
  · simp [h.le]
  · simp [h']
  · simp [not_lt.mp h']

theorem sdscmp_same {s1 s2 : String} : (sdscmp s1 s2 == .eq) = decide (s1 = s2) := by
  rw [sdscmp_eq]
  split_ifs with h h'
  · simp [h.ne]
  · simp [h'.ne']
  · simp [le_antisymm (not_lt.mp h') (not_lt.mp h)]

-- =========================================================== readings

/-- The part of a node that linking does not write. -/
def ZskiplistNode.stem (nd : ZskiplistNode S) : Option String × S × ℕ :=
  (nd.ele, nd.score, nd.level.length)

namespace Zskiplist

def stemAt (z : Zskiplist S) (x : ℕ) : Option (Option String × S × ℕ) := (z.node x).map (·.stem)

def backAt (z : Zskiplist S) (x : ℕ) : Option (Option ℕ) := (z.node x).map (·.backward)

/-- `z'` has the nodes of `z`, up to their pointers. -/
structure Frame (z z' : Zskiplist S) : Prop where
  stem : ∀ a, z'.stemAt a = z.stemAt a
  header : z'.header = z.header
  level : z'.level = z.level
  allocs : z'.allocs = z.allocs

/-- `z'` is `z` up to the levels of the nodes. -/
structure Same (z z' : Zskiplist S) : Prop extends Frame z z' where
  back : ∀ a, z'.backAt a = z.backAt a
  tail : z'.tail = z.tail
  length : z'.length = z.length

variable {z z' z₁ z₂ : Zskiplist S} {x i : ℕ} {lv : ZskiplistLevel}

theorem Frame.trans (h : z.Frame z₁) (h' : z₁.Frame z₂) : z.Frame z₂ :=
  ⟨fun a => (h'.stem a).trans (h.stem a), h'.header.trans h.header, h'.level.trans h.level,
    h'.allocs.trans h.allocs⟩

theorem Same.refl (z : Zskiplist S) : z.Same z :=
  ⟨⟨fun _ => rfl, rfl, rfl, rfl⟩, fun _ => rfl, rfl, rfl⟩

theorem Same.trans (h : z.Same z₁) (h' : z₁.Same z₂) : z.Same z₂ :=
  ⟨h.toFrame.trans h'.toFrame, fun a => (h'.back a).trans (h.back a), h'.tail.trans h.tail,
    h'.length.trans h.length⟩

theorem node_of_stemAt {s : Option String × S × ℕ} (h : z.stemAt x = some s) :
    ∃ nd, z.node x = some nd ∧ nd.stem = s := Option.map_eq_some_iff.mp h

/-- A node has the levels its stem tells of. -/
theorem levelAt_isSome {s : Option String × S × ℕ} (h : z.stemAt x = some s) :
    (z.levelAt x i).isSome ↔ i < s.2.2 := by
  obtain ⟨nd, hnd, rfl⟩ := node_of_stemAt h
  simp [levelAt, hnd, ZskiplistNode.stem]

/-- A write to one level of one node. -/
theorem setLevel_spec (h : (z.levelAt x i).isSome) (lv : ZskiplistLevel) :
    ∃ z', z.setLevel x i lv = some z' ∧ z.Same z' ∧
      ∀ a j, z'.levelAt a j = if a = x ∧ j = i then some lv else z.levelAt a j := by
  obtain ⟨lv₀, hlv⟩ := Option.isSome_iff_exists.mp h
  obtain ⟨nd, hnd, hget⟩ := Option.bind_eq_some_iff.mp hlv
  have hi : i < nd.level.length := (List.getElem?_eq_some_iff.mp hget).1
  refine ⟨{ z with
    node := Function.update z.node x (some { nd with level := nd.level.set i lv }) }, ?_, ?_, ?_⟩
  · simp [setLevel, hlv, modify, hnd]
  · refine ⟨⟨fun a => ?_, rfl, rfl, rfl⟩, fun a => ?_, rfl, rfl⟩
    · by_cases ha : a = x
      · subst ha
        simp [stemAt, hnd, ZskiplistNode.stem]
      · simp [stemAt, Function.update_of_ne ha]
    · by_cases ha : a = x
      · subst ha
        simp [backAt, hnd]
      · simp [backAt, Function.update_of_ne ha]
  · intro a j
    by_cases ha : a = x
    · subst ha
      simp only [levelAt, Function.update_self, Option.bind_some, hnd, List.getElem?_set, hi,
        true_and, if_true]
      by_cases hj : j = i
      · subst hj
        simp
      · rw [if_neg hj, if_neg (Ne.symm hj)]
    · simp [levelAt, ha]

/-- Level `i` of all nodes. -/
def row (z : Zskiplist S) (i : ℕ) : ℕ → Option ZskiplistLevel := fun a => z.levelAt a i

/-- `z'` is `z` up to pointers back, `tail` and `length`. -/
structure Kept (z z' : Zskiplist S) : Prop extends Frame z z' where
  row : ∀ i, z'.row i = z.row i

theorem Kept.trans (h : z.Kept z₁) (h' : z₁.Kept z₂) : z.Kept z₂ :=
  ⟨h.toFrame.trans h'.toFrame, fun i => (h'.row i).trans (h.row i)⟩

/-- A write to the pointer back of a node. -/
theorem setBack_spec {s : Option String × S × ℕ} (h : z.stemAt x = some s) (b : Option ℕ) :
    ∃ z', z.modify x (fun nd => { nd with backward := b }) = some z' ∧ z.Kept z' ∧
      (∀ a, z'.backAt a = if a = x then some b else z.backAt a) ∧
      z'.tail = z.tail ∧ z'.length = z.length := by
  obtain ⟨nd, hnd, -⟩ := node_of_stemAt h
  refine ⟨{ z with node := Function.update z.node x (some { nd with backward := b }) },
    by simp [modify, hnd], ⟨⟨fun a => ?_, rfl, rfl, rfl⟩, fun j => funext fun a => ?_⟩,
    fun a => ?_, rfl, rfl⟩
  · by_cases ha : a = x
    · subst ha
      simp [stemAt, hnd, ZskiplistNode.stem]
    · simp [stemAt, Function.update_of_ne ha]
  · by_cases ha : a = x
    · subst ha
      simp [row, levelAt, hnd]
    · simp [row, levelAt, Function.update_of_ne ha]
  · by_cases ha : a = x
    · subst ha
      simp [backAt]
    · simp [backAt, ha]

-- ============================================== loops over the levels

/-- A loop whose round for level `i` gives that level the property `R i`,
given the level as it was before the loop, and leaves the others alone. -/
theorem forLevels_spec (lo hi : ℕ) (step : ℕ → Zskiplist S → Option (Zskiplist S))
    (R : ℕ → (ℕ → Option ZskiplistLevel) → Prop)
    (hstep : ∀ i, lo ≤ i → i < hi → ∀ z₁, z.Same z₁ → z₁.row i = z.row i →
      ∃ z₂, step i z₁ = some z₂ ∧ z₁.Same z₂ ∧ R i (z₂.row i) ∧
        ∀ j, j ≠ i → z₂.row j = z₁.row j) :
    ∃ z', forLevels lo hi step z = some z' ∧ z.Same z' ∧
      (∀ i, lo ≤ i → i < hi → R i (z'.row i)) ∧
      ∀ i, i < lo ∨ hi ≤ i → z'.row i = z.row i := by
  unfold forLevels
  obtain ⟨k, hk⟩ : ∃ k, hi - lo = k := ⟨_, rfl⟩
  rw [hk]
  induction k generalizing lo z with
  | zero => exact ⟨z, rfl, .refl z, fun i hlo hhi => by omega, fun i _ => rfl⟩
  | succ k ih =>
      obtain ⟨z₁, hz₁, hsame₁, hrow, hothers⟩ :=
        hstep lo (Nat.le_refl lo) (by omega) z (.refl z) rfl
      have hnext : ∀ i, lo + 1 ≤ i → i < hi → ∀ z₂, z₁.Same z₂ → z₂.row i = z₁.row i →
          ∃ z₃, step i z₂ = some z₃ ∧ z₂.Same z₃ ∧ R i (z₃.row i) ∧
            ∀ j, j ≠ i → z₃.row j = z₂.row j := by
        intro i hlo hhi z₂ hsame heq
        refine hstep i (by omega) hhi z₂ (hsame₁.trans hsame) ?_
        rw [heq, hothers i (by omega)]
      obtain ⟨z', hz', hsame, hrows, hkept⟩ := ih (lo + 1) hnext (by omega)
      refine ⟨z', ?_, hsame₁.trans hsame, fun i hlo hhi => ?_, fun i hi' => ?_⟩
      · rw [List.range'_succ, List.foldlM_cons]
        show (step lo z).bind _ = _
        rw [hz₁]
        exact hz'
      · by_cases heq : i = lo
        · subst heq
          rw [hkept i (.inl (Nat.lt_succ_self i))]
          exact hrow
        · exact hrows i (by omega) hhi
      · rw [hkept i (by omega), hothers i (by omega)]

/-- A write to one level of one node, by the levels of all nodes. -/
theorem setLevel_row (h : (z.row i x).isSome) (lv : ZskiplistLevel) :
    ∃ z', z.setLevel x i lv = some z' ∧ z.Same z' ∧
      z'.row i = Function.update (z.row i) x (some lv) ∧ ∀ j, j ≠ i → z'.row j = z.row j := by
  obtain ⟨z', hz', hsame, hlv⟩ := setLevel_spec h lv
  refine ⟨z', hz', hsame, ?_, fun j hj => ?_⟩
  · funext a
    show z'.levelAt a i = _
    rw [hlv, Function.update_apply]
    simp [row]
  · funext a
    show z'.levelAt a j = _
    rw [hlv, if_neg fun hcon => hj hcon.2]
    rfl

end Zskiplist

-- ============================================================ the row

/-- A node of the row, without its pointers. -/
structure Cell (S : Type) where
  addr : ℕ
  height : ℕ
  score : S
  ele : String
deriving DecidableEq, Repr

/-- What the row ascends by. -/
def Cell.key (c : Cell S) : S ×ₗ String := toLex (c.score, c.ele)

namespace Zskiplist

/-- The header, as the place before the row. -/
def top (z : Zskiplist S) : Cell S := ⟨z.header, zskiplistMaxlevel, 0, ""⟩

/-- Level `i` of the places `cells` is `row`: the pointers forward, and the
spans where `ok` holds. -/
def LinkedRow (ok : Prop) (cells : List (Cell S)) (i : ℕ) (row : ℕ → Option ZskiplistLevel) :
    Prop :=
  ∀ p c q, cells = p ++ c :: q → i < c.height →
    ∃ s, row c.addr = some ⟨(ahead Cell.height i q).map Cell.addr, s⟩ ∧
      (ok → s = UInt64.ofNat (gap Cell.height i q))

/-- The levels of the places `cells`; spans count on the levels in use. -/
def Linked (z : Zskiplist S) (ok : Prop) (cells : List (Cell S)) : Prop :=
  ∀ i, LinkedRow (ok ∧ i < z.level) cells i (z.row i)

/-- The pointers back of the nodes `l`. -/
def Backs (z : Zskiplist S) (l : List (Cell S)) : Prop :=
  ∀ p c q, l = p ++ c :: q → z.backAt c.addr = some (p.getLast?.map Cell.addr)

/-- The nodes `l`, apart from their pointers. -/
structure Nodes (z : Zskiplist S) (l : List (Cell S)) : Prop where
  header : z.stemAt z.header = some (none, 0, zskiplistMaxlevel)
  stem : ∀ c ∈ l, z.stemAt c.addr = some (some c.ele, c.score, c.height)
  nodup : ((z.top :: l).map Cell.addr).Nodup
  fresh : ∀ c ∈ z.top :: l, c.addr < z.allocs
  few : l.length < z.allocs
  heights : ∀ c ∈ l, 0 < c.height ∧ c.height ≤ z.level
  level : 0 < z.level ∧ z.level ≤ zskiplistMaxlevel

/-- The list holds the row `l`. -/
structure Rep (z : Zskiplist S) (ok : Prop) (l : List (Cell S)) : Prop where
  nodes : z.Nodes l
  linked : z.Linked ok (z.top :: l)
  backs : z.Backs l
  tail : z.tail = l.getLast?.map Cell.addr
  length : z.length = UInt64.ofNat l.length
  sorted : l.Pairwise fun c d => c.key < d.key

-- ========================================================= the search

/-- The walks go over the nodes `pre` and stop at those of `post`; `acc k`
is what the walks add up on the way to place `k`. -/
structure Passes {A : Type} (z : Zskiplist S) (ok : Prop) (add : A → UInt64 → A)
    (go : A → ZskiplistNode S → Bool) (acc : ℕ → A) (pre post : List (Cell S)) : Prop where
  add : ∀ k m, add (acc k) (UInt64.ofNat m) = acc (k + m)
  pass : ∀ p c q r nd, pre = p ++ c :: q → z.node c.addr = some nd →
    (ok → r = acc (p.length + 1)) → go r nd = true
  stop : ∀ p c q r nd, post = p ++ c :: q → z.node c.addr = some nd →
    (ok → r = acc (pre.length + p.length + 1)) → go r nd = false

variable {A : Type} {z : Zskiplist S} {ok : Prop} {add : A → UInt64 → A}
  {go : A → ZskiplistNode S → Bool} {acc : ℕ → A} {l pre post : List (Cell S)} {i : ℕ}

theorem before_eq {nd : ZskiplistNode S} {c : Cell S}
    (h : nd.stem = (some c.ele, c.score, c.height)) (score : S) (ele : String) :
    nd.before score ele = decide (c.key < toLex (score, ele)) := by
  obtain ⟨he, hs, -⟩ : nd.ele = some c.ele ∧ nd.score = c.score ∧ _ := by
    simpa [ZskiplistNode.stem] using h
  rw [ZskiplistNode.before, he, hs, Option.any_some, sdscmp_lt, Bool.eq_iff_iff]
  simp only [Cell.key, Prod.Lex.toLex_lt_toLex, Bool.or_eq_true, Bool.and_eq_true, beq_iff_eq,
    decide_eq_true_eq]

theorem upTo_eq {nd : ZskiplistNode S} {c : Cell S}
    (h : nd.stem = (some c.ele, c.score, c.height)) (score : S) (ele : String) :
    nd.upTo score ele = decide (c.key ≤ toLex (score, ele)) := by
  obtain ⟨he, hs, -⟩ : nd.ele = some c.ele ∧ nd.score = c.score ∧ _ := by
    simpa [ZskiplistNode.stem] using h
  rw [ZskiplistNode.upTo, he, hs, Option.any_some, sdscmp_le, Bool.eq_iff_iff]
  simp only [Cell.key, Prod.Lex.toLex_le_toLex, Bool.or_eq_true, Bool.and_eq_true, beq_iff_eq,
    decide_eq_true_eq]

theorem Nodes.node_exists (h : z.Nodes l) {c : Cell S} (hc : c ∈ l) :
    ∃ nd, z.node c.addr = some nd ∧ nd.stem = (some c.ele, c.score, c.height) :=
  node_of_stemAt (h.stem c hc)

/-- A walk on level `i` ends at the last place of that level before
`post`. -/
theorem walk_spec (hnodes : z.Nodes (pre ++ post)) (hlinked : z.Linked ok (z.top :: (pre ++ post)))
    (hp : z.Passes ok add go acc pre post) (hi : i < z.level) {fuel : ℕ} {p q : List (Cell S)}
    {c : Cell S} {r : A} (hsplit : z.top :: pre = p ++ c :: q) (hc : i < c.height)
    (hfuel : q.length < fuel) (hr : ok → r = acc p.length) :
    ∃ p' c' r', z.walk add go i fuel c.addr r = some (c'.addr, r') ∧
      Last Cell.height i (z.top :: pre) p' c' ∧ (ok → r' = acc p'.length) := by
  induction fuel generalizing p c q r with
  | zero => omega
  | succ fuel ih =>
      have hall : z.top :: (pre ++ post) = p ++ c :: (q ++ post) := by
        rw [← List.cons_append, hsplit, List.append_assoc, List.cons_append]
      obtain ⟨s, hlv, hspan⟩ := hlinked i p c (q ++ post) hall hc
      change z.levelAt c.addr i = _ at hlv
      by_cases hlow : Low Cell.height i q
      · -- no place of this level is left before `post`
        have hlast : Last Cell.height i (z.top :: pre) p c := ⟨⟨q, hsplit, hlow⟩, hc⟩
        rw [hlow.ahead_append] at hlv
        by_cases hlow' : Low Cell.height i post
        · rw [hlow'.ahead_eq_none] at hlv
          exact ⟨p, c, r, by simp [walk, hlv], hlast, hr⟩
        · obtain ⟨p₂, d, q₂, hpost, hp₂, hd⟩ := split_of_not_low hlow'
          have hdmem : d ∈ pre ++ post := by rw [hpost]; simp
          obtain ⟨nd, hnd, -⟩ := hnodes.node_exists hdmem
          have hlen : pre.length = p.length + q.length := by
            have := congrArg List.length hsplit
            simp at this
            omega
          have hstop : go (add r s) nd = false := by
            refine hp.stop p₂ d q₂ _ nd hpost hnd fun hok => ?_
            rw [hr hok, hspan ⟨hok, hi⟩, hp.add, hlow.gap_append, hpost, hp₂.gap_append,
              gap_cons_of_lt hd, hlen]
            congr 1
            omega
          rw [hpost, hp₂.ahead_append, ahead_cons_of_lt hd] at hlv
          exact ⟨p, c, r, by simp [walk, hlv, hnd, hstop], hlast, hr⟩
      · obtain ⟨q₁, d, q₂, rfl, hq₁, hd⟩ := split_of_not_low hlow
        have hpre : pre = (p ++ c :: q₁).tail ++ d :: q₂ := by
          have := congrArg List.tail hsplit
          cases p <;> simpa using this
        have hdmem : d ∈ pre ++ post := by rw [hpre]; simp
        obtain ⟨nd, hnd, -⟩ := hnodes.node_exists hdmem
        rw [List.append_assoc, hq₁.ahead_append, List.cons_append, ahead_cons_of_lt hd] at hlv
        have hr' : ok → add r s = acc (p ++ c :: q₁).length := by
          intro hok
          rw [hr hok, hspan ⟨hok, hi⟩, hp.add, List.append_assoc, hq₁.gap_append, List.cons_append,
            gap_cons_of_lt hd]
          simp
        have hgo : go (add r s) nd = true := by
          refine hp.pass _ d q₂ _ nd hpre hnd fun hok => ?_
          rw [hr' hok]
          congr 1
          cases p <;> simp
        have hnext := ih (p := p ++ c :: q₁) (c := d) (q := q₂) (r := add r s)
          (by rw [hsplit]; simp) hd (by simp at hfuel; omega) hr'
        simpa [walk, hlv, hnd, hgo] using hnext

/-- The nodes that a search passes are fewer than the rounds it has. -/
theorem Nodes.fuel (hnodes : z.Nodes (pre ++ post)) {p q : List (Cell S)} {c : Cell S}
    (hsplit : z.top :: pre = p ++ c :: q) : q.length < z.allocs + 1 := by
  have hlen := congrArg List.length hsplit
  have hfew := hnodes.few
  simp only [List.length_cons, List.length_append] at hlen hfew
  omega

/-- What a search leaves in `update` and `rank`. -/
theorem descend_spec (hnodes : z.Nodes (pre ++ post))
    (hlinked : z.Linked ok (z.top :: (pre ++ post))) (hp : z.Passes ok add go acc pre post)
    {k : ℕ} (hk : k ≤ z.level) {p q : List (Cell S)} {c : Cell S} {r : A}
    (hsplit : z.top :: pre = p ++ c :: q) (hc : k ≤ c.height) (hr : ok → r = acc p.length) :
    ∃ us, z.descend add go k c.addr r = some us ∧ us.length = k ∧
      ∀ i, i < k → ∃ p' c' r', us[i]? = some (c'.addr, r') ∧
        Last Cell.height i (z.top :: pre) p' c' ∧ (ok → r' = acc p'.length) := by
  induction k generalizing p c q r with
  | zero => exact ⟨[], rfl, rfl, fun i hi => absurd hi (Nat.not_lt_zero i)⟩
  | succ k ih =>
      obtain ⟨p', c', r', hwalk, hlast, hr'⟩ :=
        walk_spec hnodes hlinked hp (i := k) hk hsplit hc (hnodes.fuel hsplit) hr
      obtain ⟨q', hsplit', hlow⟩ := hlast.split
      obtain ⟨us, hus, hlen, hrows⟩ :=
        ih (Nat.le_of_succ_le hk) hsplit' (Nat.le_of_lt hlast.tall) hr'
      refine ⟨us ++ [(c'.addr, r')], by simp [descend, hwalk, hus], by simp [hlen], ?_⟩
      intro i hi
      by_cases hik : i < k
      · obtain ⟨p₁, c₁, r₁, hget, hlast₁, hr₁⟩ := hrows i hik
        refine ⟨p₁, c₁, r₁, ?_, hlast₁, hr₁⟩
        rw [List.getElem?_append_left (by omega), hget]
      · obtain rfl : i = k := by omega
        refine ⟨p', c', r', ?_, hlast, hr'⟩
        rw [List.getElem?_append_right (by omega), hlen]
        simp

/-- A search for place `k`: it finds it if that is the last place before
`post`, and nothing if it is further. -/
theorem seek_spec (hnodes : z.Nodes (pre ++ post))
    (hlinked : z.Linked ok (z.top :: (pre ++ post))) (hp : z.Passes ok add go acc pre post)
    (found : ZskiplistNode S → A → Bool) (k : ℕ)
    (hfound : ∀ p c q nd r, z.top :: pre = p ++ c :: q → z.node c.addr = some nd →
      (ok → r = acc p.length) → found nd r = decide (p.length = k))
    {j : ℕ} (hj : j ≤ z.level) {p q : List (Cell S)} {c : Cell S} {r : A}
    (hsplit : z.top :: pre = p ++ c :: q) (hc : j ≤ c.height) (hr : ok → r = acc p.length)
    (hlong : pre.length ≤ k) (hq : j = 0 → q = [] ∧ p.length ≠ k) :
    ∃ o, z.seek add go found j c.addr r = some o ∧
      (pre.length = k → ∃ p' c' r', z.top :: pre = p' ++ [c'] ∧ o = some (c'.addr, r') ∧
        (ok → r' = acc k)) ∧
      (pre.length < k → o = none) := by
  induction j generalizing p c q r with
  | zero =>
      obtain ⟨rfl, hpk⟩ := hq rfl
      refine ⟨none, rfl, fun hlen => ?_, fun _ => rfl⟩
      have := congrArg List.length hsplit
      simp at this
      omega
  | succ j ih =>
      obtain ⟨p', c', r', hwalk, hlast, hr'⟩ :=
        walk_spec hnodes hlinked hp (i := j) hj hsplit hc (hnodes.fuel hsplit) hr
      obtain ⟨q', hsplit', hlow⟩ := hlast.split
      have hlen := congrArg List.length hsplit'
      simp only [List.length_cons, List.length_append] at hlen
      obtain ⟨nd, hnd⟩ : ∃ nd, z.node c'.addr = some nd := by
        cases p' with
        | nil =>
            obtain ⟨rfl, -⟩ := List.cons.inj hsplit'
            exact (node_of_stemAt hnodes.header).imp fun nd h => h.1
        | cons a p' =>
            obtain ⟨-, rfl⟩ := List.cons.inj hsplit'
            exact (hnodes.node_exists (by simp)).imp fun nd h => h.1
      have hf := hfound p' c' q' nd r' hsplit' hnd hr'
      by_cases hpk : p'.length = k
      · -- the place is found, so it is the last one
        have hq' : q' = [] := List.length_eq_zero_iff.mp (by omega)
        subst hq'
        refine ⟨some (c'.addr, r'), by simp [seek, hwalk, hnd, hf, hpk], fun _ => ?_, fun hlt => ?_⟩
        · exact ⟨p', c', r', hsplit', rfl, fun hok => by rw [hr' hok, hpk]⟩
        · simp at hlen
          omega
      · have hbottom : j = 0 → q' = [] ∧ p'.length ≠ k := by
          rintro rfl
          refine ⟨List.eq_nil_iff_forall_not_mem.mpr fun d hd => ?_, hpk⟩
          have hdl : d ∈ pre ++ post := by
            cases p' with
            | nil =>
                obtain ⟨-, rfl⟩ := List.cons.inj hsplit'
                simp [hd]
            | cons a p' =>
                obtain ⟨-, rfl⟩ := List.cons.inj hsplit'
                simp [hd]
          have := (hnodes.heights d hdl).1
          have := hlow d hd
          omega
        obtain ⟨o, ho, hpos, hneg⟩ :=
          ih (Nat.le_of_succ_le hj) hsplit' (Nat.le_of_lt hlast.tall) hr' hbottom
        exact ⟨o, by simpa [seek, hwalk, hnd, hf, hpk] using ho, hpos, hneg⟩

-- ===================================================== one level

section Row

variable {row : ℕ → Option ZskiplistLevel} {P p₀ q₀ : List (Cell S)} {x u : Cell S}
  {lv lx : ZskiplistLevel} {s s' : UInt64}

/-- Places that do not notice that `x` was put behind `P`: all but `x` and
the last one of the level before it. -/
theorem LinkedRow.insert_elsewhere (h : LinkedRow ok (P ++ post) i row)
    (hlast : Last Cell.height i P p₀ u) {p q : List (Cell S)} {c : Cell S}
    (hc : P ++ x :: post = p ++ c :: q) (hi : i < c.height) (hcu : c.addr ≠ u.addr)
    (hcx : c.addr ≠ x.addr) :
    ∃ s, row c.addr = some ⟨(ahead Cell.height i q).map Cell.addr, s⟩ ∧
      (ok → s = UInt64.ofNat (gap Cell.height i q)) := by
  rcases split_insert hc with ⟨q', hP, rfl⟩ | ⟨-, rfl, -⟩ | ⟨p', hpost, -⟩
  · have hlow : ¬ Low Cell.height i q' :=
      fun hlow => hcu (congrArg Cell.addr (Last.unique ⟨⟨q', hP, hlow⟩, hi⟩ hlast).2)
    have hold := h p c (q' ++ post) (by simp [hP]) hi
    rwa [ahead_append_of_not_low hlow, gap_append_of_not_low hlow] at hold ⊢
  · exact absurd rfl hcx
  · exact h (P ++ p') c q (by simp [hpost]) hi

/-- The same when it is taken out. -/
theorem LinkedRow.erase_elsewhere (h : LinkedRow ok (P ++ x :: post) i row)
    (hlast : Last Cell.height i P p₀ u) {p q : List (Cell S)} {c : Cell S}
    (hc : P ++ post = p ++ c :: q) (hi : i < c.height) (hcu : c.addr ≠ u.addr) :
    ∃ s, row c.addr = some ⟨(ahead Cell.height i q).map Cell.addr, s⟩ ∧
      (ok → s = UInt64.ofNat (gap Cell.height i q)) := by
  rcases split_append hc with ⟨q', hP, rfl⟩ | ⟨p', hpost, -⟩
  · have hlow : ¬ Low Cell.height i q' :=
      fun hlow => hcu (congrArg Cell.addr (Last.unique ⟨⟨q', hP, hlow⟩, hi⟩ hlast).2)
    have hold := h p c (q' ++ x :: post) (by simp [hP]) hi
    rwa [ahead_append_of_not_low hlow, gap_append_of_not_low hlow] at hold ⊢
  · exact h (P ++ x :: p') c q (by simp [hpost]) hi

/-- Node `x` goes behind `u` on a level it has. -/
theorem LinkedRow.link (h : LinkedRow ok (P ++ post) i row)
    (hnd : ((P ++ x :: post).map Cell.addr).Nodup) (hP : P = p₀ ++ u :: q₀)
    (hlow : Low Cell.height i q₀) (hu : i < u.height) (hlv : row u.addr = some lv)
    (hx : i < x.height) (hs : ok → s = UInt64.ofNat q₀.length)
    (hs' : ok → s' = UInt64.ofNat (q₀.length + 1)) :
    LinkedRow ok (P ++ x :: post) i (Function.update
      (Function.update row x.addr (some ⟨lv.forward, lv.span - s⟩))
      u.addr (some ⟨some x.addr, s'⟩)) := by
  have hwhole : P ++ x :: post = p₀ ++ u :: (q₀ ++ x :: post) := by simp [hP]
  obtain ⟨t, ht, hspan⟩ := h p₀ u (q₀ ++ post) (by simp [hP]) hu
  obtain rfl := Option.some.inj (hlv.symm.trans ht)
  intro p c q hc hi
  by_cases hcu : c.addr = u.addr
  · obtain ⟨rfl, rfl, rfl⟩ := split_unique hnd hc hwhole hcu
    refine ⟨s', ?_, fun hok => ?_⟩
    · rw [Function.update_self, hlow.ahead_append, ahead_cons_of_lt hx]
      rfl
    · rw [hs' hok, hlow.gap_append, gap_cons_of_lt hx]
  · rw [Function.update_of_ne hcu]
    by_cases hcx : c.addr = x.addr
    · obtain ⟨rfl, rfl, rfl⟩ := split_unique hnd hc rfl hcx
      refine ⟨t - s, ?_, fun hok => ?_⟩
      · rw [Function.update_self, hlow.ahead_append]
      · rw [hspan hok, hs hok, hlow.gap_append, UInt64.ofNat_add]
        grind
    · rw [Function.update_of_ne hcx]
      exact h.insert_elsewhere ⟨⟨q₀, hP, hlow⟩, hu⟩ hc hi hcu hcx

/-- Node `x` goes in under `u`, on a level it does not have. -/
theorem LinkedRow.pass (h : LinkedRow ok (P ++ post) i row)
    (hnd : ((P ++ x :: post).map Cell.addr).Nodup) (hP : P = p₀ ++ u :: q₀)
    (hlow : Low Cell.height i q₀) (hu : i < u.height) (hlv : row u.addr = some lv)
    (hx : x.height ≤ i) :
    LinkedRow ok (P ++ x :: post) i
      (Function.update row u.addr (some ⟨lv.forward, lv.span + 1⟩)) := by
  have hwhole : P ++ x :: post = p₀ ++ u :: (q₀ ++ x :: post) := by simp [hP]
  obtain ⟨t, ht, hspan⟩ := h p₀ u (q₀ ++ post) (by simp [hP]) hu
  obtain rfl := Option.some.inj (hlv.symm.trans ht)
  intro p c q hc hi
  by_cases hcu : c.addr = u.addr
  · obtain ⟨rfl, rfl, rfl⟩ := split_unique hnd hc hwhole hcu
    refine ⟨t + 1, ?_, fun hok => ?_⟩
    · rw [Function.update_self, hlow.ahead_append, hlow.ahead_append, ahead_cons_of_le hx]
    · rw [hspan hok, hlow.gap_append, hlow.gap_append, gap_cons_of_le hx, ← Nat.add_assoc,
        UInt64.ofNat_add (_ + _) 1]
      rfl
  · rw [Function.update_of_ne hcu]
    refine h.insert_elsewhere ⟨⟨q₀, hP, hlow⟩, hu⟩ hc hi hcu fun hcx => ?_
    obtain ⟨rfl, rfl, rfl⟩ := split_unique hnd hc rfl hcx
    omega

/-- Node `x` is taken out behind `u`, of a level it has. -/
theorem LinkedRow.unlink (h : LinkedRow ok (P ++ x :: post) i row)
    (hnd : ((P ++ x :: post).map Cell.addr).Nodup) (hP : P = p₀ ++ u :: q₀)
    (hlow : Low Cell.height i q₀) (hu : i < u.height) (hlv : row u.addr = some lv)
    (hlx : row x.addr = some lx) (hx : i < x.height) :
    lv.forward = some x.addr ∧ LinkedRow ok (P ++ post) i
      (Function.update row u.addr (some ⟨lx.forward, lv.span + (lx.span - 1)⟩)) := by
  obtain ⟨t, ht, hspan⟩ := h p₀ u (q₀ ++ x :: post) (by simp [hP]) hu
  obtain rfl := Option.some.inj (hlv.symm.trans ht)
  obtain ⟨t', ht', hspan'⟩ := h P x post rfl hx
  obtain rfl := Option.some.inj (hlx.symm.trans ht')
  refine ⟨by rw [hlow.ahead_append, ahead_cons_of_lt hx]; rfl, ?_⟩
  intro p c q hc hi
  have hnd' : ((P ++ post).map Cell.addr).Nodup :=
    hnd.sublist (List.Sublist.map _ (by simp))
  by_cases hcu : c.addr = u.addr
  · obtain ⟨rfl, rfl, rfl⟩ :=
      split_unique hnd' hc (show P ++ post = p₀ ++ u :: (q₀ ++ post) by simp [hP]) hcu
    refine ⟨t + (t' - 1), ?_, fun hok => ?_⟩
    · simp only [Function.update_self, hlow.ahead_append]
    · rw [hspan hok, hspan' hok, hlow.gap_append, hlow.gap_append, gap_cons_of_lt hx,
        UInt64.ofNat_add, UInt64.ofNat_add]
      show UInt64.ofNat q₀.length + 1 + _ = _
      grind
  · rw [Function.update_of_ne hcu]
    exact h.erase_elsewhere ⟨⟨q₀, hP, hlow⟩, hu⟩ hc hi hcu

/-- Node `x` is taken out under `u`, on a level it does not have. -/
theorem LinkedRow.unpass (h : LinkedRow ok (P ++ x :: post) i row)
    (hnd : ((P ++ x :: post).map Cell.addr).Nodup) (hP : P = p₀ ++ u :: q₀)
    (hlow : Low Cell.height i q₀) (hu : i < u.height) (hlv : row u.addr = some lv)
    (hx : x.height ≤ i) :
    lv.forward ≠ some x.addr ∧ LinkedRow ok (P ++ post) i
      (Function.update row u.addr (some ⟨lv.forward, lv.span - 1⟩)) := by
  obtain ⟨t, ht, hspan⟩ := h p₀ u (q₀ ++ x :: post) (by simp [hP]) hu
  obtain rfl := Option.some.inj (hlv.symm.trans ht)
  constructor
  · rw [hlow.ahead_append, ahead_cons_of_le hx]
    intro hcon
    obtain ⟨d, hd, hdx⟩ := Option.map_eq_some_iff.mp hcon
    obtain ⟨p₂, q₂, hpost⟩ := List.append_of_mem (ahead_mem hd).1
    -- two places of one address
    obtain ⟨hlen, -, -⟩ := split_unique hnd
      (show P ++ x :: post = (P ++ x :: p₂) ++ d :: q₂ by simp [hpost]) rfl hdx
    simpa using congrArg List.length hlen
  · intro p c q hc hi
    have hnd' : ((P ++ post).map Cell.addr).Nodup :=
      hnd.sublist (List.Sublist.map _ (by simp))
    by_cases hcu : c.addr = u.addr
    · obtain ⟨rfl, rfl, rfl⟩ :=
        split_unique hnd' hc (show P ++ post = p₀ ++ u :: (q₀ ++ post) by simp [hP]) hcu
      refine ⟨t - 1, ?_, fun hok => ?_⟩
      · rw [Function.update_self, hlow.ahead_append, hlow.ahead_append, ahead_cons_of_le hx]
      · rw [hspan hok, hlow.gap_append, hlow.gap_append, gap_cons_of_le hx, ← Nat.add_assoc,
          UInt64.ofNat_add (_ + _) 1]
        show _ + 1 - 1 = _
        grind
    · rw [Function.update_of_ne hcu]
      exact h.erase_elsewhere ⟨⟨q₀, hP, hlow⟩, hu⟩ hc hi hcu

end Row

end Zskiplist

end CrdtRedis
