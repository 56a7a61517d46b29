/-
The functions of the skip list keep the row: `zslInsert` puts one node in,
`zslDeleteNode` takes one out, `zslUpdateScore` moves one, and
`zslGetRank` and `zslGetElementByRank` count places. In particular none of
them follows a pointer that leads nowhere, whatever levels the nodes were
given.
-/
import CrdtRedis.SkipListRep
import Mathlib.Data.List.TakeWhile

namespace CrdtRedis

set_option linter.unusedSectionVars false

variable {S : Type} [LinearOrder S] [Zero S]

open Tower

namespace Zskiplist

variable {A : Type} {z z' z₁ : Zskiplist S} {ok ok' : Prop} {l pre post : List (Cell S)}
  {x c : Cell S}
  {i : ℕ}

-- ====================================================== what is kept

theorem LinkedRow.mono {row : ℕ → Option ZskiplistLevel} (h : LinkedRow ok l i row)
    (hok : ok' → ok) : LinkedRow ok' l i row := by
  intro p c q hc hi
  obtain ⟨s, hs, hspan⟩ := h p c q hc hi
  exact ⟨s, hs, fun h' => hspan (hok h')⟩

theorem Frame.top (h : z.Frame z') : z'.top = z.top := by
  simp [Zskiplist.top, h.header]

theorem Nodes.frame (h : z.Nodes l) (hs : z.Frame z') : z'.Nodes l := by
  refine ⟨?_, fun c hc => ?_, ?_, fun c hc => ?_, ?_, fun c hc => ?_, ?_⟩
  · rw [hs.header, hs.stem]
    exact h.header
  · rw [hs.stem]
    exact h.stem c hc
  · rw [hs.top]
    exact h.nodup
  · rw [hs.allocs]
    exact h.fresh c (hs.top ▸ hc)
  · rw [hs.allocs]
    exact h.few
  · rw [hs.level]
    exact h.heights c hc
  · rw [hs.level]
    exact h.level

theorem Linked.kept (h : z.Linked ok (z.top :: l)) (hk : z.Kept z') :
    z'.Linked ok (z'.top :: l) := by
  intro i
  rw [hk.top, hk.row, hk.level]
  exact h i

theorem Nodes.low (hnodes : z.Nodes l) (hi : z.level ≤ i) : Low Cell.height i l :=
  fun d hd => (hnodes.heights d hd).2.trans hi

/-- `update` and `rank` of the levels below `k`, for a search that stopped
behind `pre`. -/
def Updates (z : Zskiplist S) (ok : Prop) (acc : ℕ → A) (pre : List (Cell S)) (k : ℕ)
    (us : List (ℕ × A)) : Prop :=
  ∀ i, i < k → ∃ p c r, us[i]? = some (c.addr, r) ∧ Last Cell.height i (z.top :: pre) p c ∧
    (ok → r = acc p.length)

/-- On level 0 the search stops right before the rest. -/
theorem Nodes.last_zero (h : z.Nodes (pre ++ post)) {p : List (Cell S)}
    (hlast : Last Cell.height 0 (z.top :: pre) p c) : z.top :: pre = p ++ [c] := by
  obtain ⟨q, hsplit, hlow⟩ := hlast.split
  cases q with
  | nil => exact hsplit
  | cons d q =>
      have hd : d ∈ pre ++ post := by
        cases p with
        | nil =>
            obtain ⟨-, rfl⟩ := List.cons.inj hsplit
            simp
        | cons a p =>
            obtain ⟨-, rfl⟩ := List.cons.inj hsplit
            simp
      have := (h.heights d hd).1
      have := hlow d List.mem_cons_self
      omega

-- ==================================================== higher levels

/-- Levels that are new to the list: everything is as before, and the
spans of the header count on them. -/
theorem openLevels_spec (hnodes : z.Nodes l) (hlinked : z.Linked ok (z.top :: l))
    (hlen : z.length = UInt64.ofNat l.length) {k : ℕ} (hk : k ≤ zskiplistMaxlevel) :
    ∃ z', forLevels z.level k openLevel z = some z' ∧ z.Same z' ∧
      ∀ i, LinkedRow (ok ∧ i < max z.level k) (z.top :: l) i (z'.row i) := by
  obtain ⟨z', hz', hsame, hrows, hkept⟩ := forLevels_spec (z := z) z.level k openLevel
    (fun i row => LinkedRow ok (z.top :: l) i row) (by
      intro i hlo hhi z₁ hsame₁ hrow₁
      have htall : i < z.top.height := Nat.lt_of_lt_of_le hhi hk
      obtain ⟨s, hs, -⟩ := hlinked i [] z.top l rfl htall
      rw [← hrow₁] at hs
      change z₁.levelAt z.header i = _ at hs
      rw [← hsame₁.header] at hs
      obtain ⟨z₂, hz₂, hsame₂, hrow₂, hothers⟩ :=
        setLevel_row (z := z₁) (x := z₁.header) (i := i) (by simp [row, hs])
          ⟨(ahead Cell.height i l).map Cell.addr, z₁.length⟩
      refine ⟨z₂, by simp [openLevel, hs, hz₂], hsame₂, ?_, hothers⟩
      intro p c q hc hi
      cases p with
      | nil =>
          obtain ⟨rfl, rfl⟩ := List.cons.inj hc
          refine ⟨z.length, ?_, fun _ => ?_⟩
          · rw [hrow₂, hsame₁.header, hsame₁.length]
            exact Function.update_self _ _ _
          · rw [(hnodes.low hlo).gap_eq_length, hlen]
      | cons a p =>
          obtain ⟨-, rfl⟩ := List.cons.inj hc
          exact absurd hi (Nat.not_lt.mpr (hnodes.low hlo c (by simp))))
  refine ⟨z', hz', hsame, fun i => ?_⟩
  by_cases hi : z.level ≤ i ∧ i < k
  · exact (hrows i hi.1 hi.2).mono And.left
  · rw [hkept i (by omega)]
    exact (hlinked i).mono fun h => ⟨h.1, by omega⟩

-- =========================================================== linking

theorem toUInt64_rank {d : ℕ} (hd : d < 2 ^ 32) :
    (UInt32.ofNat d).toUInt64 = UInt64.ofNat d := by
  apply UInt64.toNat_inj.mp
  rw [UInt32.toNat_toUInt64, UInt32.toNat_ofNat', UInt64.toNat_ofNat']
  omega

theorem rank_sub (b d : ℕ) : UInt32.ofNat (b + d) - UInt32.ofNat b = UInt32.ofNat d := by
  rw [UInt32.ofNat_add]
  grind

section Level

variable {P p₀ q₀ : List (Cell S)} {u : Cell S}

/-- One round of the loop that links `x`. -/
theorem linkLevel_spec (h : LinkedRow ok (P ++ post) i (z.row i))
    (hnd : ((P ++ x :: post).map Cell.addr).Nodup) (hP : P = p₀ ++ u :: q₀)
    (hlow : Low Cell.height i q₀) (hu : i < u.height) (hx : i < x.height)
    (hthere : (z.row i x.addr).isSome) {rank0 r : UInt32}
    (hrank : ok → rank0 - r = UInt32.ofNat q₀.length) (hsmall : ok → q₀.length + 1 < 2 ^ 32) :
    ∃ z', z.linkLevel x.addr rank0 (u.addr, r) i = some z' ∧ z.Same z' ∧
      LinkedRow ok (P ++ x :: post) i (z'.row i) ∧ ∀ j, j ≠ i → z'.row j = z.row j := by
  obtain ⟨s, hs, -⟩ := h p₀ u (q₀ ++ post) (by simp [hP]) hu
  have hlv : z.levelAt u.addr i = some ⟨_, s⟩ := hs
  obtain ⟨z₁, hz₁, hsame₁, hrow₁, hothers₁⟩ := setLevel_row hthere
    ⟨(ahead Cell.height i (q₀ ++ post)).map Cell.addr, s - (rank0 - r).toUInt64⟩
  have hthere' : (z₁.row i u.addr).isSome := by
    rw [hrow₁, Function.update_apply]
    split
    · rfl
    · rw [hs]
      rfl
  obtain ⟨z₂, hz₂, hsame₂, hrow₂, hothers₂⟩ := setLevel_row hthere'
    ⟨some x.addr, (rank0 - r + 1).toUInt64⟩
  refine ⟨z₂, ?_, hsame₁.trans hsame₂, ?_, fun j hj => (hothers₂ j hj).trans (hothers₁ j hj)⟩
  · simp only [linkLevel, hlv, Option.bind_some, hz₁, hz₂]
  · rw [hrow₂, hrow₁]
    refine h.link hnd hP hlow hu hs hx ?_ ?_
    · intro hok
      rw [hrank hok, toUInt64_rank (Nat.lt_of_succ_lt (hsmall hok))]
    · intro hok
      rw [hrank hok, ← toUInt64_rank (hsmall hok), UInt32.ofNat_add]
      rfl

/-- One round of the loop over the levels above `x`. -/
theorem passLevel_spec (h : LinkedRow ok (P ++ post) i (z.row i))
    (hnd : ((P ++ x :: post).map Cell.addr).Nodup) (hP : P = p₀ ++ u :: q₀)
    (hlow : Low Cell.height i q₀) (hu : i < u.height) (hx : x.height ≤ i) (r : UInt32) :
    ∃ z', z.passLevel (u.addr, r) i = some z' ∧ z.Same z' ∧
      LinkedRow ok (P ++ x :: post) i (z'.row i) ∧ ∀ j, j ≠ i → z'.row j = z.row j := by
  obtain ⟨s, hs, -⟩ := h p₀ u (q₀ ++ post) (by simp [hP]) hu
  have hlv : z.levelAt u.addr i = some ⟨_, s⟩ := hs
  obtain ⟨z₁, hz₁, hsame₁, hrow₁, hothers₁⟩ := setLevel_row
    (Option.isSome_of_eq_some hs) ⟨_, s + 1⟩
  refine ⟨z₁, ?_, hsame₁, ?_, hothers₁⟩
  · simp only [passLevel, hlv, Option.bind_some]
    exact hz₁
  · rw [hrow₁]
    exact h.pass hnd hP hlow hu hs hx

/-- One round of the loop that takes `x` out. -/
theorem unlinkLevel_spec (h : LinkedRow ok (P ++ x :: post) i (z.row i))
    (hnd : ((P ++ x :: post).map Cell.addr).Nodup) (hP : P = p₀ ++ u :: q₀)
    (hlow : Low Cell.height i q₀) (hu : i < u.height) :
    ∃ z', z.unlinkLevel x.addr u.addr i = some z' ∧ z.Same z' ∧
      LinkedRow ok (P ++ post) i (z'.row i) ∧ z'.row i x.addr = z.row i x.addr ∧
      ∀ j, j ≠ i → z'.row j = z.row j := by
  obtain ⟨s, hs, -⟩ := h p₀ u (q₀ ++ x :: post) (by simp [hP]) hu
  have hlv : z.levelAt u.addr i = some ⟨_, s⟩ := hs
  have hthere := Option.isSome_of_eq_some hs
  have hne : x.addr ≠ u.addr := by
    intro hxu
    have hat : P ++ x :: post = p₀ ++ u :: (q₀ ++ x :: post) := by simp [hP]
    have := congrArg List.length (split_unique hnd rfl hat hxu).1
    rw [hP] at this
    simp at this
  by_cases hx : i < x.height
  · obtain ⟨s', hs', -⟩ := h P x post rfl hx
    have hlx : z.levelAt x.addr i = some ⟨_, s'⟩ := hs'
    obtain ⟨hfwd, hrow⟩ := h.unlink hnd hP hlow hu hs hs' hx
    obtain ⟨z₁, hz₁, hsame₁, hrow₁, hothers₁⟩ := setLevel_row hthere
      ⟨(ahead Cell.height i post).map Cell.addr, s + (s' - 1)⟩
    refine ⟨z₁, ?_, hsame₁, by rw [hrow₁]; exact hrow,
      by rw [hrow₁, Function.update_of_ne hne], hothers₁⟩
    simp only [unlinkLevel, hlv, Option.bind_some, hlx]
    rw [if_pos hfwd]
    exact hz₁
  · obtain ⟨hfwd, hrow⟩ := h.unpass hnd hP hlow hu hs (Nat.not_lt.mp hx)
    obtain ⟨z₁, hz₁, hsame₁, hrow₁, hothers₁⟩ := setLevel_row hthere ⟨_, s - 1⟩
    refine ⟨z₁, ?_, hsame₁, by rw [hrow₁]; exact hrow,
      by rw [hrow₁, Function.update_of_ne hne], hothers₁⟩
    simp only [unlinkLevel, hlv, Option.bind_some]
    rw [if_neg hfwd]
    exact hz₁

end Level

/-- On a level that only the header has, the row does not matter. -/
theorem LinkedRow.low {row : ℕ → Option ZskiplistLevel} {t : Cell S} {l' : List (Cell S)}
    (h : LinkedRow ok (t :: l) i row) (hl : Low Cell.height i l) (hl' : Low Cell.height i l')
    (hok : ¬ ok') : LinkedRow ok' (t :: l') i row := by
  intro p c q hc hci
  cases p with
  | nil =>
      obtain ⟨rfl, rfl⟩ := List.cons.inj hc
      obtain ⟨s, hs, -⟩ := h [] t l rfl hci
      rw [hl.ahead_eq_none] at hs
      rw [hl'.ahead_eq_none]
      exact ⟨s, hs, fun h' => absurd h' hok⟩
  | cons a p =>
      obtain ⟨-, rfl⟩ := List.cons.inj hc
      exact absurd hci (Nat.not_lt.mpr (hl' c (by simp)))

/-- Node `x`, which is there but not linked, is linked behind `pre` on the
levels it has, and the others count it. -/
theorem linkLevels_spec (hnodes : z.Nodes (pre ++ x :: post))
    (hlinked : z.Linked ok (z.top :: (pre ++ post)))
    {us : List (ℕ × UInt32)} (hus : z.Updates ok UInt32.ofNat pre z.level us)
    {u0 : ℕ × UInt32} (hu0 : us.head? = some u0)
    (hsmall : ok → (pre ++ x :: post).length < 2 ^ 32) :
    ∃ z', ((forLevels 0 x.height (fun i z =>
        us[i]?.bind fun u => z.linkLevel x.addr u0.2 u i) z).bind fun z =>
          forLevels x.height z.level (fun i z => us[i]?.bind fun u => z.passLevel u i) z)
        = some z' ∧ z.Same z' ∧ z'.Linked ok (z.top :: (pre ++ x :: post)) := by
  have hxmem : x ∈ pre ++ x :: post := by simp
  have hxh := hnodes.heights x hxmem
  have hnd : ((z.top :: pre ++ x :: post).map Cell.addr).Nodup := hnodes.nodup
  have hrank : ok → u0.2 = UInt32.ofNat pre.length := by
    intro hok
    obtain ⟨p, c, r, hget, hlast, hr⟩ := hus 0 hnodes.level.1
    have hlen := congrArg List.length (hnodes.last_zero hlast)
    rw [List.head?_eq_getElem?, hget] at hu0
    obtain rfl := Option.some.inj hu0
    rw [hr hok, show p.length = pre.length by simpa using hlen.symm]
  have hold : ∀ i, i < z.level → LinkedRow ok (z.top :: pre ++ post) i (z.row i) :=
    fun i hi => (hlinked i).mono fun hok => ⟨hok, hi⟩
  -- the levels `x` has
  obtain ⟨z₁, hz₁, hsame₁, hrows₁, hkept₁⟩ := forLevels_spec (z := z) 0 x.height
    (fun i z => us[i]?.bind fun u => z.linkLevel x.addr u0.2 u i)
    (fun i row => LinkedRow ok (z.top :: pre ++ x :: post) i row) (by
      intro i _ hi y hsame hrow
      have hil : i < z.level := Nat.lt_of_lt_of_le hi hxh.2
      obtain ⟨p₀, u, r, hget, hlast, hr⟩ := hus i hil
      obtain ⟨q₀, hP, hlow⟩ := hlast.split
      have hlen := congrArg List.length hP
      simp only [List.length_cons, List.length_append] at hlen
      rw [hget]
      refine linkLevel_spec (hrow ▸ hold i hil) hnd hP hlow hlast.tall hi ?_ ?_ ?_
      · have hstem := (hsame.stem x.addr).trans (hnodes.stem x hxmem)
        exact (levelAt_isSome hstem).mpr hi
      · intro hok
        rw [hrank hok, hr hok, show pre.length = p₀.length + q₀.length by omega, rank_sub]
      · intro hok
        have := hsmall hok
        simp only [List.length_append, List.length_cons] at this
        omega)
  -- the levels above it
  obtain ⟨z₂, hz₂, hsame₂, hrows₂, hkept₂⟩ := forLevels_spec (z := z₁) x.height z₁.level
    (fun i z => us[i]?.bind fun u => z.passLevel u i)
    (fun i row => LinkedRow ok (z.top :: pre ++ x :: post) i row) (by
      intro i hlo hi y hsame hrow
      rw [hsame₁.level] at hi
      obtain ⟨p₀, u, r, hget, hlast, -⟩ := hus i hi
      obtain ⟨q₀, hP, hlow⟩ := hlast.split
      rw [hkept₁ i (.inr hlo)] at hrow
      rw [hget]
      exact passLevel_spec (hrow ▸ hold i hi) hnd hP hlow hlast.tall hlo r)
  refine ⟨z₂, by rw [hz₁]; exact hz₂, hsame₁.trans hsame₂, fun i => ?_⟩
  by_cases hlo : i < x.height
  · rw [hkept₂ i (.inl hlo)]
    exact (hrows₁ i (Nat.zero_le i) hlo).mono And.left
  · by_cases hi : i < z.level
    · exact (hrows₂ i (Nat.not_lt.mp hlo) (by rw [hsame₁.level]; exact hi)).mono And.left
    · rw [hkept₂ i (.inr (by rw [hsame₁.level]; omega)), hkept₁ i (.inr (by omega))]
      have hlow := hnodes.low (Nat.not_lt.mp hi)
      refine (hlinked i).low (fun d hd => hlow d ?_) hlow fun h => hi ?_
      · rcases List.mem_append.mp hd with hd | hd <;> simp [hd]
      · rw [← hsame₁.level, ← hsame₂.level]
        exact h.2

-- ====================================================== pointers back

/-- A node goes between `pre` and `post`, and the pointers back of it and
of the next one are set. -/
theorem Backs.insert (h : z.Backs (pre ++ post))
    (hnd : ((pre ++ x :: post).map Cell.addr).Nodup)
    (hx : z'.backAt x.addr = some (pre.getLast?.map Cell.addr))
    (hnext : ∀ y q, post = y :: q → z'.backAt y.addr = some (some x.addr))
    (hothers : ∀ c, c ≠ x → (∀ y q, post = y :: q → c.addr ≠ y.addr) →
      c ∈ pre ++ x :: post → z'.backAt c.addr = z.backAt c.addr) :
    z'.Backs (pre ++ x :: post) := by
  have hne : ∀ {p q : List (Cell S)} {c : Cell S}, pre ++ x :: post = p ++ c :: q → p ≠ pre →
      c ≠ x := by
    intro p q c hc hp hcx
    exact hp (split_unique hnd hc rfl (congrArg Cell.addr hcx)).1
  intro p c q hc
  have hcmem : c ∈ pre ++ x :: post := by rw [hc]; simp
  rcases split_insert hc with ⟨q', hpre, rfl⟩ | ⟨rfl, rfl, -⟩ | ⟨p', hpost, rfl⟩
  · rw [hothers c (hne hc fun hp => ?_) (fun y q hy hcy => ?_) hcmem]
    · exact h p c (q' ++ post) (by simp [hpre])
    · have := congrArg List.length (hp.trans hpre)
      simp at this
    · have hat : pre ++ x :: post = (pre ++ [x]) ++ y :: q := by simp [hy]
      have := congrArg List.length (split_unique hnd hc hat hcy).1
      rw [hpre] at this
      simp at this
  · exact hx
  · cases p' with
    | nil => rw [hnext c q hpost]; simp
    | cons b p' =>
        rw [hothers c (hne hc fun hp => ?_) (fun y r hy hcy => ?_) hcmem]
        · rw [h (pre ++ b :: p') c q (by simp [hpost])]
          simp [List.getLast?_append, List.getLast?_cons]
        · have := congrArg List.length hp
          simp at this
        · have hat : pre ++ x :: post = (pre ++ [x]) ++ y :: r := by simp [hy]
          have := congrArg List.length (split_unique hnd hc hat hcy).1
          simp at this

/-- The node between `pre` and `post` is taken out, and the next one
points back to where it did. -/
theorem Backs.erase (h : z.Backs (pre ++ x :: post))
    (hnd : ((pre ++ x :: post).map Cell.addr).Nodup)
    (hnext : ∀ y q, post = y :: q → z'.backAt y.addr = z.backAt x.addr)
    (hothers : ∀ c, (∀ y q, post = y :: q → c.addr ≠ y.addr) →
      c ∈ pre ++ post → z'.backAt c.addr = z.backAt c.addr) :
    z'.Backs (pre ++ post) := by
  have hnd' : ((pre ++ post).map Cell.addr).Nodup := hnd.sublist (List.Sublist.map _ (by simp))
  intro p c q hc
  have hcmem : c ∈ pre ++ post := by rw [hc]; simp
  rcases split_append hc with ⟨q', hpre, rfl⟩ | ⟨p', hpost, rfl⟩
  · rw [hothers c (fun y q hy hcy => ?_) hcmem]
    · exact h p c (q' ++ x :: post) (by simp [hpre])
    · have hat : pre ++ post = pre ++ y :: q := by rw [hy]
      have := congrArg List.length (split_unique hnd' hc hat hcy).1
      rw [hpre] at this
      simp at this
  · cases p' with
    | nil => rw [hnext c q hpost, h pre x post rfl]; simp
    | cons b p' =>
        rw [hothers c (fun y r hy hcy => ?_) hcmem, h (pre ++ x :: b :: p') c q (by simp [hpost])]
        · simp [List.getLast?_append, List.getLast?_cons]
        · have hat : pre ++ post = pre ++ y :: r := by rw [hy]
          have := congrArg List.length (split_unique hnd' hc hat hcy).1
          simp at this

/-- `x->level[0].forward` is the node behind it. -/
theorem level_zero (hnodes : z.Nodes (pre ++ x :: post))
    (hlinked : z.Linked ok (z.top :: (pre ++ x :: post))) :
    ∃ s, z.levelAt x.addr 0 = some ⟨post.head?.map Cell.addr, s⟩ := by
  have hx := (hnodes.heights x (by simp)).1
  obtain ⟨s, hs, -⟩ := hlinked 0 (z.top :: pre) x post rfl hx
  refine ⟨s, ?_⟩
  change z.levelAt x.addr 0 = _ at hs
  rw [hs]
  cases post with
  | nil => rfl
  | cons y q =>
      have hy := (hnodes.heights y (by simp)).1
      rw [ahead_cons_of_lt hy]
      rfl

/-- The end of an insert. -/
theorem linkBack_spec (hnodes : z.Nodes (pre ++ x :: post))
    (hlinked : z.Linked ok (z.top :: (pre ++ x :: post))) (hbacks : z.Backs (pre ++ post))
    (htail : z.tail = (pre ++ post).getLast?.map Cell.addr)
    (hlen : z.length = UInt64.ofNat (pre ++ post).length) {p : List (Cell S)} {u : Cell S}
    (hu : z.top :: pre = p ++ [u]) :
    ∃ z', z.linkBack x.addr u.addr = some z' ∧ z.Kept z' ∧ z'.Backs (pre ++ x :: post) ∧
      z'.tail = (pre ++ x :: post).getLast?.map Cell.addr ∧
      z'.length = UInt64.ofNat (pre ++ x :: post).length := by
  have hnd : ((pre ++ x :: post).map Cell.addr).Nodup := (List.nodup_cons.mp hnodes.nodup).2
  have hback : (if u.addr = z.header then none else some u.addr)
      = pre.getLast?.map Cell.addr := by
    cases p with
    | nil =>
        obtain ⟨rfl, rfl⟩ := List.cons.inj hu
        exact if_pos rfl
    | cons a p =>
        obtain ⟨rfl, rfl⟩ := List.cons.inj hu
        rw [if_neg]
        · simp
        · intro hcon
          refine (List.nodup_cons.mp hnodes.nodup).1 ?_
          rw [show z.top.addr = u.addr from hcon.symm]
          simp
  have hlen' : z.length + 1 = UInt64.ofNat (pre ++ x :: post).length := by
    rw [hlen, List.length_append, List.length_append, List.length_cons, ← Nat.add_assoc,
      UInt64.ofNat_add (_ + _) 1]
    rfl
  obtain ⟨z₁, hz₁, hk₁, hback₁, htail₁, hlen₁⟩ :=
    setBack_spec (hnodes.stem x (by simp)) (if u.addr = z.header then none else some u.addr)
  obtain ⟨s, hs⟩ := level_zero (hnodes.frame hk₁.toFrame) (hlinked.kept hk₁)
  cases post with
  | nil =>
      refine ⟨{ z₁ with tail := some x.addr, length := z₁.length + 1 }, ?_,
        ⟨⟨hk₁.stem, hk₁.header, hk₁.level, hk₁.allocs⟩, hk₁.row⟩, ?_, by simp, ?_⟩
      · simp [linkBack, hz₁, hs]
      · refine hbacks.insert hnd ?_ (fun y q hy => by cases hy) fun c hc _ hmem => ?_
        · exact (hback₁ x.addr).trans (by rw [if_pos rfl, hback])
        · refine (hback₁ c.addr).trans (if_neg fun hcx => hc ?_)
          obtain ⟨p₁, q₁, hsplit⟩ := List.append_of_mem hmem
          exact (split_unique hnd hsplit rfl hcx).2.1
      · exact (congrArg (· + 1) hlen₁).trans hlen'
  | cons y q =>
      obtain ⟨z₂, hz₂, hk₂, hback₂, htail₂, hlen₂⟩ :=
        setBack_spec (z := z₁) ((hk₁.stem y.addr).trans (hnodes.stem y (by simp))) (some x.addr)
      have hk := hk₁.trans hk₂
      have hyx : x.addr ≠ y.addr := by
        intro hxy
        have hat : pre ++ x :: y :: q = (pre ++ [x]) ++ y :: q := by simp
        have := congrArg List.length (split_unique hnd rfl hat hxy).1
        simp at this
      refine ⟨{ z₂ with length := z₂.length + 1 }, ?_,
        ⟨⟨hk.stem, hk.header, hk.level, hk.allocs⟩, hk.row⟩, ?_, ?_, ?_⟩
      · simp [linkBack, hz₁, hs, hz₂]
      · refine hbacks.insert hnd ?_ (fun y' q' hy => ?_) fun c hc hcy hmem => ?_
        · refine (hback₂ x.addr).trans ?_
          rw [if_neg hyx, hback₁, if_pos rfl, hback]
        · obtain ⟨rfl, rfl⟩ := List.cons.inj hy
          exact (hback₂ y.addr).trans (if_pos rfl)
        · refine (hback₂ c.addr).trans ?_
          rw [if_neg (hcy y q rfl), hback₁]
          refine if_neg fun hcx => hc ?_
          obtain ⟨p₁, q₁, hsplit⟩ := List.append_of_mem hmem
          exact (split_unique hnd hsplit rfl hcx).2.1
      · refine (htail₂.trans (htail₁.trans htail)).trans ?_
        simp [List.getLast?_append, List.getLast?_cons]
      · exact (congrArg (· + 1) (hlen₂.trans hlen₁)).trans hlen'

-- =========================================================== inserts

theorem le_of_mem_dropWhile {k : S ×ₗ String} (h : l.Pairwise fun c d => c.key < d.key)
    (hc : c ∈ l.dropWhile fun c => c.key < k) : k ≤ c.key := by
  induction l with
  | nil => cases hc
  | cons a l ih =>
      obtain ⟨ha, hl⟩ := List.pairwise_cons.mp h
      by_cases hlt : a.key < k
      · rw [List.dropWhile_cons_of_pos (by simpa using hlt)] at hc
        exact ih hl hc
      · rw [List.dropWhile_cons_of_neg (by simpa using hlt)] at hc
        rcases List.mem_cons.mp hc with rfl | hc
        · exact not_lt.mp hlt
        · exact (not_lt.mp hlt).trans (ha c hc).le

theorem lt_of_mem_takeWhile {k : S ×ₗ String} (hc : c ∈ l.takeWhile fun c => c.key < k) :
    c.key < k := by
  simpa using List.mem_takeWhile_imp hc

/-- A search by score and element passes the nodes before it. -/
theorem passes_before (ok : Prop) (add : A → UInt64 → A) (acc : ℕ → A)
    (hnodes : z.Nodes (pre ++ post))
    (hadd : ∀ k m, add (acc k) (UInt64.ofNat m) = acc (k + m)) {score : S} {ele : String}
    (hpre : ∀ c ∈ pre, c.key < toLex (score, ele))
    (hpost : ∀ c ∈ post, toLex (score, ele) ≤ c.key) :
    z.Passes ok add (fun _ => ZskiplistNode.before score ele) acc pre post := by
  have hstem : ∀ c ∈ pre ++ post, ∀ nd, z.node c.addr = some nd →
      nd.before score ele = decide (c.key < toLex (score, ele)) := by
    intro c hc nd hnd
    obtain ⟨nd', hnd', hs⟩ := hnodes.node_exists hc
    obtain rfl := Option.some.inj (hnd.symm.trans hnd')
    exact before_eq hs score ele
  refine ⟨hadd, fun p c q r nd hc hnd _ => ?_, fun p c q r nd hc hnd _ => ?_⟩
  · have hmem : c ∈ pre := by rw [hc]; simp
    rw [hstem c (List.mem_append_left _ hmem) nd hnd]
    simpa using hpre c hmem
  · have hmem : c ∈ post := by rw [hc]; simp
    rw [hstem c (List.mem_append_right _ hmem) nd hnd]
    simpa using hpost c hmem

theorem zslRandomLevel_range (draws : List ℕ) :
    0 < zslRandomLevel draws ∧ zslRandomLevel draws ≤ zskiplistMaxlevel := by
  rw [zslRandomLevel]
  constructor
  · split_ifs <;> simp [zskiplistMaxlevel]
  · split_ifs with h
    exacts [h.le, le_rfl]

/-- A new node leaves the others alone. -/
theorem create_spec (z : Zskiplist S) (level : ℕ) (score : S) (ele : Option String) :
    (z.zslCreateNode level score ele).1.stemAt z.allocs = some (ele, score, level) ∧
      ∀ a, a ≠ z.allocs →
        (z.zslCreateNode level score ele).1.stemAt a = z.stemAt a ∧
        (z.zslCreateNode level score ele).1.backAt a = z.backAt a ∧
        ∀ i, (z.zslCreateNode level score ele).1.row i a = z.row i a := by
  constructor
  · simp [zslCreateNode, stemAt, ZskiplistNode.stem]
  · intro a ha
    refine ⟨?_, ?_, fun i => ?_⟩
    · simp [zslCreateNode, stemAt, Function.update_of_ne ha]
    · simp [zslCreateNode, backAt, Function.update_of_ne ha]
    · simp [zslCreateNode, row, levelAt, Function.update_of_ne ha]

theorem LinkedRow.congr {row row' : ℕ → Option ZskiplistLevel} (h : LinkedRow ok l i row)
    (hrow : ∀ c ∈ l, row' c.addr = row c.addr) : LinkedRow ok l i row' := by
  intro p c q hc hi
  rw [hrow c (by rw [hc]; simp)]
  exact h p c q hc hi

/-- The node `x` of the new list, with the row it goes into. -/
theorem Nodes.create (h : z.Nodes (pre ++ post)) {level : ℕ}
    (hlevel : 0 < level ∧ level ≤ z.level) (score : S) (ele : String) :
    (z.zslCreateNode level score (some ele)).1.Nodes
      (pre ++ ⟨z.allocs, level, score, ele⟩ :: post) := by
  obtain ⟨hnew, hold⟩ := create_spec z level score (some ele)
  have hne : ∀ c ∈ z.top :: (pre ++ post), c.addr ≠ z.allocs := fun c hc => (h.fresh c hc).ne
  have hmem : ∀ c ∈ pre ++ ⟨z.allocs, level, score, ele⟩ :: post,
      c = ⟨z.allocs, level, score, ele⟩ ∨ c ∈ pre ++ post := by
    intro c hc
    simp only [List.mem_append, List.mem_cons] at hc ⊢
    tauto
  refine ⟨?_, fun c hc => ?_, ?_, fun c hc => ?_, ?_, fun c hc => ?_, h.level⟩
  · exact (hold z.header (hne z.top (by simp))).1.trans h.header
  · rcases hmem c hc with rfl | hc
    · exact hnew
    · exact (hold c.addr (hne c (by simp [hc]))).1.trans (h.stem c hc)
  · have hperm : ((z.top :: (pre ++ ⟨z.allocs, level, score, ele⟩ :: post)).map Cell.addr).Perm
        (z.allocs :: (z.top :: (pre ++ post)).map Cell.addr) := by
      simp only [List.map_cons, List.map_append]
      exact (List.perm_middle.cons _).trans (.swap _ _ _)
    refine hperm.nodup_iff.mpr (List.nodup_cons.mpr ⟨fun hcon => ?_, h.nodup⟩)
    obtain ⟨c, hc, hca⟩ := List.mem_map.mp hcon
    exact hne c hc hca
  · show c.addr < z.allocs + 1
    rcases List.mem_cons.mp hc with rfl | hc
    · exact Nat.lt_succ_of_lt (h.fresh z.top (by simp))
    · rcases hmem c hc with rfl | hc
      · exact Nat.lt_succ_self _
      · exact Nat.lt_succ_of_lt (h.fresh c (by simp [hc]))
  · have := h.few
    simp only [List.length_append, List.length_cons] at this ⊢
    show _ < z.allocs + 1
    omega
  · rcases hmem c hc with rfl | hc
    · exact hlevel
    · exact h.heights c hc

/-- The list with more levels and a node that is not linked yet. -/
theorem grow_spec (h : z.Rep ok (pre ++ post)) {level : ℕ}
    (hlevel : 0 < level ∧ level ≤ zskiplistMaxlevel) (score : S) (ele : String) :
    ∃ z₁ z₂, forLevels z.level level openLevel z = some z₁ ∧
      ({ z₁ with level := max z₁.level level }.zslCreateNode level score (some ele))
        = (z₂, z.allocs) ∧
      z₂.header = z.header ∧ z₂.level = max z.level level ∧
      z₂.Nodes (pre ++ ⟨z.allocs, level, score, ele⟩ :: post) ∧
      z₂.Linked ok (z₂.top :: (pre ++ post)) ∧ z₂.Backs (pre ++ post) ∧
      z₂.tail = z.tail ∧ z₂.length = z.length := by
  obtain ⟨z₁, hz₁, hsame, hlinked⟩ := openLevels_spec h.nodes h.linked h.length hlevel.2
  obtain ⟨z', hz'⟩ : ∃ z' : Zskiplist S, z' = { z₁ with level := max z₁.level level } := ⟨_, rfl⟩
  have hnodes₁ := h.nodes.frame hsame.toFrame
  have hmax : z'.level = max z.level level := by rw [hz', ← hsame.level]
  have hallocs : z'.allocs = z.allocs := by rw [hz', ← hsame.allocs]
  have htop : z'.top = z.top := by rw [hz', ← hsame.top]; rfl
  have hnodes : z'.Nodes (pre ++ post) := by
    rw [hz']
    refine ⟨hnodes₁.header, hnodes₁.stem, hnodes₁.nodup, hnodes₁.fresh, hnodes₁.few,
      fun c hc => ⟨(hnodes₁.heights c hc).1, ?_⟩, ?_, ?_⟩
    · exact (hnodes₁.heights c hc).2.trans (le_max_left _ _)
    · exact lt_of_lt_of_le hlevel.1 (le_max_right _ _)
    · exact max_le hnodes₁.level.2 hlevel.2
  obtain ⟨hnew, hold⟩ := create_spec z' level score (some ele)
  have hne : ∀ c ∈ z'.top :: (pre ++ post), c.addr ≠ z'.allocs :=
    fun c hc => (hnodes.fresh c hc).ne
  refine ⟨z₁, (z'.zslCreateNode level score (some ele)).1, hz₁, ?_, ?_, hmax, ?_, fun i => ?_,
    fun p c q hc => ?_, ?_, ?_⟩
  · rw [← hz', ← hallocs]
    rfl
  · exact congrArg Cell.addr htop
  · rw [← hallocs]
    exact hnodes.create ⟨hlevel.1, hmax ▸ le_max_right _ _⟩ score ele
  · have hrow := hlinked i
    rw [← hmax, ← htop] at hrow
    have hrow' : LinkedRow (ok ∧ i < z'.level) (z'.top :: (pre ++ post)) i (z'.row i) := by
      rw [hz'] at hrow ⊢
      exact hrow
    exact hrow'.congr fun c hc => (hold c.addr (hne c hc)).2.2 i
  · rw [(hold c.addr (hne c (by rw [hc]; simp))).2.1, ← h.backs p c q hc, ← hsame.back, hz']
    rfl
  · show z'.tail = z.tail
    rw [hz', ← hsame.tail]
  · show z'.length = z.length
    rw [hz', ← hsame.length]

/-- `zslInsert` of an element that is not there. -/
theorem zslInsert_spec (h : z.Rep ok l) (draws : List ℕ) (score : S) (ele : String)
    (hnew : ∀ c ∈ l, c.key ≠ toLex (score, ele)) (hsmall : ok → l.length + 1 < 2 ^ 32) :
    ∃ z' pre post x, z.zslInsert draws score ele = some (z', x.addr) ∧ l = pre ++ post ∧
      x.score = score ∧ x.ele = ele ∧ x.addr = z.allocs ∧ z'.header = z.header ∧
      z'.Rep ok (pre ++ x :: post) := by
  obtain ⟨pre, hpre⟩ : ∃ pre, pre = l.takeWhile fun c => c.key < toLex (score, ele) := ⟨_, rfl⟩
  obtain ⟨post, hpost⟩ : ∃ post, post = l.dropWhile fun c => c.key < toLex (score, ele) := ⟨_, rfl⟩
  have hl : l = pre ++ post := by rw [hpre, hpost, List.takeWhile_append_dropWhile]
  have hlt : ∀ c ∈ pre, c.key < toLex (score, ele) := by
    intro c hc
    rw [hpre] at hc
    exact lt_of_mem_takeWhile hc
  have hgt : ∀ c ∈ post, toLex (score, ele) < c.key := by
    intro c hc
    refine lt_of_le_of_ne ?_ (hnew c (by simp [hl, hc])).symm
    rw [hpost] at hc
    exact le_of_mem_dropWhile h.sorted hc
  clear hpre hpost
  subst hl
  obtain ⟨level, hlevel⟩ : ∃ level, level = zslRandomLevel draws := ⟨_, rfl⟩
  have hrange := zslRandomLevel_range draws
  rw [← hlevel] at hrange
  -- the search
  obtain ⟨us, hus, hlen, hrows⟩ := descend_spec h.nodes h.linked
    (passes_before ok (fun r s => r + s.toUInt32) UInt32.ofNat h.nodes
      (by simp) hlt fun c hc => (hgt c hc).le)
    (le_refl z.level) (p := []) (c := z.top) (q := pre) (r := 0) rfl h.nodes.level.2
    (fun _ => rfl)
  obtain ⟨z₁, z₂, hz₁, hz₂, hhdr, hlvl, hnodes, hlinked, hbacks, htail, hlength⟩ :=
    grow_spec h hrange score ele
  obtain ⟨x, hx⟩ : ∃ x : Cell S, x = ⟨z.allocs, level, score, ele⟩ := ⟨_, rfl⟩
  rw [← hx] at hnodes
  have htop : z₂.top = z.top := by simp [top, hhdr]
  -- on a level that is new, `update` is the header
  have hupdates : z₂.Updates ok UInt32.ofNat pre z₂.level
      (us ++ List.replicate (level - z.level) (z.header, 0)) := by
    intro i hi
    rw [htop]
    by_cases hiz : i < z.level
    · rw [List.getElem?_append_left (by omega)]
      exact hrows i hiz
    · refine ⟨[], z.top, 0, ?_, ⟨⟨pre, rfl, ?_⟩, ?_⟩, fun _ => rfl⟩
      · rw [List.getElem?_append_right (by omega), hlen, List.getElem?_replicate,
          if_pos (by omega)]
        rfl
      · exact fun c hc => h.nodes.low (Nat.not_lt.mp hiz) c (List.mem_append_left _ hc)
      · show i < zskiplistMaxlevel
        omega
  obtain ⟨p, u, r, hu, hlast, -⟩ := hupdates 0 hnodes.level.1
  rw [← List.head?_eq_getElem?] at hu
  obtain ⟨z₃, hz₃, hsame, hlinked₃⟩ := linkLevels_spec hnodes hlinked hupdates hu (by
    intro hok
    have := hsmall hok
    simp only [List.length_append, List.length_cons] at this ⊢
    omega)
  have hnodes₃ := hnodes.frame hsame.toFrame
  obtain ⟨z₄, hz₄, hkept, hbacks₄, htail₄, hlength₄⟩ := linkBack_spec (z := z₃) (u := u) (p := p)
    hnodes₃ (hsame.top.symm ▸ hlinked₃) (fun p c q hc => (hsame.back _).trans (hbacks p c q hc))
    (hsame.tail.trans (htail.trans h.tail)) (hsame.length.trans (hlength.trans h.length))
    (hsame.top.symm ▸ hnodes.last_zero hlast)
  refine ⟨z₄, pre, post, x, ?_, rfl, by rw [hx], by rw [hx], by rw [hx],
    hkept.header.trans (hsame.header.trans hhdr), ?_⟩
  · subst hx
    change z.descend _ _ z.level z.header 0 = some us at hus
    simp only [zslInsert, hus, Option.bind_some, ← hlevel, hu, hz₁, hz₂]
    rw [← Option.bind_assoc, hz₃, Option.bind_some, hz₄]
    rfl
  · refine ⟨hnodes₃.frame hkept.toFrame, (hsame.top.symm ▸ hlinked₃ : z₃.Linked ok _).kept hkept,
      hbacks₄, htail₄, hlength₄, ?_⟩
    obtain ⟨hpre, hpost, hcross⟩ := List.pairwise_append.mp h.sorted
    have hkey : x.key = toLex (score, ele) := by rw [hx]; rfl
    refine List.pairwise_append.mpr ⟨hpre, List.pairwise_cons.mpr ⟨fun c hc => ?_, hpost⟩, ?_⟩
    · rw [hkey]
      exact hgt c hc
    · intro a ha b hb
      rcases List.mem_cons.mp hb with rfl | hb
      · rw [hkey]
        exact hlt a ha
      · exact hcross a ha b hb

-- ========================================================= deletions

/-- The search for a place by score and element: `update`, and the node
behind it. -/
theorem zslSeek_spec (h : z.Rep ok (pre ++ post)) (score : S) (ele : String)
    (hlt : ∀ c ∈ pre, c.key < toLex (score, ele))
    (hge : ∀ c ∈ post, toLex (score, ele) ≤ c.key) :
    ∃ us, z.zslSeek score ele = some (us, post.head?.map Cell.addr) ∧
      ∀ i, i < z.level → ∃ p c, us[i]? = some c.addr ∧
        Last Cell.height i (z.top :: pre) p c := by
  obtain ⟨us, hus, -, hrows⟩ := descend_spec h.nodes h.linked
    (passes_before ok (fun _ _ => ()) (fun _ => ()) h.nodes
      (fun _ _ => rfl) hlt hge)
    (le_refl z.level) (p := []) (c := z.top) (q := pre) (r := ()) rfl h.nodes.level.2
    (fun _ => rfl)
  change z.descend _ _ z.level z.header () = some us at hus
  obtain ⟨p, u, r, hu, hlast, -⟩ := hrows 0 h.nodes.level.1
  have hsplit := h.nodes.last_zero hlast
  obtain ⟨s, hs, -⟩ := h.linked 0 p u post (by rw [← List.cons_append, hsplit]; simp) hlast.tall
  change z.levelAt u.addr 0 = _ at hs
  have hhead : (ahead Cell.height 0 post).map Cell.addr = post.head?.map Cell.addr := by
    cases post with
    | nil => rfl
    | cons y q =>
        rw [ahead_cons_of_lt (h.nodes.heights y (by simp)).1]
        rfl
  refine ⟨us.map Prod.fst, ?_, fun i hi => ?_⟩
  · rw [← List.head?_eq_getElem?] at hu
    simp only [zslSeek, hus, Option.bind_some, hu, hs, Option.map_some, hhead]
  · obtain ⟨p, c, r, hget, hlast, -⟩ := hrows i hi
    exact ⟨p, c, by rw [List.getElem?_map, hget]; rfl, hlast⟩

/-- The levels that became empty are dropped. -/
theorem dropLevels_spec {k : ℕ} (hk : 0 < k) (hthere : ∀ i, i < k → (z.levelAt z.header i).isSome) :
    ∃ k', z.dropLevels k = some { z with level := k' } ∧ 0 < k' ∧ k' ≤ k ∧
      ∀ i, k' ≤ i → i < k → (z.levelAt z.header i).any fun lv => lv.forward = none := by
  induction k with
  | zero => omega
  | succ k ih =>
      cases k with
      | zero => exact ⟨1, rfl, Nat.one_pos, le_rfl, fun i hi hi' => by omega⟩
      | succ k =>
          obtain ⟨lv, hlv⟩ := Option.isSome_iff_exists.mp (hthere (k + 1) (Nat.lt_succ_self _))
          by_cases hnull : lv.forward = none
          · obtain ⟨k', hdrop, hpos, hle, hempty⟩ :=
              ih (Nat.succ_pos k) fun i hi => hthere i (Nat.lt_succ_of_lt hi)
            refine ⟨k', by simp [dropLevels, hlv, hnull, hdrop], hpos, by omega, ?_⟩
            intro i hi hi'
            by_cases heq : i = k + 1
            · subst heq
              simp [hlv, hnull]
            · exact hempty i hi (by omega)
          · exact ⟨k + 2, by simp [dropLevels, hlv, hnull], by omega, le_rfl,
              fun i hi hi' => by omega⟩

/-- The end of a deletion: the pointers back. -/
theorem unlinkBack_spec {s : UInt64} (hstem : (z.stemAt x.addr).isSome)
    (hx : z.levelAt x.addr 0 = some ⟨post.head?.map Cell.addr, s⟩)
    (hnodes : ∀ c ∈ post, (z.stemAt c.addr).isSome)
    (hnd : ((pre ++ x :: post).map Cell.addr).Nodup) (hbacks : z.Backs (pre ++ x :: post))
    (htail : z.tail = (pre ++ x :: post).getLast?.map Cell.addr) :
    ∃ z', z.unlinkBack x.addr = some z' ∧ z.Kept z' ∧ z'.Backs (pre ++ post) ∧
      z'.tail = (pre ++ post).getLast?.map Cell.addr ∧ z'.length = z.length := by
  obtain ⟨t, ht⟩ := Option.isSome_iff_exists.mp hstem
  obtain ⟨nd, hnd', -⟩ := node_of_stemAt ht
  have hback := hbacks pre x post rfl
  obtain ⟨nd₁, hnd₁, hnb⟩ := Option.map_eq_some_iff.mp hback
  obtain rfl := Option.some.inj (hnd'.symm.trans hnd₁)
  cases post with
  | nil =>
      refine ⟨{ z with tail := nd.backward }, by simp [unlinkBack, hnd', hx],
        ⟨⟨fun _ => rfl, rfl, rfl, rfl⟩, fun _ => rfl⟩, ?_, ?_, rfl⟩
      · exact hbacks.erase hnd (fun y q hy => by cases hy) fun c _ _ => rfl
      · rw [List.append_nil]
        exact hnb
  | cons y q =>
      obtain ⟨sy, hsy⟩ := Option.isSome_iff_exists.mp (hnodes y List.mem_cons_self)
      obtain ⟨z₁, hz₁, hk, hback₁, htail₁, hlen₁⟩ := setBack_spec hsy nd.backward
      refine ⟨z₁, by simp [unlinkBack, hnd', hx, hz₁], hk, ?_, ?_, hlen₁⟩
      · refine hbacks.erase hnd (fun y' q' hy => ?_) fun c hc _ => ?_
        · obtain ⟨rfl, rfl⟩ := List.cons.inj hy
          rw [hback₁, if_pos rfl, hback, hnb]
        · rw [hback₁, if_neg (hc y q rfl)]
      · rw [htail₁, htail]
        simp [List.getLast?_append, List.getLast?_cons]

/-- `zslDeleteNode`, for the `update` of a search that stopped before the
node. The node itself stays as it is. -/
theorem zslDeleteNode_spec (h : z.Rep ok (pre ++ x :: post)) {us : List ℕ}
    (hus : ∀ i, i < z.level → ∃ p c, us[i]? = some c.addr ∧
      Last Cell.height i (z.top :: pre) p c) :
    ∃ z', z.zslDeleteNode x.addr us = some z' ∧ z'.Rep ok (pre ++ post) ∧
      (∀ a, z'.stemAt a = z.stemAt a) ∧ z'.header = z.header ∧ z'.allocs = z.allocs := by
  have hnd : ((z.top :: pre ++ x :: post).map Cell.addr).Nodup := h.nodes.nodup
  have hsub : ∀ {c : Cell S}, c ∈ pre ++ post → c ∈ pre ++ x :: post := by
    intro c hc
    rcases List.mem_append.mp hc with hc | hc <;> simp [hc]
  -- the levels
  obtain ⟨z₁, hz₁, hsame, hrows, hkept⟩ := forLevels_spec (z := z) 0 z.level
    (fun i z => us[i]?.bind fun u => z.unlinkLevel x.addr u i)
    (fun i row => LinkedRow ok (z.top :: pre ++ post) i row ∧
      row x.addr = z.row i x.addr) (by
      intro i _ hi y hsame hrow
      obtain ⟨p₀, u, hget, hlast⟩ := hus i hi
      obtain ⟨q₀, hP, hlow⟩ := hlast.split
      have hold : LinkedRow ok (z.top :: pre ++ x :: post) i (y.row i) :=
        hrow ▸ (h.linked i).mono fun hok => ⟨hok, hi⟩
      obtain ⟨y₁, hy₁, hsame₁, hrow₁, hx₁, hothers⟩ :=
        unlinkLevel_spec hold hnd hP hlow hlast.tall
      exact ⟨y₁, by rw [hget]; exact hy₁, hsame₁, ⟨hrow₁, by rw [hx₁, hrow]⟩, hothers⟩)
  have hlinked₁ : ∀ i, LinkedRow (ok ∧ i < z.level) (z.top :: (pre ++ post)) i (z₁.row i) := by
    intro i
    by_cases hi : i < z.level
    · exact (hrows i (Nat.zero_le i) hi).1.mono And.left
    · rw [hkept i (.inr (Nat.not_lt.mp hi))]
      have hlow := h.nodes.low (Nat.not_lt.mp hi)
      exact (h.linked i).low hlow (fun c hc => hlow c (hsub hc)) fun hcon => hi hcon.2
  -- the pointers back
  obtain ⟨s, hs⟩ := level_zero h.nodes h.linked
  have hs₁ : z₁.levelAt x.addr 0 = some ⟨post.head?.map Cell.addr, s⟩ :=
    (hrows 0 le_rfl h.nodes.level.1).2.trans hs
  have hstem₁ : ∀ c ∈ pre ++ x :: post, (z₁.stemAt c.addr).isSome := by
    intro c hc
    rw [hsame.stem, h.nodes.stem c hc]
    rfl
  obtain ⟨z₂, hz₂, hk, hbacks₂, htail₂, hlen₂⟩ := unlinkBack_spec (z := z₁)
    (hstem₁ x (by simp)) hs₁ (fun c hc => hstem₁ c (by simp [hc]))
    (List.nodup_cons.mp h.nodes.nodup).2
    (fun p c q hc => (hsame.back _).trans (h.backs p c q hc)) (hsame.tail.trans h.tail)
  have hrow₂ : ∀ i, z₂.row i = z₁.row i := hk.row
  have hframe : z.Frame z₂ := hsame.toFrame.trans hk.toFrame
  have hlinked₂ : ∀ i, LinkedRow (ok ∧ i < z.level) (z.top :: (pre ++ post)) i (z₂.row i) :=
    fun i => hrow₂ i ▸ hlinked₁ i
  -- the level of the list
  have hlevel₂ := hframe.level
  obtain ⟨k, hk₂, hpos, hle, hempty⟩ := dropLevels_spec (z := z₂) (k := z₂.level)
    (by rw [hlevel₂]; exact h.nodes.level.1) (by
      intro i hi
      rw [hlevel₂] at hi
      refine (levelAt_isSome ((hframe.stem _).trans (hframe.header.symm ▸ h.nodes.header))).mpr ?_
      exact lt_of_lt_of_le hi h.nodes.level.2)
  rw [hlevel₂] at hle
  have hheights : ∀ c ∈ pre ++ post, c.height ≤ k := by
    intro c hc
    by_contra hck
    have hct := h.nodes.heights c (hsub hc)
    -- the top level of `c` is not empty
    have hnotlow : ¬ Low Cell.height (c.height - 1) (pre ++ post) := by
      intro hlow
      have := hlow c hc
      omega
    obtain ⟨p, d, q, hsplit, hp, hd⟩ := split_of_not_low hnotlow
    obtain ⟨t, ht, -⟩ := hlinked₂ (c.height - 1) [] z.top (pre ++ post) rfl
      (show c.height - 1 < zskiplistMaxlevel by have := h.nodes.level.2; omega)
    change z₂.levelAt z.header (c.height - 1) = _ at ht
    have hnone := hempty (c.height - 1) (by omega) (by rw [hlevel₂]; omega)
    rw [hframe.header, ht, hsplit, hp.ahead_append, ahead_cons_of_lt hd] at hnone
    simp at hnone
  refine ⟨{ z₂ with level := k, length := z₂.length - 1 }, ?_, ⟨⟨?_, fun c hc => ?_, ?_,
    fun c hc => ?_, ?_, fun c hc => ?_, hpos, ?_⟩, fun i => ?_, hbacks₂, htail₂, ?_, ?_⟩,
    hframe.stem, hframe.header, hframe.allocs⟩
  · simp only [zslDeleteNode, hz₁, Option.bind_some, hz₂, hk₂, Option.map_some]
  · exact (hframe.stem _).trans (hframe.header.symm ▸ h.nodes.header)
  · exact (hframe.stem _).trans (h.nodes.stem c (hsub hc))
  · show ((z₂.top :: (pre ++ post)).map Cell.addr).Nodup
    rw [hframe.top]
    exact hnd.sublist (List.Sublist.map _ (by simp))
  · show c.addr < z₂.allocs
    rw [hframe.allocs]
    refine h.nodes.fresh c ?_
    rcases List.mem_cons.mp hc with rfl | hc
    · exact List.mem_cons.mpr (.inl hframe.top)
    · exact List.mem_cons_of_mem _ (hsub hc)
  · show _ < z₂.allocs
    have := h.nodes.few
    rw [hframe.allocs]
    simp only [List.length_append, List.length_cons] at this ⊢
    omega
  · exact ⟨(h.nodes.heights c (hsub hc)).1, hheights c hc⟩
  · exact hle.trans h.nodes.level.2
  · show LinkedRow (ok ∧ i < k) (z₂.top :: (pre ++ post)) i (z₂.row i)
    rw [hframe.top]
    exact (hlinked₂ i).mono fun hcon => ⟨hcon.1, lt_of_lt_of_le hcon.2 hle⟩
  · show z₂.length - 1 = _
    rw [hlen₂, hsame.length, h.length, List.length_append, List.length_cons, ← Nat.add_assoc,
      UInt64.ofNat_add (_ + _) 1, List.length_append]
    show _ + 1 - 1 = _
    grind
  · exact h.sorted.sublist (by simp)

/-- The node at `x` is at no other place. -/
theorem Nodes.addr_ne (h : z.Nodes (pre ++ x :: post)) (hc : c ∈ z.top :: (pre ++ post)) :
    c.addr ≠ x.addr := by
  have hperm : (x :: z.top :: (pre ++ post)).Perm (z.top :: (pre ++ x :: post)) :=
    (List.Perm.swap _ _ _).trans (List.perm_middle.symm.cons _)
  have hnd := (hperm.map Cell.addr).nodup_iff.mpr h.nodup
  intro hcx
  exact (List.nodup_cons.mp hnd).1 (hcx ▸ List.mem_map_of_mem hc)

/-- A node that is not in the row is freed. -/
theorem Rep.free (h : z.Rep ok l) {a : ℕ} (ha : ∀ c ∈ z.top :: l, c.addr ≠ a) :
    (z.zslFreeNode a).Rep ok l := by
  have hstem : ∀ c ∈ z.top :: l, (z.zslFreeNode a).stemAt c.addr = z.stemAt c.addr := by
    intro c hc
    simp [zslFreeNode, stemAt, Function.update_of_ne (ha c hc)]
  have hback : ∀ c ∈ z.top :: l, (z.zslFreeNode a).backAt c.addr = z.backAt c.addr := by
    intro c hc
    simp [zslFreeNode, backAt, Function.update_of_ne (ha c hc)]
  have hrow : ∀ i, ∀ c ∈ z.top :: l, (z.zslFreeNode a).row i c.addr = z.row i c.addr := by
    intro i c hc
    simp [zslFreeNode, row, levelAt, Function.update_of_ne (ha c hc)]
  refine ⟨⟨?_, fun c hc => ?_, h.nodes.nodup, h.nodes.fresh, h.nodes.few, h.nodes.heights,
    h.nodes.level⟩, fun i => (h.linked i).congr (hrow i), fun p c q hc => ?_, h.tail, h.length,
    h.sorted⟩
  · exact (hstem z.top List.mem_cons_self).trans h.nodes.header
  · exact (hstem c (List.mem_cons_of_mem _ hc)).trans (h.nodes.stem c hc)
  · exact (hback c (by rw [hc]; simp)).trans (h.backs p c q hc)

/-- The nodes around one are before it and behind it. -/
theorem Rep.around (h : z.Rep ok (pre ++ x :: post)) :
    (∀ c ∈ pre, c.key < x.key) ∧ ∀ c ∈ post, x.key < c.key := by
  obtain ⟨-, hpost, hcross⟩ := List.pairwise_append.mp h.sorted
  exact ⟨fun c hc => hcross c hc x List.mem_cons_self, (List.pairwise_cons.mp hpost).1⟩

/-- The search for a node of the row. -/
theorem Rep.seek (h : z.Rep ok (pre ++ x :: post)) :
    ∃ us, z.zslSeek x.score x.ele = some (us, some x.addr) ∧
      z.isNode x.addr x.score x.ele = some true ∧
      ∀ i, i < z.level → ∃ p c, us[i]? = some c.addr ∧
        Last Cell.height i (z.top :: pre) p c := by
  obtain ⟨hlt, hgt⟩ := h.around
  obtain ⟨us, hus, hrows⟩ := zslSeek_spec h x.score x.ele hlt (by
    intro c hc
    rcases List.mem_cons.mp hc with rfl | hc
    · exact le_rfl
    · exact (hgt c hc).le)
  obtain ⟨nd, hnd, hstem⟩ := h.nodes.node_exists (c := x) (by simp)
  obtain ⟨he, hs, -⟩ : nd.ele = some x.ele ∧ nd.score = x.score ∧ _ := by
    simpa [ZskiplistNode.stem] using hstem
  refine ⟨us, hus, ?_, hrows⟩
  simp [isNode, hnd, hs, ZskiplistNode.named, he, sdscmp_same]

/-- `zslDelete` of a node of the row. -/
theorem zslDelete_spec (h : z.Rep ok (pre ++ x :: post)) :
    ∃ z', z.zslDelete x.score x.ele = some (z', true) ∧ z'.Rep ok (pre ++ post) := by
  obtain ⟨us, hus, hfound, hrows⟩ := h.seek
  obtain ⟨z₁, hz₁, hrep, -, hhdr, -⟩ := zslDeleteNode_spec h hrows
  refine ⟨z₁.zslFreeNode x.addr, by simp [zslDelete, hus, hfound, hz₁], hrep.free ?_⟩
  intro c hc
  rw [show z₁.top = z.top by simp [top, hhdr]] at hc
  exact h.nodes.addr_ne hc

-- ============================================================ updates

/-- A pointer to a node of the row, or NULL. -/
theorem nullOr_spec (hnodes : z.Nodes l) {o : Option (Cell S)} (ho : ∀ c ∈ o, c ∈ l)
    (test : S → Bool) :
    z.nullOr test (o.map Cell.addr) = some (o.all fun c => test c.score) := by
  cases o with
  | none => rfl
  | some c =>
      obtain ⟨nd, hnd, hstem⟩ := hnodes.node_exists (ho c rfl)
      have hs : nd.score = c.score := congrArg (·.2.1) hstem
      simp [nullOr, hnd, hs]

/-- Whether a node keeps its place: its neighbours' scores leave room. -/
theorem keepsPlace_spec (h : z.Rep ok (pre ++ x :: post)) (newscore : S) :
    z.keepsPlace x.addr newscore = some
      ((pre.getLast?.all fun c => decide (c.score < newscore)) &&
        post.head?.all fun c => decide (newscore < c.score)) := by
  obtain ⟨nd, hnd, -⟩ := h.nodes.node_exists (c := x) (by simp)
  have hback : nd.backward = pre.getLast?.map Cell.addr := by
    simpa [backAt, hnd] using h.backs pre x post rfl
  obtain ⟨s, hs⟩ := level_zero h.nodes h.linked
  have hleft := nullOr_spec h.nodes (o := pre.getLast?)
    (fun c hc => by simp [List.mem_of_getLast? hc]) fun s => decide (s < newscore)
  have hright := nullOr_spec h.nodes (o := post.head?)
    (fun c hc => by simp [List.mem_of_mem_head? hc]) fun s => decide (newscore < s)
  simp only [keepsPlace, hnd, Option.bind_some, hs, hback, hleft, hright]
  split
  · next hl => rw [hl, Bool.true_and]
  · next hl => rw [Bool.eq_false_iff.mpr hl, Bool.false_and]

/-- Where a node is and how tall. -/
def shape (c : Cell S) : ℕ × ℕ := (c.addr, c.height)

section Shape

variable {l' : List (Cell S)}

/-- A place of one row, found in another of the same shape. -/
theorem split_shape (hshape : l'.map shape = l.map shape) {p q : List (Cell S)}
    (hc : l' = p ++ c :: q) : ∃ p' c' q', l = p' ++ c' :: q' ∧ p'.map shape = p.map shape ∧
      c'.addr = c.addr ∧ c'.height = c.height ∧ q'.map shape = q.map shape := by
  rw [hc, List.map_append, List.map_cons] at hshape
  obtain ⟨p', r', rfl, hp', hr'⟩ := List.map_eq_append_iff.mp hshape.symm
  obtain ⟨c', q', rfl, hc', hq'⟩ := List.map_eq_cons_iff.mp hr'
  obtain ⟨haddr, hheight⟩ := Prod.mk.inj hc'
  exact ⟨p', c', q', rfl, hp', haddr, hheight, hq'⟩

theorem map_addr_of_shape (hshape : l'.map shape = l.map shape) :
    l'.map Cell.addr = l.map Cell.addr := by
  have hfst := congrArg (List.map Prod.fst) hshape
  rw [List.map_map, List.map_map] at hfst
  exact hfst

/-- The levels depend on the shape only. -/
theorem LinkedRow.reshape {row : ℕ → Option ZskiplistLevel} (h : LinkedRow ok l i row)
    (hshape : l'.map shape = l.map shape) : LinkedRow ok l' i row := by
  intro p c q hc hi
  obtain ⟨p', c', q', hl, -, haddr, hheight, hq'⟩ := split_shape hshape hc
  obtain ⟨s, hs, hspan⟩ := h p' c' q' hl (hheight ▸ hi)
  have hahead : (ahead Cell.height i q').map Cell.addr = (ahead Cell.height i q).map Cell.addr := by
    have := congrArg (fun l => (ahead Prod.snd i l).map Prod.fst) hq'
    simp only [← ahead_map shape Prod.snd, Option.map_map] at this
    exact this
  have hgap : gap Cell.height i q' = gap Cell.height i q := by
    have := congrArg (gap Prod.snd i) hq'
    rwa [← gap_map shape Prod.snd, ← gap_map shape Prod.snd] at this
  exact ⟨s, by rw [← haddr, hs, hahead], by rw [← hgap]; exact hspan⟩

/-- So does all of the list but what the nodes hold. -/
theorem Rep.reshape (h : z.Rep ok l) (hshape : l'.map shape = l.map shape)
    (hrow : ∀ i, z'.row i = z.row i) (hback : ∀ a, z'.backAt a = z.backAt a)
    (hheader : z'.header = z.header) (htail : z'.tail = z.tail) (hlength : z'.length = z.length)
    (hlevel : z'.level = z.level) (hallocs : z'.allocs = z.allocs)
    (hhead : z'.stemAt z.header = z.stemAt z.header)
    (hstem : ∀ c ∈ l', z'.stemAt c.addr = some (some c.ele, c.score, c.height))
    (hsorted : l'.Pairwise fun c d => c.key < d.key) : z'.Rep ok l' := by
  have htop : z'.top = z.top := by simp [top, hheader]
  have hshape' : (z'.top :: l').map shape = (z.top :: l).map shape := by
    rw [htop, List.map_cons, List.map_cons, hshape]
  have haddr := map_addr_of_shape hshape'
  have hlen : l'.length = l.length := by simpa using congrArg List.length hshape
  refine ⟨⟨?_, hstem, ?_, fun c hc => ?_, ?_, fun c hc => ?_, ?_⟩, fun i => ?_,
    fun p c q hc => ?_, ?_, ?_, hsorted⟩
  · rw [hheader, hhead]
    exact h.nodes.header
  · rw [haddr]
    exact h.nodes.nodup
  · have hmem : c.addr ∈ (z.top :: l).map Cell.addr := haddr ▸ List.mem_map_of_mem hc
    obtain ⟨c', hc', heq⟩ := List.mem_map.mp hmem
    rw [hallocs, ← heq]
    exact h.nodes.fresh c' hc'
  · rw [hallocs, hlen]
    exact h.nodes.few
  · obtain ⟨p, q, hsplit⟩ := List.append_of_mem hc
    obtain ⟨p', c', q', rfl, -, -, hheight, -⟩ := split_shape hshape hsplit
    rw [hlevel, ← hheight]
    exact h.nodes.heights c' (by simp)
  · rw [hlevel]
    exact h.nodes.level
  · rw [hlevel, hrow]
    exact (h.linked i).reshape hshape'
  · obtain ⟨p', c', q', hl, hp', haddr', -, -⟩ := split_shape hshape hc
    rw [hback, ← haddr', h.backs p' c' q' hl, ← List.getLast?_map, ← List.getLast?_map,
      map_addr_of_shape hp']
  · rw [htail, h.tail, ← List.getLast?_map, ← List.getLast?_map, map_addr_of_shape hshape]
  · rw [hlength, h.length, hlen]

end Shape

/-- A node whose neighbours leave room takes the new score where it is. -/
theorem Rep.rescore (h : z.Rep ok (pre ++ x :: post)) {newscore : S}
    (hleft : ∀ c ∈ pre, c.score < newscore) (hright : ∀ c ∈ post, newscore < c.score) :
    ∃ z', z.modify x.addr (fun nd => { nd with score := newscore }) = some z' ∧
      z'.Rep ok (pre ++ { x with score := newscore } :: post) := by
  obtain ⟨nd, hnd, hstem⟩ := h.nodes.node_exists (c := x) (by simp)
  obtain ⟨he, -, hh⟩ : nd.ele = some x.ele ∧ nd.score = x.score ∧ nd.level.length = x.height := by
    simpa [ZskiplistNode.stem] using hstem
  have hne : ∀ c ∈ pre ++ post, c.addr ≠ x.addr :=
    fun c hc => h.nodes.addr_ne (List.mem_cons_of_mem _ hc)
  refine ⟨{ z with node := Function.update z.node x.addr (some { nd with score := newscore }) },
    by simp [modify, hnd], h.reshape (by simp [shape]) (fun i => funext fun a => ?_)
    (fun a => ?_) rfl rfl rfl rfl rfl ?_ (fun c hc => ?_) ?_⟩
  · by_cases ha : a = x.addr
    · subst ha
      simp [row, levelAt, hnd]
    · simp [row, levelAt, Function.update_of_ne ha]
  · by_cases ha : a = x.addr
    · subst ha
      simp [backAt, hnd]
    · simp [backAt, Function.update_of_ne ha]
  · have hheader : z.header ≠ x.addr := h.nodes.addr_ne (c := z.top) List.mem_cons_self
    simp [stemAt, Function.update_of_ne hheader]
  · by_cases hcx : c.addr = x.addr
    · have hcx' : c = { x with score := newscore } := by
        rcases List.mem_append.mp hc with hc | hc
        · exact absurd hcx (hne c (by simp [hc]))
        · rcases List.mem_cons.mp hc with hc | hc
          · exact hc
          · exact absurd hcx (hne c (by simp [hc]))
      subst hcx'
      simp [stemAt, ZskiplistNode.stem, he, hh]
    · have hold : c ∈ pre ++ x :: post := by
        rcases List.mem_append.mp hc with hc | hc
        · simp [hc]
        · rcases List.mem_cons.mp hc with rfl | hc
          · exact absurd rfl hcx
          · simp [hc]
      rw [← h.nodes.stem c hold]
      simp [stemAt, Function.update_of_ne hcx]
  · obtain ⟨hpre, hpost, hcross⟩ := List.pairwise_append.mp h.sorted
    refine List.pairwise_append.mpr ⟨hpre,
      List.pairwise_cons.mpr ⟨fun c hc => ?_, (List.pairwise_cons.mp hpost).2⟩, ?_⟩
    · exact Prod.Lex.toLex_lt_toLex.mpr (.inl (hright c hc))
    · intro a ha b hb
      rcases List.mem_cons.mp hb with rfl | hb
      · exact Prod.Lex.toLex_lt_toLex.mpr (.inl (hleft a ha))
      · exact hcross a ha b (by simp [hb])

theorem score_le_of_key_le {d : Cell S} (h : c.key ≤ d.key) : c.score ≤ d.score := by
  rcases Prod.Lex.toLex_le_toLex.mp h with hlt | ⟨heq, -⟩
  · exact hlt.le
  · exact heq.le

theorem score_le_getLast {d : Cell S} (h : l.Pairwise fun c d => c.key < d.key) (hc : c ∈ l)
    (hd : l.getLast? = some d) : c.score ≤ d.score := by
  obtain ⟨l₀, rfl⟩ := List.getLast?_eq_some_iff.mp hd
  rcases List.mem_append.mp hc with hc | hc
  · exact score_le_of_key_le ((List.pairwise_append.mp h).2.2 c hc d (by simp)).le
  · rw [List.mem_singleton.mp hc]

theorem score_head_le {d : Cell S} (h : l.Pairwise fun c d => c.key < d.key) (hc : c ∈ l)
    (hd : l.head? = some d) : d.score ≤ c.score := by
  obtain ⟨l₀, rfl⟩ := List.head?_eq_some_iff.mp hd
  rcases List.mem_cons.mp hc with rfl | hc
  · exact le_rfl
  · exact score_le_of_key_le ((List.pairwise_cons.mp h).1 c hc).le

/-- `zslUpdateScore` of a node whose element no other has. -/
theorem zslUpdateScore_spec (h : z.Rep ok (pre ++ x :: post)) (draws : List ℕ) (newscore : S)
    (honly : ∀ c ∈ pre ++ post, c.ele ≠ x.ele)
    (hsmall : ok → (pre ++ x :: post).length < 2 ^ 32) :
    ∃ z' pre' post' y, z.zslUpdateScore draws x.score x.ele newscore = some (z', y.addr) ∧
      pre ++ post = pre' ++ post' ∧ y.score = newscore ∧ y.ele = x.ele ∧
      z'.Rep ok (pre' ++ y :: post') := by
  obtain ⟨us, hus, hfound, hrows⟩ := h.seek
  have hkeeps := keepsPlace_spec h newscore
  obtain ⟨hpre, hpost, -⟩ := List.pairwise_append.mp h.sorted
  by_cases hroom : ((pre.getLast?.all fun c => decide (c.score < newscore)) &&
      post.head?.all fun c => decide (newscore < c.score)) = true
  · -- the neighbours leave room, so all other nodes do
    obtain ⟨hl, hr⟩ := Bool.and_eq_true_iff.mp hroom
    have hleft : ∀ c ∈ pre, c.score < newscore := by
      intro c hc
      obtain ⟨d, hd⟩ :=
        Option.isSome_iff_exists.mp (List.getLast?_isSome.mpr (List.ne_nil_of_mem hc))
      rw [hd] at hl
      exact (score_le_getLast hpre hc hd).trans_lt (by simpa using hl)
    have hright : ∀ c ∈ post, newscore < c.score := by
      intro c hc
      obtain ⟨d, hd⟩ :=
        Option.isSome_iff_exists.mp (List.isSome_head?.mpr (List.ne_nil_of_mem hc))
      rw [hd] at hr
      exact lt_of_lt_of_le (by simpa using hr)
        (score_head_le (List.pairwise_cons.mp hpost).2 hc hd)
    obtain ⟨z', hz', hrep⟩ := h.rescore hleft hright
    exact ⟨z', pre, post, { x with score := newscore },
      by simp [zslUpdateScore, hus, hfound, hkeeps, hroom, hz'], rfl, rfl, rfl, hrep⟩
  · obtain ⟨z₁, hz₁, hrep, hstem, hhdr, hallocs⟩ := zslDeleteNode_spec h hrows
    have hele : ((z₁.node x.addr).bind fun nd => nd.ele) = some x.ele := by
      obtain ⟨nd, hnd, hs⟩ := node_of_stemAt ((hstem x.addr).trans (h.nodes.stem x (by simp)))
      rw [hnd]
      exact congrArg Prod.fst hs
    obtain ⟨z₂, pre', post', y, hz₂, hsplit, hscore, hyele, hyaddr, hhdr₂, hrep₂⟩ :=
      zslInsert_spec hrep draws newscore x.ele
        (fun c hc hkey => honly c hc (congrArg (fun k => (ofLex k).2) hkey)) (by
          intro hok
          have := hsmall hok
          simp only [List.length_append, List.length_cons] at this ⊢
          omega)
    refine ⟨z₂.zslFreeNode x.addr, pre', post', y, ?_, hsplit, hscore, hyele, hrep₂.free ?_⟩
    · simp only [zslUpdateScore, hus, Option.bind_some, hfound, hkeeps, if_neg hroom, hz₁, hele,
        hz₂, if_true, Option.map_some]
    · intro c hc
      by_cases hcy : c = y
      · -- its address is new
        rw [hcy, hyaddr, hallocs]
        exact (h.nodes.fresh x (by simp)).ne'
      · refine h.nodes.addr_ne ?_
        rw [hsplit, show z.top = z₂.top by simp [top, hhdr, hhdr₂]]
        simp only [List.mem_cons, List.mem_append] at hc ⊢
        tauto

-- ============================================================= ranks

theorem ofNat_le_iff {a b : ℕ} (ha : a < 2 ^ 64) (hb : b < 2 ^ 64) :
    UInt64.ofNat a ≤ UInt64.ofNat b ↔ a ≤ b := by
  rw [UInt64.le_iff_toNat_le, UInt64.toNat_ofNat', UInt64.toNat_ofNat']
  omega

theorem ofNat_eq_iff {a b : ℕ} (ha : a < 2 ^ 64) (hb : b < 2 ^ 64) :
    UInt64.ofNat a = UInt64.ofNat b ↔ a = b := by
  rw [← UInt64.toNat_inj, UInt64.toNat_ofNat', UInt64.toNat_ofNat']
  omega

/-- A place of the header and some nodes: the header, or a node. -/
theorem place_cases {p q : List (Cell S)} (h : z.top :: pre = p ++ c :: q) :
    (p = [] ∧ c = z.top) ∨ ∃ p', p = z.top :: p' ∧ pre = p' ++ c :: q := by
  cases p with
  | nil => exact .inl ⟨rfl, (List.cons.inj h).1.symm⟩
  | cons a p =>
      obtain ⟨rfl, hpre⟩ := List.cons.inj h
      exact .inr ⟨p, rfl, hpre⟩

/-- `zslGetRank`: the place of the node, counted from 1. -/
theorem zslGetRank_spec (h : z.Rep True (pre ++ x :: post))
    (honly : ∀ c ∈ pre ++ post, c.ele ≠ x.ele) :
    z.zslGetRank x.score x.ele = some (UInt64.ofNat (pre.length + 1)) := by
  have hsplit : pre ++ x :: post = (pre ++ [x]) ++ post := by simp
  obtain ⟨hlt, hgt⟩ := h.around
  rw [hsplit] at h
  have hstem : ∀ c ∈ (pre ++ [x]) ++ post, ∀ nd, z.node c.addr = some nd →
      nd.stem = (some c.ele, c.score, c.height) := by
    intro c hc nd hnd
    obtain ⟨nd', hnd', hs⟩ := h.nodes.node_exists hc
    rwa [Option.some.inj (hnd.symm.trans hnd')]
  have hpasses : z.Passes True (fun r s => r + s) (fun _ => ZskiplistNode.upTo x.score x.ele)
      UInt64.ofNat (pre ++ [x]) post := by
    refine ⟨fun k m => (UInt64.ofNat_add k m).symm, fun p c q r nd hc hnd _ => ?_,
      fun p c q r nd hc hnd _ => ?_⟩
    · have hmem : c ∈ pre ++ [x] := by rw [hc]; simp
      rw [upTo_eq (hstem c (List.mem_append_left _ hmem) nd hnd), decide_eq_true_iff]
      rcases List.mem_append.mp hmem with hmem | hmem
      · exact (hlt c hmem).le
      · rw [List.mem_singleton.mp hmem]
        exact le_rfl
    · have hmem : c ∈ post := by rw [hc]; simp
      rw [upTo_eq (hstem c (List.mem_append_right _ hmem) nd hnd), decide_eq_false_iff_not]
      exact not_le.mpr (hgt c hmem)
  obtain ⟨o, ho, hfound, -⟩ := seek_spec h.nodes h.linked hpasses
    (fun nd _ => nd.named x.ele) (pre.length + 1) (by
      intro p c q nd r hc hnd _
      rcases place_cases hc with ⟨rfl, rfl⟩ | ⟨p', rfl, hpre⟩
      · obtain ⟨nd', hnd', hs⟩ := node_of_stemAt h.nodes.header
        obtain rfl := Option.some.inj (hnd.symm.trans hnd')
        have he : nd.ele = none := congrArg Prod.fst hs
        simp [ZskiplistNode.named, he]
      · have he : nd.ele = some c.ele :=
          congrArg Prod.fst (hstem c (by simp [hpre]) nd hnd)
        rw [ZskiplistNode.named, he, Option.any_some, sdscmp_same]
        congr 1
        have hlen := congrArg List.length hpre
        simp only [List.length_append, List.length_cons, List.length_nil] at hlen
        rcases split_insert hpre with ⟨q', hpre', -⟩ | ⟨rfl, rfl, -⟩ | ⟨p₁, hnil, -⟩
        · have hc' : c.ele ≠ x.ele := honly c (by simp [hpre'])
          have hlen' := congrArg List.length hpre'
          simp only [List.length_append, List.length_cons] at hlen' ⊢
          simp only [hc', eq_iff_iff, false_iff]
          omega
        · simp
        · exact absurd hnil (by simp))
    (le_refl z.level) (p := []) (c := z.top) (q := pre ++ [x]) (r := 0) rfl h.nodes.level.2
    (fun _ => rfl) (by simp) (fun hzero => absurd hzero h.nodes.level.1.ne')
  obtain ⟨p', c', r', -, rfl, hr'⟩ := hfound (by simp)
  change z.seek _ _ _ z.level z.header 0 = _ at ho
  rw [zslGetRank, ho, Option.map_some]
  exact congrArg some (hr' trivial)

/-- `zslGetElementByRank`: the node at a place counted from 1, and NULL
beyond the end. -/
theorem zslGetElementByRank_spec (h : z.Rep True l) {k : ℕ} (hk : 0 < k) (hk' : k < 2 ^ 64)
    (hsmall : l.length < 2 ^ 32) :
    z.zslGetElementByRank (UInt64.ofNat k) = some (l[k - 1]?.map Cell.addr) := by
  obtain ⟨pre, hpre⟩ : ∃ pre, pre = l.take k := ⟨_, rfl⟩
  obtain ⟨post, hpost⟩ : ∃ post, post = l.drop k := ⟨_, rfl⟩
  have hl : l = pre ++ post := by rw [hpre, hpost, List.take_append_drop]
  have hlen : pre.length = min k l.length := by rw [hpre, List.length_take]
  have hlen' : post.length = l.length - k := by rw [hpost, List.length_drop]
  clear hpre hpost
  subst hl
  have hpasses : z.Passes True (fun r s => r + s) (fun r _ => decide (r ≤ UInt64.ofNat k))
      UInt64.ofNat pre post := by
    refine ⟨fun k m => (UInt64.ofNat_add k m).symm, fun p c q r nd hc _ hr => ?_,
      fun p c q r nd hc _ hr => ?_⟩
    · have := congrArg List.length hc
      simp only [List.length_append, List.length_cons] at this
      rw [hr trivial, decide_eq_true_iff, ofNat_le_iff (by omega) hk']
      omega
    · have := congrArg List.length hc
      simp only [List.length_append, List.length_cons] at this hlen hlen' hsmall
      rw [hr trivial, decide_eq_false_iff_not, ofNat_le_iff (by omega) hk']
      omega
  obtain ⟨o, ho, hfound, hnone⟩ := seek_spec h.nodes h.linked hpasses
    (fun _ r => r == UInt64.ofNat k) k (by
      intro p c q nd r hc _ hr
      have := congrArg List.length hc
      simp only [List.length_append, List.length_cons] at this hsmall
      rw [hr trivial, beq_eq_decide]
      congr 1
      rw [ofNat_eq_iff (by omega) hk'])
    (le_refl z.level) (p := []) (c := z.top) (q := pre) (r := 0) rfl h.nodes.level.2
    (fun _ => rfl) (by omega) (fun hzero => absurd hzero h.nodes.level.1.ne')
  change z.seek _ _ _ z.level z.header 0 = _ at ho
  rw [zslGetElementByRank, ho, Option.map_some]
  congr 1
  by_cases hkl : k ≤ (pre ++ post).length
  · obtain ⟨p', c', r', hsplit, rfl, -⟩ := hfound (by omega)
    rcases place_cases hsplit with ⟨rfl, -⟩ | ⟨p₁, rfl, rfl⟩
    · have := congrArg List.length hsplit
      simp only [List.length_cons, List.length_nil, List.length_append] at this
      omega
    · have hp₁ : p₁.length = k - 1 := by
        simp only [List.length_append, List.length_singleton] at hlen hkl
        omega
      rw [← hp₁]
      simp
  · rw [hnone (by omega), List.getElem?_eq_none (by omega)]
    rfl

end Zskiplist

end CrdtRedis
