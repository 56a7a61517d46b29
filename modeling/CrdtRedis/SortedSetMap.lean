/-
A sorted set is a map from elements to scores, whatever its encoding and
whatever levels the nodes of its skip list were given.

`Shows o ok m` relates an object to the map: the entries it stores are
the listing of `m` by score and element. Every function of the object
does to the map what it is for, and what it answers is read off the map;
so two objects that show one map cannot be told apart. `ok` is carried
along for the ranks, which need the spans of the skip list.
-/
import CrdtRedis.SortedSet
import CrdtRedis.SkipListOps
import CrdtRedis.Data.Listing

namespace CrdtRedis

set_option linter.unusedSectionVars false

variable {S : Type} [LinearOrder S] [Zero S]

open Tower

-- ======================================================== the entries

/-- What entries are sorted by. -/
def zkey (x : String × S) : S ×ₗ String := toLex (x.2, x.1)

theorem zkey_lt {e e' : String} {s s' : S} :
    zkey (e, s) < zkey (e', s') ↔ s < s' ∨ s = s' ∧ e < e' := Prod.Lex.toLex_lt_toLex

def Cell.entry (c : Cell S) : String × S := (c.ele, c.score)

/-- The entries of a ziplist that is found one by one. -/
theorem zzlFindFrom_spec (ele : String) (k : ℕ) (zl : Zl S) :
    (zzlFindFrom ele k zl = none ∧ ∀ s, (ele, s) ∉ zl) ∨
      ∃ pre s post, zzlFindFrom ele k zl = some (k + pre.length, s) ∧
        zl = pre ++ (ele, s) :: post := by
  induction zl generalizing k with
  | nil => exact .inl ⟨rfl, fun s => List.not_mem_nil⟩
  | cons x zl ih =>
      obtain ⟨e, s⟩ := x
      by_cases he : e = ele
      · subst he
        exact .inr ⟨[], s, zl, by simp [zzlFindFrom], rfl⟩
      · rcases ih (k + 1) with ⟨hnone, hnot⟩ | ⟨pre, s', post, hsome, rfl⟩
        · refine .inl ⟨by simp [zzlFindFrom, he, hnone], fun s' hmem => ?_⟩
          rcases List.mem_cons.mp hmem with heq | hmem
          · exact he (congrArg Prod.fst heq).symm
          · exact hnot s' hmem
        · refine .inr ⟨(e, s) :: pre, s', post, ?_, rfl⟩
          simp [zzlFindFrom, he, hsome]
          omega

/-- `zzlInsert` of an entry that is not there. -/
theorem zzlInsert_spec {zl : Zl S} (ele : String) (score : S)
    (hs : zl.Pairwise fun x y => zkey x < zkey y) (hnew : (ele, score) ∉ zl) :
    ∃ pre post, zl = pre ++ post ∧ zzlInsert ele score zl = pre ++ (ele, score) :: post ∧
      (pre ++ (ele, score) :: post).Pairwise fun x y => zkey x < zkey y := by
  induction zl with
  | nil => exact ⟨[], [], rfl, rfl, List.pairwise_singleton _ _⟩
  | cons x zl ih =>
      obtain ⟨e, s⟩ := x
      obtain ⟨hx, hzl⟩ := List.pairwise_cons.mp hs
      have hgt : sdscmp e ele = .gt ↔ ele < e := by
        rw [sdscmp_eq]
        split_ifs with h h'
        · simp [h.not_gt]
        · simp [h']
        · simp [h']
      by_cases hlt : zkey (ele, score) < zkey (e, s)
      · -- it goes right before this entry
        refine ⟨[], (e, s) :: zl, rfl, ?_, ?_⟩
        · rcases zkey_lt.mp hlt with h | ⟨h, h'⟩
          · simp [zzlInsert, h]
          · simp [zzlInsert, h, hgt, h']
        · refine List.pairwise_cons.mpr ⟨fun y hy => ?_, hs⟩
          rcases List.mem_cons.mp hy with rfl | hy
          · exact hlt
          · exact hlt.trans (hx y hy)
      · have hcmp : ¬ score < s ∧ ¬ (s = score ∧ sdscmp e ele = .gt) :=
          ⟨fun h => hlt (zkey_lt.mpr (.inl h)),
            fun h => hlt (zkey_lt.mpr (.inr ⟨h.1.symm, hgt.mp h.2⟩))⟩
        have hne : (e, s) ≠ (ele, score) := fun heq => hnew (by rw [heq]; simp)
        have hbefore : zkey (e, s) < zkey (ele, score) := by
          refine lt_of_le_of_ne (not_lt.mp hlt) fun heq => hne ?_
          have := toLex.injective heq
          simpa [and_comm] using this
        obtain ⟨pre, post, rfl, hins, hsorted⟩ := ih hzl fun h => hnew (List.mem_cons_of_mem _ h)
        refine ⟨(e, s) :: pre, post, rfl, ?_, List.pairwise_cons.mpr ⟨fun y hy => ?_, hsorted⟩⟩
        · rw [zzlInsert, if_neg hcmp.1, if_neg hcmp.2, hins]
          rfl
        · rcases List.mem_append.mp hy with hy | hy
          · exact hx y (by simp [hy])
          · rcases List.mem_cons.mp hy with rfl | hy
            · exact hbefore
            · exact hx y (by simp [hy])

-- ======================================================= dictionaries

/-- The dictionary has the node of every element of the row. -/
def Indexes (dict : String → Option ℕ) (l : List (Cell S)) : Prop :=
  ∀ e a, dict e = some a ↔ ∃ c ∈ l, c.ele = e ∧ c.addr = a

section Index

variable {dict : String → Option ℕ} {pre post l : List (Cell S)} {x : Cell S} {ele : String}

theorem Indexes.put (h : Indexes dict (pre ++ post)) (hnew : ∀ c ∈ pre ++ post, c.ele ≠ x.ele) :
    Indexes (Function.update dict x.ele (some x.addr)) (pre ++ x :: post) := by
  intro e a
  have hmem : (∃ c ∈ pre ++ x :: post, c.ele = e ∧ c.addr = a) ↔
      (x.ele = e ∧ x.addr = a) ∨ ∃ c ∈ pre ++ post, c.ele = e ∧ c.addr = a := by
    simp only [List.mem_append, List.mem_cons]
    grind
  rw [hmem]
  by_cases he : e = x.ele
  · subst he
    rw [Function.update_self]
    constructor
    · intro heq
      exact .inl ⟨rfl, Option.some.inj heq⟩
    · intro hor
      rcases hor with ⟨-, rfl⟩ | ⟨c, hc, hce, -⟩
      · rfl
      · exact absurd hce (hnew c hc)
  · rw [Function.update_of_ne he, h e a]
    exact ⟨.inr, fun hor => hor.resolve_left fun hx => he hx.1.symm⟩

theorem Indexes.drop (h : Indexes dict (pre ++ x :: post))
    (honly : ∀ c ∈ pre ++ post, c.ele ≠ x.ele) :
    Indexes (Function.update dict x.ele none) (pre ++ post) := by
  intro e a
  by_cases he : e = x.ele
  · subst he
    rw [Function.update_self]
    refine iff_of_false (by simp) fun hex => ?_
    obtain ⟨c, hc, hce, -⟩ := hex
    exact honly c hc hce
  · rw [Function.update_of_ne he, h e a]
    simp only [List.mem_append, List.mem_cons]
    grind

/-- An element the dictionary does not have is not in the row. -/
theorem Indexes.absent (h : Indexes dict l) (hnone : dict ele = none) :
    ∀ c ∈ l, c.ele ≠ ele := by
  intro c hc hce
  have := (h ele c.addr).mpr ⟨c, hc, hce, rfl⟩
  rw [hnone] at this
  cases this

end Index

namespace ZsetObj

/-- The entries an object stores. -/
inductive Stores (ok : Prop) : ZsetObj S → Zl S → Prop
  | ziplist (zl : Zl S) : Stores ok (.ziplist zl) zl
  | skiplist {zs : Zset S} {l : List (Cell S)} (hrep : zs.zsl.Rep ok l)
      (hdict : Indexes zs.dict l) : Stores ok (.skiplist zs) (l.map Cell.entry)

/-- The object is the map `m`. -/
def Shows (o : ZsetObj S) (ok : Prop) (m : String → Option S) : Prop :=
  ∃ es, Stores ok o es ∧ Listing zkey es m

variable {ok : Prop} {o : ZsetObj S} {m : String → Option S} {es : Zl S} {zs : Zset S}
  {l : List (Cell S)} {ele : String} {score : S}

theorem entries_sorted (h : l.Pairwise fun c d => c.key < d.key) :
    (l.map Cell.entry).Pairwise fun x y => zkey x < zkey y :=
  List.pairwise_map.mpr h

-- ========================================================= converting

theorem zslCreate_rep (ok : Prop) : (Zskiplist.zslCreate : Zskiplist S).Rep ok [] := by
  have hlevel : ∀ i, i < zskiplistMaxlevel →
      (Zskiplist.zslCreate : Zskiplist S).levelAt 0 i = some ⟨none, 0⟩ := by
    intro i hi
    simp [Zskiplist.zslCreate, Zskiplist.zslCreateNode, Zskiplist.levelAt, hi]
  refine ⟨⟨?_, fun c hc => absurd hc List.not_mem_nil, by simp, fun c hc => ?_, ?_,
    fun c hc => absurd hc List.not_mem_nil, ?_, ?_⟩, fun i p c q hc hi => ?_,
    fun p c q hc => by simp at hc, rfl, rfl, List.Pairwise.nil⟩
  · simp [Zskiplist.zslCreate, Zskiplist.zslCreateNode, Zskiplist.stemAt, ZskiplistNode.stem]
  · rw [List.mem_singleton.mp hc]
    exact Nat.one_pos
  · exact Nat.one_pos
  · exact Nat.one_pos
  · show 1 ≤ zskiplistMaxlevel
    simp [zskiplistMaxlevel]
  · cases p with
    | nil =>
        obtain ⟨rfl, rfl⟩ := List.cons.inj hc
        exact ⟨0, hlevel i hi, fun _ => rfl⟩
    | cons a p => simp at hc

/-- The loop of the conversion adds the entries that are left. -/
theorem convertLoop_spec (zs : Zset S) (zl : Zl S) (draws : List (List ℕ)) (hrep : zs.zsl.Rep ok l)
    (hdict : Indexes zs.dict l) (hnew : ∀ x ∈ zl, ∀ c ∈ l, c.ele ≠ x.1)
    (hnd : (zl.map Prod.fst).Nodup) (hsmall : ok → l.length + zl.length < 2 ^ 32) :
    ∃ zs' l', convertLoop draws zl zs = some zs' ∧ zs'.zsl.Rep ok l' ∧ Indexes zs'.dict l' ∧
      (l'.map Cell.entry).Perm (l.map Cell.entry ++ zl) := by
  induction zl generalizing draws zs l with
  | nil => exact ⟨zs, l, rfl, hrep, hdict, by simp⟩
  | cons y zl ih =>
      obtain ⟨e, s⟩ := y
      have habsent : ∀ c ∈ l, c.ele ≠ e := hnew (e, s) List.mem_cons_self
      obtain ⟨z₁, pre, post, x, hz₁, rfl, rfl, rfl, -, -, hrep₁⟩ :=
        Zskiplist.zslInsert_spec hrep (draws.headD []) s e
          (fun c hc hkey => habsent c hc (congrArg (fun k => (ofLex k).2) hkey)) (by
            intro hok
            have := hsmall hok
            simp only [List.length_cons] at this
            omega)
      have hnone : zs.dict x.ele = none := by
        rw [Option.eq_none_iff_forall_ne_some]
        intro a ha
        obtain ⟨c, hc, hce, -⟩ := (hdict x.ele a).mp ha
        exact habsent c hc hce
      obtain ⟨hxzl, hnd⟩ := List.nodup_cons.mp hnd
      have hadd : Zset.dictAdd { zs with zsl := z₁ } x.ele x.addr
          = some ⟨Function.update zs.dict x.ele (some x.addr), z₁⟩ := by
        simp [Zset.dictAdd, hnone]
      obtain ⟨zs₁, hzs₁⟩ : ∃ zs₁ : Zset S, zs₁ =
          ⟨Function.update zs.dict x.ele (some x.addr), z₁⟩ := ⟨_, rfl⟩
      rw [← hzs₁] at hadd
      have hput : Indexes zs₁.dict (pre ++ x :: post) := by
        rw [hzs₁]
        exact hdict.put habsent
      obtain ⟨zs', l', hzs', hrep', hdict', hperm⟩ := ih zs₁ draws.tail
        (by rw [hzs₁]; exact hrep₁) hput (by
          intro y hy c hc
          simp only [List.mem_append, List.mem_cons] at hc
          rcases hc with hc | rfl | hc
          · exact hnew y (by simp [hy]) c (by simp [hc])
          · intro hce
            exact hxzl (List.mem_map.mpr ⟨y, hy, hce.symm⟩)
          · exact hnew y (by simp [hy]) c (by simp [hc]))
        hnd (by
          intro hok
          have := hsmall hok
          simp only [List.length_cons, List.length_append] at this ⊢
          omega)
      refine ⟨zs', l', ?_, hrep', hdict', hperm.trans ?_⟩
      · simp only [convertLoop, hz₁, Option.bind_some, hadd, hzs']
      · simp only [List.map_append, List.map_cons, List.append_assoc, List.cons_append]
        exact List.Perm.append_left _ List.perm_middle.symm

/-- `zsetConvert` changes nothing but the encoding. -/
theorem zsetConvert_spec (ok : Prop) {zl : Zl S} (draws : List (List ℕ)) (h : Listing zkey zl m)
    (hne : zl ≠ []) (hsmall : ok → zl.length < 2 ^ 32) :
    ∃ o, zsetConvert draws (.ziplist zl) = some o ∧ Stores ok o zl := by
  obtain ⟨zs, l, hzs, hrep, hdict, hperm⟩ :=
    convertLoop_spec ⟨fun _ => none, .zslCreate⟩ zl draws (zslCreate_rep ok) (fun e a => by simp)
      (fun x _ c hc => absurd hc List.not_mem_nil) h.nodup_names (by simpa using hsmall)
  have hentries : l.map Cell.entry = zl := by
    refine List.Perm.eq_of_pairwise ?_ (entries_sorted hrep.sorted) h.sorted (by simpa using hperm)
    intro x y _ _ hxy hyx
    exact absurd (hxy.trans hyx) (lt_irrefl _)
  refine ⟨.skiplist zs, ?_, hentries ▸ .skiplist hrep hdict⟩
  cases zl with
  | nil => exact absurd rfl hne
  | cons x zl => simp only [zsetConvert, hzs, Option.map_some]

-- ====================================================== what is found

/-- `zzlFind`, by the map. -/
theorem zzlFind_none {zl : Zl S} (h : Listing zkey zl m) (hm : m ele = none) :
    zzlFind zl ele = none := by
  rcases zzlFindFrom_spec ele 0 zl with ⟨hnone, -⟩ | ⟨pre, s, post, -, rfl⟩
  · exact hnone
  · have hs : m ele = some s := (h.mem ele s).mp (by simp)
    rw [hm] at hs
    cases hs

theorem zzlFind_some {zl : Zl S} (h : Listing zkey zl m) (hm : m ele = some score) :
    ∃ pre post, zzlFind zl ele = some (pre.length, score) ∧ zl = pre ++ (ele, score) :: post := by
  rcases zzlFindFrom_spec ele 0 zl with ⟨-, hnot⟩ | ⟨pre, s, post, hsome, rfl⟩
  · exact absurd ((h.mem ele score).mpr hm) (hnot score)
  · have hs : m ele = some s := (h.mem ele s).mp (by simp)
    obtain rfl := Option.some.inj (hm.symm.trans hs)
    exact ⟨pre, post, by rw [zzlFind, hsome, Nat.zero_add], rfl⟩

theorem zzlDelete_append (pre post : Zl S) (x : String × S) :
    zzlDelete (pre ++ x :: post) pre.length = pre ++ post := by
  rw [zzlDelete, List.eraseIdx_append_of_length_le le_rfl, Nat.sub_self, List.eraseIdx_cons_zero]

theorem zzlInsert_listing {zl : Zl S} (h : Listing zkey zl m) (hm : m ele = none) (score : S) :
    Listing zkey (zzlInsert ele score zl) (Function.update m ele (some score)) := by
  have hnew : (ele, score) ∉ zl := by
    rw [h.mem, hm]
    exact (Option.some_ne_none _).symm
  obtain ⟨pre, post, rfl, hins, hsorted⟩ := zzlInsert_spec ele score h.sorted hnew
  rw [hins]
  exact h.put hm hsorted

/-- The dictionary knows the elements of the map. -/
theorem dict_none (hdict : Indexes zs.dict l) (h : Listing zkey (l.map Cell.entry) m)
    (hm : m ele = none) : zs.dict ele = none := by
  rw [Option.eq_none_iff_forall_ne_some]
  intro a ha
  obtain ⟨c, hc, hce, -⟩ := (hdict ele a).mp ha
  have hs : m c.ele = some c.score := (h.mem c.ele c.score).mp (List.mem_map_of_mem hc)
  rw [hce, hm] at hs
  cases hs

/-- It leads to the node of the element, which has its score. -/
theorem dict_some (hrep : zs.zsl.Rep ok l) (hdict : Indexes zs.dict l)
    (h : Listing zkey (l.map Cell.entry) m) (hm : m ele = some score) :
    ∃ pre x post, l = pre ++ x :: post ∧ x.ele = ele ∧ x.score = score ∧
      zs.dict ele = some x.addr ∧ dictScore zs x.addr = some score ∧
      ∀ c ∈ pre ++ post, c.ele ≠ x.ele := by
  obtain ⟨x, hx, hentry⟩ := List.mem_map.mp ((h.mem ele score).mpr hm)
  obtain ⟨rfl, rfl⟩ : x.ele = ele ∧ x.score = score := Prod.mk.inj hentry
  obtain ⟨pre, post, rfl⟩ := List.append_of_mem hx
  obtain ⟨nd, hnd, hstem⟩ := hrep.nodes.node_exists hx
  refine ⟨pre, x, post, rfl, rfl, rfl, (hdict x.ele x.addr).mpr ⟨x, hx, rfl, rfl⟩, ?_, ?_⟩
  · have hs : nd.score = x.score := congrArg (fun s => s.2.1) hstem
    rw [dictScore, hnd, Option.map_some, hs]
  · have hnd := h.nodup_names
    rw [List.map_map, List.map_append, List.map_cons] at hnd
    have hout := (List.nodup_cons.mp (List.perm_middle.nodup_iff.mp hnd)).1
    intro c hc hce
    refine hout ?_
    rw [← List.map_append]
    exact List.mem_map.mpr ⟨c, hc, hce⟩

/-- A row with one more cell shows one more entry. -/
theorem put_cell {pre post : List (Cell S)} {x : Cell S}
    (h : Listing zkey ((pre ++ post).map Cell.entry) m) (hm : m x.ele = none)
    (hs : (pre ++ x :: post).Pairwise fun c d => c.key < d.key) :
    Listing zkey ((pre ++ x :: post).map Cell.entry)
      (Function.update m x.ele (some x.score)) := by
  have hsorted := entries_sorted hs
  rw [List.map_append, List.map_cons] at hsorted ⊢
  rw [List.map_append] at h
  exact h.put hm hsorted

theorem drop_cell {pre post : List (Cell S)} {x : Cell S}
    (h : Listing zkey ((pre ++ x :: post).map Cell.entry) m) :
    Listing zkey ((pre ++ post).map Cell.entry) (Function.update m x.ele none) := by
  rw [List.map_append, List.map_cons] at h
  rw [List.map_append]
  exact h.drop

-- ===================================================== the operations

variable [ScoreAdd S]

/-- What `zsetAdd` is for. -/
def mapAdd (m : String → Option S) (score : Option S) (ele : String) (flags : ZaddFlags) :
    (String → Option S) × ZaddResult S :=
  match score with
  | none => (m, .notNumber)
  | some score =>
      match m ele with
      | some curscore =>
          if flags.nx then (m, .refused)
          else
            match raised flags score curscore with
            | none => (m, .notNumber)
            | some score =>
                (Function.update m ele (some score), updateResult flags score curscore)
      | none =>
          if flags.xx then (m, .refused) else (Function.update m ele (some score), addResult score)

section Add

variable (conf : ZsetConf) (draws : List (List ℕ)) (score : S) (ele : String) (flags : ZaddFlags)

/-- `zsetAdd` on a ziplist. -/
theorem zsetAddZiplist_spec {zl : Zl S} (h : Listing zkey zl m)
    (hsmall : ok → zl.length + 1 < 2 ^ 32) :
    ∃ o, zsetAddZiplist conf draws score ele flags zl
        = some (o, (mapAdd m (some score) ele flags).2) ∧
      o.Shows ok (mapAdd m (some score) ele flags).1 := by
  have hkeep : ZsetObj.Shows (.ziplist zl) ok m := ⟨zl, .ziplist zl, h⟩
  cases hm : m ele with
  | some curscore =>
      obtain ⟨pre, post, hfind, rfl⟩ := zzlFind_some h hm
      by_cases hnx : flags.nx
      · exact ⟨.ziplist (pre ++ (ele, curscore) :: post),
          by simp [zsetAddZiplist, hfind, hnx, mapAdd, hm], by simpa [mapAdd, hm, hnx]⟩
      · simp only [zsetAddZiplist, hfind, mapAdd, hm, hnx, Bool.false_eq_true, if_false]
        cases hraised : raised flags score curscore with
        | none => exact ⟨_, rfl, hkeep⟩
        | some score =>
            refine ⟨_, rfl, ?_⟩
            dsimp only
            split_ifs with hne
            · refine ⟨_, .ziplist _, ?_⟩
              have hput := zzlInsert_listing h.drop (Function.update_self ele none m) score
              rw [Function.update_idem] at hput
              rw [zzlDelete_append]
              exact hput
            · rw [not_not.mp hne, ← hm, Function.update_eq_self]
              exact hkeep
  | none =>
      have hfind := zzlFind_none h hm
      by_cases hxx : flags.xx
      · exact ⟨.ziplist zl, by simp [zsetAddZiplist, hfind, hxx, mapAdd, hm],
          by simpa [mapAdd, hm, hxx]⟩
      · have hput := zzlInsert_listing h hm score
        have hlen : (zzlInsert ele score zl).length = zl.length + 1 := by
          obtain ⟨pre, post, rfl, hins, -⟩ := zzlInsert_spec ele score h.sorted
            (by rw [h.mem, hm]; exact (Option.some_ne_none _).symm)
          rw [hins]
          simp only [List.length_append, List.length_cons]
          omega
        simp only [zsetAddZiplist, hfind, mapAdd, hm, hxx, Bool.false_eq_true, if_false]
        split_ifs with hbig
        · obtain ⟨o, ho, hstores⟩ := zsetConvert_spec ok draws hput
            (List.ne_nil_of_length_pos (by omega)) (by rw [hlen]; exact hsmall)
          exact ⟨o, by rw [ho]; rfl, _, hstores, hput⟩
        · exact ⟨_, rfl, _, .ziplist _, hput⟩

/-- `zsetAdd` on a skip list. -/
theorem zsetAddSkiplist_spec (hrep : zs.zsl.Rep ok l) (hdict : Indexes zs.dict l)
    (h : Listing zkey (l.map Cell.entry) m) (hsmall : ok → l.length + 1 < 2 ^ 32) :
    ∃ o, zsetAddSkiplist draws score ele flags zs = some (o, (mapAdd m (some score) ele flags).2) ∧
      o.Shows ok (mapAdd m (some score) ele flags).1 := by
  have hkeep : ZsetObj.Shows (.skiplist zs) ok m := ⟨_, .skiplist hrep hdict, h⟩
  cases hm : m ele with
  | some curscore =>
      obtain ⟨pre, x, post, rfl, rfl, rfl, hfind, hscore, honly⟩ := dict_some hrep hdict h hm
      by_cases hnx : flags.nx
      · exact ⟨.skiplist zs, by simp [zsetAddSkiplist, hfind, hnx, mapAdd, hm],
          by simpa [mapAdd, hm, hnx]⟩
      · simp only [zsetAddSkiplist, hfind, hscore, mapAdd, hm, hnx, Bool.false_eq_true, if_false,
          Option.bind_some]
        cases hraised : raised flags score x.score with
        | none => exact ⟨_, rfl, hkeep⟩
        | some score =>
            dsimp only
            split_ifs with hne
            · obtain ⟨z', pre', post', y, hz', hsplit, hys, hye, hrep'⟩ :=
                Zskiplist.zslUpdateScore_spec hrep (draws.headD []) score honly
                  fun hok => Nat.lt_of_succ_lt (hsmall hok)
              refine ⟨_, by rw [hz']; rfl, _, .skiplist hrep' ?_, ?_⟩
              · have hdrop := hdict.drop honly
                rw [hsplit] at hdrop honly
                have hput := hdrop.put (x := y) (by rw [hye]; exact honly)
                rw [hye, Function.update_idem] at hput
                exact hput
              · have hdrop := drop_cell h
                rw [hsplit] at hdrop
                have hput := put_cell hdrop (by rw [hye]; exact Function.update_self _ _ _)
                  hrep'.sorted
                rw [hye, hys, Function.update_idem] at hput
                exact hput
            · rw [not_not.mp hne, ← hm, Function.update_eq_self]
              exact ⟨_, rfl, hkeep⟩
  | none =>
      have hfind := dict_none hdict h hm
      by_cases hxx : flags.xx
      · exact ⟨.skiplist zs, by simp [zsetAddSkiplist, hfind, hxx, mapAdd, hm],
          by simpa [mapAdd, hm, hxx]⟩
      · have habsent := hdict.absent hfind
        obtain ⟨z', pre, post, x, hz', rfl, rfl, rfl, -, -, hrep'⟩ :=
          Zskiplist.zslInsert_spec hrep (draws.headD []) score ele
            (fun c hc hkey => habsent c hc (congrArg (fun k => (ofLex k).2) hkey)) hsmall
        simp only [zsetAddSkiplist, hfind, mapAdd, hm, hxx, Bool.false_eq_true, if_false, hz',
          Option.bind_some, Zset.dictAdd, Option.map_some]
        exact ⟨_, rfl, _, .skiplist hrep' (hdict.put habsent), put_cell h hm hrep'.sorted⟩

/-- `zsetAdd` does to the map what it is for. -/
theorem zsetAdd_spec (score : Option S) (h : o.Shows ok m)
    (hsmall : ok → ∀ es, Listing zkey es m → es.length + 1 < 2 ^ 32) :
    ∃ o', o.zsetAdd conf draws score ele flags = some (o', (mapAdd m score ele flags).2) ∧
      o'.Shows ok (mapAdd m score ele flags).1 := by
  cases score with
  | none => exact ⟨o, rfl, h⟩
  | some score =>
      obtain ⟨es, hstores, hes⟩ := h
      cases hstores with
      | ziplist =>
          exact zsetAddZiplist_spec conf draws score ele flags hes fun hok => hsmall hok _ hes
      | skiplist hrep hdict =>
          refine zsetAddSkiplist_spec draws score ele flags hrep hdict hes fun hok => ?_
          simpa using hsmall hok _ hes

end Add

/-- `zsetDel` takes the element out of the map and tells whether it was
there. -/
theorem zsetDel_spec (h : o.Shows ok m) (ele : String) :
    ∃ o', o.zsetDel ele = some (o', (m ele).isSome) ∧
      o'.Shows ok (Function.update m ele none) := by
  obtain ⟨es, hstores, hes⟩ := h
  cases hm : m ele with
  | none =>
      have hkeep : Function.update m ele none = m := by rw [← hm, Function.update_eq_self]
      rw [hkeep]
      refine ⟨o, ?_, es, hstores, hes⟩
      cases hstores with
      | ziplist => simp [zsetDel, zzlFind_none hes hm]
      | skiplist hrep hdict => simp [zsetDel, dict_none hdict hes hm]
  | some score =>
      cases hstores with
      | ziplist =>
          obtain ⟨pre, post, hfind, rfl⟩ := zzlFind_some hes hm
          refine ⟨_, by simp only [zsetDel, hfind, Option.isSome_some]; rfl, _, .ziplist _, ?_⟩
          rw [zzlDelete_append]
          exact hes.drop
      | skiplist hrep hdict =>
          obtain ⟨pre, x, post, rfl, rfl, rfl, hfind, hscore, honly⟩ :=
            dict_some hrep hdict hes hm
          obtain ⟨z', hz', hrep'⟩ := Zskiplist.zslDelete_spec hrep
          refine ⟨.skiplist ⟨Function.update _ x.ele none, z'⟩, ?_, _,
            .skiplist hrep' (hdict.drop honly), drop_cell hes⟩
          simp only [zsetDel, hfind, hscore, Option.bind_some, hz', if_true, Option.isSome_some]

-- ============================================================= reading

theorem zsetScore_spec (h : o.Shows ok m) (ele : String) : o.zsetScore ele = some (m ele) := by
  obtain ⟨es, hstores, hes⟩ := h
  cases hm : m ele with
  | none =>
      cases hstores with
      | ziplist => simp [zsetScore, zzlFind_none hes hm]
      | skiplist hrep hdict => simp [zsetScore, dict_none hdict hes hm]
  | some score =>
      cases hstores with
      | ziplist =>
          obtain ⟨pre, post, hfind, -⟩ := zzlFind_some hes hm
          simp [zsetScore, hfind]
      | skiplist hrep hdict =>
          obtain ⟨pre, x, post, -, -, -, hfind, hscore, -⟩ := dict_some hrep hdict hes hm
          simp [zsetScore, hfind, hscore]

theorem zsetLength_spec (h : Stores ok o es) : o.zsetLength = UInt64.ofNat es.length := by
  cases h with
  | ziplist => rfl
  | skiplist hrep hdict =>
      rw [List.length_map]
      exact hrep.length

theorem lastEntry_spec (h : Stores ok o es) : o.lastEntry = es.getLast? := by
  cases h with
  | ziplist => rfl
  | @skiplist zs l hrep hdict =>
      rw [List.getLast?_map, lastEntry, hrep.tail]
      cases hlast : l.getLast? with
      | none => rfl
      | some c =>
          obtain ⟨nd, hnd, hstem⟩ := hrep.nodes.node_exists (List.mem_of_getLast? hlast)
          have he : nd.ele = some c.ele := congrArg Prod.fst hstem
          have hs : nd.score = c.score := congrArg (fun s => s.2.1) hstem
          simp [hnd, he, hs, Cell.entry]

theorem rankReply_forth {k : ℕ} (len : UInt64) (hk : k + 1 < 2 ^ 64) :
    rankReply len (UInt64.ofNat (k + 1)) false = k := by
  have hsub : UInt64.ofNat (k + 1) - 1 = UInt64.ofNat k := by
    rw [UInt64.ofNat_add]
    grind
  rw [rankReply, if_neg Bool.false_ne_true, hsub, UInt64.toNat_ofNat_of_lt' (Nat.lt_of_succ_lt hk)]

theorem rankReply_back {k j : ℕ} (hk : k + 1 + j < 2 ^ 64) :
    rankReply (UInt64.ofNat (k + 1 + j)) (UInt64.ofNat (k + 1)) true = j := by
  have hsub : UInt64.ofNat (k + 1 + j) - UInt64.ofNat (k + 1) = UInt64.ofNat j := by
    rw [UInt64.ofNat_add]
    grind
  rw [rankReply, if_pos rfl, hsub,
    UInt64.toNat_ofNat_of_lt' (lt_of_le_of_lt (Nat.le_add_left _ _) hk)]

/-- The rank of an element: the entries before it, or behind it. -/
theorem zsetRank_spec {pre post : Zl S} (h : Stores True o es) (hes : Listing zkey es m)
    (hsplit : es = pre ++ (ele, score) :: post) (hsmall : es.length < 2 ^ 32) (reverse : Bool) :
    o.zsetRank ele reverse = some ↑(if reverse then post.length else pre.length) := by
  have hm : m ele = some score := (hes.mem ele score).mp (by simp [hsplit])
  have hlen : es.length = pre.length + 1 + post.length := by
    rw [hsplit, List.length_append, List.length_cons]
    omega
  have hreply : rankReply (UInt64.ofNat es.length) (UInt64.ofNat (pre.length + 1)) reverse
      = ↑(if reverse then post.length else pre.length) := by
    rw [hlen] at hsmall ⊢
    cases reverse with
    | false => exact rankReply_forth _ (by omega)
    | true => exact rankReply_back (by omega)
  have hplace : ∀ {pre' post' : Zl S}, es = pre' ++ (ele, score) :: post' → pre' = pre :=
    fun hsplit' => (split_unique hes.nodup_names hsplit' hsplit rfl).1
  cases h with
  | ziplist =>
      obtain ⟨pre', post', hfind, hsplit'⟩ := zzlFind_some hes hm
      rw [hplace hsplit'] at hfind
      cases es with
      | nil => simp at hsplit
      | cons y zl =>
          simp only [zsetRank, hfind]
          exact congrArg some hreply
  | @skiplist zs l hrep hdict =>
      obtain ⟨pre', x, post', rfl, rfl, rfl, hfind, hscore, honly⟩ := dict_some hrep hdict hes hm
      have hpre : pre'.map Cell.entry = pre := hplace (by rw [List.map_append]; rfl)
      have hrank := Zskiplist.zslGetRank_spec hrep honly
      rw [← List.length_map (f := Cell.entry), hpre] at hrank
      have hne : UInt64.ofNat (pre.length + 1) ≠ 0 := by
        rw [← UInt64.toNat_inj.ne, UInt64.toNat_ofNat_of_lt' (by rw [UInt64.size]; omega)]
        exact Nat.succ_ne_zero _
      rw [← zsetLength_spec (.skiplist hrep hdict)] at hreply
      simp only [zsetRank, hfind, hscore, Option.bind_some, hrank, if_neg hne]
      exact congrArg some hreply

/-- The node at a rank from 1. -/
theorem byRank_spec {pre post : Zl S} (h : Stores True (.skiplist zs) es)
    (hsplit : es = pre ++ (ele, score) :: post) (hsmall : es.length < 2 ^ 32) :
    ∃ a nd, zs.zsl.zslGetElementByRank (UInt64.ofNat (pre.length + 1)) = some (some a) ∧
      zs.zsl.node a = some nd ∧ nd.ele = some ele ∧ nd.score = score := by
  cases h with
  | @skiplist _ l hrep hdict =>
      rw [List.length_map] at hsmall
      obtain ⟨p, q, rfl, hp, hq⟩ := List.map_eq_append_iff.mp hsplit
      obtain ⟨x, q, rfl, hx, -⟩ := List.map_eq_cons_iff.mp hq
      obtain ⟨rfl, rfl⟩ : x.ele = ele ∧ x.score = score := Prod.mk.inj hx
      have hlen : pre.length = p.length := by rw [← hp, List.length_map]
      have hrank := Zskiplist.zslGetElementByRank_spec hrep (Nat.succ_pos p.length) (by
        simp only [List.length_append, List.length_cons] at hsmall
        omega) hsmall
      obtain ⟨nd, hnd, hstem⟩ := hrep.nodes.node_exists (c := x) (by simp)
      refine ⟨x.addr, nd, ?_, hnd, congrArg Prod.fst hstem,
        congrArg (fun s => s.2.1) hstem⟩
      rw [hlen, hrank]
      simp

/-- An element that is not there has rank -1; an empty ziplist is
asserted not to be asked. -/
theorem zsetRank_none (h : Stores ok o es) (hes : Listing zkey es m) (hm : m ele = none)
    (hne : o ≠ .ziplist []) (reverse : Bool) : o.zsetRank ele reverse = some (-1) := by
  cases h with
  | ziplist =>
      cases es with
      | nil => exact absurd rfl hne
      | cons y zl => simp [zsetRank, zzlFind_none hes hm]
  | skiplist hrep hdict => simp [zsetRank, dict_none hdict hes hm]

end ZsetObj

end CrdtRedis
