/-
What the remove-wins core holds, as a function of the operations applied:
`aset` is the adds that no add and no remove is above, `rset` the removes
that no add is above, and `value` the entry of `aset` with the largest
server id.

`RwOps` is what the queue and the list have in common: operations that
add an entry, remove, or update the entries below them. The functions
prune destructively and in the order of application, so all this needs
that order to extend the order of the timestamps, and timestamps of one
server to be comparable, without which `VC_LESS` is not the vector order
(`RwOps.History`).
-/
import CrdtRedis.Rw.Sets
import CrdtRedis.Data.Pointer
import Mathlib.Order.Preorder.Finite

namespace CrdtRedis

variable {n : ℕ} {A O : Type}

/-- What an operation is to the core. -/
inductive RwKind
  | add | upd | rem
deriving DecidableEq, Repr

/-- The operations of a data type over the core. -/
structure RwOps (n : ℕ) (A O : Type) where
  kind : O → RwKind
  t : O → Vc n
  /-- The timestamp an entry is named by. -/
  stamp : A → Vc n
  /-- The entry an add makes. -/
  new : O → A
  /-- What an update does to an entry: nothing, unless it is above it. -/
  upd : O → A → A
  stamp_new : ∀ o, stamp (new o) = t o
  stamp_upd : ∀ o a, stamp (upd o a) = stamp a
  upd_of_not_below : ∀ o a, RwSets.below (t o) (stamp a) = false → upd o a = a

-- ========================================================== the cache

/-- `e->value->t->id < t->id`. -/
def Vc.IdLt (w t : Vc n) : Prop := w.id < t.id

instance : DecidableRel (Vc.IdLt (n := n)) := fun w t =>
  inferInstanceAs (Decidable (w.id < t.id))

theorem Vc.IdLt.irrefl (w : Vc n) : ¬ w.IdLt w := lt_irrefl w.id

theorem Vc.IdLt.trans {u v w : Vc n} (h₁ : u.IdLt v) (h₂ : v.IdLt w) : u.IdLt w :=
  lt_trans h₁ h₂

/-- `value` points to the entry with the largest server id. -/
abbrev RwSets.Cached (stamp : A → Vc n) (aset : List A) (value : Option (Vc n)) : Prop :=
  Pointer.Largest stamp Vc.IdLt aset value

namespace RwSets

variable {stamp : A → Vc n} {aset : List A} {v : Option (Vc n)} {s : RwSets n A}

theorem larger_eq (v : Option (Vc n)) (t : Vc n) :
    larger v t = Pointer.larger Vc.IdLt v t := by
  cases v <;> rfl

theorem cached_larger (h : Cached stamp aset v) (a : A) :
    Cached stamp (aset ++ [a]) (larger v (stamp a)) := by
  rw [larger_eq]
  exact h.snoc Vc.IdLt.irrefl Vc.IdLt.trans a

/-- The search finds the entry with the largest id. -/
theorem cached_rescan (aset : List A) : Cached stamp aset (rescan stamp aset) := by
  have hscan : rescan stamp aset
      = Pointer.search stamp Vc.IdLt none aset := by
    unfold rescan Pointer.search
    simp only [larger_eq]
  rw [hscan]
  exact Pointer.largest_search Vc.IdLt.irrefl Vc.IdLt.trans aset

/-- The entry `value` points to is there if any is. -/
theorem Cached.find (h : Cached stamp s.aset s.value) (hne : s.aset ≠ []) :
    ∃ a ∈ s.aset, s.entry stamp = some a ∧ s.value = some (stamp a) ∧
      ∀ b ∈ s.aset, (stamp b).id ≤ (stamp a).id := by
  generalize hv : s.value = v at h
  cases h with
  | empty hnil => exact absurd hnil hne
  | entry c hc hmax =>
      have hfind : (s.aset.find? fun a => decide (stamp a = stamp c)).isSome = true := by
        rw [List.find?_isSome]
        exact ⟨c, hc, by simp⟩
      obtain ⟨a, ha⟩ := Option.isSome_iff_exists.mp hfind
      have hac : stamp a = stamp c := by simpa using List.find?_some ha
      refine ⟨a, List.mem_of_find?_eq_some ha, ?_, by rw [hac], ?_⟩
      · rw [RwSets.entry, hv, Option.bind_some, ha]
      · intro b hb
        rw [hac]
        exact not_lt.mp (hmax b hb)

/-- Pruning leaves the cache right, or clears it with its entry. -/
theorem cached_prune (h : Cached stamp s.aset s.value) (t : Vc n) :
    Cached stamp (s.prune stamp t).aset (s.prune stamp t).value ∨
      (s.prune stamp t).value = none ∧
        (s.aset.any fun a => below t (stamp a)) = true := by
  cases hv : s.value with
  | none =>
      refine Or.inl ?_
      have hnil := h.eq_none_iff.mp hv
      simp only [prune, hv, hnil, Option.bind_none, List.filter_nil]
      exact .nil
  | some w =>
      rw [hv] at h
      by_cases hany : (s.aset.any fun a => decide (stamp a = w) && below t (stamp a)) = true
      · refine Or.inr ⟨by simp only [prune, hv, Option.bind_some, if_pos hany], ?_⟩
        obtain ⟨a, ha, hcond⟩ := List.any_eq_true.mp hany
        exact List.any_eq_true.mpr ⟨a, ha, (Bool.and_eq_true_iff.mp hcond).2⟩
      · refine Or.inl ?_
        simp only [prune, hv, Option.bind_some, if_neg hany]
        obtain ⟨c, hc, hcw⟩ := h.of_some.1
        refine h.mono ⟨c, List.mem_filter.mpr ⟨hc, ?_⟩, hcw⟩
          fun b hb => List.mem_of_mem_filter hb
        by_contra hbelow
        refine hany (List.any_eq_true.mpr ⟨c, hc, ?_⟩)
        simpa [hcw] using hbelow

theorem below_self (t : Vc n) : below t t = false := by
  rw [below, decide_eq_false_iff_not, vcCmp_less_iff (Or.inr (Or.inl le_rfl))]
  exact lt_irrefl _

/-- What an add makes of the sets, entry by entry. -/
theorem add_eq (a : A) :
    s.add stamp a =
      { value := larger
          (if (s.aset.any fun b => below (stamp a) (stamp b)) &&
              (s.prune stamp (stamp a)).value.isNone
            then rescan stamp ((s.prune stamp (stamp a)).aset ++ [a])
            else (s.prune stamp (stamp a)).value) (stamp a)
        aset := (s.prune stamp (stamp a)).aset ++ [a]
        rset := s.rset.filter fun r => !below (stamp a) r } := by
  simp [add, prune, List.filter_append, below_self]

/-- An add keeps the cache right. -/
theorem cached_add (h : Cached stamp s.aset s.value) (a : A) :
    Cached stamp (s.add stamp a).aset (s.add stamp a).value := by
  rw [add_eq]
  dsimp only
  split
  · have hscan : Cached stamp ((s.prune stamp (stamp a)).aset ++ [a]) _ := cached_rescan _
    rw [larger_eq, hscan.larger_of_mem (by simp)]
    exact hscan
  · next hcond =>
      rcases cached_prune h (stamp a) with hkept | ⟨hnone, hany⟩
      · exact cached_larger hkept a
      · -- a cleared cache is searched again
        rw [hnone, hany] at hcond
        exact absurd rfl hcond

/-- A remove keeps the cache right. -/
theorem cached_remove (h : Cached stamp s.aset s.value) (t : Vc n) :
    Cached stamp (s.remove stamp t).aset (s.remove stamp t).value := by
  unfold remove
  dsimp only
  split
  · exact cached_rescan _
  · next hsome =>
      rcases cached_prune h t with hkept | ⟨hnone, -⟩
      · exact hkept
      · refine absurd ?_ hsome
        exact Option.isNone_iff_eq_none.mpr hnone

/-- An add hides nothing. -/
theorem lookup_add (a : A) (hlook : s.lookup = true) : (s.add stamp a).lookup = true := by
  rw [lookup, Bool.and_eq_true] at hlook ⊢
  rw [add_eq]
  refine ⟨by simp, ?_⟩
  rw [List.isEmpty_iff] at hlook ⊢
  show s.rset.filter _ = []
  rw [hlook.2, List.filter_nil]

/-- A remove shows nothing. -/
theorem lookup_remove (t : Vc n) : (s.remove stamp t).lookup = false := by
  have hrset : (s.remove stamp t).rset = s.rset ++ [t] := by
    unfold remove
    dsimp only
    split <;> rfl
  rw [lookup, hrset]
  simp

end RwSets

-- ======================================================= histories

namespace RwOps

variable (D : RwOps n A O)

/-- Apply an operation. -/
def step (s : RwSets n A) (o : O) : RwSets n A :=
  match D.kind o with
  | .add => s.add D.stamp (D.new o)
  | .upd => { s with aset := s.aset.map (D.upd o) }
  | .rem => s.remove D.stamp (D.t o)

/-- Strictly below in the vector order. -/
def Lt (x y : O) : Prop := (D.t x).vector < (D.t y).vector

/-- What the order of application is taken to satisfy. -/
structure History (L : List O) : Prop where
  ordered : L.Pairwise fun x y => ¬ (D.t y).vector ≤ (D.t x).vector
  comparable : ∀ x ∈ L, ∀ y ∈ L, (D.t x).id = (D.t y).id →
    (D.t x).vector ≤ (D.t y).vector ∨ (D.t y).vector ≤ (D.t x).vector

/-- An operation of the kinds `p` that none of the kinds `q` is above. -/
structure Undominated (p q : RwKind → Prop) (L : List O) (x : O) : Prop where
  mem : x ∈ L
  kind : p (D.kind x)
  not_lt : ∀ y ∈ L, q (D.kind y) → ¬ D.Lt x y

/-- An add that no add and no remove is above. -/
abbrev Survives : List O → O → Prop := D.Undominated (· = .add) (· ≠ .upd)

/-- A remove that no add is above. -/
abbrev Stands : List O → O → Prop := D.Undominated (· = .rem) (· = .add)

/-- The entry of an add, after the updates. -/
def content (L : List O) (x : O) : A :=
  (L.filter fun u => decide (D.kind u = .upd)).foldl (fun a u => D.upd u a) (D.new x)

/-- What the sets hold after the operations `L`. -/
structure Holds (L : List O) (s : RwSets n A) : Prop where
  aset : ∀ a, a ∈ s.aset ↔ ∃ x, D.Survives L x ∧ D.content L x = a
  rset : ∀ v, v ∈ s.rset ↔ ∃ x, D.Stands L x ∧ D.t x = v
  value : RwSets.Cached D.stamp s.aset s.value

variable {D} {L : List O} {o x y : O} {s : RwSets n A}

theorem History.sublist {L' : List O} (h : D.History L) (hsub : L'.Sublist L) :
    D.History L' :=
  ⟨h.ordered.sublist hsub, fun x hx y hy => h.comparable x (hsub.subset hx) y
    (hsub.subset hy)⟩

/-- `VC_LESS` is the vector order on the operations of a history. -/
theorem History.below_iff (h : D.History L) (hx : x ∈ L) (hy : y ∈ L) :
    RwSets.below (D.t y) (D.t x) = true ↔ D.Lt x y := by
  have hcmp : (D.t x).id ≠ (D.t y).id ∨ (D.t x).vector ≤ (D.t y).vector ∨
      (D.t y).vector ≤ (D.t x).vector := by
    by_cases hid : (D.t x).id = (D.t y).id
    · exact Or.inr (h.comparable x hx y hy hid)
    · exact Or.inl hid
  rw [RwSets.below, decide_eq_true_eq]
  exact vcCmp_less_iff hcmp

/-- The last operation is below none before it. -/
theorem History.last_not_le (h : D.History (L ++ [o])) (hx : x ∈ L) :
    ¬ (D.t o).vector ≤ (D.t x).vector :=
  (List.pairwise_append.mp h.ordered).2.2 x hx o (by simp)

theorem stamp_content (L : List O) (x : O) : D.stamp (D.content L x) = D.t x := by
  unfold content
  generalize L.filter _ = us
  induction us using List.reverseRecOn with
  | nil => exact D.stamp_new x
  | append_singleton us u ih =>
      rw [List.foldl_append]
      exact (D.stamp_upd u _).trans ih

theorem content_snoc_upd (ho : D.kind o = .upd) (L : List O) (x : O) :
    D.content (L ++ [o]) x = D.upd o (D.content L x) := by
  simp [content, List.filter_append, ho]

theorem content_snoc_of_ne (ho : D.kind o ≠ .upd) (L : List O) (x : O) :
    D.content (L ++ [o]) x = D.content L x := by
  simp [content, List.filter_append, ho]

/-- Updates before an add do not reach it. -/
theorem History.content_last (h : D.History (L ++ [o])) : D.content L o = D.new o := by
  unfold content
  have hnone : ∀ u ∈ L.filter fun u => decide (D.kind u = .upd),
      RwSets.below (D.t u) (D.t o) = false := by
    intro u hu
    have huL := List.mem_of_mem_filter hu
    rw [← Bool.not_eq_true, h.below_iff (by simp) (List.mem_append_left _ huL)]
    exact fun hlt => h.last_not_le huL hlt.le
  generalize L.filter _ = us at hnone
  induction us with
  | nil => rfl
  | cons u us ih =>
      have hu : D.upd u (D.new o) = D.new o :=
        D.upd_of_not_below u _ (by rw [D.stamp_new]; exact hnone u List.mem_cons_self)
      rw [List.foldl_cons, hu]
      exact ih fun v hv => hnone v (List.mem_cons_of_mem u hv)

/-- What is undominated after one more operation. -/
theorem undominated_snoc {p q : RwKind → Prop} (h : D.History (L ++ [o])) :
    D.Undominated p q (L ++ [o]) x ↔
      D.Undominated p q L x ∧ (q (D.kind o) → ¬ D.Lt x o) ∨ x = o ∧ p (D.kind o) := by
  constructor
  · intro hx
    rcases List.mem_append.mp hx.mem with hxL | hxo
    · refine Or.inl ⟨⟨hxL, hx.kind, ?_⟩, hx.not_lt o (by simp)⟩
      exact fun y hy => hx.not_lt y (List.mem_append_left _ hy)
    · obtain rfl := List.mem_singleton.mp hxo
      exact Or.inr ⟨rfl, hx.kind⟩
  · intro hx
    rcases hx with ⟨hxL, hxo⟩ | ⟨rfl, hkind⟩
    · refine ⟨List.mem_append_left _ hxL.mem, hxL.kind, ?_⟩
      intro y hy hq
      rcases List.mem_append.mp hy with hy | hy
      · exact hxL.not_lt y hy hq
      · rw [List.mem_singleton.mp hy] at hq ⊢
        exact hxo hq
    · refine ⟨by simp, hkind, ?_⟩
      intro y hy _ hlt
      rcases List.mem_append.mp hy with hy | hy
      · exact h.last_not_le hy hlt.le
      · rw [List.mem_singleton.mp hy] at hlt
        exact lt_irrefl _ hlt

/-- What pruning by the last operation leaves of `aset`. -/
theorem Holds.mem_prune (h : D.Holds L s) (hist : D.History (L ++ [o])) {a : A} :
    a ∈ (s.prune D.stamp (D.t o)).aset ↔
      ∃ x, (D.Survives L x ∧ ¬ D.Lt x o) ∧ D.content L x = a := by
  have hbelow : ∀ x ∈ L, RwSets.below (D.t o) (D.t x) = true ↔ D.Lt x o := fun x hx =>
    hist.below_iff (List.mem_append_left _ hx) (by simp)
  show a ∈ s.aset.filter _ ↔ _
  rw [List.mem_filter, h.aset]
  constructor
  · intro ⟨⟨x, hx, hxa⟩, hkeep⟩
    subst hxa
    rw [stamp_content, Bool.not_eq_true', ← Bool.not_eq_true, hbelow x hx.mem] at hkeep
    exact ⟨x, ⟨hx, hkeep⟩, rfl⟩
  · intro ⟨x, ⟨hx, hkeep⟩, hxa⟩
    subst hxa
    refine ⟨⟨x, hx, rfl⟩, ?_⟩
    rw [stamp_content, Bool.not_eq_true', ← Bool.not_eq_true, hbelow x hx.mem]
    exact hkeep

theorem Holds.add (h : D.Holds L s) (hist : D.History (L ++ [o])) (ho : D.kind o = .add) :
    D.Holds (L ++ [o]) (s.add D.stamp (D.new o)) := by
  have hne : D.kind o ≠ .upd := by rw [ho]; decide
  refine ⟨?_, ?_, RwSets.cached_add h.value _⟩
  · intro a
    rw [RwSets.add_eq]
    show a ∈ (s.prune D.stamp (D.stamp (D.new o))).aset ++ [D.new o] ↔ _
    rw [List.mem_append, List.mem_singleton, D.stamp_new, h.mem_prune hist]
    simp only [undominated_snoc hist, content_snoc_of_ne hne]
    constructor
    · intro ha
      rcases ha with ⟨x, ⟨hx, hlt⟩, hxa⟩ | hao
      · exact ⟨x, Or.inl ⟨hx, fun _ => hlt⟩, hxa⟩
      · exact ⟨o, Or.inr ⟨rfl, ho⟩, by rw [hist.content_last, hao]⟩
    · intro ⟨x, hx, hxa⟩
      rcases hx with ⟨hx, hlt⟩ | ⟨rfl, -⟩
      · exact Or.inl ⟨x, ⟨hx, hlt hne⟩, hxa⟩
      · exact Or.inr (by rw [← hxa, hist.content_last])
  · intro v
    rw [RwSets.add_eq]
    show v ∈ s.rset.filter _ ↔ _
    rw [List.mem_filter, h.rset, D.stamp_new]
    simp only [undominated_snoc hist, ho]
    constructor
    · intro ⟨⟨x, hx, hxv⟩, hkeep⟩
      subst hxv
      rw [Bool.not_eq_true', ← Bool.not_eq_true,
        hist.below_iff (List.mem_append_left _ hx.mem) (by simp)] at hkeep
      exact ⟨x, Or.inl ⟨hx, fun _ => hkeep⟩, rfl⟩
    · intro ⟨x, hx, hxv⟩
      rcases hx with ⟨hx, hlt⟩ | ⟨-, hcon⟩
      · subst hxv
        refine ⟨⟨x, hx, rfl⟩, ?_⟩
        rw [Bool.not_eq_true', ← Bool.not_eq_true,
          hist.below_iff (List.mem_append_left _ hx.mem) (by simp)]
        exact hlt trivial
      · cases hcon

theorem Holds.rem (h : D.Holds L s) (hist : D.History (L ++ [o])) (ho : D.kind o = .rem) :
    D.Holds (L ++ [o]) (s.remove D.stamp (D.t o)) := by
  have hne : D.kind o ≠ .upd := by rw [ho]; decide
  have haset : (s.remove D.stamp (D.t o)).aset = (s.prune D.stamp (D.t o)).aset := by
    unfold RwSets.remove
    dsimp only
    split <;> rfl
  have hrset : (s.remove D.stamp (D.t o)).rset = s.rset ++ [D.t o] := by
    unfold RwSets.remove
    dsimp only
    split <;> rfl
  refine ⟨?_, ?_, RwSets.cached_remove h.value _⟩
  · intro a
    rw [haset, h.mem_prune hist]
    simp only [undominated_snoc hist, content_snoc_of_ne hne, ho]
    constructor
    · intro ⟨x, ⟨hx, hlt⟩, hxa⟩
      exact ⟨x, Or.inl ⟨hx, fun _ => hlt⟩, hxa⟩
    · intro ⟨x, hx, hxa⟩
      rcases hx with ⟨hx, hlt⟩ | ⟨-, hcon⟩
      · exact ⟨x, ⟨hx, hlt (by decide)⟩, hxa⟩
      · cases hcon
  · intro v
    rw [hrset, List.mem_append, List.mem_singleton, h.rset]
    simp only [undominated_snoc hist, ho]
    constructor
    · intro hv
      rcases hv with ⟨x, hx, hxv⟩ | hv
      · exact ⟨x, Or.inl ⟨hx, fun hcon => by cases hcon⟩, hxv⟩
      · exact ⟨o, Or.inr ⟨rfl, trivial⟩, hv.symm⟩
    · intro ⟨x, hx, hxv⟩
      rcases hx with ⟨hx, -⟩ | ⟨rfl, -⟩
      · exact Or.inl ⟨x, hx, hxv⟩
      · exact Or.inr hxv.symm

theorem Holds.upd (h : D.Holds L s) (hist : D.History (L ++ [o])) (ho : D.kind o = .upd) :
    D.Holds (L ++ [o]) { s with aset := s.aset.map (D.upd o) } := by
  refine ⟨?_, ?_, ?_⟩
  · intro a
    show a ∈ s.aset.map (D.upd o) ↔ _
    rw [List.mem_map]
    simp only [undominated_snoc hist, content_snoc_upd ho, h.aset, ho]
    constructor
    · intro ⟨b, ⟨x, hx, hxb⟩, hba⟩
      exact ⟨x, Or.inl ⟨hx, fun hcon => absurd rfl hcon⟩, by rw [hxb, hba]⟩
    · intro ⟨x, hx, hxa⟩
      rcases hx with ⟨hx, -⟩ | ⟨-, hcon⟩
      · exact ⟨_, ⟨x, hx, rfl⟩, hxa⟩
      · cases hcon
  · intro v
    show v ∈ s.rset ↔ _
    rw [h.rset]
    simp only [undominated_snoc hist, ho]
    constructor
    · intro ⟨x, hx, hxv⟩
      exact ⟨x, Or.inl ⟨hx, fun hcon => by cases hcon⟩, hxv⟩
    · intro ⟨x, hx, hxv⟩
      rcases hx with ⟨hx, -⟩ | ⟨-, hcon⟩
      · exact ⟨x, hx, hxv⟩
      · cases hcon
  · exact h.value.map (D.stamp_upd o)

/-- The run lemma: the sets are a function of the operations applied. -/
theorem holds_foldl (hist : D.History L) : D.Holds L (L.foldl D.step RwSets.new) := by
  induction L using List.reverseRecOn with
  | nil =>
      refine ⟨?_, ?_, .empty rfl⟩
      · intro a
        exact iff_of_false (by simp [RwSets.new]) fun ⟨x, hx, _⟩ => by cases hx.mem
      · intro v
        exact iff_of_false (by simp [RwSets.new]) fun ⟨x, hx, _⟩ => by cases hx.mem
  | append_singleton L o ih =>
      have hL := ih (hist.sublist (List.sublist_append_left _ _))
      rw [List.foldl_append]
      show D.Holds (L ++ [o]) (D.step _ o)
      unfold step
      cases hkind : D.kind o with
      | add => exact hL.add hist hkind
      | upd => exact hL.upd hist hkind
      | rem => exact hL.rem hist hkind

/-- `LOOKUP`: there is an add, and every remove has an add above it. -/
theorem Holds.lookup_iff (h : D.Holds L s) : s.lookup = true ↔
    (∃ x ∈ L, D.kind x = .add) ∧
      ∀ x ∈ L, D.kind x = .rem → ∃ y ∈ L, D.kind y = .add ∧ D.Lt x y := by
  have hrset : s.rset = [] ↔
      ∀ x ∈ L, D.kind x = .rem → ∃ y ∈ L, D.kind y = .add ∧ D.Lt x y := by
    rw [List.eq_nil_iff_forall_not_mem]
    constructor
    · intro hnone x hx hrem
      by_contra hno
      refine hnone (D.t x) ((h.rset _).mpr ⟨x, ⟨hx, hrem, ?_⟩, rfl⟩)
      exact fun y hy hadd hlt => hno ⟨y, hy, hadd, hlt⟩
    · intro hall v hv
      obtain ⟨x, hx, -⟩ := (h.rset v).mp hv
      obtain ⟨y, hy, hadd, hlt⟩ := hall x hx.mem hx.kind
      exact hx.not_lt y hy hadd hlt
  rw [RwSets.lookup, Bool.and_eq_true, Bool.not_eq_true', List.isEmpty_iff, ← hrset,
    and_congr_left_iff]
  intro hnil
  have hall := hrset.mp hnil
  rw [← Bool.not_eq_true, List.isEmpty_iff]
  constructor
  · intro hne
    obtain ⟨a, ha⟩ := List.exists_mem_of_ne_nil _ hne
    obtain ⟨x, hx, -⟩ := (h.aset a).mp ha
    exact ⟨x, hx.mem, hx.kind⟩
  · -- a largest add survives: a remove above it would have an add above
    intro ⟨x₀, hx₀, hadd₀⟩ haset
    have hfin : {x : O | x ∈ L ∧ D.kind x = .add}.Finite :=
      (List.finite_toSet L).subset fun x hx => hx.1
    obtain ⟨x, ⟨hx, hadd⟩, hmax⟩ :=
      hfin.exists_maximalFor (fun x => (D.t x).vector) _ ⟨x₀, hx₀, hadd₀⟩
    have htop : ∀ y ∈ L, D.kind y = .add → ¬ D.Lt x y := by
      intro y hy hyadd hlt
      exact absurd (hmax ⟨hy, hyadd⟩ hlt.le) hlt.not_ge
    have hsurv : D.Survives L x := by
      refine ⟨hx, hadd, ?_⟩
      intro y hy hupd hlt
      cases hkind : D.kind y with
      | add => exact htop y hy hkind hlt
      | upd => exact hupd hkind
      | rem =>
          obtain ⟨z, hz, hzadd, hyz⟩ := hall y hy hkind
          exact htop z hz hzadd (hlt.trans hyz)
    have hmem := (h.aset _).mpr ⟨x, hsurv, rfl⟩
    rw [haset] at hmem
    cases hmem

/-- The entry that counts is the survivor with the largest id. -/
theorem Holds.entry (h : D.Holds L s) (hlook : s.lookup = true) :
    ∃ x, D.Survives L x ∧ s.entry D.stamp = some (D.content L x) ∧
      s.value = some (D.t x) ∧ ∀ y, D.Survives L y → (D.t y).id ≤ (D.t x).id := by
  have hne : s.aset ≠ [] := by
    rw [RwSets.lookup, Bool.and_eq_true, Bool.not_eq_true', ← Bool.not_eq_true,
      List.isEmpty_iff] at hlook
    exact hlook.1
  obtain ⟨a, ha, hentry, hvalue, hmax⟩ := h.value.find hne
  obtain ⟨x, hx, rfl⟩ := (h.aset a).mp ha
  rw [stamp_content] at hvalue hmax
  refine ⟨x, hx, hentry, hvalue, ?_⟩
  intro y hy
  have hle := hmax _ ((h.aset _).mpr ⟨y, hy, rfl⟩)
  rwa [stamp_content] at hle

/-- Two survivors of one server are one. -/
theorem History.survives_unique (hist : D.History L) (hx : D.Survives L x)
    (hy : D.Survives L y) (hid : (D.t x).id = (D.t y).id) :
    (D.t x).vector = (D.t y).vector := by
  have hnot : ∀ {x y : O}, D.Survives L x → D.Survives L y →
      (D.t x).vector ≤ (D.t y).vector → (D.t x).vector = (D.t y).vector := by
    intro x y hx hy hle
    by_contra hne
    refine hx.not_lt y hy.mem ?_ (lt_of_le_of_ne hle hne)
    rw [hy.kind]
    decide
  rcases hist.comparable x hx.mem y hy.mem hid with hle | hle
  · exact hnot hx hy hle
  · exact (hnot hy hx hle).symm

end RwOps

end CrdtRedis
