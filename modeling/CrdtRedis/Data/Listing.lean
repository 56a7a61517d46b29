/-
A finite map and its entries in ascending order, as a library.

`Listing key es m` says that `es` are the entries of the map `m`, in the
order of `key`. A map has one listing, so whatever is read off a listing
is a property of the map: the number of entries is its length, the
greatest entry its last one, the rank of an entry its index.
-/
import Mathlib.Data.List.Sort
import Mathlib.Logic.Function.Basic

variable {A B K : Type} [LinearOrder K]

/-- The entries of `m`, ascending by `key`. -/
structure Listing (key : A × B → K) (es : List (A × B)) (m : A → Option B) : Prop where
  sorted : es.Pairwise fun a b => key a < key b
  mem : ∀ a b, (a, b) ∈ es ↔ m a = some b

namespace Listing

variable {key : A × B → K} {es es' pre post : List (A × B)} {m : A → Option B} {a : A} {b : B}

theorem nil : Listing key [] fun _ => none := ⟨List.Pairwise.nil, fun a b => by simp⟩

theorem nodup (h : Listing key es m) : es.Nodup :=
  h.sorted.imp fun hlt heq => (heq ▸ hlt).ne rfl

/-- No name is listed twice. -/
theorem nodup_names (h : Listing key es m) : (es.map Prod.fst).Nodup := by
  refine List.Nodup.map_on ?_ h.nodup
  intro x hx y hy hxy
  obtain ⟨a, b⟩ := x
  obtain ⟨a', b'⟩ := y
  obtain rfl : a = a' := hxy
  have heq := ((h.mem a b).mp hx).symm.trans ((h.mem a b').mp hy)
  rw [Option.some.inj heq]

/-- A map has one listing. -/
theorem unique (h : Listing key es m) (h' : Listing key es' m) : es = es' := by
  have hperm : es.Perm es' :=
    (List.perm_ext_iff_of_nodup h.nodup h'.nodup).mpr fun x => by rw [h.mem, h'.mem]
  refine hperm.eq_of_pairwise ?_ h.sorted h'.sorted
  intro x y _ _ hxy hyx
  exact absurd (hxy.trans hyx) (lt_irrefl _)

/-- As long as the names it may use. -/
theorem length_le (h : Listing key es m) {names : List A} (hnames : ∀ a, m a ≠ none → a ∈ names) :
    es.length ≤ names.length := by
  have hsub : es.map Prod.fst ⊆ names := by
    intro a ha
    obtain ⟨x, hx, rfl⟩ := List.mem_map.mp ha
    refine hnames x.1 ?_
    rw [(h.mem x.1 x.2).mp hx]
    simp
  simpa using (List.subperm_of_subset h.nodup_names hsub).length_le

/-- Maps with the same names have as many entries. -/
theorem length_eq {m' : A → Option B} (h : Listing key es m) (h' : Listing key es' m')
    (hsame : ∀ a, m a ≠ none ↔ m' a ≠ none) : es.length = es'.length := by
  have hle : ∀ {l l' : List (A × B)} {f g : A → Option B}, Listing key l f → Listing key l' g →
      (∀ a, f a ≠ none → g a ≠ none) → l.length ≤ l'.length := by
    intro l l' f g hf hg hfg
    rw [show l'.length = (l'.map Prod.fst).length from (List.length_map Prod.fst).symm]
    refine hf.length_le fun a ha => ?_
    obtain ⟨b, hb⟩ := Option.ne_none_iff_exists'.mp (hfg a ha)
    exact List.mem_map.mpr ⟨(a, b), (hg.mem a b).mpr hb, rfl⟩
  exact le_antisymm (hle h h' fun a => (hsame a).mp) (hle h' h fun a => (hsame a).mpr)

/-- A name that is listed, with its entry taken out. -/
theorem split (h : Listing key es m) (hm : m a = some b) :
    ∃ pre post, es = pre ++ (a, b) :: post ∧ ∀ x ∈ pre ++ post, x.1 ≠ a := by
  obtain ⟨pre, post, rfl⟩ := List.append_of_mem ((h.mem a b).mpr hm)
  refine ⟨pre, post, rfl, fun x hx hxa => ?_⟩
  have hnd := h.nodup_names
  rw [List.map_append, List.map_cons] at hnd
  refine (List.nodup_cons.mp (List.perm_middle.nodup_iff.mp hnd)).1 ?_
  have hin := List.mem_map_of_mem (f := Prod.fst) hx
  rwa [List.map_append, hxa] at hin

/-- A new entry, in its place. -/
theorem put [DecidableEq A] (h : Listing key (pre ++ post) m) (hm : m a = none)
    (hs : (pre ++ (a, b) :: post).Pairwise fun x y => key x < key y) :
    Listing key (pre ++ (a, b) :: post) (Function.update m a (some b)) := by
  refine ⟨hs, fun a' b' => ?_⟩
  have hmem : (a', b') ∈ pre ++ (a, b) :: post ↔ (a', b') = (a, b) ∨ m a' = some b' := by
    rw [← h.mem]
    simp only [List.mem_append, List.mem_cons]
    tauto
  rw [hmem]
  by_cases ha : a' = a
  · subst ha
    simp [hm, eq_comm]
  · simp [ha]

/-- An entry is taken out. -/
theorem drop [DecidableEq A] (h : Listing key (pre ++ (a, b) :: post) m) :
    Listing key (pre ++ post) (Function.update m a none) := by
  refine ⟨h.sorted.sublist (by simp), fun a' b' => ?_⟩
  have hm : m a = some b := (h.mem a b).mp (by simp)
  by_cases ha : a' = a
  · subst ha
    rw [Function.update_self]
    refine iff_of_false (fun hin => ?_) (by simp)
    have hin' : (a', b') ∈ pre ++ (a', b) :: post := by
      rcases List.mem_append.mp hin with hin | hin <;> simp [hin]
    obtain rfl := Option.some.inj (((h.mem a' b').mp hin').symm.trans hm)
    exact (List.nodup_cons.mp (List.perm_middle.nodup_iff.mp h.nodup)).1 hin
  · rw [Function.update_of_ne ha, ← h.mem]
    simp [ha]

/-- The last entry is the greatest. -/
theorem getLast?_eq_some (h : Listing key es m) (hlast : es.getLast? = some (a, b)) :
    m a = some b ∧ ∀ a' b', m a' = some b' → key (a', b') ≤ key (a, b) := by
  obtain ⟨l, rfl⟩ := List.getLast?_eq_some_iff.mp hlast
  refine ⟨(h.mem a b).mp (by simp), fun a' b' hm => ?_⟩
  rcases List.mem_append.mp ((h.mem a' b').mpr hm) with hin | hin
  · exact ((List.pairwise_append.mp h.sorted).2.2 _ hin _ (by simp)).le
  · rw [List.mem_singleton.mp hin]

end Listing
