/-
How the broadcast vector grows (the macros `CRDT_PREPARE`, `INIT_RARGV`,
`_RARGV_ADD` and `CRDT_EFFECT` of CRDT.h).

`__capacity__` is a variable of the preparation, beside the client's
`rargc`; both are `int`s. The vector is allocated at the first append, and
allocated again when `rargc` has come up to `__capacity__`, for
`2 * __capacity__ - argc` entries. So the room behind the client's own
arguments doubles: 4, 8, 16, ... (`Grown`), and as long as that can be
computed every store is inside the block. It cannot be computed for ever:
the append that finds `argc + 2^30` entries in use doubles a number that
no longer fits an `int`.

Memory is explicit here: a block of slots, stores that are undefined
outside it, and `int` arithmetic that is undefined outside 32 bits.
`rargvAddAll` is the same with natural numbers, and the two agree where
this one has a result (`prepareRargv_refines`).
-/
import CrdtRedis.Broadcast
import CrdtRedis.Data.Block
import CrdtRedis.Data.CString

namespace CrdtRedis

open CString

variable {α : Type}

/-- The result of `int` arithmetic. -/
def intOf (v : ℤ) : Option ℤ := if IsInt v then some v else none

/-- `zmalloc(sizeof(robj *) * cap)`. A negative `cap` becomes a size beyond
the address space, and the allocation fails. -/
def zmalloc (cap : ℤ) : Option (Block α) :=
  if 0 ≤ cap then some (Block.new cap.toNat) else none

/-- `zrealloc(b, sizeof(robj *) * cap)`. -/
def zrealloc (b : Block α) (cap : ℤ) : Option (Block α) :=
  if 0 ≤ cap then some (b.realloc cap.toNat) else none

/-- What a preparation keeps of the broadcast: `c->rargv`, NULL or a
block, `c->rargc` and `__capacity__`. -/
structure Appending (α : Type) where
  rargv : Option (Block α)
  rargc : ℤ
  capacity : ℤ

/-- `INIT_RARGV`. -/
def initRargv (argv : List α) (s : Appending α) : Option (Appending α) :=
  (zmalloc s.capacity).bind fun b =>
    (b.fill (fun i => argv[i]?) 0 argv.length).map fun b =>
      ⟨some b, argv.length, s.capacity⟩

/-- `if (!c->rargv) INIT_RARGV`. -/
def initIfNull (argv : List α) (s : Appending α) : Option (Appending α) :=
  match s.rargv with
  | none => initRargv argv s
  | some _ => some s

/-- The branch of `_RARGV_ADD` for a full vector. -/
def growRargv (argv : List α) (b : Block α) (s : Appending α) : Option (Appending α) :=
  (intOf (2 * s.capacity)).bind fun twice =>
    (intOf (twice - argv.length)).bind fun cap =>
      (zrealloc b cap).map fun b => ⟨some b, s.rargc, cap⟩

/-- The store of `_RARGV_ADD`. -/
def storeRargv (obj : α) (s : Appending α) : Option (Appending α) :=
  s.rargv.bind fun b =>
    if 0 ≤ s.rargc then
      (b.store s.rargc.toNat obj).bind fun b =>
        (intOf (s.rargc + 1)).map fun rargc => { s with rargv := some b, rargc := rargc }
    else none

/-- `_RARGV_ADD`. -/
def rargvAddObj (argv : List α) (s : Appending α) (obj : α) : Option (Appending α) :=
  (initIfNull argv s).bind fun s =>
    s.rargv.bind fun b =>
      (if s.rargc = s.capacity then growRargv argv b s else some s).bind (storeRargv obj)

/-- From `CRDT_PREPARE` to `CRDT_EFFECT`, with the appends between them,
for a client whose `rargv` is NULL. -/
def prepareRargv (argv objs : List α) : Option (Appending α) :=
  (intOf (argv.length + additionalCapacity)).bind fun capacity =>
    (objs.foldlM (rargvAddObj argv) ⟨none, 0, capacity⟩).bind (initIfNull argv)

-- ============================================================ the room

/-- The entries behind the client's own ones after `j` reallocations. -/
def room (j : ℕ) : ℕ := additionalCapacity * 2 ^ j

theorem room_zero : room 0 = additionalCapacity := rfl

theorem room_succ (j : ℕ) : room (j + 1) = 2 * room j := by
  unfold room
  rw [pow_succ, Nat.mul_comm (2 ^ j), Nat.mul_left_comm]

theorem room_pos (j : ℕ) : 0 < room j := Nat.mul_pos (by decide) (Nat.two_pow_pos j)

theorem room_mono {i j : ℕ} (h : i ≤ j) : room i ≤ room j :=
  Nat.mul_le_mul_left _ (Nat.pow_le_pow_right (by decide) h)

/-- The state after `l` was appended, with `j` reallocations on the way. -/
structure Grown (argv l : List α) (j : ℕ) (s : Appending α) : Prop where
  block : ∃ b, s.rargv = some b ∧ b.Holds (argv ++ l) ∧ b.length = argv.length + room j
  rargc : s.rargc = argv.length + l.length
  capacity : s.capacity = argv.length + room j
  used : l.length ≤ room j
  int : argv.length + room j < 2 ^ 31

variable {argv l : List α} {j : ℕ} {s : Appending α}

theorem intOf_natCast {v : ℤ} (h0 : 0 ≤ v) (h : v < 2 ^ 31) : intOf v = some v :=
  if_pos ⟨by omega, h⟩

theorem intOf_overflow {v : ℤ} (h : 2 ^ 31 ≤ v) : intOf v = none :=
  if_neg fun hint => absurd hint.2 (not_lt.mpr h)

/-- `INIT_RARGV` copies the client's arguments. -/
theorem initRargv_grown (h : argv.length + room 0 < 2 ^ 31) :
    ∃ s, initRargv argv ⟨none, 0, argv.length + room 0⟩ = some s ∧ Grown argv [] 0 s := by
  have hcap : (0 : ℤ) ≤ (argv.length : ℤ) + (room 0 : ℤ) := by omega
  have hnat : ((argv.length : ℤ) + (room 0 : ℤ)).toNat = argv.length + room 0 := by omega
  obtain ⟨b, hfill, hholds, hlen⟩ : ∃ b, Block.fill (fun i => argv[i]?) 0 argv.length
      (Block.new (argv.length + room 0)) = some b ∧ b.Holds ([] ++ argv) ∧
      b.length = (Block.new (argv.length + room 0) : Block α).length := by
    refine (Block.Holds.nil _).fill rfl (by simp) (by simp) fun i _ => ?_
    rw [Nat.zero_add]
  refine ⟨⟨some b, argv.length, argv.length + room 0⟩, ?_, ?_⟩
  · simp only [initRargv, zmalloc, if_pos hcap, hnat, Option.bind_some, hfill, Option.map_some]
  · refine ⟨⟨b, rfl, by simpa using hholds, by simpa using hlen⟩, by simp, rfl, Nat.zero_le _, h⟩

/-- The store, where the vector is not full. -/
theorem storeRargv_grown (h : Grown argv l j s) (hlt : l.length < room j) (obj : α) :
    ∃ s', storeRargv obj s = some s' ∧ Grown argv (l ++ [obj]) j s' := by
  obtain ⟨b, hb, hholds, hlen⟩ := h.block
  obtain ⟨b', hstore, hholds', hlen'⟩ := hholds.store (by simp [hlen, hlt]) obj
  have hint := h.int
  have hnat : s.rargc.toNat = (argv ++ l).length := by
    rw [h.rargc, List.length_append]
    omega
  have hnext : intOf (s.rargc + 1) = some (s.rargc + 1) := by
    rw [h.rargc]
    exact intOf_natCast (by omega) (by omega)
  refine ⟨{ s with rargv := some b', rargc := s.rargc + 1 }, ?_, ?_⟩
  · unfold storeRargv
    rw [hb, Option.bind_some, if_pos (by rw [h.rargc]; omega), hnat, hstore, Option.bind_some,
      hnext, Option.map_some]
  · refine ⟨⟨b', rfl, by simpa using hholds', hlen'.trans hlen⟩, ?_, h.capacity, ?_, h.int⟩
    · show s.rargc + 1 = _
      rw [h.rargc, List.length_append, List.length_singleton]
      omega
    · rw [List.length_append, List.length_singleton]
      omega

/-- The reallocation doubles the room. -/
theorem growRargv_grown (h : Grown argv l j s) {b : Block α} (hb : s.rargv = some b)
    (hint : 2 * (argv.length + room j) < 2 ^ 31) :
    ∃ s', growRargv argv b s = some s' ∧ Grown argv l (j + 1) s' := by
  obtain ⟨b', hb', hholds, hlen⟩ := h.block
  obtain rfl : b = b' := Option.some.inj (hb.symm.trans hb')
  have hroom := room_succ j
  have htwice : intOf (2 * s.capacity) = some (2 * s.capacity) := by
    rw [h.capacity]
    exact intOf_natCast (by omega) (by omega)
  have hcap : 2 * s.capacity - argv.length = (argv.length + room (j + 1) : ℕ) := by
    rw [h.capacity, hroom]
    omega
  have hnew : intOf (2 * s.capacity - argv.length)
      = some ((argv.length + room (j + 1) : ℕ) : ℤ) := by
    rw [hcap]
    exact intOf_natCast (by omega) (by omega)
  refine ⟨⟨some (b.realloc (argv.length + room (j + 1))), s.rargc,
    (argv.length + room (j + 1) : ℕ)⟩, ?_, ?_⟩
  · unfold growRargv zrealloc
    rw [htwice, Option.bind_some, hnew, Option.bind_some, if_pos (by omega), Int.toNat_natCast,
      Option.map_some]
  · have hused := h.used
    refine ⟨⟨_, rfl, hholds.realloc (by omega), Block.length_realloc _ _⟩, h.rargc, ?_, ?_, ?_⟩
    · show ((argv.length + room (j + 1) : ℕ) : ℤ) = _
      omega
    · omega
    · omega

theorem growRargv_overflow (h : Grown argv l j s) {b : Block α}
    (hint : 2 ^ 31 ≤ 2 * (argv.length + room j)) : growRargv argv b s = none := by
  unfold growRargv
  rw [h.capacity, intOf_overflow (by omega), Option.bind_none]

-- ========================================================= the appends

/-- One append to a vector that is there. -/
theorem rargvAddObj_eq (h : Grown argv l j s) (obj : α) :
    rargvAddObj argv s obj = (if l.length = room j then
      s.rargv.bind fun b => growRargv argv b s else some s).bind (storeRargv obj) := by
  obtain ⟨b, hb, -, -⟩ := h.block
  have hfull : s.rargc = s.capacity ↔ l.length = room j := by
    rw [h.rargc, h.capacity]
    omega
  have hinit : initIfNull argv s = some s := by
    simp [initIfNull, hb]
  unfold rargvAddObj
  rw [hinit, Option.bind_some, hb, Option.bind_some, Option.bind_some]
  simp only [hfull]

/-- Every reallocation from the `j`-th on that `k` appended arguments ask
for can be computed. -/
def Fits (argc k j : ℕ) : Prop :=
  ∀ i, j ≤ i → room i < k → 2 * (argc + room i) < 2 ^ 31

/-- The appends of a preparation, from any point on: they come to an end
exactly if every reallocation on the way can be computed. -/
theorem foldlM_rargvAddObj (h : Grown argv l j s) (objs : List α) :
    (∃ s' i, objs.foldlM (rargvAddObj argv) s = some s' ∧ Grown argv (l ++ objs) i s' ∧
      Fits argv.length (l.length + objs.length) j) ∨
    objs.foldlM (rargvAddObj argv) s = none ∧ ¬ Fits argv.length (l.length + objs.length) j := by
  induction objs generalizing l j s with
  | nil =>
      refine Or.inl ⟨s, j, rfl, by simpa using h, fun i hi hlt => ?_⟩
      have hused := h.used
      have hmono := room_mono hi
      rw [List.length_nil] at hlt
      omega
  | cons obj objs ih =>
      have hadd := rargvAddObj_eq h obj
      have hsum : (l ++ [obj]).length + objs.length = l.length + (obj :: objs).length := by
        simp only [List.length_append, List.length_cons, List.length_nil]
        omega
      have happ : l ++ obj :: objs = l ++ [obj] ++ objs := by simp
      rw [List.foldlM_cons, happ, ← hsum]
      by_cases hfull : l.length = room j
      · obtain ⟨b, hb, -, -⟩ := h.block
        rw [if_pos hfull, hb, Option.bind_some] at hadd
        by_cases hint : 2 * (argv.length + room j) < 2 ^ 31
        · obtain ⟨s₁, hgrow, h₁⟩ := growRargv_grown h hb hint
          have hpos := room_pos j
          obtain ⟨s₂, hstore, h₂⟩ := storeRargv_grown h₁ (by rw [room_succ]; omega) obj
          rw [hgrow, Option.bind_some, hstore] at hadd
          have hfits : ∀ {k}, Fits argv.length k j ↔ Fits argv.length k (j + 1) := by
            intro k
            refine ⟨fun hf i hi => hf i (by omega), fun hf i hi hlt => ?_⟩
            rcases Nat.eq_or_lt_of_le hi with rfl | hi
            · exact hint
            · exact hf i hi hlt
          rw [hadd, hfits]
          exact ih h₂
        · rw [growRargv_overflow h (not_lt.mp hint), Option.bind_none] at hadd
          refine Or.inr ⟨by rw [hadd]; rfl, fun hf => hint (hf j le_rfl ?_)⟩
          rw [hsum, List.length_cons]
          omega
      · have hused := h.used
        obtain ⟨s₁, hstore, h₁⟩ := storeRargv_grown h (by omega) obj
        rw [if_neg hfull, Option.bind_some, hstore] at hadd
        rw [hadd]
        exact ih h₁

/-- The first append, or `CRDT_EFFECT`, makes the vector. -/
theorem prepareRargv_eq (h : argv.length + room 0 < 2 ^ 31) (objs : List α) :
    ∃ s, Grown argv [] 0 s ∧ prepareRargv argv objs = objs.foldlM (rargvAddObj argv) s := by
  obtain ⟨s, hinit, hs⟩ := initRargv_grown h
  have hcap : intOf ((argv.length : ℤ) + additionalCapacity)
      = some ((argv.length : ℤ) + (room 0 : ℕ)) :=
    intOf_natCast (by omega) (by rw [← room_zero]; omega)
  have hthere : ∀ {s' : Appending α} {l i}, Grown argv l i s' → initIfNull argv s' = some s' := by
    intro s' l i hs'
    obtain ⟨b, hb, -, -⟩ := hs'.block
    simp [initIfNull, hb]
  refine ⟨s, hs, ?_⟩
  unfold prepareRargv
  rw [hcap, Option.bind_some]
  cases objs with
  | nil => exact hinit
  | cons obj objs =>
      have hfirst : rargvAddObj argv ⟨none, 0, argv.length + room 0⟩ obj
          = rargvAddObj argv s obj := by
        unfold rargvAddObj
        rw [hthere hs]
        show (initRargv argv _).bind _ = _
        rw [hinit]
      rw [List.foldlM_cons, hfirst, ← List.foldlM_cons]
      rcases foldlM_rargvAddObj hs (obj :: objs) with ⟨s', i, hrun, hs', -⟩ | ⟨hrun, -⟩
      · rw [hrun, Option.bind_some, hthere hs']
      · rw [hrun, Option.bind_none]

/-- What a preparation leaves. -/
theorem prepareRargv_cases (h : argv.length + 4 < 2 ^ 31) (objs : List α) :
    (∃ s i, prepareRargv argv objs = some s ∧ Grown argv objs i s ∧
      Fits argv.length objs.length 0) ∨
    prepareRargv argv objs = none ∧ ¬ Fits argv.length objs.length 0 := by
  obtain ⟨s, hs, heq⟩ := prepareRargv_eq h objs
  rw [heq]
  have hrun := foldlM_rargvAddObj hs objs
  rwa [List.nil_append, List.length_nil, Nat.zero_add] at hrun

/-- `CRDT_PREPARE` itself. -/
theorem prepareRargv_argc {objs : List α} {s : Appending α} (h : prepareRargv argv objs = some s) :
    argv.length + 4 < 2 ^ 31 := by
  by_contra hcon
  have hcap : intOf ((argv.length : ℤ) + additionalCapacity) = none := by
    refine intOf_overflow ?_
    show 2 ^ 31 ≤ (argv.length : ℤ) + (4 : ℕ)
    omega
  rw [prepareRargv, hcap] at h
  cases h

/-- The appends of a preparation leave the client's arguments followed by
the appended ones, all stores in bounds, exactly if no reallocation on the
way asks for more than an `int` can count. -/
theorem prepareRargv_iff (argv objs : List α) :
    (∃ s b, prepareRargv argv objs = some s ∧ s.rargv = some b ∧
        s.rargc = argv.length + objs.length ∧
        b.read (argv.length + objs.length) = some (argv ++ objs)) ↔
      argv.length + 4 < 2 ^ 31 ∧
        ∀ j, 4 * 2 ^ j < objs.length → 2 * (argv.length + 4 * 2 ^ j) < 2 ^ 31 := by
  have hfits : (∀ j, 4 * 2 ^ j < objs.length → 2 * (argv.length + 4 * 2 ^ j) < 2 ^ 31)
      ↔ Fits argv.length objs.length 0 :=
    ⟨fun h i _ => h i, fun h i => h i (Nat.zero_le i)⟩
  rw [hfits]
  by_cases hinit : argv.length + 4 < 2 ^ 31
  · rw [and_iff_right hinit]
    rcases prepareRargv_cases hinit objs with ⟨s, i, hrun, hs, hf⟩ | ⟨hrun, hf⟩
    · obtain ⟨b, hb, hholds, -⟩ := hs.block
      refine iff_of_true ⟨s, b, hrun, hb, hs.rargc, ?_⟩ hf
      rw [← List.length_append]
      exact hholds.read
    · refine iff_of_false ?_ hf
      intro ⟨s, b, hs, _⟩
      rw [hrun] at hs
      cases hs
  · refine iff_of_false ?_ fun hcon => hinit hcon.1
    intro ⟨s, b, hs, _⟩
    exact hinit (prepareRargv_argc hs)

/-- A remove of an element with `2^30 + 1` tags: the vector has
`3 + 2^30` entries, all in use, when the last tag is to be appended. -/
theorem prepareRargv_overflow :
    prepareRargv (["osrem", "s", "e"].map (Arg.str (n := 1)))
      ((List.range (2 ^ 30 + 1)).map fun i : ℕ => Arg.lc ⟨(i : ℤ), 0⟩) = none := by
  have hargc : (["osrem", "s", "e"].map (Arg.str (n := 1))).length + 4 < 2 ^ 31 := by decide
  rcases prepareRargv_cases hargc
      ((List.range (2 ^ 30 + 1)).map fun i : ℕ => Arg.lc ⟨(i : ℤ), 0⟩) with
    ⟨s, i, -, -, hf⟩ | ⟨hnone, -⟩
  · -- the 28th reallocation is the one that cannot be computed
    have hlast := hf 28 (Nat.zero_le _) (by
      rw [List.length_map, List.length_range]
      decide)
    exact absurd hlast (by decide)
  · exact hnone

-- ================================== the same with natural numbers

variable {n : ℕ}

/-- Where the `int`s hold out, the vector is the one `rargvAddAll`
makes. -/
theorem prepareRargv_refines {argv objs : List (Arg n)} {s : Appending (Arg n)}
    (h : prepareRargv argv objs = some s) :
    ∃ b r, s.rargv = some b ∧ rargvAddAll argv.length none (argv ++ objs) = some r ∧
      b.read r.args.length = some r.args := by
  obtain ⟨r, hr, hargs⟩ := rargvAddAll_own argv.length (argv ++ objs)
  rcases prepareRargv_cases (prepareRargv_argc h) objs with ⟨s', i, hrun, hs, -⟩ | ⟨hrun, -⟩
  · rw [h] at hrun
    obtain rfl := Option.some.inj hrun
    obtain ⟨b, hb, hholds, -⟩ := hs.block
    refine ⟨b, r, hb, hr, ?_⟩
    rw [hargs]
    exact hholds.read
  · rw [hrun] at h
    cases h

end CrdtRedis
