/-
Calls on the sorted set of one key, from a key that does not exist.

Every call of the CRDT types creates the key if it is missing and then
adds or deletes one element. Such calls have an outcome, whatever the
settings are at each call and whatever is drawn, and a run of them is a
run on a map: what the calls report and what the object answers in the
end is what the map says (`zset_run_map`). That an add is refused, since
it has no number or its sum is none, is among the reports. The ranks are
right as long as the number of elements fits the counters of `zslInsert`
(`zset_run_ranks`).

No call removes the key when its last element goes. An empty ziplist can
stay behind, and `zsetRank` asserts that there is none.
-/
import CrdtRedis.SortedSetMap
import Mathlib.Algebra.Order.Monoid.Unbundled.WithTop
import Mathlib.Data.List.Dedup

namespace CrdtRedis

/-- What a call finds: the settings, and the numbers it draws. -/
structure ZsetEnv where
  conf : ZsetConf
  draws : List (List ℕ)

/-- A call on the sorted set of a key. -/
inductive ZsetOp (S : Type)
  | add (score : Option S) (ele : String) (flags : ZaddFlags)
  | del (ele : String)

/-- What a call reports. -/
inductive ZsetReport (S : Type)
  | add (r : ZaddResult S)
  | del (there : Bool)
deriving DecidableEq, Repr

set_option linter.unusedSectionVars false

variable {S : Type} [LinearOrder S] [Zero S] [ScoreAdd S]

namespace ZsetOp

def ele : ZsetOp S → String
  | .add _ ele _ => ele
  | .del ele => ele

/-- `getZsetOrCreate`, then `zsetAdd` or `zsetDel`. -/
def exec (env : ZsetEnv) (key : Option (ZsetObj S)) (op : ZsetOp S) :
    Option (ZsetObj S × ZsetReport S) :=
  let o := getZsetOrCreate env.conf op.ele key
  match op with
  | .add score ele flags =>
      (o.zsetAdd env.conf env.draws score ele flags).map fun p => (p.1, .add p.2)
  | .del ele => (o.zsetDel ele).map fun p => (p.1, .del p.2)

/-- Calls in a row, on what the key holds. -/
def execs : Option (ZsetObj S) → List (ZsetEnv × ZsetOp S) →
    Option (Option (ZsetObj S) × List (ZsetReport S))
  | key, [] => some (key, [])
  | key, (env, op) :: calls =>
      (op.exec env key).bind fun p => (execs (some p.1) calls).map fun q => (q.1, p.2 :: q.2)

-- ========================================================== on the map

/-- What a call is for. -/
def onMap (m : String → Option S) : ZsetOp S → (String → Option S) × ZsetReport S
  | .add score ele flags =>
      ((ZsetObj.mapAdd m score ele flags).1, .add (ZsetObj.mapAdd m score ele flags).2)
  | .del ele => (Function.update m ele none, .del (m ele).isSome)

def onMaps (m : String → Option S) : List (ZsetOp S) → (String → Option S) × List (ZsetReport S)
  | [] => (m, [])
  | op :: ops => ((onMaps (op.onMap m).1 ops).1, (op.onMap m).2 :: (onMaps (op.onMap m).1 ops).2)

/-- What the key holds is the map `m`; a missing key is the empty one. -/
def Shows (ok : Prop) (m : String → Option S) : Option (ZsetObj S) → Prop
  | some o => o.Shows ok m
  | none => m = fun _ => none

variable {ok : Prop} {m : String → Option S} {key : Option (ZsetObj S)} {names : List String}

theorem shows_none (ok : Prop) : Shows (S := S) ok (fun _ => none) none := rfl

theorem getZsetOrCreate_spec (h : Shows ok m key) (conf : ZsetConf) (ele : String) :
    (getZsetOrCreate conf ele key).Shows ok m := by
  cases key with
  | some o => exact h
  | none =>
      obtain rfl : m = fun _ => none := h
      unfold getZsetOrCreate
      split_ifs
      · exact ⟨_, .skiplist (ZsetObj.zslCreate_rep ok) (fun e a => by simp), .nil⟩
      · exact ⟨[], .ziplist [], .nil⟩

/-- One call. -/
theorem exec_spec (h : Shows ok m key) (env : ZsetEnv) (op : ZsetOp S)
    (hsmall : ok → ∀ es, Listing zkey es m → es.length + 1 < 2 ^ 32) :
    ∃ o, op.exec env key = some (o, (op.onMap m).2) ∧ o.Shows ok (op.onMap m).1 := by
  have hkey := getZsetOrCreate_spec h env.conf op.ele
  cases op with
  | add score ele flags =>
      obtain ⟨o, ho, hshows⟩ :=
        ZsetObj.zsetAdd_spec env.conf env.draws ele flags score hkey hsmall
      exact ⟨o, by simp only [exec, ho]; rfl, hshows⟩
  | del ele =>
      obtain ⟨o, ho, hshows⟩ := ZsetObj.zsetDel_spec hkey ele
      exact ⟨o, by simp only [exec, ho]; rfl, hshows⟩

/-- A call names the only element it can add. -/
theorem onMap_support (hm : ∀ e, m e ≠ none → e ∈ names) {op : ZsetOp S} (hop : op.ele ∈ names) :
    ∀ e, (op.onMap m).1 e ≠ none → e ∈ names := by
  have hput : ∀ v e, Function.update m op.ele v e ≠ none → e ∈ names := by
    intro v e he
    by_cases heq : e = op.ele
    · exact heq ▸ hop
    · rw [Function.update_of_ne heq] at he
      exact hm e he
  cases op with
  | add score ele flags =>
      simp only [onMap, ZsetObj.mapAdd]
      repeat' split
      all_goals first | exact hm | exact hput _
  | del ele => exact hput _

/-- A run of calls on elements of `names`. -/
theorem execs_spec (ok : Prop) (names : List String) (hfew : ok → names.length + 1 < 2 ^ 32)
    (calls : List (ZsetEnv × ZsetOp S))
    (hcalls : ∀ c ∈ calls, c.2.ele ∈ names) (hm : ∀ e, m e ≠ none → e ∈ names)
    (h : Shows ok m key) :
    ∃ key', execs key calls = some (key', (onMaps m (calls.map Prod.snd)).2) ∧
      Shows ok (onMaps m (calls.map Prod.snd)).1 key' ∧
      ∀ e, (onMaps m (calls.map Prod.snd)).1 e ≠ none → e ∈ names := by
  induction calls generalizing key m with
  | nil => exact ⟨key, rfl, h, hm⟩
  | cons c calls ih =>
      obtain ⟨env, op⟩ := c
      have hop : op.ele ∈ names := hcalls (env, op) List.mem_cons_self
      obtain ⟨o, ho, hshows⟩ := exec_spec h env op fun hok es hes =>
        lt_of_le_of_lt (Nat.succ_le_succ (hes.length_le hm)) (hfew hok)
      obtain ⟨key', hkey', hshows', hm'⟩ := ih
        (fun c hc => hcalls c (List.mem_cons_of_mem _ hc)) (onMap_support hm hop)
        (show Shows ok (op.onMap m).1 (some o) from hshows)
      exact ⟨key', by simp only [execs, ho, Option.bind_some, hkey']; rfl, hshows', hm'⟩

end ZsetOp

open ZsetOp

/-- Calls on one key act on a map, and report and leave behind what the
map says: scores, the number of elements, the greatest entry. -/
theorem zset_run_map (calls : List (ZsetEnv × ZsetOp S)) :
    ∃ key, execs none calls = some (key, (onMaps (fun _ => none) (calls.map Prod.snd)).2) ∧
      ∀ o, key = some o →
        ∃ es, Listing zkey es (onMaps (fun _ => none) (calls.map Prod.snd)).1 ∧
          (∀ e, o.zsetScore e = some ((onMaps (fun _ => none) (calls.map Prod.snd)).1 e)) ∧
          o.zsetLength = UInt64.ofNat es.length ∧ o.lastEntry = es.getLast? := by
  obtain ⟨key, hkey, hshows, -⟩ := execs_spec False (calls.map fun c => c.2.ele) False.elim calls
    (fun c hc => List.mem_map.mpr ⟨c, hc, rfl⟩) (fun e he => absurd rfl he) (shows_none False)
  refine ⟨key, hkey, ?_⟩
  rintro o rfl
  have hscore := ZsetObj.zsetScore_spec hshows
  obtain ⟨es, hstores, hes⟩ := hshows
  exact ⟨es, hes, hscore, ZsetObj.zsetLength_spec hstores, ZsetObj.lastEntry_spec hstores⟩

/-- Ranks count the entries before and behind, and a rank leads back to
its node; there is no answer exactly on an empty ziplist. -/
theorem zset_run_ranks (calls : List (ZsetEnv × ZsetOp S))
    (hfew : (calls.map fun c => c.2.ele).dedup.length + 1 < 2 ^ 32) :
    ∃ key, execs none calls = some (key, (onMaps (fun _ => none) (calls.map Prod.snd)).2) ∧
      ∀ o, key = some o →
        ∃ es, Listing zkey es (onMaps (fun _ => none) (calls.map Prod.snd)).1 ∧
          (∀ pre e s post, es = pre ++ (e, s) :: post →
            o.zsetRank e false = some ↑pre.length ∧ o.zsetRank e true = some ↑post.length ∧
            ∀ zs, o = .skiplist zs → ∃ a nd,
              zs.zsl.zslGetElementByRank (UInt64.ofNat (pre.length + 1)) = some (some a) ∧
              zs.zsl.node a = some nd ∧ nd.ele = some e ∧ nd.score = s) ∧
          ∀ e reverse, o.zsetRank e reverse = none ↔ o = .ziplist [] := by
  obtain ⟨key, hkey, hshows, hm⟩ := execs_spec True (calls.map fun c => c.2.ele).dedup
    (fun _ => hfew) calls (fun c hc => List.mem_dedup.mpr (List.mem_map.mpr ⟨c, hc, rfl⟩))
    (fun e he => absurd rfl he) (shows_none True)
  refine ⟨key, hkey, ?_⟩
  rintro o rfl
  obtain ⟨es, hstores, hes⟩ := hshows
  have hsmall : es.length < 2 ^ 32 :=
    lt_of_le_of_lt (hes.length_le hm) (Nat.lt_of_succ_lt hfew)
  have hrank : ∀ {pre e s post}, es = pre ++ (e, s) :: post → ∀ reverse, _ :=
    fun hsplit => ZsetObj.zsetRank_spec hstores hes hsplit hsmall
  refine ⟨es, hes, fun pre e s post hsplit => ⟨hrank hsplit false, hrank hsplit true, ?_⟩, ?_⟩
  · rintro zs rfl
    exact ZsetObj.byRank_spec hstores hsplit hsmall
  · intro e reverse
    constructor
    · intro hnone
      by_contra hne
      cases hme : (onMaps (fun _ => none) (calls.map Prod.snd)).1 e with
      | none => simp [ZsetObj.zsetRank_none hstores hes hme hne] at hnone
      | some s =>
          obtain ⟨pre, post, hsplit, -⟩ := hes.split hme
          simp [hrank hsplit reverse] at hnone
    · rintro rfl
      rfl

/-- Integers and the infinities. -/
abbrev IntInf := WithBot (WithTop ℤ)

instance : ScoreAdd IntInf :=
  ⟨fun a b => if a = ⊥ ∧ b = ⊤ ∨ a = ⊤ ∧ b = ⊥ then none else some (a + b)⟩

/-- Three entries, of which the infinite one refuses to be lowered by
infinity; the ziplist becomes a skip list on the way. -/
def threeEntries : List (ZsetEnv × ZsetOp IntInf) :=
  [(⟨⟨2, 64⟩, []⟩, .add (some 5) "b" .none), (⟨⟨2, 64⟩, []⟩, .add (some 5) "a" .none),
    (⟨⟨2, 64⟩, [[0], [], [0, 0]]⟩, .add (some ⊤) "c" .none),
    (⟨⟨2, 64⟩, []⟩, .add (some ⊥) "c" ⟨true, false, false⟩)]

theorem threeEntries_listing : Listing zkey [("a", 5), ("b", 5), ("c", ⊤)]
    (onMaps (fun _ => none) (threeEntries.map Prod.snd)).1 := by
  have hb : Listing zkey ([] ++ ("b", (5 : IntInf)) :: [])
      (Function.update (fun _ => none) "b" (some 5)) := Listing.put .nil rfl (by decide)
  have ha : Listing zkey ([] ++ ("a", (5 : IntInf)) :: [("b", 5)])
      (Function.update (Function.update (fun _ => none) "b" (some 5)) "a" (some 5)) :=
    Listing.put hb (by decide) (by decide)
  show Listing zkey ([("a", 5), ("b", 5)] ++ ("c", (⊤ : IntInf)) :: []) _
  exact Listing.put ha (by decide) (by decide)

/-- Ranks among three entries; and where a single element was added and
deleted with the settings by default, `zsetRank` fails on what is left. -/
theorem zset_run_ranks_three :
    (∃ o, (execs none threeEntries).map Prod.fst = some (some o) ∧
      o.zsetRank "b" false = some 1 ∧ o.zsetRank "b" true = some 1 ∧
      o.zsetRank "c" false = some 2) ∧
    ∃ o, (execs none [(⟨⟨128, 64⟩, []⟩, .add (some (5 : ℤ)) "a" .none),
        (⟨⟨128, 64⟩, []⟩, .del "a")]).map Prod.fst = some (some o) ∧
      ∀ e reverse, o.zsetRank e reverse = none := by
  constructor
  · obtain ⟨key, hkey, hranks⟩ := zset_run_ranks threeEntries (by decide)
    have hmade : (execs none threeEntries).map (fun p => p.1.isSome) = some true := by
      decide +kernel
    rw [hkey] at hmade
    obtain ⟨o, rfl⟩ := Option.isSome_iff_exists.mp (Option.some.inj hmade)
    obtain ⟨es, hes, hrank, -⟩ := hranks o rfl
    obtain rfl := hes.unique threeEntries_listing
    have hb := hrank [("a", 5)] "b" 5 [("c", ⊤)] rfl
    exact ⟨o, by rw [hkey]; rfl, hb.1, hb.2.1, (hrank [("a", 5), ("b", 5)] "c" ⊤ [] rfl).1⟩
  · obtain ⟨key, hkey, hranks⟩ := zset_run_ranks [(⟨⟨128, 64⟩, []⟩, .add (some (5 : ℤ)) "a" .none),
      (⟨⟨128, 64⟩, []⟩, .del "a")] (by decide)
    have hleft : (execs none [(⟨⟨128, 64⟩, []⟩, .add (some (5 : ℤ)) "a" .none),
        (⟨⟨128, 64⟩, []⟩, .del "a")]).map Prod.fst = some (some (.ziplist [])) := rfl
    rw [hkey] at hleft
    obtain rfl : key = some (.ziplist []) := Option.some.inj hleft
    obtain ⟨es, -, -, hnone⟩ := hranks _ rfl
    exact ⟨_, by rw [hkey]; rfl, fun e reverse => (hnone e reverse).mpr rfl⟩

end CrdtRedis
