/-
The skip list of sorted sets (t_zset.c): nodes in a row that ascends by
score and element, each on a number of levels, with a pointer forward on
every level, the number of nodes it passes (`span`), and a pointer back.

The nodes are kept by address; `header` is one of them. A pointer to a
node that was never made or was freed, and a level a node does not have,
are `none`, as is a loop that does not end: `allocs` counts the nodes ever
made, and no search passes more. Spans and the length are `unsigned long`;
`zslInsert` adds its ranks up in an `unsigned int`.

Scores are of any ordered type `S` with a zero, which stands for the
doubles that are not NaN (0 and -0, which compare equal, are one): no NaN
gets into a list, `zslInsert` asserts it.
-/
import CrdtRedis.Basic
import Mathlib.Data.String.Basic
import Mathlib.Data.Prod.Lex
import Mathlib.Logic.Function.Basic

namespace CrdtRedis

-- ======================================================== the strings

/-- `memcmp`, up to the end of the shorter string. -/
def memcmp : List Char → List Char → Ordering
  | a :: s, b :: t => if a < b then .lt else if b < a then .gt else memcmp s t
  | _, _ => .eq

/-- `sdscmp`: by the sign of its result. -/
def sdscmp (s1 s2 : String) : Ordering :=
  (memcmp s1.toList s2.toList).then (compare s1.length s2.length)

-- ========================================================== the types

/-- `ZSKIPLIST_MAXLEVEL`. -/
def zskiplistMaxlevel : ℕ := 32

/-- `struct zskiplistLevel`. -/
structure ZskiplistLevel where
  forward : Option ℕ
  span : UInt64
deriving DecidableEq, Repr

/-- `zskiplistNode`; the header has no `ele`. -/
structure ZskiplistNode (S : Type) where
  ele : Option String
  score : S
  backward : Option ℕ
  level : List ZskiplistLevel
deriving DecidableEq, Repr

/-- `zskiplist`, with the nodes. -/
structure Zskiplist (S : Type) where
  node : ℕ → Option (ZskiplistNode S)
  header : ℕ
  tail : Option ℕ
  length : UInt64
  level : ℕ
  allocs : ℕ

variable {S : Type} [LinearOrder S] [Zero S]

/-- The order of the nodes, as the searches test it: `nd` comes before an
element with this score. -/
def ZskiplistNode.before (score : S) (ele : String) (nd : ZskiplistNode S) : Bool :=
  nd.score < score || (nd.score == score && nd.ele.any fun e => sdscmp e ele == .lt)

/-- The same, or it is that element. -/
def ZskiplistNode.upTo (score : S) (ele : String) (nd : ZskiplistNode S) : Bool :=
  nd.score < score || (nd.score == score && nd.ele.any fun e => sdscmp e ele != .gt)

/-- `x->ele && sdscmp(x->ele,ele) == 0`. -/
def ZskiplistNode.named (ele : String) (nd : ZskiplistNode S) : Bool :=
  nd.ele.any fun e => sdscmp e ele == .eq

/-- `zslRandomLevel`, where `draws` is what `random` returns, up to the
first that ends the loop. -/
def zslRandomLevel (draws : List ℕ) : ℕ :=
  let level := 1 + (draws.takeWhile fun r => 4 * (r % 2 ^ 16) < 2 ^ 16 - 1).length
  if level < zskiplistMaxlevel then level else zskiplistMaxlevel

namespace Zskiplist

-- ============================================================= nodes

/-- `zslCreateNode`. The levels are not written yet. -/
def zslCreateNode (z : Zskiplist S) (level : ℕ) (score : S) (ele : Option String) :
    Zskiplist S × ℕ :=
  ({ z with
      node := Function.update z.node z.allocs
        (some ⟨ele, score, none, List.replicate level ⟨none, 0⟩⟩)
      allocs := z.allocs + 1 }, z.allocs)

/-- `zslFreeNode`. -/
def zslFreeNode (z : Zskiplist S) (x : ℕ) : Zskiplist S :=
  { z with node := Function.update z.node x none }

/-- `zslCreate`. -/
def zslCreate : Zskiplist S :=
  (zslCreateNode ⟨fun _ => none, 0, none, 0, 1, 0⟩ zskiplistMaxlevel 0 none).1

/-- `x->level[i]`. -/
def levelAt (z : Zskiplist S) (x i : ℕ) : Option ZskiplistLevel :=
  (z.node x).bind fun nd => nd.level[i]?

/-- A write to node `x`. -/
def modify (z : Zskiplist S) (x : ℕ) (f : ZskiplistNode S → ZskiplistNode S) :
    Option (Zskiplist S) :=
  (z.node x).map fun nd => { z with node := Function.update z.node x (some (f nd)) }

/-- A write to `x->level[i]`. -/
def setLevel (z : Zskiplist S) (x i : ℕ) (lv : ZskiplistLevel) : Option (Zskiplist S) :=
  (z.levelAt x i).bind fun _ => z.modify x fun nd => { nd with level := nd.level.set i lv }

-- ========================================================== searches

section

variable {A : Type} (z : Zskiplist S) (add : A → UInt64 → A) (go : A → ZskiplistNode S → Bool)

/-- The inner loop of a search, from node `x` on level `i`: as long as
there is a next node and the test lets it, go there and add the span. -/
def walk (i : ℕ) : ℕ → ℕ → A → Option (ℕ × A)
  | 0, _, _ => none
  | fuel + 1, x, r =>
      (z.levelAt x i).bind fun lv =>
        match lv.forward with
        | none => some (x, r)
        | some y =>
            (z.node y).bind fun nd =>
              if go (add r lv.span) nd then walk i fuel y (add r lv.span) else some (x, r)

/-- The outer loop from level `i - 1` down to 0, with what it leaves in
`update[0..i)` and `rank[0..i)`. -/
def descend : ℕ → ℕ → A → Option (List (ℕ × A))
  | 0, _, _ => some []
  | i + 1, x, r =>
      (walk z add go i (z.allocs + 1) x r).bind fun p =>
        (descend i p.1 p.2).map fun ps => ps ++ [p]

/-- The same of a search that returns where `found` says so. -/
def seek (found : ZskiplistNode S → A → Bool) : ℕ → ℕ → A → Option (Option (ℕ × A))
  | 0, _, _ => some none
  | i + 1, x, r =>
      (walk z add go i (z.allocs + 1) x r).bind fun p =>
        (z.node p.1).bind fun nd =>
          if found nd p.2 then some (some p) else seek found i p.1 p.2

end

-- =========================================================== inserts

/-- The levels from `lo` on, up to `hi`. -/
def forLevels (lo hi : ℕ) (step : ℕ → Zskiplist S → Option (Zskiplist S)) (z : Zskiplist S) :
    Option (Zskiplist S) :=
  (List.range' lo (hi - lo)).foldlM (fun z i => step i z) z

/-- A level that is new to the list: its span in the header. -/
def openLevel (i : ℕ) (z : Zskiplist S) : Option (Zskiplist S) :=
  (z.levelAt z.header i).bind fun lv => z.setLevel z.header i { lv with span := z.length }

/-- Node `x` goes behind `update[i]` on level `i`; `u` is `update[i]` with
`rank[i]`. -/
def linkLevel (x : ℕ) (rank0 : UInt32) (u : ℕ × UInt32) (i : ℕ) (z : Zskiplist S) :
    Option (Zskiplist S) :=
  (z.levelAt u.1 i).bind fun lv =>
    (z.setLevel x i ⟨lv.forward, lv.span - (rank0 - u.2).toUInt64⟩).bind fun z =>
      z.setLevel u.1 i ⟨some x, (rank0 - u.2 + 1).toUInt64⟩

/-- A node was added under `update[i]` on a level it does not have. -/
def passLevel (u : ℕ × UInt32) (i : ℕ) (z : Zskiplist S) : Option (Zskiplist S) :=
  (z.levelAt u.1 i).bind fun lv => z.setLevel u.1 i { lv with span := lv.span + 1 }

/-- The pointers back at the end of `zslInsert`, and the length. -/
def linkBack (x : ℕ) (u : ℕ) (z : Zskiplist S) : Option (Zskiplist S) :=
  (z.modify x fun nd => { nd with backward := if u = z.header then none else some u }).bind
    fun z => (z.levelAt x 0).bind fun lv =>
      match lv.forward with
      | some y =>
          (z.modify y fun nd => { nd with backward := some x }).map fun z =>
            { z with length := z.length + 1 }
      | none => some { z with tail := some x, length := z.length + 1 }

/-- `zslInsert`: the list after it and the new node. -/
def zslInsert (z : Zskiplist S) (draws : List ℕ) (score : S) (ele : String) :
    Option (Zskiplist S × ℕ) :=
  (z.descend (fun r s => r + s.toUInt32) (fun _ => ZskiplistNode.before score ele)
      z.level z.header (0 : UInt32)).bind fun update =>
    let level := zslRandomLevel draws
    let update := update ++ List.replicate (level - z.level) (z.header, 0)
    update.head?.bind fun u0 =>
      (forLevels z.level level openLevel z).bind fun z =>
        let z := { z with level := max z.level level }
        let (z, x) := z.zslCreateNode level score (some ele)
        (forLevels 0 level (fun i z =>
            update[i]?.bind fun u => z.linkLevel x u0.2 u i) z).bind fun z =>
          (forLevels level z.level (fun i z =>
              update[i]?.bind fun u => z.passLevel u i) z).bind fun z =>
            (z.linkBack x u0.1).map fun z => (z, x)

-- ========================================================= deletions

/-- Node `x` is taken out of level `i`. -/
def unlinkLevel (x u i : ℕ) (z : Zskiplist S) : Option (Zskiplist S) :=
  (z.levelAt u i).bind fun lv =>
    if lv.forward = some x then
      (z.levelAt x i).bind fun lx => z.setLevel u i ⟨lx.forward, lv.span + (lx.span - 1)⟩
    else z.setLevel u i { lv with span := lv.span - 1 }

/-- The pointers back at the end of `zslDeleteNode`. -/
def unlinkBack (x : ℕ) (z : Zskiplist S) : Option (Zskiplist S) :=
  (z.node x).bind fun nd =>
    (z.levelAt x 0).bind fun lv =>
      match lv.forward with
      | some y => z.modify y fun ny => { ny with backward := nd.backward }
      | none => some { z with tail := nd.backward }

/-- `while(zsl->level > 1 && ...) zsl->level--`, from level `i` on. -/
def dropLevels (z : Zskiplist S) : ℕ → Option (Zskiplist S)
  | 0 => some z
  | 1 => some { z with level := 1 }
  | i + 2 =>
      (z.levelAt z.header (i + 1)).bind fun lv =>
        if lv.forward = none then dropLevels z (i + 1) else some { z with level := i + 2 }

/-- `zslDeleteNode`. -/
def zslDeleteNode (z : Zskiplist S) (x : ℕ) (update : List ℕ) : Option (Zskiplist S) :=
  (forLevels 0 z.level (fun i z => update[i]?.bind fun u => z.unlinkLevel x u i) z).bind fun z =>
    (z.unlinkBack x).bind fun z =>
      (z.dropLevels z.level).map fun z => { z with length := z.length - 1 }

/-- The search of `zslDelete` and `zslUpdateScore`: `update`, and the node
behind `update[0]`. -/
def zslSeek (z : Zskiplist S) (score : S) (ele : String) : Option (List ℕ × Option ℕ) :=
  (z.descend (fun _ _ => ()) (fun _ => ZskiplistNode.before score ele) z.level z.header ()).bind
    fun update => update.head?.bind fun u0 =>
      (z.levelAt u0.1 0).map fun lv => (update.map Prod.fst, lv.forward)

/-- The test that the node found is the one that was looked for. -/
def isNode (z : Zskiplist S) (x : ℕ) (score : S) (ele : String) : Option Bool :=
  (z.node x).map fun nd => score == nd.score && nd.named ele

/-- `zslDelete`, with a node argument that is NULL: the list after it and
its result. -/
def zslDelete (z : Zskiplist S) (score : S) (ele : String) : Option (Zskiplist S × Bool) :=
  (z.zslSeek score ele).bind fun p =>
    match p.2 with
    | none => some (z, false)
    | some x =>
        (z.isNode x score ele).bind fun found =>
          if found then
            (z.zslDeleteNode x p.1).map fun z => (z.zslFreeNode x, true)
          else some (z, false)

/-- `p == NULL || test(p->score)`. -/
def nullOr (z : Zskiplist S) (test : S → Bool) : Option ℕ → Option Bool
  | none => some true
  | some x => (z.node x).map fun nd => test nd.score

/-- Whether the node at `x` would be at the same position with another
score. -/
def keepsPlace (z : Zskiplist S) (x : ℕ) (newscore : S) : Option Bool :=
  (z.node x).bind fun nd =>
    (z.levelAt x 0).bind fun lv =>
      (z.nullOr (fun s => s < newscore) nd.backward).bind fun left =>
        if left then z.nullOr (fun s => newscore < s) lv.forward else some false

/-- `zslUpdateScore`: the list after it and the node; `none` is a failed
assertion as well. -/
def zslUpdateScore (z : Zskiplist S) (draws : List ℕ) (curscore : S) (ele : String)
    (newscore : S) : Option (Zskiplist S × ℕ) :=
  (z.zslSeek curscore ele).bind fun p =>
    p.2.bind fun x =>
      (z.isNode x curscore ele).bind fun found =>
        if found then
          (z.keepsPlace x newscore).bind fun keeps =>
            if keeps then
              (z.modify x fun nd => { nd with score := newscore }).map fun z => (z, x)
            else
              (z.zslDeleteNode x p.1).bind fun z =>
                ((z.node x).bind fun nd => nd.ele).bind fun ele =>
                  (z.zslInsert draws newscore ele).map fun q => (q.1.zslFreeNode x, q.2)
        else none

-- ============================================================= ranks

/-- `zslGetRank`. -/
def zslGetRank (z : Zskiplist S) (score : S) (ele : String) : Option UInt64 :=
  (z.seek (fun r s => r + s) (fun _ => ZskiplistNode.upTo score ele)
      (fun nd _ => nd.named ele) z.level z.header (0 : UInt64)).map fun
    | some p => p.2
    | none => 0

/-- `zslGetElementByRank`. -/
def zslGetElementByRank (z : Zskiplist S) (rank : UInt64) : Option (Option ℕ) :=
  (z.seek (fun r s => r + s) (fun r _ => decide (r ≤ rank)) (fun _ r => r == rank)
      z.level z.header (0 : UInt64)).map fun p => p.map Prod.fst

end Zskiplist

end CrdtRedis
