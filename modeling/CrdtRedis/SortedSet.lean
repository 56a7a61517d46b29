/-
Sorted sets (t_zset.c), in both encodings, as the CRDT types use them
(`getZsetOrCreate` of t_ozset.c, `zsetAdd`, `zsetDel`) and read them
(`zsetScore`, `zsetLength`, `zsetRank` and the queries of the CRDT types).

A ziplist is the list of its entries, an element and its score at a time:
how entries are laid out in bytes, a number as an integer or as text, is
left out. A skip list goes with a dictionary that holds, for every
element, a pointer to the score in its node. A double is `some` score or
`none`, a NaN: `zsetAdd` can be given one, and the sum of two scores can
be one (`ScoreAdd`). A failed assertion, like a pointer that leads
nowhere, has no outcome.
-/
import CrdtRedis.SkipList

namespace CrdtRedis

/-- `+` on the doubles that are not NaN. -/
class ScoreAdd (S : Type) where
  add : S → S → Option S

/-- Integers, as long as doubles have their sums. -/
instance : ScoreAdd ℤ := ⟨fun a b => some (a + b)⟩

variable {S : Type} [LinearOrder S] [Zero S]

-- ======================================================== ziplists

/-- The entries of a ziplist. -/
abbrev Zl (S : Type) := List (String × S)

/-- The loop of `zzlFind`, at the entry of index `k`: the index and the
score. -/
def zzlFindFrom (ele : String) : ℕ → Zl S → Option (ℕ × S)
  | _, [] => none
  | k, (e, s) :: zl => if e = ele then some (k, s) else zzlFindFrom ele (k + 1) zl

/-- `zzlFind`. -/
def zzlFind (zl : Zl S) (ele : String) : Option (ℕ × S) := zzlFindFrom ele 0 zl

/-- `zzlDelete`. -/
def zzlDelete (zl : Zl S) (k : ℕ) : Zl S := zl.eraseIdx k

/-- `zzlInsert`. -/
def zzlInsert (ele : String) (score : S) : Zl S → Zl S
  | [] => [(ele, score)]
  | (e, s) :: zl =>
      if score < s then (ele, score) :: (e, s) :: zl
      else if s = score ∧ sdscmp e ele = .gt then (ele, score) :: (e, s) :: zl
      else (e, s) :: zzlInsert ele score zl

-- ========================================================= the object

/-- The settings `zset-max-ziplist-entries` and `zset-max-ziplist-value`. -/
structure ZsetConf where
  maxZiplistEntries : ℕ
  maxZiplistValue : ℕ

/-- `struct zset`; the dictionary holds the nodes whose scores it points
to. -/
structure Zset (S : Type) where
  dict : String → Option ℕ
  zsl : Zskiplist S

/-- An object of type OBJ_ZSET, by its encoding. -/
inductive ZsetObj (S : Type)
  | ziplist (zl : Zl S)
  | skiplist (zs : Zset S)

/-- `createZsetObject`. -/
def createZsetObject : ZsetObj S := .skiplist ⟨fun _ => none, .zslCreate⟩

/-- `createZsetZiplistObject`. -/
def createZsetZiplistObject : ZsetObj S := .ziplist []

/-- `dictAdd`, asserted to succeed. -/
def Zset.dictAdd (zs : Zset S) (ele : String) (node : ℕ) : Option (Zset S) :=
  match zs.dict ele with
  | some _ => none
  | none => some { zs with dict := Function.update zs.dict ele (some node) }

namespace ZsetObj

/-- The loop of `zsetConvert`. -/
def convertLoop : List (List ℕ) → Zl S → Zset S → Option (Zset S)
  | _, [], zs => some zs
  | draws, (e, s) :: zl, zs =>
      (zs.zsl.zslInsert (draws.headD []) s e).bind fun p =>
        (Zset.dictAdd { zs with zsl := p.1 } e p.2).bind fun zs => convertLoop draws.tail zl zs

/-- `zsetConvert` to OBJ_ENCODING_SKIPLIST. -/
def zsetConvert (draws : List (List ℕ)) : ZsetObj S → Option (ZsetObj S)
  | .skiplist zs => some (.skiplist zs)
  | .ziplist [] => none
  | .ziplist zl => (convertLoop draws zl ⟨fun _ => none, .zslCreate⟩).map .skiplist

/-- `zsetLength`. -/
def zsetLength : ZsetObj S → UInt64
  | .ziplist zl => UInt64.ofNat zl.length
  | .skiplist zs => zs.zsl.length

/-- `*(double*)dictGetVal(de)`. -/
def dictScore (zs : Zset S) (node : ℕ) : Option S := (zs.zsl.node node).map (·.score)

/-- `zsetScore`; the inner `none` is C_ERR. -/
def zsetScore (o : ZsetObj S) (ele : String) : Option (Option S) :=
  match o with
  | .ziplist zl => some ((zzlFind zl ele).map Prod.snd)
  | .skiplist zs =>
      match zs.dict ele with
      | none => some none
      | some node => (dictScore zs node).map some

end ZsetObj

-- ============================================================ zsetAdd

/-- The flags `zsetAdd` is given. -/
structure ZaddFlags where
  incr : Bool
  nx : Bool
  xx : Bool
deriving DecidableEq, Repr

/-- `ZADD_NONE`. -/
def ZaddFlags.none : ZaddFlags := ⟨false, false, false⟩

/-- What `zsetAdd` reports: the flags, and the number at `newscore` if it
is written. It returns 0 where it sets ZADD_NAN, otherwise 1. -/
structure ZaddResult (S : Type) where
  nop : Bool
  nan : Bool
  added : Bool
  updated : Bool
  newscore : Option S
deriving DecidableEq, Repr

/-- ZADD_NOP. -/
def ZaddResult.refused : ZaddResult S := ⟨true, false, false, false, none⟩

/-- ZADD_NAN. -/
def ZaddResult.notNumber : ZaddResult S := ⟨false, true, false, false, none⟩

namespace ZsetObj

/-- The score an element that is there gets. -/
def raised [ScoreAdd S] (flags : ZaddFlags) (score curscore : S) : Option S :=
  if flags.incr then ScoreAdd.add score curscore else some score

/-- What is reported of an element that is there and gets `score`. -/
def updateResult (flags : ZaddFlags) (score curscore : S) : ZaddResult S :=
  ⟨false, false, false, score ≠ curscore, if flags.incr then some score else none⟩

/-- What is reported of a new element. -/
def addResult (score : S) : ZaddResult S := ⟨false, false, true, false, some score⟩

section

variable [ScoreAdd S] (conf : ZsetConf) (draws : List (List ℕ)) (score : S) (ele : String)
  (flags : ZaddFlags)

/-- `zsetAdd` on a ziplist. -/
def zsetAddZiplist (zl : Zl S) : Option (ZsetObj S × ZaddResult S) :=
  match zzlFind zl ele with
  | some (k, curscore) =>
      if flags.nx then some (.ziplist zl, .refused)
      else
        match raised flags score curscore with
        | none => some (.ziplist zl, .notNumber)
        | some score =>
            some (.ziplist (if score ≠ curscore then zzlInsert ele score (zzlDelete zl k) else zl),
              updateResult flags score curscore)
  | none =>
      if flags.xx then some (.ziplist zl, .refused)
      else
        let zl := zzlInsert ele score zl
        if conf.maxZiplistEntries < zl.length ∨ conf.maxZiplistValue < ele.length then
          (zsetConvert draws (.ziplist zl)).map fun o => (o, addResult score)
        else some (.ziplist zl, addResult score)

/-- `zsetAdd` on a skip list. -/
def zsetAddSkiplist (zs : Zset S) : Option (ZsetObj S × ZaddResult S) :=
  match zs.dict ele with
  | some node =>
      if flags.nx then some (.skiplist zs, .refused)
      else
        (dictScore zs node).bind fun curscore =>
          match raised flags score curscore with
          | none => some (.skiplist zs, .notNumber)
          | some score =>
              if score ≠ curscore then
                (zs.zsl.zslUpdateScore (draws.headD []) curscore ele score).map fun p =>
                  (.skiplist ⟨Function.update zs.dict ele (some p.2), p.1⟩,
                    updateResult flags score curscore)
              else some (.skiplist zs, updateResult flags score curscore)
  | none =>
      if flags.xx then some (.skiplist zs, .refused)
      else
        (zs.zsl.zslInsert (draws.headD []) score ele).bind fun p =>
          (Zset.dictAdd { zs with zsl := p.1 } ele p.2).map fun zs =>
            (.skiplist zs, addResult score)

end

/-- `zsetAdd`. Call number `j` of `zslRandomLevel` draws `draws[j]`. -/
def zsetAdd [ScoreAdd S] (conf : ZsetConf) (draws : List (List ℕ)) (score : Option S)
    (ele : String) (flags : ZaddFlags) (o : ZsetObj S) : Option (ZsetObj S × ZaddResult S) :=
  match score with
  | none => some (o, .notNumber)
  | some score =>
      match o with
      | .ziplist zl => zsetAddZiplist conf draws score ele flags zl
      | .skiplist zs => zsetAddSkiplist draws score ele flags zs

-- ============================================================ zsetDel

/-- `zsetDel`, and whether the element was there. -/
def zsetDel (ele : String) : ZsetObj S → Option (ZsetObj S × Bool)
  | .ziplist zl =>
      match zzlFind zl ele with
      | some (k, _) => some (.ziplist (zzlDelete zl k), true)
      | none => some (.ziplist zl, false)
  | .skiplist zs =>
      match zs.dict ele with
      | some node =>
          (dictScore zs node).bind fun score =>
            (zs.zsl.zslDelete score ele).bind fun p =>
              if p.2 then some (.skiplist ⟨Function.update zs.dict ele none, p.1⟩, true) else none
      | none => some (.skiplist zs, false)

-- ============================================================= reading

/-- The rank from 1 that was found, as `zsetRank` returns it. -/
def rankReply (llen rank : UInt64) (reverse : Bool) : ℤ :=
  if reverse then (llen - rank).toNat else (rank - 1).toNat

/-- `zsetRank`. -/
def zsetRank (ele : String) (reverse : Bool) : ZsetObj S → Option ℤ
  | .ziplist [] => none
  | .ziplist zl =>
      match zzlFind zl ele with
      | some (k, _) =>
          some (rankReply (UInt64.ofNat zl.length) (UInt64.ofNat (k + 1)) reverse)
      | none => some (-1)
  | .skiplist zs =>
      match zs.dict ele with
      | some node =>
          (dictScore zs node).bind fun score =>
            (zs.zsl.zslGetRank score ele).bind fun rank =>
              if rank = 0 then none else some (rankReply zs.zsl.length rank reverse)
      | none => some (-1)

/-- The entry at the end: `ziplistIndex(zl, -2)`, or `zsl->tail`. -/
def lastEntry : ZsetObj S → Option (String × S)
  | .ziplist zl => zl.getLast?
  | .skiplist zs =>
      zs.zsl.tail.bind fun x => (zs.zsl.node x).bind fun nd => nd.ele.map fun e => (e, nd.score)

end ZsetObj

/-- `getZsetOrCreate`, on what the key holds. -/
def getZsetOrCreate (conf : ZsetConf) (ele : String) : Option (ZsetObj S) → ZsetObj S
  | some o => o
  | none =>
      if conf.maxZiplistEntries = 0 ∨ conf.maxZiplistValue < ele.length then createZsetObject
      else createZsetZiplistObject

end CrdtRedis
