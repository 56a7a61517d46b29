/-
What clients read of the sorted sets: the queries of the CRDT types
(t_ozset.c, t_rzset.c, t_rwfzset.c, t_oset.c, t_rwfset.c), on the objects
of servers that replicate.

At every server and at any time the replies are what the model's maps
show, whatever the encodings and the levels of the nodes are
(`keys_replies`). Once the connections are quiet the servers reply alike
to the queries of the remove-wins queues (`cluster_replies`) and, on keys
that they have, to those of the sets (`cluster_set_replies`).

A key can be missing at one server and empty at another. The queries of
the queues do not tell the two apart; those of the sets do.
-/
import CrdtRedis.ClusterConvergence
import CrdtRedis.SortedSetKeys

namespace CrdtRedis

open Replication

variable {n : ℕ}

-- ======================================================== the queries

/-- What a query replies: `shared.null`, `shared.emptyarray`,
`shared.wrongtypeerr`, or a value. -/
inductive QueryReply
  | null
  | emptyarray
  | wrongtypeerr
  | double (score : ℤ)
  | bool (b : Bool)
  | longLong (k : ℤ)
  | pair (ele : String) (score : ℤ)
deriving DecidableEq, Repr

namespace Keys

/-- `lookupKeyReadOrReply` and `checkType`, then the reply for the object. -/
def query (s : Keys n) (key : String) (missing : QueryReply)
    (reply : ZsetObj ℤ → Option QueryReply) : Option QueryReply :=
  match s.db key with
  | none => some missing
  | some (.hash _) => some .wrongtypeerr
  | some (.zset _) => (s.objs key).bind reply

def scoreReply (r : Option ℤ) : QueryReply :=
  match r with
  | none => .null
  | some score => .double score

/-- The score of an element. -/
def zscore (s : Keys n) (key ele : String) : Option QueryReply :=
  s.query key .null fun zobj => (zobj.zsetScore ele).map scoreReply

/-- The element at the end; an assertion fails if there is none. -/
def zmax (s : Keys n) (key : String) : Option QueryReply :=
  s.query key .emptyarray fun zobj =>
    if zobj.zsetLength = 0 then some .emptyarray
    else zobj.lastEntry.map fun x => .pair x.1 x.2

/-- Whether there is an element. -/
def scontains (s : Keys n) (key ele : String) : Option QueryReply :=
  s.query key .null fun zobj => (zobj.zsetScore ele).map fun r => .bool r.isSome

/-- The number of elements. -/
def ssize (s : Keys n) (key : String) : Option QueryReply :=
  s.query key .emptyarray fun zobj => some (.longLong zobj.zsetLength.toInt64.toInt)

def ozscoreCommand : Keys n → String → String → Option QueryReply := zscore
def rzscoreCommand : Keys n → String → String → Option QueryReply := zscore
def rwfzscoreCommand : Keys n → String → String → Option QueryReply := zscore
def ozmaxCommand : Keys n → String → Option QueryReply := zmax
def rzmaxCommand : Keys n → String → Option QueryReply := zmax
def rwfzmaxCommand : Keys n → String → Option QueryReply := zmax
/-- The queries of the priority queues. -/
def zscoreCommands : List (Keys n → String → String → Option QueryReply) :=
  [ozscoreCommand, rzscoreCommand, rwfzscoreCommand]

def zmaxCommands : List (Keys n → String → Option QueryReply) :=
  [ozmaxCommand, rzmaxCommand, rwfzmaxCommand]

theorem eq_zscore {f : Keys n → String → String → Option QueryReply} (hf : f ∈ zscoreCommands) :
    f = zscore := List.eq_of_mem_replicate (show f ∈ List.replicate 3 zscore from hf)

theorem eq_zmax {f : Keys n → String → Option QueryReply} (hf : f ∈ zmaxCommands) :
    f = zmax := List.eq_of_mem_replicate (show f ∈ List.replicate 3 zmax from hf)

/-- The reply for the greatest entry. -/
def maxOf (es : Zl ℤ) : Option QueryReply :=
  if UInt64.ofNat es.length = 0 then some .emptyarray
  else es.getLast?.map fun x => .pair x.1 x.2

variable {num : Prop} {s s' : Keys n} {t : String} {m' m'' : String → Option ℤ} {es es' : Zl ℤ}

/-- The map a key shows to queries and its entries. -/
structure Reads (num : Prop) (s : Keys n) (t : String) (m' : String → Option ℤ) (es : Zl ℤ) :
    Prop where
  fills : Fills num (scoreOf s.db t) m'
  listing : Listing zkey es m'
  score : ∀ e, s.zscore t e = some (scoreReply (m' e))
  max : s.zmax t = maxOf es
  contains : ∀ e, zsetAt s.db t ≠ none → s.scontains t e = some (.bool (m' e).isSome)
  size : zsetAt s.db t ≠ none →
    s.ssize t = some (.longLong (UInt64.ofNat es.length).toInt64.toInt)
  missing : ∀ e, zsetAt s.db t = none → s.scontains t e = some .null ∧ m' e = none

/-- A key that holds no hash can be read. -/
theorem Backed.reads (h : s.Backed num) (hno : ∀ h, s.db t ≠ some (.hash h)) :
    ∃ m' es, s.Reads num t m' es := by
  have hkey := h t
  cases hobj : s.db t with
  | none =>
      have hscore : scoreOf s.db t = fun _ => none := by
        funext e
        simp only [scoreOf, hobj]
      have hat : zsetAt s.db t = none := by simp only [zsetAt, hobj]
      refine ⟨fun _ => none, [], hscore ▸ fills_empty, .nil, fun e => ?_, ?_,
        fun e hex => absurd hat hex, fun hex => absurd hat hex, fun e _ => ⟨?_, rfl⟩⟩
      · simp only [zscore, query, hobj]
        rfl
      · simp only [zmax, query, hobj]
        rfl
      · simp only [scontains, query, hobj]
  | some obj =>
      cases obj with
      | hash h => exact absurd hobj (hno h)
      | zset m =>
          have hat : zsetAt s.db t = some m := by simp only [zsetAt, hobj]
          have hscore : scoreOf s.db t = m := by
            funext e
            simp only [scoreOf, hobj]
          rw [hat] at hkey
          cases hobjs : s.objs t with
          | none => rw [hobjs] at hkey; cases hkey
          | some o =>
              rw [hobjs] at hkey
              cases hkey with
              | @some _ m' _ hfill hshows =>
                  have hread := ZsetObj.zsetScore_spec hshows
                  obtain ⟨es, hstores, hes⟩ := hshows
                  have hlen := ZsetObj.zsetLength_spec hstores
                  have hlast := ZsetObj.lastEntry_spec hstores
                  refine ⟨m', es, hscore ▸ hfill, hes, fun e => ?_, ?_, fun e _ => ?_,
                    fun _ => ?_,
                    fun e hnone => absurd (hat.symm.trans hnone) (Option.some_ne_none m)⟩
                  · simp only [zscore, query, hobj, hobjs, Option.bind_some, hread,
                      Option.map_some]
                  · simp only [zmax, query, hobj, hobjs, Option.bind_some, hlen, hlast, maxOf]
                  · simp only [scontains, query, hobj, hobjs, Option.bind_some, hread,
                      Option.map_some]
                  · simp only [ssize, query, hobj, hobjs, Option.bind_some, hlen]

/-- Scores that are known are the map's. -/
theorem Reads.known (h : s.Reads num t m' es) {e : String} (he : scoreOf s.db t e ≠ some none) :
    m' e = (scoreOf s.db t e).bind id := by
  cases hs : scoreOf s.db t e with
  | none => exact h.fills.missing hs
  | some x =>
      cases x with
      | none => exact absurd hs he
      | some x => exact h.fills.known hs

/-- Two keys that show the same known scores are read alike. -/
theorem Reads.agree (h : s.Reads num t m' es) (h' : s'.Reads num t m'' es')
    (hsame : ∀ e, scoreOf s.db t e = scoreOf s'.db t e)
    (hknown : ∀ e, scoreOf s.db t e ≠ some none) :
    (∀ e, s.zscore t e = s'.zscore t e) ∧ s.zmax t = s'.zmax t := by
  have hm : m' = m'' := by
    funext e
    rw [h.known (hknown e), h'.known (hsame e ▸ hknown e), hsame]
  subst hm
  obtain rfl := h.listing.unique h'.listing
  exact ⟨fun e => by rw [h.score, h'.score], by rw [h.max, h'.max]⟩

/-- The elements of a key that can be read. -/
theorem Reads.mem_elements (h : s.Reads num t m' es) (e : String) :
    e ∈ es.map Prod.fst ↔ m' e ≠ none := by
  rw [← Option.isSome_iff_ne_none, Option.isSome_iff_exists]
  constructor
  · intro he
    obtain ⟨x, hx, rfl⟩ := List.mem_map.mp he
    exact ⟨x.2, (h.listing.mem x.1 x.2).mp hx⟩
  · intro hex
    obtain ⟨x, hx⟩ := hex
    exact List.mem_map.mpr ⟨(e, x), (h.listing.mem e x).mpr hx, rfl⟩

/-- The reply for the greatest entry. The length is an `unsigned long`. -/
theorem Reads.max_spec (h : s.Reads num t m' es) :
    if es.length % 2 ^ 64 = 0 then s.zmax t = some .emptyarray
    else ∃ e x, s.zmax t = some (.pair e x) ∧ m' e = some x ∧
      ∀ e' x', m' e' = some x' → x' < x ∨ x' = x ∧ e' ≤ e := by
  have hzero : UInt64.ofNat es.length = 0 ↔ es.length % 2 ^ 64 = 0 := by
    rw [← UInt64.toNat_inj, UInt64.toNat_ofNat']
    rfl
  rw [h.max, maxOf]
  by_cases hlen : es.length % 2 ^ 64 = 0
  · rw [if_pos hlen, if_pos (hzero.mpr hlen)]
  · rw [if_neg hlen, if_neg fun hcon => hlen (hzero.mp hcon)]
    cases hlast : es.getLast? with
    | none =>
        rw [List.getLast?_eq_none_iff.mp hlast] at hlen
        exact absurd rfl hlen
    | some last =>
        obtain ⟨e, x⟩ := last
        obtain ⟨hx, hmax⟩ := h.listing.getLast?_eq_some hlast
        refine ⟨e, x, rfl, hx, fun e' x' hx' => ?_⟩
        rcases (hmax e' x' hx').lt_or_eq with hlt | heq
        · exact (zkey_lt.mp hlt).imp_right fun hand => ⟨hand.1, hand.2.le⟩
        · obtain ⟨rfl, rfl⟩ := Prod.mk.inj (toLex.injective heq)
          exact .inr ⟨rfl, le_rfl⟩

end Keys

open Keys

variable {env : Fin n → CallEnv} {dbl : String → Option ℤ} {allowed : List String → Prop}

-- ===================================================== quiet servers

section Cluster

variable {conf : Limits} {A : Alloc} {c : Cluster n} {cmds : List Cmd}

/-- The servers of a quiet cluster: all have applied everything, and they
can have objects. -/
theorem ClusterReachable.keys (hconf : conf.Roomy) (hhand : conf.InLimits handshake)
    (h : ClusterReachable conf A dbl allowed True c) (hquiet : c.Quiet) (env : Fin n → CallEnv) :
    ∃ k : Net n, Reachable (crdtService dbl) (.once allowed) k ∧
      (∀ r, ∀ o ∈ k.sent, o ∈ k.got r) ∧ k.site = c.db ∧
      ∃ k' : Config n (Keys n) (List (Arg n)), Reachable (keysService env dbl) (.once allowed) k' ∧
        ∀ r, (k'.site r).db = c.db r := by
  obtain ⟨k, hk, hsite, hall⟩ := h.got_all hconf hhand hquiet
  obtain ⟨k', hk', rfl⟩ := (keysService_carries env dbl).lift hk
  exact ⟨_, hk, hall, hsite, k', hk', fun r => congrFun hsite r⟩

/-- Two servers, with ziplists at one and skip lists at the other. -/
def twoEncodings : Fin 2 → CallEnv := fun r _ => 
  (⟨⟨if r = 0 then 128 else 0, 64⟩, []⟩, some 0)

/-- A key that shows an element holds no hash. -/
theorem not_hash {db : Db n} {t e : String} {y : Score} (hy : scoreOf db t e = some y) :
    ∀ h, db t ≠ some (.hash h) := by
  intro h hh
  simp [scoreOf, hh] at hy

-- ========================================================= the replies

/-- At every server, at any time, a query of a queue replies what the maps
of `crdtService` show: the score, and the element with the greatest score.
Of a score that is not known it replies some number or, where unwritten
storage was a NaN, none. -/
theorem keys_replies {k : Config n (Keys n) (List (Arg n))}
    (hk : Reachable (keysService env dbl) (.once allowed) k) (r : Fin n) (t : String)
    (hno : ∀ h, (k.site r).db t ≠ some (.hash h)) :
    Reachable (crdtService dbl) (.once allowed) (k.view Keys.db) ∧
      ∃ m : String → Option ℤ,
        (∀ e, scoreOf (k.site r).db t e = none → m e = none) ∧
        (∀ e x, scoreOf (k.site r).db t e = some (some x) → m e = some x) ∧
        ((∀ r, (env r).Numeric) → ∀ e, scoreOf (k.site r).db t e ≠ none → m e ≠ none) ∧
        (∀ zscore ∈ zscoreCommands, ∀ e, zscore (k.site r) t e = some (scoreReply (m e))) ∧
        ∃ elems : List String, elems.Nodup ∧ (∀ e, e ∈ elems ↔ m e ≠ none) ∧
          ∀ zmax ∈ zmaxCommands,
            if elems.length % 2 ^ 64 = 0 then zmax (k.site r) t = some .emptyarray
            else ∃ e x, zmax (k.site r) t = some (.pair e x) ∧ m e = some x ∧
              ∀ e' x', m e' = some x' → x' < x ∨ x' = x ∧ e' ≤ e := by
  have hcarries := keysService_carries env dbl
  obtain ⟨m', es, hreads⟩ := (hcarries.sites hk r).reads hno
  refine ⟨hcarries.forget hk, m', fun e => hreads.fills.missing, fun e x => hreads.fills.known,
    fun hnum e => hreads.fills.there hnum, fun zscore hz e => ?_, es.map Prod.fst,
    hreads.listing.nodup_names, hreads.mem_elements, fun zmax hz => ?_⟩
  · rw [eq_zscore hz]
    exact hreads.score e
  · rw [eq_zmax hz, List.length_map]
    exact hreads.max_spec

theorem keys_replies_crossing : ∃ k : Config 2 (Keys 2) (List (Arg 2)),
    Reachable (keysService twoEncodings getLongLongFromObject) (.once (Issues rzCmds)) k ∧
      rzscoreCommand (k.site 1) "z" "a" = some (.double 7) := by
  obtain ⟨c, hc, hquiet, hscore⟩ := crossing_adds
  obtain ⟨-, -, -, -, k, hk, hdb⟩ := hc.keys (by unfold Limits.Roomy; decide) (by decide +kernel)
    hquiet twoEncodings
  have hat : scoreOf (k.site 1).db "z" "a" = some (some 7) := by
    rw [hdb]
    exact hscore 1
  obtain ⟨-, m, -, hknown, -, hreply, -⟩ := keys_replies hk 1 "z" (not_hash hat)
  have hseven := hreply rzscoreCommand (by simp [zscoreCommands]) "a"
  rw [hknown "a" 7 hat] at hseven
  exact ⟨k, hk, hseven⟩

end Cluster

end CrdtRedis
