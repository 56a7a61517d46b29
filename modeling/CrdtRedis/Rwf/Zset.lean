/-
The RWF priority queue (t_rwfzset.c): a record is the header, the value
`innate` of the add it holds and the sum `acquired` of the increments
that belong to it; the sorted set shows `SCORE = innate + acquired`.
-/
import CrdtRedis.Rwf.Header

namespace CrdtRedis

variable {n : ℕ}

/-- `struct RWF_RPQ_element`. -/
structure Rwfze (n : ℕ) where
  header : Reh n
  innate : ℤ
  acquired : ℤ
deriving DecidableEq

namespace Rwfze

/-- `rwfzeNew`. -/
def new (me : Fin n) : Rwfze n := ⟨Reh.new me, 0, 0⟩

/-- `SCORE`. -/
def score (e : Rwfze n) : ℤ := e.innate + e.acquired

/-- `removeFunc`. -/
def removeFunc : Rwfze n → Vc n → Rwfze n × List ZCall :=
  Reh.removeBy header (fun h _ => ⟨h, 0, 0⟩) [.del] []

/-- The effect phase of `rwfzaddCommand`. -/
def addEffect (v : ℤ) (t : Vc n) (e : Rwfze n) : Rwfze n × List ZCall :=
  let (e, calls) := e.removeFunc t
  match e.header.addCheck t with
  | (h, true) =>
      let e := { e with header := h, innate := v }
      (e, calls ++ [.add (some e.score)])
  | (_, false) => (e, calls)

/-- The effect phase of `rwfzincrbyCommand`. -/
def incrbyEffect (v : ℤ) (t : Vc n) (e : Rwfze n) : Rwfze n × List ZCall :=
  let (e, calls) := e.removeFunc t
  match e.header.updateCheck t with
  | (h, true) =>
      let e := { e with header := h, acquired := e.acquired + v }
      (e, calls ++ [.add (some e.score)])
  | (_, false) => (e, calls)

/-- The effect phase of `rwfzremCommand`. -/
def remEffect (t : Vc n) (e : Rwfze n) : Rwfze n × List ZCall := e.removeFunc t

end Rwfze

/-- `rwfzaddCommand`. -/
def rwfzaddCommand : ElemCommand n (Rwfze n) where
  maxArgc := 4
  checks := [(3, .double)]
  create := true
  prepare := fun me e => rwfAddPrepare Rwfze.header (Rwfze.new me) e
  effect := fun dbl rargv =>
    ((strAt 3 rargv).bind dbl).bind fun v =>
      (crGetLast rargv).map fun t => Rwfze.addEffect v t

/-- `rwfzincrbyCommand`. -/
def rwfzincrbyCommand : ElemCommand n (Rwfze n) where
  maxArgc := 4
  checks := [(3, .double)]
  create := false
  prepare := fun _ e => rwfNonAddPrepare Rwfze.header (fun c => c) e
  effect := fun dbl rargv =>
    ((strAt 3 rargv).bind dbl).bind fun v =>
      (crGetLast rargv).map fun t => Rwfze.incrbyEffect v t

/-- `rwfzremCommand`. -/
def rwfzremCommand : ElemCommand n (Rwfze n) where
  maxArgc := 3
  checks := []
  create := false
  prepare := fun _ e => rwfNonAddPrepare Rwfze.header vcNow e
  effect := fun _ rargv => (crGetLast rargv).map Rwfze.remEffect

end CrdtRedis
