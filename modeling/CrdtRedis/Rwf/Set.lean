/-
The RWF set (t_rwfset.c): the header and the integer an element stands
for, which is also its score. `rwfseNew` leaves `value` unwritten.
-/
import CrdtRedis.Rwf.Header

namespace CrdtRedis

variable {n : ℕ}

/-- `struct RWF_SET_element`. -/
structure Rwfse (n : ℕ) where
  header : Reh n
  value : Score
deriving DecidableEq

namespace Rwfse

/-- `rwfseNew`. -/
def new (me : Fin n) : Rwfse n := ⟨Reh.new me, none⟩

/-- `removeFunc`. -/
def removeFunc : Rwfse n → Vc n → Rwfse n × List ZCall :=
  Reh.removeBy header (fun h e => { e with header := h }) [.del] []

/-- The effect phase of `rwfsaddCommand`. -/
def addEffect (v : ℤ) (t : Vc n) (e : Rwfse n) : Rwfse n × List ZCall :=
  let (e, calls) := e.removeFunc t
  match e.header.addCheck t with
  | (h, true) => (⟨h, some (toInt v)⟩, calls ++ [.add (some (toInt v))])
  | (_, false) => (e, calls)

/-- The effect phase of `rwfsremCommand`. -/
def remEffect (t : Vc n) (e : Rwfse n) : Rwfse n × List ZCall := e.removeFunc t

end Rwfse

/-- `rwfsaddCommand`: the element itself is the integer; the effect
starts from zero where it does not read as one. -/
def rwfsaddCommand : ElemCommand n (Rwfse n) where
  maxArgc := 3
  checks := [(2, .int)]
  create := true
  prepare := fun me e => rwfAddPrepare Rwfse.header (Rwfse.new me) e
  effect := fun _ rargv =>
    (strAt 2 rargv).bind fun key => (crGetLast rargv).map fun t =>
      Rwfse.addEffect ((getLongLongFromObject key).getD 0) t

/-- `rwfsremCommand`. -/
def rwfsremCommand : ElemCommand n (Rwfse n) where
  maxArgc := 3
  checks := []
  create := false
  prepare := fun _ e => rwfNonAddPrepare Rwfse.header vcNow e
  effect := fun _ rargv => (crGetLast rargv).map Rwfse.remEffect

end CrdtRedis
