/-
The records of an RWF list as a function of the broadcasts applied.

A broadcast writes the body of one record (`RwflOp.write`): its history
removes what it goes beyond, and an insert or an update that is at the
history of the record then acts on it. The record is the one under the
name of the element, unless that is `head`; so in a run that broadcasts
nothing about an element `head`, a body is the fold of the broadcasts that
name it, in the order of their arrival.
-/
import CrdtRedis.Rwf.ListRun
import CrdtRedis.Rwf.History

namespace CrdtRedis

open Replication

variable {n : ℕ}

-- ========================================================== on one body

namespace RwflBody

/-- The end of an insert's effect on the body, from `addCheck` on. -/
def insertFunc (v : InsertProps) (t : Vc n) (b : RwflBody n) : RwflBody n :=
  match b.header.addCheck t with
  | (header, true) => innateUpdate v { b with header := header }
  | (_, false) => b

/-- The end of an update's effect on the body, from `updateCheck` on. -/
def updateFunc (type : String) (lt : Lc) (value : ℤ) (t : Vc n) (b : RwflBody n) :
    RwflBody n :=
  match b.header.updateCheck t with
  | (header, true) =>
      match Property.ofType type with
      | none => { b with header := header }
      | some p => acquiredUpdate p lt (toInt value) { b with header := header }
  | (_, false) => b

variable {b : RwflBody n} {t : Vc n}

@[simp] theorem acquiredUpdate_header (p : Property) (lt : Lc) (v : ℤ) :
    (acquiredUpdate p lt v b).header = b.header := by
  unfold acquiredUpdate
  split <;> rfl

/-- A remove that fires hides the element. -/
theorem removeFunc_exist (hfired : (b.removeFunc t).2 = true) :
    (b.removeFunc t).1.header.exist = false := by
  by_cases hle : t.vector ≤ b.header.current.vector
  · rw [removeFunc, Reh.removeBy_of_le hle] at hfired
    cases hfired
  · rw [removeFunc, Reh.removeBy_of_not_le hle]
    rfl

theorem removeFunc_false (hfired : (b.removeFunc t).2 = false) : (b.removeFunc t).1 = b := by
  by_cases hle : t.vector ≤ b.header.current.vector
  · rw [removeFunc, Reh.removeBy_of_le hle]
  · rw [removeFunc, Reh.removeBy_of_not_le hle] at hfired
    cases hfired

end RwflBody

/-- The removal timestamp of a broadcast. -/
def RwflOp.stamp : RwflOp n → Vc n
  | insert _ _ t => t
  | update _ _ _ _ t => t
  | rem _ t => t

/-- What a broadcast makes of the body of its record. -/
def RwflOp.write (m : RwflOp n) (b : RwflBody n) : RwflBody n :=
  let b := (b.removeFunc m.stamp).1
  match m with
  | insert _ v t => b.insertFunc v t
  | update _ type value lt t => b.updateFunc type lt value t
  | rem _ _ => b

-- ==================================================== writes to a record

namespace Rwfl

variable {me : Fin n} {h h' : Hash n} {addr : String} {t : Vc n}

theorem Wrote.bodyAt {body : RwflBody n} {inc : ℤ} {e : Rwfle n} (he : h.rwfles addr = some e)
    (hw : Wrote h addr body inc h') :
    rwfleKind.bodyAt me h' = Function.update (rwfleKind.bodyAt me h) addr body := by
  have hset : rwfleKind.bodyAt me (setBody h addr body)
      = Function.update (rwfleKind.bodyAt me h) addr body := by
    funext a
    unfold ListKind.bodyAt setBody
    rw [ListKind.heap_modify rwfleKind_lawful]
    by_cases ha : a = addr
    · rw [ha, Function.update_self, Function.update_self,
        show rwfleKind.heap h addr = some e from he]
      rfl
    · rw [Function.update_of_ne ha, Function.update_of_ne ha]
  rcases hw with ⟨-, rfl⟩ | hincr
  · exact hset
  · obtain ⟨len, -, rfl⟩ := Option.map_eq_some_iff.mp hincr
    rw [← hset]
    rfl

theorem Wrote.len {body : RwflBody n} {inc : ℤ} (hw : Wrote h addr body inc h') :
    getLen h' = (getLen h).map fun len => len + inc := by
  have hset : getLen (setBody h addr body) = getLen h :=
    getLen_congr (by rw [setBody, ListKind.fields_modify rwfleKind_lawful])
  rcases hw with ⟨rfl, rfl⟩ | hincr
  · rw [hset]
    simp
  · rw [getLen_incrLen hincr, hset]

/-- A write whose correction of the length is right. -/
theorem Wrote.written {body : RwflBody n} {inc : ℤ} {e : Rwfle n} {f : RwflBody n → RwflBody n}
    (he : h.rwfles addr = some e) (hw : Wrote h addr body inc h') (hf : f e.body = body)
    (hinc : inc = ListKind.weight body.header.exist - ListKind.weight e.body.header.exist) :
    rwfleKind.Written me (fun b => b.header.exist) h addr f h' := by
  have hbody : rwfleKind.bodyAt me h addr = e.body := ListKind.bodyAt_of_heap he
  refine ⟨hw.quiet, ?_, ?_⟩
  · rw [hbody, hf]
    exact hw.bodyAt he
  · rw [hbody, hf, ← hinc]
    exact hw.len

theorem removeFunc_written (hrem : removeFunc addr t h = some h') :
    rwfleKind.Written me (fun b => b.header.exist) h addr (fun b => (b.removeFunc t).1) h' := by
  obtain ⟨e, he, ⟨rfl, hfired⟩ | ⟨hfired, hw⟩⟩ := removeFunc_cases hrem
  · refine .none ?_
    rw [ListKind.bodyAt_of_heap he]
    exact RwflBody.removeFunc_false hfired
  · refine hw.written he rfl ?_
    rw [RwflBody.removeFunc_exist hfired, exist]
    cases e.body.header.exist <;> rfl

theorem addFunc_written {v : InsertProps} (hadd : addFunc addr v t h = some h') :
    rwfleKind.Written me (fun b => b.header.exist) h addr (RwflBody.insertFunc v t) h' := by
  obtain ⟨e, he, ⟨rfl, hcounts⟩ | ⟨hcounts, hw⟩⟩ := addFunc_cases hadd
  · refine .none ?_
    rw [ListKind.bodyAt_of_heap he, RwflBody.insertFunc]
    split
    · next hcon =>
        rw [hcon] at hcounts
        cases hcounts
    · rfl
  · cases hcheck : e.body.header.addCheck t with
    | mk header counts =>
        rw [hcheck] at hcounts hw
        obtain rfl : counts = true := hcounts
        refine hw.written he (by rw [RwflBody.insertFunc, hcheck]) ?_
        have hex : header.exist = true := Reh.addCheck_exist hcheck
        show _ = ListKind.weight header.exist - _
        rw [hex, exist]
        cases e.body.header.exist <;> rfl

theorem updateFunc_body {type : String} {lt : Lc} {value : ℤ}
    (hupd : updateFunc addr type lt value t h = some h') :
    rwfleKind.bodyAt me h' = Function.update (rwfleKind.bodyAt me h) addr
      (RwflBody.updateFunc type lt value t (rwfleKind.bodyAt me h addr)) ∧
    getLen h' = getLen h := by
  obtain ⟨e, he, hcase⟩ := updateFunc_cases hupd
  rw [ListKind.bodyAt_of_heap he, RwflBody.updateFunc]
  generalize Property.ofType type = property at hcase ⊢
  cases hcheck : e.body.header.updateCheck t with
  | mk header counts =>
      rw [hcheck] at hcase
      rcases hcase with ⟨rfl, rfl⟩ | ⟨rfl, hw⟩
      · refine ⟨?_, rfl⟩
        show rwfleKind.bodyAt me h' = Function.update (rwfleKind.bodyAt me h') addr e.body
        rw [← (ListKind.bodyAt_of_heap he : rwfleKind.bodyAt me h' addr = e.body),
          Function.update_eq_self]
      · refine ⟨hw.bodyAt he, ?_⟩
        rw [hw.len]
        simp

end Rwfl

/-- A broadcast writes the record of the element it names. -/
theorem RwflOp.apply_body {me : Fin n} {h h' : Hash n} {m : RwflOp n}
    (hs : rwfleKind.Sound h) (hname : m.op.oid ≠ "head") (happ : m.apply me h = some h') :
    rwfleKind.bodyAt me h' = Function.update (rwfleKind.bodyAt me h) m.op.oid
      (m.write (rwfleKind.bodyAt me h m.op.oid)) := by
  have hmake : ∀ {p : Hash n × String}, rwfleKind.findOrCreate me h m.op.oid = some p →
      p.2 = m.op.oid ∧ rwfleKind.bodyAt me p.1 = rwfleKind.bodyAt me h := by
    intro p hget
    refine ⟨(hs.make rwfleKind_lawful hget).find hname
      (ListKind.find_findOrCreate rwfleKind_lawful hget), ?_⟩
    exact ListKind.bodyAt_findOrCreate rwfleKind_lawful hs hget
  cases m with
  | insert i v t =>
      obtain ⟨p, hget, happ⟩ := Option.bind_eq_some_iff.mp happ
      obtain ⟨h₁, hrem, happ⟩ := Option.bind_eq_some_iff.mp happ
      obtain ⟨h₂, hpos, hadd⟩ := Option.bind_eq_some_iff.mp happ
      obtain ⟨haddr, hbody⟩ := hmake hget
      have hbody₂ : rwfleKind.bodyAt me h₂ = rwfleKind.bodyAt me h₁ :=
        (ListKind.Same.position rwfleKind_lawful hpos).body
      rw [(Rwfl.addFunc_written hadd).body, hbody₂, (Rwfl.removeFunc_written hrem).body, hbody,
        haddr, Function.update_idem, Function.update_self]
      rfl
  | update oid type value lt t =>
      obtain ⟨p, hget, happ⟩ := Option.bind_eq_some_iff.mp happ
      obtain ⟨h₁, hrem, hupd⟩ := Option.bind_eq_some_iff.mp happ
      obtain ⟨haddr, hbody⟩ := hmake hget
      rw [(Rwfl.updateFunc_body hupd).1, (Rwfl.removeFunc_written hrem).body, hbody,
        haddr, Function.update_idem, Function.update_self]
      rfl
  | rem oid t =>
      obtain ⟨p, hget, hrem⟩ := Option.bind_eq_some_iff.mp happ
      obtain ⟨haddr, hbody⟩ := hmake hget
      rw [(Rwfl.removeFunc_written hrem).body, hbody, haddr]
      rfl

end CrdtRedis
