import Mlmq.Server.Processing

/-! # Faults before the first change

Executions in which an operation may throw of itself as long as nothing has been changed (`Same`),
and not any more behind that. An insert that throws has not inserted. So an exception leaves
everything as it was, unless a statement cannot be executed behind the first change. -/

namespace Mlmq.Server.EarlyFaults

open Mlmq.Dto Mlmq.Db.Table Mlmq.Db.Schema Mlmq.Db.Dao Mlmq.Net.Requests Mlmq.Net.Responses
open Mlmq.Server.RequestProcessor Mlmq.Server.Calls Mlmq.Server.Processing
open Mlmq.Lib.Programs Mlmq.Lib.Programs.Program

def IsInsert : Statement → Prop
  | .createClient _ | .createQueue _ _ | .insertMessage _ => True
  | _ => False

/-- Nothing throws of itself behind the first change, and an insert that throws has not
inserted. -/
def Early (Same : World → Prop) (w : World) (op : Op) (fault : Fault) : Prop :=
  fault = .none ∨ Same w ∧ (fault = .after → ∀ stmt, op = .execute stmt → ¬ IsInsert stmt)

/-- Lost values of the sequences do not count as a change. -/
def Closed (Same : World → Prop) : Prop :=
  ∀ w db, Same w → Gap w.db db → Same { w with db }

section Early

variable {Same : World → Prop} {w w' : World}

abbrev earlySem (Same : World → Prop) : Semantics Ans JavaException World := dbSem (Early Same)

theorem early_none (w : World) (op : Op) : Early Same w op .none := .inl rfl

theorem undone_same {op : Op} (hclosed : Closed Same) (hs : Same w)
    (hop : op ≠ .execute .commitTransaction) (hu : Undone w op w') : Same w' := by
  rw [Undone, if_neg hop] at hu
  obtain ⟨db, hgap, rfl⟩ := hu
  exact hclosed w db hs hgap

theorem guarded_early (hclosed : Closed Same) : Guarded (earlySem Same) Same := by
  rintro w op a w' hop ⟨fault, hok, hd⟩
  have hcommit : op ≠ .execute .commitTransaction := by
    rintro rfl
    exact hop
  have hacts : ∀ r, Acts w op r w' → w' = w := by
    intro r ha
    cases op <;> first | exact ha | exact hop.elim
  rcases hok with rfl | ⟨hs, -⟩
  · cases a with
    | ok r => exact hacts r hd
    | error e =>
      obtain ⟨⟨stmt, rfl, -⟩, -⟩ := hd
      exact hop.elim
  · cases fault with
    | none =>
      cases a with
      | ok r => exact hacts r hd
      | error e =>
        obtain ⟨⟨stmt, rfl, -⟩, -⟩ := hd
        exact hop.elim
    | before =>
      cases a with
      | ok r => exact hd.elim
      | error e => exact undone_same hclosed hs hcommit hd.2
    | after =>
      cases a with
      | ok r => exact hd.elim
      | error e =>
        obtain ⟨-, r, ha⟩ := hd
        obtain rfl := hacts r ha
        exact hs

/-- A statement before the first change. -/
theorem ends_execute {stmt : Statement} (hclosed : Closed Same) (hs : Same w)
    (hcommit : stmt ≠ .commitTransaction)
    (hkeep : ¬ IsInsert stmt → ∀ r db, Executes w.db stmt r db → Same (w.executed stmt db)) :
    wp (earlySem Same) anyOp (execute stmt)
      (Ends (fun r w' => ∃ db, Executes w.db stmt r db ∧ w' = w.executed stmt db) Same) w := by
  have hop : Op.execute stmt ≠ .execute .commitTransaction := fun h => hcommit (Op.execute.inj h)
  refine ⟨trivial, ?_⟩
  rintro (e | r) w' ⟨fault, hok, hd⟩
  · cases fault with
    | none => exact undone_same hclosed hs hop hd.2.2
    | before => exact undone_same hclosed hs hop hd.2
    | after =>
      obtain ⟨-, r, db, he, rfl⟩ := hd
      rcases hok with h | ⟨-, hinsert⟩
      · cases h
      · exact hkeep (hinsert rfl stmt rfl) r db he
  · cases fault with
    | none => exact hd
    | before | after => exact hd.elim

/-- A statement behind the first change. -/
theorem ends_execute_late {stmt : Statement} (hs : ¬ Same w) (hstmt : ¬ Fails w.db stmt) :
    wp (earlySem Same) anyOp (execute stmt)
      (Ends (fun r w' => ∃ db, Executes w.db stmt r db ∧ w' = w.executed stmt db) Same) w := by
  refine ⟨trivial, ?_⟩
  rintro a w' ⟨fault, hok, hd⟩
  obtain rfl := hok.resolve_right fun h => hs h.1
  obtain ⟨r, rfl, ha⟩ := hd.acts (by
    rintro stmt' heq
    rwa [← Op.execute.inj heq])
  exact ha

/-- Accesses to the `ClientApplicationContext` never throw. -/
theorem ends_access {op : Op} (hop : ∀ e, ¬ Throws op e) :
    wp (earlySem Same) anyOp (invoke op) (Ends (fun r w' => Acts w op r w') Same) w := by
  refine ⟨trivial, ?_⟩
  rintro (e | r) w' ⟨fault, -, hd⟩
  · cases fault with
    | none => exact absurd hd.2.1 (hop e)
    | before | after => exact absurd hd.1 (hop e)
  · cases fault with
    | none => exact hd
    | before | after => exact hd.elim

/-- A request before the first change. -/
theorem ends_process {request : Request} {R : Response JavaException → World → Prop}
    (hclosed : Closed Same) (hs : Same w)
    (h : (w.context.clientQueue.isNone && !Request.isRegistration request) = false →
      wp (earlySem Same) anyOp (handler request) (Ends R Same) w) :
    wp (earlySem Same) anyOp (process request) (Ends R Same) w := by
  refine ends_bind (ends_access nofun) fun clientQueue w' hget => ?_
  obtain ⟨rfl, rfl⟩ := hget
  split_ifs with hregistered
  · exact hs
  · refine ends_bind (ends_silent (guarded_early hclosed) trivial) fun _ w'' hw => ?_
    obtain rfl := hw
    exact h (Bool.eq_false_iff.mpr hregistered)

end Early

end Mlmq.Server.EarlyFaults
