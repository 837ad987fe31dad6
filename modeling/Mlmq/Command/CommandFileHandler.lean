import Mlmq.Lib.Transition
import Mlmq.Lib.Utf8

/-! # The command file

`CommandFileHandler` checks a file again and again. If the file is younger than the recorded time,
its content is read, in blocks of 512 bytes, and delivered as a command, and then the time of the
file is recorded. An operator may write the file between any two of these steps.

What is written behind the last block and in front of the record is recorded and never delivered. So
no command is lost in a run iff every record finds the text that has been read, and that is so if
nothing is written between the first block and the record (`noCommandLost_iff`). -/

namespace Mlmq.Command.CommandFileHandler

open Mlmq.Lib.Transition Mlmq.Lib.Utf8

/-! ### The handler -/

structure CommandFile where
  content : List UInt8
  lastModified : ℤ

/-- Where the thread of the handler is. -/
inductive Position
  /-- between two calls of `checkFile` -/
  | between
  /-- in the loop that reads the file -/
  | reading (byteOut : List UInt8)
  /-- in front of `onCommand` -/
  | delivering (fileContentString : String)
  /-- in front of the assignment of `lastModified` -/
  | recording (fileContentString : String)

/-- The file and the handler, with the last command that `onCommand` got, and whether the file has
been written since `prepareFile`. -/
structure World where
  file : CommandFile
  lastModified : ℤ
  position : Position
  delivered : Option String
  written : Bool

/-- The state behind `prepareFile`. A file that does not exist is created. -/
def prepareFile (fileToWatch : Option CommandFile) (now : ℤ) : World where
  file := fileToWatch.getD ⟨[], now⟩
  lastModified := (fileToWatch.getD ⟨[], now⟩).lastModified
  position := .between
  delivered := none
  written := false

/-- The next step of `checkFile`. -/
def World.checkFile (w : World) : World :=
  match w.position with
  | .between =>
    if w.file.lastModified > w.lastModified then { w with position := .reading [] } else w
  | .reading byteOut =>
    let buffer := (w.file.content.drop byteOut.length).take 512
    if buffer.length > 0 then { w with position := .reading (byteOut ++ buffer) }
    else { w with position := .delivering (newString byteOut) }
  | .delivering fileContentString =>
    { w with position := .recording fileContentString, delivered := some fileContentString }
  | .recording _ => { w with position := .between, lastModified := w.file.lastModified }

inductive Event
  /-- the operator writes -/
  | write (content : List UInt8) (time : ℤ)
  /-- the handler does its next step -/
  | check

inductive Step : World → Event → World → Prop
  | write {w : World} (content : List UInt8) {time : ℤ} (h : w.file.lastModified < time) :
    Step w (.write content time) { w with file := ⟨content, time⟩, written := true }
  | check (w : World) : Step w .check w.checkFile

/-! ### The property -/

/-- **No command is lost**: between two calls with the recorded time, the last command is the
content of the file, or nothing has been written. -/
def NoCommandLost (w : World) : Prop :=
  w.position = .between → w.lastModified = w.file.lastModified →
    w.delivered = some (newString w.file.content) ∨ w.written = false

/-- A record finds the text that has been read. -/
def Unchanged (w : World) (e : Event) : Prop :=
  e = .check → ∀ s, w.position = .recording s → newString w.file.content = s

/-- Nothing is written between the first block and the record. -/
def Quiet (w : World) (e : Event) : Prop :=
  e ≠ .check → w.position = .between ∨ w.position = .reading []

/-- What is so in every reachable state. -/
structure Valid (w : World) : Prop where
  le : w.lastModified ≤ w.file.lastModified
  unwritten : w.written = false → w.lastModified = w.file.lastModified ∧ w.position = .between
  delivered : ∀ s, w.position = .recording s → w.delivered = some s

theorem valid_prepareFile (fileToWatch : Option CommandFile) (now : ℤ) :
    Valid (prepareFile fileToWatch now) := ⟨le_rfl, fun _ => ⟨rfl, rfl⟩, fun _ h => nomatch h⟩

/-- What a step of `checkFile` does. -/
inductive Checked (w : World) : World → Prop
  | skip (hposition : w.position = .between) (h : w.file.lastModified ≤ w.lastModified) :
    Checked w w
  | start (hposition : w.position = .between) (h : w.lastModified < w.file.lastModified) :
    Checked w { w with position := .reading [] }
  | read {byteOut buffer : List UInt8} (hposition : w.position = .reading byteOut)
    (h : buffer = (w.file.content.drop byteOut.length).take 512) :
    Checked w { w with position := .reading (byteOut ++ buffer) }
  | finish {byteOut : List UInt8} (hposition : w.position = .reading byteOut)
    (h : w.file.content.length ≤ byteOut.length) :
    Checked w { w with position := .delivering (newString byteOut) }
  | deliver {s : String} (hposition : w.position = .delivering s) :
    Checked w { w with position := .recording s, delivered := some s }
  | record {s : String} (hposition : w.position = .recording s) :
    Checked w { w with position := .between, lastModified := w.file.lastModified }

theorem checked (w : World) : Checked w w.checkFile := by
  unfold World.checkFile
  cases hposition : w.position with
  | between =>
    dsimp only
    split_ifs with h
    · exact .start hposition h
    · exact .skip hposition (not_lt.mp h)
  | reading byteOut =>
    dsimp only
    split_ifs with h
    · exact .read hposition rfl
    · refine .finish hposition ?_
      rw [List.length_take, List.length_drop] at h
      omega
  | delivering s => exact .deliver hposition
  | recording s => exact .record hposition

theorem Step.write_eq {w w' : World} {content : List UInt8} {time : ℤ}
    (h : Step w (.write content time) w') : w.file.lastModified < time ∧
      w' = { w with file := ⟨content, time⟩, written := true } := by
  cases h with
  | write _ htime => exact ⟨htime, rfl⟩

theorem Step.checked {w w' : World} (h : Step w .check w') : Checked w w' := by
  cases h with
  | check => exact CommandFileHandler.checked w

/-- One step of a run. -/
theorem Valid.step {w w' : World} {e : Event} (h : Valid w) (hstep : Step w e w') : Valid w' := by
  obtain ⟨hle, hunwritten, hdelivered⟩ := h
  cases e with
  | write content time =>
    obtain ⟨htime, rfl⟩ := hstep.write_eq
    exact ⟨(hle.trans_lt htime).le, nofun, hdelivered⟩
  | check =>
    -- Behind the comparison something has been written.
    have hwritten : w.position ≠ .between → w.written = false → False := fun hne h =>
      hne (hunwritten h).2
    cases hstep.checked with
    | skip hposition _ => exact ⟨hle, hunwritten, hdelivered⟩
    | start hposition hlt =>
      refine ⟨hle, fun h => ?_, fun s h => nomatch h⟩
      exact absurd (hunwritten h).1 hlt.ne
    | read hposition _ =>
      exact ⟨hle, fun h => (hwritten (by rw [hposition]; nofun) h).elim, fun s h => nomatch h⟩
    | finish hposition _ =>
      exact ⟨hle, fun h => (hwritten (by rw [hposition]; nofun) h).elim, fun s h => nomatch h⟩
    | deliver hposition =>
      refine ⟨hle, fun h => (hwritten (by rw [hposition]; nofun) h).elim, fun s h => ?_⟩
      rw [Position.recording.inj h]
    | record hposition =>
      exact ⟨le_rfl, fun h => (hwritten (by rw [hposition]; nofun) h).elim, fun s h => nomatch h⟩

/-- **The record decides** whether a command has been lost. -/
theorem noCommandLost_step_iff {w w' : World} {e : Event} (h : Valid w) (hlost : NoCommandLost w)
    (hstep : Step w e w') : NoCommandLost w' ↔ Unchanged w e := by
  obtain ⟨hle, hunwritten, hdelivered⟩ := h
  cases e with
  | write content time =>
    obtain ⟨htime, rfl⟩ := hstep.write_eq
    refine iff_of_true (fun _ htime' => ?_) fun h => nomatch h
    exact absurd htime' (hle.trans_lt htime).ne
  | check =>
    have hother : (∀ s, w.position ≠ .recording s) → Unchanged w .check := fun h _ s hs =>
      absurd hs (h s)
    cases hstep.checked with
    | skip hposition _ => exact iff_of_true hlost (hother (by rw [hposition]; nofun))
    | start hposition _ =>
      exact iff_of_true (fun h => nomatch h) (hother (by rw [hposition]; nofun))
    | read hposition _ =>
      exact iff_of_true (fun h => nomatch h) (hother (by rw [hposition]; nofun))
    | finish hposition _ =>
      exact iff_of_true (fun h => nomatch h) (hother (by rw [hposition]; nofun))
    | deliver hposition =>
      exact iff_of_true (fun h => nomatch h) (hother (by rw [hposition]; nofun))
    | @record s hposition =>
      have hwritten : w.written ≠ false := fun h => by
        have := (hunwritten h).2
        rw [hposition] at this
        exact nomatch this
      constructor
      · intro h _ s' hs'
        rw [hposition] at hs'
        obtain rfl := Position.recording.inj hs'
        have hlast := (h rfl rfl).resolve_right hwritten
        rw [hdelivered s hposition] at hlast
        exact (Option.some.inj hlast).symm
      · intro h _ _
        rw [hdelivered s hposition, h rfl s hposition]
        exact Or.inl rfl

/-! ### Quiet runs -/

/-- What has been read is in the file. -/
def Follows (w : World) : Prop :=
  match w.position with
  | .between => True
  | .reading byteOut => byteOut <+: w.file.content
  | .delivering s => newString w.file.content = s
  | .recording s => newString w.file.content = s

theorem Follows.step {w w' : World} {e : Event} (h : Follows w) (hstep : Step w e w')
    (hquiet : Quiet w e) : Follows w' := by
  cases e with
  | write content time =>
    obtain ⟨-, rfl⟩ := hstep.write_eq
    unfold Follows
    rcases hquiet nofun with hposition | hposition
    · simp only [hposition]
    · simp only [hposition, List.nil_prefix]
  | check =>
    cases hstep.checked with
    | skip hposition _ => exact h
    | start hposition _ => exact List.nil_prefix
    | @read byteOut buffer hposition hbuffer =>
      unfold Follows at h
      rw [hposition] at h
      obtain ⟨rest, hrest⟩ := h
      have hdrop : w.file.content.drop byteOut.length = rest := by
        rw [← hrest, List.drop_left]
      show byteOut ++ buffer <+: w.file.content
      rw [hbuffer, hdrop, ← hrest]
      exact (List.prefix_append_right_inj byteOut).mpr (List.take_prefix 512 rest)
    | @finish byteOut hposition hlength =>
      unfold Follows at h
      rw [hposition] at h
      have hall : byteOut = w.file.content := h.eq_of_length_le hlength
      show newString w.file.content = newString byteOut
      rw [hall]
    | deliver hposition =>
      unfold Follows at h
      rwa [hposition] at h
    | record hposition => exact trivial

theorem Follows.unchanged {w : World} (h : Follows w) (e : Event) : Unchanged w e := by
  intro _ s hposition
  unfold Follows at h
  rwa [hposition] at h

theorem step_deterministic {w w' w'' : World} {e : Event} (h : Step w e w') (h' : Step w e w'') :
    w' = w'' := by
  cases h with
  | write content htime => cases h' with | write => rfl
  | check => cases h' with | check => rfl

/-- **No command is lost in a run iff every record finds the text that has been read**, as it does
if nothing is written between the first block of a call and its record. -/
theorem noCommandLost_iff (fileToWatch : Option CommandFile) (now : ℤ) {events : List Event}
    {w : World} (h : Run Step (prepareFile fileToWatch now) events w) :
    (Throughout Step NoCommandLost (prepareFile fileToWatch now) events ↔
      Run (Restrict Step Unchanged) (prepareFile fileToWatch now) events w) ∧
    (Run (Restrict Step Quiet) (prepareFile fileToWatch now) events w →
      Run (Restrict Step Unchanged) (prepareFile fileToWatch now) events w) := by
  constructor
  · exact h.throughout_iff (fun _ _ _ _ => step_deterministic) (fun _ _ _ => Valid.step)
      (fun _ _ _ => noCommandLost_step_iff) (valid_prepareFile fileToWatch now)
      fun _ _ => Or.inr rfl
  · intro hquiet
    have hfollows : Follows (prepareFile fileToWatch now) := trivial
    exact hquiet.mono (fun _ _ _ h hstep => h.step hstep.1 hstep.2)
      (fun _ e _ h hstep => ⟨hstep.1, h.unchanged e⟩) hfollows

/-- A command that is written while the one before it is read. -/
def earlyWrite : List Event :=
  [.write (getBytes "logmemory") 1, .check, .write (getBytes "shutdown") 2, .check, .check, .check,
    .check]

def earlyEnd : World where
  file := ⟨getBytes "shutdown", 2⟩
  lastModified := 2
  position := .between
  delivered := some (newString (getBytes "shutdown"))
  written := true

theorem quietRun_earlyWrite : Run (Restrict Step Quiet) (prepareFile none 0) earlyWrite earlyEnd := by
  have hcheck : ∀ w : World, Quiet w .check := fun w h => absurd rfl h
  refine .cons ⟨.write _ (by decide), fun _ => Or.inl rfl⟩ (.cons ⟨.check _, hcheck _⟩
    (.cons ⟨.write _ (by decide), fun _ => Or.inr rfl⟩ (.cons ⟨.check _, hcheck _⟩
      (.cons ⟨.check _, hcheck _⟩ (.cons ⟨.check _, hcheck _⟩ (.cons ⟨.check _, hcheck _⟩ ?_))))))
  exact .nil earlyEnd

theorem noCommandLost_iff_earlyWrite :
    Throughout Step NoCommandLost (prepareFile none 0) earlyWrite := by
  obtain ⟨hiff, hquiet⟩ := noCommandLost_iff none 0 quietRun_earlyWrite.of_restrict
  exact hiff.mpr (hquiet quietRun_earlyWrite)

/-- A command that is written while the one before it is executed. -/
def lateWrite : List Event :=
  [.write (getBytes "logmemory") 1, .check, .check, .check, .check, .write (getBytes "shutdown") 2,
    .check]

def lateEnd : World where
  file := ⟨getBytes "shutdown", 2⟩
  lastModified := 2
  position := .between
  delivered := some (newString (getBytes "logmemory"))
  written := true

theorem run_lateWrite : Run Step (prepareFile none 0) lateWrite lateEnd := by
  refine .cons (.write _ (by decide)) (.cons (.check _) (.cons (.check _) (.cons (.check _)
    (.cons (.check _) (.cons (.write _ (by decide)) (.cons (.check _) ?_))))))
  exact .nil lateEnd

/-- The shutdown is recorded and never executed. -/
theorem lateWrite_loses : ¬ ∀ (fileToWatch : Option CommandFile) (now : ℤ) (events : List Event)
    (w : World), Run Step (prepareFile fileToWatch now) events w → NoCommandLost w := by
  intro h
  rcases h none 0 lateWrite lateEnd run_lateWrite rfl rfl with hlast | hwritten
  · have htext : newString (getBytes "logmemory") = newString (getBytes "shutdown") :=
      Option.some.inj hlast
    rw [newString_getBytes, newString_getBytes] at htext
    exact absurd htext (by decide)
  · exact nomatch hwritten

end Mlmq.Command.CommandFileHandler
