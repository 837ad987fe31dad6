import Mlmq.Lib.Text
import Mlmq.Net.Requests
import Mlmq.Net.Responses

/-! # The performance log

`PerformanceLoggerImpl` writes a line for each event, and the `LogLineParser` of the analyzer reads
it. The format has separators and no escapes, and the parser drops the empty fields at the end of a
line.

Most event types are made of fixed texts and names of classes. The one of a request that failed has
the message of the exception in it, so writer and parser agree iff this message and the context have
no separator and no line end (`agrees_iff`). -/

namespace Mlmq.Log.PerformanceLog

open Mlmq.Lib.Text Mlmq.Lib.Nio Mlmq.Net.Requests Mlmq.Net.Responses

/-! ### The writer -/

/-- `String.format(LOG_FORMAT, ...)` with the format `"%d;%d;%3$s;%4$s\n"`. -/
def logMessage (executionTime time : Int64) (type contextString : List Char) : List Char :=
  showInt executionTime.toInt ++ ';' :: showInt time.toInt ++ ';' :: type ++
    ';' :: contextString ++ ['\n']

/-- The events of the database. -/
inductive DatabaseEvent
  | createClientQueue
  | deleteQueue
  | getQueueByClientId
  | getQueueByName
  | getClientId
  | insertNewClient
  | insertMessage
  | dequeueMessage (found : Bool)
  | dequeueMessageError
  | peekMessage
  | genConversationCtx
  | getPubQueues
  | getNumMessages
deriving DecidableEq, Repr

def DatabaseEvent.text : DatabaseEvent → String
  | createClientQueue => "BDb#createClientQueue"
  | deleteQueue => "BDb#deleteQueue"
  | getQueueByClientId => "BDb#getQueueByClientId"
  | getQueueByName => "BDb#getQueueByName"
  | getClientId => "BDb#getClientId"
  | insertNewClient => "BDb#insertNewClient"
  | insertMessage => "BDb#insertMessage"
  | dequeueMessage true => "BDb#dequeueMessage#Ok#1"
  | dequeueMessage false => "BDb#dequeueMessage#Ok#0"
  | dequeueMessageError => "BDb#dequeueMessage#Error"
  | peekMessage => "BDb#peekMessage"
  | genConversationCtx => "BDb#genConversationCtx"
  | getPubQueues => "BDb#getPubQueues"
  | getNumMessages => "BDb#getNumMessages"

/-- The events that the program logs. -/
inductive EventType
  | database (event : DatabaseEvent)
  /-- `BrokerNetworkInterface`: a response has been written -/
  | totalRequestResponse
  /-- `Worker`: a request has been processed, and its response may have been dropped -/
  | processed (request : RequestClass) (response : Option ResponseClass)
  /-- `ClientConnection`: the call returns -/
  | sent (request : RequestClass) (response : Option ResponseClass)
  /-- `ClientConnection`: the call ends with an exception, which may have no message -/
  | failed (wasTimedOut : Bool) (message : Option String) (request : RequestClass)
    (response : Option ResponseClass)

/-- `getSimpleName()`: the class name behind the last dot. -/
def simpleName (className : String) : String :=
  String.ofList ((className.toList.splitOn '.').getLastD [])

/-- The class of a response, or what stands for none. -/
def responseName (none : String) (response : Option ResponseClass) : String :=
  response.elim none fun response => simpleName response.name

/-- The second argument of `log`. -/
def EventType.text : EventType → String
  | database event => event.text
  | totalRequestResponse => "BTotReqResp"
  | processed request response =>
    "BProcReq#" ++ simpleName request.name ++ ":" ++ responseName "FailedQueueFull" response
  | sent request response =>
    "CSndReq#OK#" ++ simpleName request.name ++ ":" ++ responseName "Null" response
  | failed wasTimedOut message request response =>
    "CSndReq#Error#" ++ (if wasTimedOut then "Timeout" else "#" ++ message.getD "null") ++ "#" ++
      simpleName request.name ++ ":" ++ responseName "Null" response

/-- The message of an exception in the text. -/
def EventType.message : EventType → Option String
  | failed false message _ _ => message
  | _ => none

/-! ### The parser -/

structure LogLine where
  duration : Int32
  timestamp : Int64
  name : List Char
  addition : List Char
deriving DecidableEq, Repr

/-- A number that must be in a range. A `NumberFormatException` is an `IllegalArgumentException`. -/
def parseBetween (min max : ℤ) (s : List Char) : Except Throwable ℤ :=
  match parseInteger s with
  | some x => if min ≤ x ∧ x ≤ max then .ok x else .error .illegalArgument
  | none => .error .illegalArgument

/-- `Integer.parseInt`. -/
def parseInt (s : List Char) : Except Throwable Int32 :=
  (parseBetween (-2 ^ 31) (2 ^ 31 - 1) s).map Int32.ofInt

/-- `Long.parseLong`. -/
def parseLong (s : List Char) : Except Throwable Int64 :=
  (parseBetween (-2 ^ 63) (2 ^ 63 - 1) s).map Int64.ofInt

def parseLogLine (firstLine : Option (List Char)) : Except Throwable (Option LogLine) :=
  match firstLine with
  | none => .ok none
  | some firstLine =>
    match split ';' firstLine with
    | duration :: timestamp :: name :: rest => do
      let addition := rest.headD []
      return some ⟨← parseInt duration, ← parseLong timestamp, name, addition⟩
    | _ => .ok none

/-- **Writer and parser agree**: the text is one line, and the parser reads from it what has been
logged. -/
def Agrees (duration : Int32) (timestamp : Int64) (type contextString : List Char) : Prop :=
  ∃ line, readLines (logMessage duration.toInt64 timestamp type contextString) = [line] ∧
    parseLogLine (some line) = .ok (some ⟨duration, timestamp, type, contextString⟩)

/-! ### Plain texts -/

/-- A text without separator and line end. -/
def Plain (s : List Char) : Prop := ';' ∉ s ∧ NoLineEnd s

instance (s : List Char) : Decidable (Plain s) := inferInstanceAs (Decidable (_ ∧ _))

@[simp] theorem plain_append {s t : List Char} : Plain (s ++ t) ↔ Plain s ∧ Plain t := by
  unfold Plain NoLineEnd
  simp only [List.mem_append, not_or]
  tauto

@[simp] theorem plain_nil : Plain [] := by decide

@[simp] theorem plain_cons {c : Char} {s : List Char} :
    Plain (c :: s) ↔ (c ≠ ';' ∧ c ≠ '\n' ∧ c ≠ '\r') ∧ Plain s := by
  unfold Plain NoLineEnd
  simp only [List.mem_cons, not_or]
  tauto

theorem plain_showInt (x : ℤ) : Plain (showInt x) :=
  ⟨not_mem_showInt (by decide) (by decide) x, not_mem_showInt (by decide) (by decide) x,
    not_mem_showInt (by decide) (by decide) x⟩

/-- The simple name is a part of the name. -/
theorem plain_simpleName {className : String} (h : Plain className.toList) :
    Plain (simpleName className).toList := by
  have hsub : (className.toList.splitOn '.').getLastD [] ⊆ className.toList := by
    have hlast := List.getLast_mem (List.splitOn_ne_nil '.' className.toList)
    rw [List.getLastD_eq_getLast?, List.getLast?_eq_getLast_of_ne_nil (List.splitOn_ne_nil _ _)]
    exact (of_mem_splitOn hlast).2
  unfold simpleName
  rw [String.toList_ofList]
  exact ⟨fun hc => h.1 (hsub hc), fun hc => h.2.1 (hsub hc), fun hc => h.2.2 (hsub hc)⟩

theorem plain_simpleName_request (request : RequestClass) :
    Plain (simpleName request.name).toList :=
  plain_simpleName (by cases request <;> simp [RequestClass.name])

theorem plain_simpleName_response (response : ResponseClass) :
    Plain (simpleName response.name).toList :=
  plain_simpleName (by cases response <;> simp [ResponseClass.name])

theorem plain_responseName {none : String} (hnone : Plain none.toList)
    (response : Option ResponseClass) : Plain (responseName none response).toList := by
  cases response with
  | none => exact hnone
  | some response => exact plain_simpleName_response response

theorem DatabaseEvent.plain_text (event : DatabaseEvent) : Plain event.text.toList := by
  cases event with
  | dequeueMessage found => cases found <;> simp [text]
  | _ => simp [text]

/-- The text of an event is plain iff the message in it is. -/
theorem EventType.plain_text_iff (event : EventType) :
    Plain event.text.toList ↔ ∀ message ∈ event.message, Plain message.toList := by
  have hnull : Plain "Null".toList := by simp
  have hfull : Plain "FailedQueueFull".toList := by simp
  unfold text
  cases event with
  | database event => simp [message, event.plain_text]
  | totalRequestResponse => simp [message]
  | processed request response =>
    simp [message, plain_simpleName_request, plain_responseName hfull]
  | sent request response =>
    simp [message, plain_simpleName_request, plain_responseName hnull]
  | failed wasTimedOut message request response =>
    cases wasTimedOut <;> cases message <;>
      simp [EventType.message, plain_simpleName_request, plain_responseName hnull]

theorem EventType.text_ne_empty (event : EventType) : event.text ≠ "" := by
  unfold text
  cases event with
  | database event =>
    cases event with
    | dequeueMessage found => cases found <;> simp [DatabaseEvent.text]
    | _ => simp [DatabaseEvent.text]
  | _ => simp

/-! ### Agreement -/

theorem logMessage_eq (executionTime time : Int64) (type contextString : List Char) :
    logMessage executionTime time type contextString =
      [';'].intercalate [showInt executionTime.toInt, showInt time.toInt, type, contextString] ++
        ['\n'] := by
  simp [logMessage, List.intercalate]

theorem parseBetween_showInt {min max x : ℤ} (hmin : min ≤ x) (hmax : x ≤ max) :
    parseBetween min max (showInt x) = .ok x := by
  unfold parseBetween
  rw [parseInteger_showInt]
  exact if_pos ⟨hmin, hmax⟩

theorem parseInt_showInt (x : Int32) : parseInt (showInt x.toInt) = .ok x := by
  have hmin := x.le_toInt
  have hmax := x.toInt_lt
  unfold parseInt
  rw [parseBetween_showInt hmin (by omega)]
  exact congrArg Except.ok (Int32.ofInt_toInt x)

theorem parseLong_showInt (x : Int64) : parseLong (showInt x.toInt) = .ok x := by
  have hmin := x.le_toInt
  have hmax := x.toInt_lt
  unfold parseLong
  rw [parseBetween_showInt hmin (by omega)]
  exact congrArg Except.ok (Int64.ofInt_toInt x)

/-- The fields of a line of plain texts: empty ones at the end are dropped. -/
theorem split_line {type contextString : List Char} (htype : Plain type)
    (hcontext : Plain contextString) (x y : ℤ) :
    split ';' ([';'].intercalate [showInt x, showInt y, type, contextString]) =
      [showInt x, showInt y, type, contextString].rdropWhile (fun field => field.isEmpty) := by
  refine split_intercalate ?_ (by simp)
  simp [(plain_showInt x).1, (plain_showInt y).1, htype.1, hcontext.1]

/-- A line without context: the last field is empty. -/
def lineOf (executionTime time : ℤ) (type : List Char) : List Char :=
  [';'].intercalate [showInt executionTime, showInt time, type, []]

theorem split_lineOf {type : List Char} (htype : Plain type) (hne : type ≠ []) (x y : ℤ) :
    split ';' (lineOf x y type) = [showInt x, showInt y, type] := by
  unfold lineOf
  rw [split_line htype plain_nil]
  simp [List.rdropWhile, hne]

theorem parseLogLine_of_split {line name : List Char} {rest : List (List Char)} {duration : Int32}
    {timestamp : Int64}
    (h : split ';' line = showInt duration.toInt :: showInt timestamp.toInt :: name :: rest) :
    parseLogLine (some line) = .ok (some ⟨duration, timestamp, name, rest.headD []⟩) := by
  unfold parseLogLine
  simp only [h, parseInt_showInt, parseLong_showInt]
  rfl

theorem parseLogLine_lineOf {type : List Char} (htype : Plain type) (hne : type ≠ [])
    (duration : Int32) (timestamp : Int64) :
    parseLogLine (some (lineOf duration.toInt timestamp.toInt type)) =
      .ok (some ⟨duration, timestamp, type, []⟩) :=
  parseLogLine_of_split (split_lineOf htype hne _ _)

/-- What the parser returns stands in the line. -/
theorem parseLogLine_eq_some_iff {line : List Char} {logLine : LogLine} :
    parseLogLine (some line) = .ok (some logLine) ↔
      ∃ duration timestamp rest, split ';' line = duration :: timestamp :: logLine.name :: rest ∧
        logLine.addition = rest.headD [] ∧ parseInt duration = .ok logLine.duration ∧
        parseLong timestamp = .ok logLine.timestamp := by
  constructor
  · intro h
    unfold parseLogLine at h
    dsimp only at h
    split at h
    · rename_i duration timestamp name rest hsplit
      cases hduration : parseInt duration with
      | error e =>
        rw [hduration] at h
        cases h
      | ok x =>
        cases htimestamp : parseLong timestamp with
        | error e =>
          rw [hduration, htimestamp] at h
          cases h
        | ok y =>
          rw [hduration, htimestamp] at h
          obtain rfl := Option.some.inj (Except.ok.inj h)
          exact ⟨duration, timestamp, rest, hsplit, rfl, hduration, htimestamp⟩
    · cases h
  · rintro ⟨duration, timestamp, rest, hsplit, haddition, hduration, htimestamp⟩
    unfold parseLogLine
    simp only [hsplit, hduration, htimestamp]
    rw [← haddition]
    rfl

/-- A line with fewer fields is no log line. -/
theorem parseLogLine_of_length {line : List Char} (h : (split ';' line).length ≤ 2) :
    parseLogLine (some line) = .ok none := by
  unfold parseLogLine
  dsimp only
  split
  · rename_i hsplit
    rw [hsplit] at h
    exact absurd h (by simp)
  · rfl

theorem noLineEnd_line {type contextString : List Char} (htype : Plain type)
    (hcontext : Plain contextString) (x y : ℤ) :
    NoLineEnd ([';'].intercalate [showInt x, showInt y, type, contextString]) := by
  obtain ⟨-, hn, hr⟩ := htype
  obtain ⟨-, hn', hr'⟩ := hcontext
  have hnumber := fun x => (plain_showInt x).2
  constructor <;> simp [List.intercalate, (hnumber _).1, (hnumber _).2, hn, hr, hn', hr']

theorem noLineEnd_lineOf {type : List Char} (htype : Plain type) (x y : ℤ) :
    NoLineEnd (lineOf x y type) := noLineEnd_line htype plain_nil x y

/-- A line of plain texts is one line. -/
theorem readLines_logMessage {type contextString : List Char} (htype : Plain type)
    (hcontext : Plain contextString) (x y : Int64) :
    readLines (logMessage x y type contextString) =
      [[';'].intercalate [showInt x.toInt, showInt y.toInt, type, contextString]] := by
  rw [logMessage_eq]
  exact readLines_append_newline (noLineEnd_line htype hcontext _ _)

/-- Every text of the line is plain if the parser returns it. -/
theorem plain_of_parseLogLine {line : List Char} {logLine : LogLine} (hline : NoLineEnd line)
    (h : parseLogLine (some line) = .ok (some logLine)) :
    Plain logLine.name ∧ Plain logLine.addition := by
  obtain ⟨duration, timestamp, rest, hsplit, haddition, -⟩ := parseLogLine_eq_some_iff.mp h
  have hfield : ∀ field ∈ split ';' line, Plain field := by
    intro field hmem
    obtain ⟨hsep, hsub⟩ := of_mem_split hmem
    exact ⟨hsep, fun hn => hline.1 (hsub hn), fun hr => hline.2 (hsub hr)⟩
  rw [hsplit] at hfield
  refine ⟨hfield _ (by simp), ?_⟩
  rw [haddition]
  cases rest with
  | nil => exact plain_nil
  | cons addition rest => exact hfield _ (by simp)

/-- **Writer and parser agree on plain texts** that are not both empty, and on no others. -/
theorem agrees_iff_plain (duration : Int32) (timestamp : Int64) (type contextString : List Char) :
    Agrees duration timestamp type contextString ↔
      Plain type ∧ Plain contextString ∧ (type ≠ [] ∨ contextString ≠ []) := by
  constructor
  · rintro ⟨line, hlines, hparse⟩
    have hline : NoLineEnd line :=
      noLineEnd_of_mem_readLines (hlines ▸ List.mem_singleton_self line)
    obtain ⟨htype, hcontext⟩ := plain_of_parseLogLine hline hparse
    refine ⟨htype, hcontext, ?_⟩
    -- with two empty texts only the numbers are left
    by_contra hempty
    obtain ⟨rfl, rfl⟩ : type = [] ∧ contextString = [] := by
      simpa only [not_or, not_not] using hempty
    rw [readLines_logMessage htype hcontext, List.singleton_inj] at hlines
    obtain ⟨ds, ts, rest, hsplit, -⟩ := parseLogLine_eq_some_iff.mp hparse
    rw [← hlines, split_line htype hcontext] at hsplit
    simp [List.rdropWhile] at hsplit
  · rintro ⟨htype, hcontext, hne⟩
    refine ⟨_, readLines_logMessage htype hcontext _ _, ?_⟩
    rw [Int32.toInt_toInt64]
    cases contextString with
    | cons c s => exact parseLogLine_of_split (split_line htype hcontext _ _)
    | nil =>
      have hname : type ≠ [] := hne.resolve_right fun hcontext => hcontext rfl
      exact parseLogLine_of_split (split_lineOf htype hname _ _)

/-- **Writer and parser agree on an event** iff the message of its exception and the context are
plain. -/
theorem agrees_iff (duration : Int32) (timestamp : Int64) (event : EventType)
    (contextString : List Char) :
    Agrees duration timestamp event.text.toList contextString ↔
      (∀ message ∈ event.message, Plain message.toList) ∧ Plain contextString := by
  have hne : event.text.toList ≠ [] := fun h =>
    event.text_ne_empty (String.toList_eq_nil_iff.mp h)
  rw [agrees_iff_plain, event.plain_text_iff, and_iff_left (Or.inl hne)]

/-- A connection that fails with two sentences. -/
def failedEvent : EventType :=
  .failed false (some "Connection refused; no route to host") .registration none

/-- The message of the exception is cut at the separator. -/
theorem not_agrees_failedEvent :
    ¬ ∀ duration timestamp (event : EventType) contextString,
      Agrees duration timestamp event.text.toList contextString := by
  intro h
  have hplain := ((agrees_iff_plain ..).mp (h 15 3100 failedEvent [])).1
  exact absurd (failedEvent.plain_text_iff.mp hplain _ rfl) (by decide)

end Mlmq.Log.PerformanceLog
