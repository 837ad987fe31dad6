import Mlmq.Db.Schema
import Mlmq.Lib.Programs

/-! # The data access objects and the connection pool

`QueueDao`, `ClientDao`, `MessageDao`, `DbConnection.close` and `DbConnectionPool` as programs over
the operations `Op`: the prepared statements, the calls on the connection that the handler has in
its variable and on the pool, and the accesses to the `ClientApplicationContext`. Every operation
may throw; `step` stands for code that does nothing but that, like a call of the logger. -/

namespace Mlmq.Db.Dao

open Mlmq.Dto Mlmq.Db.Table Mlmq.Db.Schema Mlmq.Net.Requests Mlmq.Lib.Programs
open Mlmq.Lib.Programs.Program (raise)

/-! ### Exceptions -/

inductive RuntimeException
  | nullPointer
  | illegalState
  | other
deriving DecidableEq, Repr

/-- The cause of an `MlmqException`. -/
inductive Cause
  | sql (message : String)
  | illegalState
deriving DecidableEq, Repr

inductive JavaException
  | sql (message : String)
  | runtime (e : RuntimeException)
  | interrupted
  | mlmq (message : Option String) (cause : Option Cause)
deriving DecidableEq, Repr

/-! ### Operations -/

inductive Op
  -- anything else that is executed
  | step
  -- `connections.take()`
  | take
  -- `connection.isClosed()`
  | isClosed
  -- the warning of `returnConnection` about a closed connection
  | warnClosed
  -- `connection = createConnection()`
  | createConnection
  -- `connections.add(connection)`
  | add
  -- `logger` in `DbConnection.close` before its `try`, and in the `close` of a data access object
  | logClosing
  -- `close` of a prepared statement
  | closeStatement
  -- `connection.close()` of JDBC
  | closeJdbc
  -- `closed = true`
  | setClosed
  | getClient
  | getClientQueue
  | setClient (client : ClientDto)
  | setClientQueue (queue : QueueDto)
  | execute (stmt : Statement)
deriving DecidableEq, Repr

/-- What the operations answer. -/
abbrev Ans : Op → Type
  | .isClosed => Bool
  | .getClient => Option ClientDto
  | .getClientQueue => Option QueueDto
  | .execute stmt => stmt.Result
  | _ => Unit

/-- A method of the source. -/
abbrev Java (α : Type) : Type := Program Ans JavaException α

def invoke (op : Op) : Java (Ans op) := Program.perform op

def execute (stmt : Statement) : Java stmt.Result := invoke (.execute stmt)

/-- `try p finally perfLog.log(…)`, behind the start of the clock. -/
def timed {α : Type} (p : Java α) : Java α := do
  invoke .step
  p.andFinally (invoke .step)

/-! ### `ClientDao` -/

namespace ClientDao

/-- `clientName` is null if there is no such client. -/
def getClientId (clientName : Option String) : Java (Option Int32) := timed do
  let row ← execute (.clientByName clientName)
  return row.map ClientRow.id

def insertNewClient (name : Option String) : Java Int32 := timed (execute (.createClient name))

end ClientDao

/-! ### `QueueDao` -/

namespace QueueDao

def createClientQueue (clientId : Option Int32) (name : Option String) : Java QueueDto := timed do
  let queueId ← execute (.createQueue clientId name)
  return { id := queueId.toInt64, name := none }

def createQueue (name : Option String) : Java QueueDto := createClientQueue none name

def deleteQueue (queueIdToDelete : Int64) : Java Unit := timed (execute (.deleteQueue queueIdToDelete))

/-- The columns `id` and `name`. -/
def toDto (row : QueueRow) : QueueDto where
  id := row.id.toInt64
  name := row.name

def getQueueByClientId (clientId : Int64) : Java (Option QueueDto) := timed do
  let row ← execute (.queueByClientId clientId)
  return row.map toDto

def getQueueByName (queueName : Option String) : Java (Option QueueDto) := timed do
  let row ← execute (.queueByName queueName)
  return row.map toDto

end QueueDao

/-! ### `MessageDao` -/

namespace MessageDao

/-- The loop of `insertMessage`: a null is unboxed in vain. -/
def insertAll (request : SendMessageRequest) : List (Option Int64) → Java Unit
  | [] => return
  | none :: _ => raise (.runtime .nullPointer)
  | some queueId :: queueIds => do
    let client ← invoke .getClient
    match client with
    | none => raise (.runtime .nullPointer)
    | some client =>
      execute (.insertMessage
        { queueId, clientId := client.id, content := request.content, prio := request.prio,
          context := none })
      insertAll request queueIds

def insertMessages (request : SendMessageRequest) : Java Unit :=
  timed (insertAll request request.queueIds)

def insertMessage (args : Insert) : Java Unit := timed (execute (.insertMessage args))

/-- `peekMessage(prepStmt, queryInfo)`. -/
def peek (stmt : PeekArgs → Java (Option Message)) :
    Option MessageQueryInfoDto → Java (Option MessageDto)
  | none => raise (.runtime .nullPointer)
  | some queryInfo => do
    let m ← stmt (peekArgs queryInfo)
    -- the message is read from the result set
    invoke .step
    return m.map Message.toDto

def peekMessage (queryInfo : Option MessageQueryInfoDto) : Java (Option MessageDto) :=
  timed (peek (fun args => execute (.peekMessage args)) queryInfo)

/-- The `try` block of `dequeueMessage`. -/
def dequeue (queryInfo : Option MessageQueryInfoDto) : Java (Option MessageDto) := do
  execute .beginTransaction
  let message ← peek (fun args => execute (.peekMessageForUpdate args)) queryInfo
  match message with
  -- queue is empty or filter does not match
  | none => return none
  | some message =>
    let result : ℕ ← execute (.deleteMessage message.id)
    if result = 1 then return some message
    else raise (.sql s!"Dequeue did not work - DeleteCount[{result}] MessageId[{message.id}]")

def dequeueMessage (queryInfo : Option MessageQueryInfoDto) : Java (Option MessageDto) := do
  invoke .step
  (dequeue queryInfo).andFinally do
    execute .commitTransaction
    invoke .step

def generateNewConversationContext : Java Int64 := timed (execute .generateNewConversationContext)

def getPublicQueuesContainingMessages (maxNumQueues : Int32) : Java (List QueueDto) := timed do
  let queueIds ← execute (.publicQueuesContainingMessages maxNumQueues)
  return queueIds.map fun queueId => { id := queueId.toInt64, name := none }

def getNumberOfMessages (queueId : Int64) : Java Int32 := timed (execute (.numMsgPerQueue queueId))

end MessageDao

/-! ### `DbConnection` -/

namespace DbConnection

/-- `close` of a data access object with `n` prepared statements: each is closed, and an
`SQLException` is logged. -/
def closeDao : ℕ → Java Unit
  | 0 => return
  | n + 1 => do
    (invoke .closeStatement).catching fun
      | .sql _ => invoke .logClosing
      | e => raise e
    closeDao n

/-- The last `try` of `close`. -/
def closeConnection : Java Unit :=
  let logged : Java Unit := do
    invoke .step
    invoke .closeJdbc
  (logged.catching fun
    | .sql _ => invoke .step
    | e => raise e).andFinally (invoke .setClosed)

def close : Java Unit := do
  invoke .logClosing
  -- `queueDao`, `messageDao` and `clientDao`
  closeDao 4
  closeDao 9
  closeDao 2
  closeConnection

end DbConnection

/-! ### `DbConnectionPool` -/

namespace DbConnectionPool

/-- The loop of `init`. -/
def fill : ℕ → Java Unit
  | 0 => return
  | n + 1 => do
    invoke .createConnection
    invoke .add
    fill n

def init (poolSize : ℕ) : Java Unit := do
  invoke .step
  (fill poolSize).catching fun
    | .sql message =>
      raise (.mlmq (some "Error while initializing DbConnection from Pool") (some (.sql message)))
    | e => raise e

def getConnection : Java Unit :=
  (invoke .take).catching fun
    | .interrupted =>
      raise (.mlmq (some "Could not get DBConnection from Pooljava.lang.InterruptedException") none)
    | e => raise e

/-- The replacement of a closed connection. -/
def replaceConnection : Java Unit := do
  invoke .warnClosed
  (invoke .createConnection).catching fun
    | .sql message => raise (.mlmq none (some (.sql message)))
    | e => raise e

def addConnection : Java Unit :=
  (invoke .add).catching fun
    | .runtime .illegalState =>
      raise (.mlmq (some "Internal PoolException - too many connections returned")
        (some .illegalState))
    | e => raise e

def returnConnection : Java Unit := do
  let closed : Bool ← invoke .isClosed
  if closed then
    replaceConnection
    addConnection
  else addConnection

end DbConnectionPool

end Mlmq.Db.Dao
