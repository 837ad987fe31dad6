import Mlmq.Db.Dao

/-! # `RequestProcessor`

The ten handlers and `process` as programs. Every handler borrows a connection, closes it if a
statement fails, and returns it in the end (`withConnection`). -/

namespace Mlmq.Server.RequestProcessor

open Mlmq.Dto Mlmq.Db.Table Mlmq.Db.Schema Mlmq.Db.Dao Mlmq.Net.Requests Mlmq.Net.Responses
open Mlmq.Lib.Programs
open Mlmq.Lib.Programs.Program (raise)

/-! ### The connection of a handler -/

/-- `new MlmqException(ex)`. -/
def mlmqException (message : String) : JavaException := .mlmq none (some (.sql message))

/-- `new MlmqException(text + name, ex)`. -/
def errorFor (text : String) (name : Option String) (message : String) : JavaException :=
  .mlmq (some (text ++ name.getD "null")) (some (.sql message))

/-- The body of a handler with its `catch` and `finally`. What `failed` makes of an `SQLException`
is thrown instead. -/
def withConnection {α : Type} (failed : String → JavaException) (body : Java α) : Java α := do
  DbConnectionPool.getConnection
  (body.catching fun
    | .sql message => do
      DbConnection.close
      raise (failed message)
    | e => raise e).andFinally DbConnectionPool.returnConnection

/-! ### The bodies of the handlers -/

/-- The conversation context of a message to a client. -/
def conversationContext (request : SendClientMessageRequest) : Java (Option Int64) :=
  if request.conversation && request.conversationContext.isNone then do
    let context ← MessageDao.generateNewConversationContext
    return some context
  else return request.conversationContext

/-- The message to a client, once its queue is known. -/
def sendToQueue (request : SendClientMessageRequest) (receivingClientQueue : QueueDto) :
    Java (Response JavaException) := do
  let context ← conversationContext request
  let client ← invoke .getClient
  match client with
  | none => raise (.runtime .nullPointer)
  | some client =>
    MessageDao.insertMessage
      { queueId := receivingClientQueue.id, clientId := client.id, content := request.content,
        prio := request.prio, context }
    return .sendClientMessage { conversationContext := context }

def sendClientMessage (request : SendClientMessageRequest) : Java (Response JavaException) := do
  let receivingClientQueue ← QueueDao.getQueueByClientId request.clientId
  match receivingClientQueue with
  | none => raise (.mlmq (some s!"Could not find Queue for ClientId {request.clientId}") none)
  | some queue => sendToQueue request queue

def queuesWithPendingMessages (request : QueuesWithPendingMessagesRequest) :
    Java (Response JavaException) := do
  let queues ← MessageDao.getPublicQueuesContainingMessages request.maxNumQueues
  let clientQueue ← invoke .getClientQueue
  match clientQueue with
  | none => raise (.runtime .nullPointer)
  | some clientQueue =>
    let numMessagesInMyQueue ← MessageDao.getNumberOfMessages clientQueue.id
    return .queuesWithPendingMessages { queues := queues.map some, numMessagesInMyQueue }

def peekMessage (request : PeekMessageRequest) : Java (Response JavaException) := do
  let message ← MessageDao.peekMessage request.messageQueryInfo
  return .message { messageDto := message }

def dequeueMessage (request : DequeueMessageRequest) : Java (Response JavaException) := do
  let message ← MessageDao.dequeueMessage request.messageQueryInfo
  return .message { messageDto := message }

def sendMessage (request : SendMessageRequest) : Java (Response JavaException) := do
  MessageDao.insertMessages request
  return .sendMessage {}

def deleteQueue (request : DeleteQueueRequest) : Java (Response JavaException) :=
  match request.queue with
  | none => raise (.runtime .nullPointer)
  | some queue => do
    QueueDao.deleteQueue queue.id
    return .deleteQueue {}

def lookupQueue (request : LookupQueueRequest) : Java (Response JavaException) :=
  match request.clientId with
  | some clientId => do
    let queue ← QueueDao.getQueueByClientId clientId
    return .queue { queue }
  | none => do
    let queue ← QueueDao.getQueueByName request.queueName
    return .queue { queue }

def lookupClient (request : LookupClientRequest) : Java (Response JavaException) := do
  let clientId ← ClientDao.getClientId request.clientName
  return .client
    { client := clientId.map fun id => { id := id.toInt64, name := request.clientName } }

def createQueue (request : CreateQueueRequest) : Java (Response JavaException) := do
  let queue ← QueueDao.getQueueByName request.queueName
  match queue with
  | some queue => return .queue { queue := some queue }
  -- queue not found, actually create queue
  | none =>
    let queue ← QueueDao.createQueue request.queueName
    return .queue { queue := some queue }

/-- The client and its queue, known or new. -/
def clientAndQueue (name : Option String) : Java (Int32 × QueueDto) := do
  let clientId ← ClientDao.getClientId name
  match clientId with
  | none =>
    let newClientId ← ClientDao.insertNewClient name
    let clientQueue ← QueueDao.createClientQueue (some newClientId) name
    return (newClientId, clientQueue)
  | some clientId =>
    let queue ← QueueDao.getQueueByClientId clientId.toInt64
    match queue with
    | none => raise (.mlmq (some s!"Could not find Queue for ClientId {clientId}") none)
    | some queue =>
      -- `Welcome back`
      invoke .step
      return (clientId, { id := queue.id, name := none })

def registration (request : RegistrationRequest) : Java (Response JavaException) := do
  let found ← clientAndQueue request.clientName
  let clientDto : ClientDto := { id := found.1.toInt64, name := request.clientName }
  invoke (.setClient clientDto)
  invoke (.setClientQueue found.2)
  return .registration { clientDto := some clientDto, isNewClient := false }

/-! ### `process` -/

def processSendClientMessageRequest (request : SendClientMessageRequest) :
    Java (Response JavaException) :=
  withConnection mlmqException (sendClientMessage request)

def processQueuesWithPendingMessagesRequest (request : QueuesWithPendingMessagesRequest) :
    Java (Response JavaException) :=
  withConnection mlmqException (queuesWithPendingMessages request)

def processPeekMessageRequest (request : PeekMessageRequest) : Java (Response JavaException) :=
  withConnection mlmqException (peekMessage request)

def processDequeueMessageRequest (request : DequeueMessageRequest) : Java (Response JavaException) :=
  withConnection mlmqException (dequeueMessage request)

def processSendMessageRequest (request : SendMessageRequest) : Java (Response JavaException) :=
  withConnection mlmqException (sendMessage request)

def processDeleteQueueRequest (request : DeleteQueueRequest) : Java (Response JavaException) :=
  withConnection mlmqException (deleteQueue request)

def processLookupQueueRequest (request : LookupQueueRequest) : Java (Response JavaException) :=
  withConnection (errorFor "Error looking up Queue " request.queueName) (lookupQueue request)

def processLookupClientRequest (request : LookupClientRequest) : Java (Response JavaException) :=
  withConnection (errorFor "Error looking up Client " request.clientName) (lookupClient request)

def processCreateQueueRequest (request : CreateQueueRequest) : Java (Response JavaException) :=
  withConnection (errorFor "Error creating Queue " request.queueName) (createQueue request)

def processRegistrationRequest (request : RegistrationRequest) : Java (Response JavaException) :=
  withConnection mlmqException (registration request)

/-- The handler of a request. -/
def handler : Request → Java (Response JavaException)
  | .createQueue request => processCreateQueueRequest request
  | .lookupQueue request => processLookupQueueRequest request
  | .lookupClient request => processLookupClientRequest request
  | .queuesWithPendingMessages request => processQueuesWithPendingMessagesRequest request
  | .registration request => processRegistrationRequest request
  | .deleteQueue request => processDeleteQueueRequest request
  | .dequeueMessage request => processDequeueMessageRequest request
  | .peekMessage request => processPeekMessageRequest request
  | .sendMessage request => processSendMessageRequest request
  | .sendClientMessage request => processSendClientMessageRequest request

def Request.isRegistration : Request → Bool
  | .registration _ => true
  | _ => false

/-- `process`. A client is registered if its context has a queue. -/
def process (request : Request) : Java (Response JavaException) := do
  let clientQueue ← invoke .getClientQueue
  if clientQueue.isNone && !Request.isRegistration request then
    raise (.mlmq (some "Client not yet registere") none)
  else
    -- `Process Request`
    invoke .step
    handler request

end Mlmq.Server.RequestProcessor
