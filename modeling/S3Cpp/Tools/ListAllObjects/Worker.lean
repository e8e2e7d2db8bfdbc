import S3Cpp.Tools.ListAllObjects.Misc

namespace S3Cpp.Tools.ListAllObjects

open Aws.S3 Aws.S3.Client

-- Where a spawned worker stands. From scanQueue to taken and from countObjects
-- to countOp it holds the queue mutex.
inductive WorkerState
  | pending
  | getNextPrefix
  | scanQueue
  | taken (path : CommonPrefix) (depth : Nat)
  | listOne (call : Call) (token : Option Str) (retries : Nat)
  | writeObjects (call : Call) (page : Page)
  | lockQueue (call : Call) (page : Page)
  | countObjects (call : Call) (page : Page)
  | pushPrefixes (call : Call) (page : Page)
  | countOp (call : Call) (page : Page)
  | isDone
  | readActive
  | readTarget (currentActive : Nat)
  | leaving
  | finished

def maxRetries : Nat := 5

def request : ListObjectsApiVersion → Response → Outcome Page
  | .V1, response =>
      match listObjects response with
      | .value result => .value (.ofV1 result)
      | .unexpected error => .unexpected error
      | .exception what => .exception what
  | .V2, response =>
      match listObjectsV2 response with
      | .value result => .value (.ofV2 result)
      | .unexpected error => .unexpected error
      | .exception what => .exception what

def errorText : ListError → Str
  | .transport what => what
  | .parse status => ascii "pugixml error " ++ decimal status

def warnRetry (path : CommonPrefix) (error : ListError) (retries : Nat) : Str :=
  ascii "WARN in prefix " ++ path.Prefix.getD (ascii "<no prefix>") ++ ascii " " ++ errorText error ++
    ascii " - retry " ++ decimal retries

def errorNoSuccess (path : CommonPrefix) : Str :=
  ascii "ERROR no success after " ++ decimal maxRetries ++ ascii " retries on prefix " ++
    path.Prefix.getD (ascii "<no prefix>")

def warnRepeated (version : ListObjectsApiVersion) (path : CommonPrefix) : Str :=
  ascii "WARN prefix " ++ path.Prefix.getD (ascii "<empty prefix>") ++ ascii " yielded repeated " ++
    (match version with
      | .V1 => ascii "Marker"
      | .V2 => ascii "ContinuationToken") ++ ascii ", skipping"

def errorNoKey (object : Object) : Str :=
  ascii "ERROR received object without key, ETag " ++ object.ETag.getD (ascii "<no ETag>")

-- The JSON value that value_from makes of a member.
inductive JsonValue
  | string (text : Str)
  | number (n : Nat)
deriving DecidableEq

abbrev JsonObject := List (Str × JsonValue)

def memberName (name : String) : Str :=
  let nameView := ascii name
  if nameView.getLast? = some 95 then nameView.dropLast else nameView

-- Unset members are left out and the others lose a trailing underscore.
def member (name : String) (value : Option JsonValue) : JsonObject :=
  value.toList.map fun value => (memberName name, value)

-- tag_invoke with a value_from_tag
def valueFrom (object : Object) : JsonObject :=
  member "ChecksumAlgorithm_" (object.ChecksumAlgorithm_.map fun chk => .string chk.toString) ++
    member "ChecksumType_" (object.ChecksumType_.map fun chk => .string chk.toString) ++
    member "ETag" (object.ETag.map .string) ++ member "Key" (object.Key.map .string) ++
    member "Size" (object.Size.map .number)

-- The text write_objects pushes and the lines it prints.
def objectsText (config : Config) (objects : List Object) : Str :=
  match config.outputFormat with
  | .PLAIN => objects.flatMap fun object => (object.Key.map (· ++ ascii "\n")).getD []
  | .JSON => objects.flatMap fun object => config.serialize object ++ ascii "\n"

def objectsLines (config : Config) (objects : List Object) : List Str :=
  match config.outputFormat with
  | .PLAIN => (objects.filter fun object => object.Key.isNone).map errorNoKey
  | .JSON => []

namespace Shared

variable (sh : Shared)

def print (lines : List Str) : Shared := { sh with stderr := sh.stderr ++ lines }

def finish (call : Call) (ending : Ending) : Shared := { sh with ended := sh.ended ++ [(call, ending)] }

def writeObjects (config : Config) (objects : List Object) : Shared :=
  let text := objectsText config objects
  { sh with
    stderr := sh.stderr ++ objectsLines config objects
    handed := sh.handed ++ objects
    writeStack := if text = [] then sh.writeStack else text :: sh.writeStack
    written := if text = [] then sh.written else sh.written ++ [text] }

def pushPrefixes (depth : Nat) (prefixes : List CommonPrefix) : Shared :=
  if prefixes = [] then sh
  else
    { sh with
      metrics.totalQueueLength := sh.metrics.totalQueueLength + prefixes.length
      prefixQueue := ⟨depth + 1, prefixes⟩ :: sh.prefixQueue
      pushed := sh.pushed ++ prefixes }

def lock : Shared := { sh with queueMutex := true }

def unlock : Shared := { sh with queueMutex := false }

end Shared

namespace Call

variable (call : Call)

def receive (token : Option Str) (response : Response) : Call :=
  { call with exchanges := call.exchanges ++ [(token, response)] }

def print (lines : List Str) : Call := { call with lines := call.lines ++ lines }

def hand (objects : List Object) : Call := { call with handed := call.handed ++ [objects] }

def queue (prefixes : List CommonPrefix) : Call := { call with queued := call.queued ++ [prefixes] }

end Call

-- list_one and the check of the tokens in process_prefix. An exception goes up
-- to the detached coroutine, whose scope guard still runs.
def listStep (config : Config) (response : Response) (sh : Shared) (call : Call) (token : Option Str)
    (retries : Nat) : Shared × WorkerState :=
  let call := call.receive token response
  match request config.apiVersion response with
  | .exception what => (sh.finish call (.threw what), .leaving)
  | .unexpected error =>
      let warn := warnRetry call.path error retries
      if retries < maxRetries then
        (sh.print [warn], .listOne (call.print [warn]) token (retries + 1))
      else
        let lines := [warn, errorNoSuccess call.path]
        (sh.print lines, .writeObjects (call.print lines) (Page.default config.apiVersion))
  | .value page =>
      if page.repeatsToken then
        let warn := warnRepeated config.apiVersion call.path
        ((sh.print [warn]).finish (call.print [warn]) .returned, .isDone)
      else (sh, .writeObjects call page)

-- One step of a worker. The choice of the top entry and the server's response
-- are used only by the steps that need them.
def workerStep (config : Config) (choice : Nat) (response : Response) (sh : Shared) :
    WorkerState → Option (Shared × WorkerState)
  | .pending =>
      some ({ sh with metrics.activeWorkers := sh.metrics.activeWorkers + 1 }, .getNextPrefix)
  | .getNextPrefix => if sh.queueMutex then none else some (sh.lock, .scanQueue)
  | .scanQueue =>
      if sh.prefixQueue = [] then some (sh.unlock, .isDone)
      else
        (PrefixQueue.top sh.prefixQueue choice).map fun top =>
          match top.paths.getLast? with
          | none => ({ sh with prefixQueue := sh.prefixQueue.eraseIdx choice }, .scanQueue)
          | some path =>
              ({ sh with
                  prefixQueue := sh.prefixQueue.set choice ⟨top.depth, top.paths.dropLast⟩
                  taken := sh.taken ++ [path] },
                .taken path top.depth)
  | .taken path depth =>
      let length := decrement sh.metrics.totalQueueLength
      some ({ sh.unlock with metrics.totalQueueLength := length }, .listOne (Call.start path depth) none 1)
  | .listOne call token retries => some (listStep config response sh call token retries)
  | .writeObjects call page =>
      some (sh.writeObjects config page.contents, .lockQueue (call.hand page.contents) page)
  | .lockQueue call page => if sh.queueMutex then none else some (sh.lock, .countObjects call page)
  | .countObjects call page =>
      let found := sh.metrics.totalObjectsFound + page.contents.length
      some ({ sh with metrics.totalObjectsFound := found }, .pushPrefixes call page)
  | .pushPrefixes call page =>
      some (sh.pushPrefixes call.depth page.commonPrefixes, .countOp (call.queue page.commonPrefixes) page)
  | .countOp call page =>
      let sh := { sh.unlock with metrics.totalOps := sh.metrics.totalOps + 1 }
      match page.nextToken with
      | some token => some (sh, .listOne call (some token) 1)
      | none => some (sh.finish call .returned, .isDone)
  | .isDone => some (sh, if sh.metrics.totalQueueLength = 0 then .leaving else .readActive)
  | .readActive => some (sh, .readTarget sh.metrics.activeWorkers)
  | .readTarget currentActive =>
      some (sh, if sh.metrics.targetWorkers < currentActive then .leaving else .getNextPrefix)
  | .leaving =>
      some ({ sh with metrics.activeWorkers := decrement sh.metrics.activeWorkers }, .finished)
  | .finished => none

end S3Cpp.Tools.ListAllObjects
