import S3Cpp.Aws.S3.Client.ListObjects

namespace S3Cpp.Tools.ListAllObjects

open Aws.S3 Aws.S3.Client

inductive OutputFormat
  | PLAIN
  | JSON
deriving DecidableEq

inductive ListObjectsApiVersion
  | V1
  | V2
deriving DecidableEq

structure PrefixQueueEntry where
  depth : Nat
  paths : List CommonPrefix
deriving DecidableEq

-- A std::priority_queue with the least depth on top. Which of several entries
-- of that depth is on top is the choice of the implementation.
abbrev PrefixQueue := List PrefixQueueEntry

def PrefixQueue.top (queue : PrefixQueue) (choice : Nat) : Option PrefixQueueEntry :=
  queue[choice]?.filter fun entry => queue.all fun other => entry.depth ≤ other.depth

def PrefixQueue.paths (queue : PrefixQueue) : List CommonPrefix :=
  queue.flatMap PrefixQueueEntry.paths

-- std::size_t counters. Only going below zero wraps around here.
structure Metrics where
  totalOps : Nat
  totalQueueLength : Nat
  totalObjectsFound : Nat
  activeWorkers : Nat
  targetWorkers : Nat
deriving DecidableEq

def decrement (n : Nat) : Nat := if n = 0 then 2 ^ 64 - 1 else n - 1

structure Config where
  apiVersion : ListObjectsApiVersion
  outputFormat : OutputFormat
  scaleUpFactor : Rat
  scaleDownFactor : Rat
  -- boost::json::serialize of an object's set fields
  serialize : Object → Str

-- The fields of a result of either version that the listing goes by.
structure Page where
  token : Option Str
  nextToken : Option Str
  contents : List Object
  commonPrefixes : List CommonPrefix
deriving DecidableEq

def Page.ofV1 (result : ListObjectsResult) : Page where
  token := result.Marker
  nextToken := result.NextMarker
  contents := result.Contents.getD []
  commonPrefixes := result.CommonPrefixes.getD []

def Page.ofV2 (result : ListObjectsV2Result) : Page where
  token := result.ContinuationToken
  nextToken := result.NextContinuationToken
  contents := result.Contents.getD []
  commonPrefixes := result.CommonPrefixes.getD []

def Page.default : ListObjectsApiVersion → Page
  | .V1 => .ofV1 ListObjectsResult.default
  | .V2 => .ofV2 ListObjectsV2Result.default

def Page.repeatsToken (page : Page) : Bool :=
  page.nextToken.isSome && page.token.isSome && page.token == page.nextToken

-- A process_prefix call: the tokens it asked with and what came back, and what
-- it has handed on, queued and printed.
structure Call where
  path : CommonPrefix
  depth : Nat
  exchanges : List (Option Str × Response)
  handed : List (List Object)
  queued : List (List CommonPrefix)
  lines : List Str

def Call.start (path : CommonPrefix) (depth : Nat) : Call := ⟨path, depth, [], [], [], []⟩

inductive Ending
  | returned
  | threw (what : Str)

-- What the workers and their manager share, with a history of all that went
-- through the queue and to the write stack.
structure Shared where
  metrics : Metrics
  prefixQueue : PrefixQueue
  queueMutex : Bool
  writeStack : List Str
  stderr : List Str
  pushed : List CommonPrefix
  taken : List CommonPrefix
  handed : List Object
  written : List Str
  ended : List (Call × Ending)

end S3Cpp.Tools.ListAllObjects
