import S3Cpp.Aws.S3.Types

namespace S3Cpp.Aws.S3.Client

open Library.Xml

-- What the XML parser makes of a response body.
inductive Body
  | unparsable (status : Nat)
  | document (document : Node)

inductive Response
  | failed (error : Str)
  | received (body : Body)

deriving instance DecidableEq for Body, Response

inductive ListError
  | transport (what : Str)
  | parse (status : Nat)
deriving DecidableEq

-- A std::expected, unless an exception leaves the call.
inductive Outcome (α : Type)
  | value (result : α)
  | unexpected (error : ListError)
  | exception (what : Str)

def statusFileNotFound : Nat := 1

def nonEmpty (text : Str) : Option Str := if text = [] then none else some text

def parseCommonPrefixes (node : Node) : Option (List CommonPrefix) :=
  if (node.child (ascii "CommonPrefixes")).isSome then
    some ((node.childrenNamed (ascii "CommonPrefixes")).map fun child =>
      ⟨some (child.childValue (ascii "Prefix"))⟩)
  else none

def parseContents (node : Node) : Except Str (Option (List Object)) :=
  if (node.child (ascii "Contents")).isSome then
    some <$> (node.childrenNamed (ascii "Contents")).mapM Object.parse
  else .ok none

-- IsTruncated and the token under `tokenName` that has to come with it.
def parseTruncation (node : Node) (tokenName : String) : Except Str (Bool × Option Str) :=
  let isTruncated := node.childValue (ascii "IsTruncated")
  if isTruncated = ascii "true" then
    let token := node.childValue (ascii tokenName)
    if token = [] then .error (ascii ("missing " ++ tokenName)) else .ok (true, some token)
  else if isTruncated = ascii "false" then .ok (false, none)
  else .error (ascii "unknown IsTruncated value " ++ isTruncated)

def parseListObjectsV1 (document : Node) : Except Str (Except Nat ListObjectsResult) :=
  match document.child (ascii "ListBucketResult") with
  | none => .ok (.error statusFileNotFound)
  | some node => do
      let contents ← parseContents node
      let (isTruncated, nextMarker) ← parseTruncation node "NextMarker"
      return .ok {
        CommonPrefixes := parseCommonPrefixes node
        Contents := contents
        Delimiter := nonEmpty (node.childValue (ascii "Delimiter"))
        IsTruncated := isTruncated
        Marker := nonEmpty (node.childValue (ascii "Marker"))
        NextMarker := nextMarker
        Prefix := node.childValue (ascii "Prefix")
      }

def parseListObjectsV2 (document : Node) : Except Str (Except Nat ListObjectsV2Result) :=
  match document.child (ascii "ListBucketResult") with
  | none => .ok (.error statusFileNotFound)
  | some node => do
      let contents ← parseContents node
      let (isTruncated, nextContinuationToken) ← parseTruncation node "NextContinuationToken"
      return .ok {
        CommonPrefixes := parseCommonPrefixes node
        Contents := contents
        ContinuationToken := nonEmpty (node.childValue (ascii "ContinuationToken"))
        Delimiter := nonEmpty (node.childValue (ascii "Delimiter"))
        IsTruncated := isTruncated
        NextContinuationToken := nextContinuationToken
        Prefix := node.childValue (ascii "Prefix")
      }

-- The two calls differ in the parser only.
def outcome {α : Type} (parse : Node → Except Str (Except Nat α)) : Response → Outcome α
  | .failed error => .unexpected (.transport error)
  | .received (.unparsable status) => .unexpected (.parse status)
  | .received (.document document) =>
      match parse document with
      | .ok (.ok result) => .value result
      | .ok (.error status) => .unexpected (.parse status)
      | .error what => .exception what

def listObjects : Response → Outcome ListObjectsResult := outcome parseListObjectsV1

def listObjectsV2 : Response → Outcome ListObjectsV2Result := outcome parseListObjectsV2

end S3Cpp.Aws.S3.Client
