import S3Cpp.Bytes
import S3Cpp.Library.HttpFields
import S3Cpp.Library.OrderedMap
import S3Cpp.Library.Query

namespace S3Cpp.Aws.Iam

open Library Library.Http

-- The digests, the grammar of request targets and the removal of the chunked
-- coding come from the libraries the code is linked with.
structure Externals where
  sha256 : Str → Str
  hmac : Str → Str → Str
  originForm : Str → Bool
  dropChunked : Str → Str

def hexLower (n : Nat) : UInt8 := if n < 10 then (48 + n).toUInt8 else (87 + n).toUInt8

def hexEncode (digest : Str) : Str :=
  digest.flatMap fun b => [hexLower (b.toNat / 16), hexLower (b.toNat % 16)]

structure ParamPctView where
  key : Str
  value : Str
  hasValue : Bool
deriving DecidableEq

structure Target where
  encodedPath : Str
  encodedParams : List ParamPctView
deriving DecidableEq

abbrev questionMark : UInt8 := 63

def parseParam (piece : Str) : ParamPctView where
  key := (Query.splitFirst piece).1
  value := (Query.splitFirst piece).2
  hasValue := piece.contains Query.equals

def parseOriginForm (ext : Externals) (target : Str) : Option Target :=
  if ext.originForm target then
    some {
      encodedPath := target.takeWhile (· ≠ questionMark)
      encodedParams :=
        match target.dropWhile (· ≠ questionMark) with
        | [] => []
        | _ :: query => (query.splitOn Query.ampersand).map parseParam
    }
  else none

-- An end iterator that is dereferenced is undefined behaviour.
inductive Failure where
  | invalidTarget
  | missingHost
deriving DecidableEq

abbrev newline : Str := ascii "\n"
abbrev hostName : Str := ascii "host"
abbrev contentMd5 : Str := ascii "content-md5"
abbrev contentSha256 : Str := ascii "x-amz-content-sha256"

namespace ParamPctView

def writtenValue (p : ParamPctView) : Str := if p.hasValue then p.value else []

def piece (p : ParamPctView) : Str := p.key ++ Query.equals :: p.writtenValue

end ParamPctView

def paramMap (params : List ParamPctView) : OrderedMap Str ParamPctView :=
  OrderedMap.empty.emplaceAll (params.map fun p => (p.key, p))

def canonicalQueryString (params : List ParamPctView) : Str :=
  let entries := (paramMap params).entries
  let text := entries.flatMap fun entry => entry.2.piece ++ [Query.ampersand]
  if entries.isEmpty then text else text.dropLast

def xAmz (name : Str) : Bool := (ascii "x-amz-").isPrefixOf name

def emplaceHeader (headers : OrderedMap Str Field) (field : Field) : OrderedMap Str Field :=
  let name := lower field.name
  let headers := if xAmz name then headers.emplace name field else headers
  if name = contentMd5 then headers.emplace name field else headers

def headerMap (host : Field) (headers : Fields) : OrderedMap Str Field :=
  headers.foldl emplaceHeader (OrderedMap.empty.emplace hostName host)

-- find_first_not_of and find_last_not_of find nothing in a value of spaces only,
-- which stays as it is.
def stripSpaces (value : Str) : Str :=
  let value := if value.any (· ≠ 32) then value.dropWhile (· = 32) else value
  if value.any (· ≠ 32) then value.rdropWhile (· = 32) else value

def canonicalHeaders (headers : OrderedMap Str Field) : Str :=
  headers.entries.flatMap fun entry =>
    entry.1 ++ ascii ":" ++ stripSpaces entry.2.value ++ newline

def signedHeaders (headers : OrderedMap Str Field) : Str :=
  (headers.entries.flatMap fun entry => entry.1 ++ ascii ";").dropLast

def hashPayload (ext : Externals) (body : Str) (headers : Fields) : Fields :=
  if (Fields.get headers contentSha256).isEmpty then
    Fields.set headers contentSha256 (hexEncode (ext.sha256 body))
  else headers

structure Request where
  method : Str
  target : Str
  headers : Fields
  body : Str
deriving DecidableEq

def canonicalText (method : Str) (target : Target) (headers : OrderedMap Str Field)
    (payloadHash : Str) : Str :=
  method ++ newline ++ target.encodedPath ++ newline ++
    canonicalQueryString target.encodedParams ++ newline ++
    canonicalHeaders headers ++ newline ++ signedHeaders headers ++ newline ++ payloadHash

-- The canonical request, the signed headers and the request with its header
-- fields as they are left.
def canonicalizeRequest (ext : Externals) (request : Request) :
    Except Failure (Str × Str × Request) :=
  match parseOriginForm ext request.target, Fields.find request.headers hostName with
  | none, _ => .error .invalidTarget
  | some _, none => .error .missingHost
  | some target, some host =>
      let headers := headerMap host request.headers
      let hashed := hashPayload ext request.body request.headers
      .ok (canonicalText request.method target headers (Fields.get hashed contentSha256),
        signedHeaders headers, { request with headers := hashed })

end S3Cpp.Aws.Iam
