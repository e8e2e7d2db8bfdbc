import S3Cpp.Aws.Iam.Canonicalize

namespace S3Cpp.Aws.Iam

structure Scope where
  timestamp : Str
  region : Str
  service : Str

namespace Scope

def footer : Str := ascii "aws4_request"

def format (scope : Scope) : Str :=
  scope.timestamp ++ ascii "/" ++ scope.region ++ ascii "/" ++ scope.service ++ ascii "/" ++ footer

end Scope

-- A point in time as the calendar shows it.
structure UtcTime where
  year : Nat
  month : Nat
  day : Nat
  hour : Nat
  minute : Nat
  second : Nat

def padded (width n : Nat) : Str :=
  List.replicate (width - (decimal n).length) 48 ++ decimal n

def formatTimestamp (time : UtcTime) : Str :=
  padded 4 time.year ++ padded 2 time.month ++ padded 2 time.day ++ ascii "T" ++
    padded 2 time.hour ++ padded 2 time.minute ++ padded 2 time.second ++ ascii "Z"

example : formatTimestamp ⟨2012, 5, 25, 0, 24, 53⟩ = ascii "20120525T002453Z" := by decide

def stringToSign (ext : Externals) (canonicalRequest : Str) (scope : Scope) (timestamp : Str) : Str :=
  ascii "AWS4-HMAC-SHA256\n" ++ timestamp ++ newline ++ scope.format ++ newline ++
    hexEncode (ext.sha256 canonicalRequest)

def getSigningKey (ext : Externals) (secretAccessKey : Str) (scope : Scope) : Str :=
  let dateKey := ext.hmac (ascii "AWS4" ++ secretAccessKey) scope.timestamp
  let dateRegionKey := ext.hmac dateKey scope.region
  let dateRegionServiceKey := ext.hmac dateRegionKey scope.service
  ext.hmac dateRegionServiceKey Scope.footer

def signature (ext : Externals) (secretAccessKey canonicalRequest timestamp : Str) (scope : Scope) : Str :=
  hexEncode (ext.hmac (getSigningKey ext secretAccessKey scope)
    (stringToSign ext canonicalRequest scope timestamp))

def authorization (accessKey signedHeaders signature : Str) (scope : Scope) : Str :=
  ascii "AWS4-HMAC-SHA256 Credential=" ++ accessKey ++ ascii "/" ++ scope.format ++
    ascii ",SignedHeaders=" ++ signedHeaders ++ ascii ",Signature=" ++ signature

def signRequest (ext : Externals) (accessKey secretAccessKey canonicalRequest signedHeaders timestamp : Str)
    (scope : Scope) : Str :=
  authorization accessKey signedHeaders
    (signature ext secretAccessKey canonicalRequest timestamp scope) scope

end S3Cpp.Aws.Iam
