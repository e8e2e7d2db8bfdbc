import S3Cpp.Aws.Iam.SignRequest

namespace S3Cpp.Aws.S3

open Library.Http Iam

-- The endpoint is given as its host and port.
structure Session where
  accessKey : Str
  secretAccessKey : Str
  region : Str
  endpoint : Str

abbrev amzDate : Str := ascii "x-amz-date"
abbrev authorizationName : Str := ascii "Authorization"

def contentLength (ext : Externals) (headers : Fields) (size : Nat) : Fields :=
  let headers := Fields.set headers (ascii "Content-Length") (decimal size)
  match Fields.find headers (ascii "Transfer-Encoding") with
  | none => headers
  | some field =>
      let codings := ext.dropChunked field.value
      if codings.isEmpty then Fields.erase headers (ascii "Transfer-Encoding")
      else Fields.set headers (ascii "Transfer-Encoding") codings

-- The request as it is when its signature is computed.
def stampRequest (ext : Externals) (request : Request) (session : Session) (timestamp : Str) : Request :=
  let headers := Fields.set request.headers (ascii "Host") session.endpoint
  let headers := hashPayload ext request.body headers
  let headers := contentLength ext headers request.body.length
  let headers := Fields.set headers amzDate timestamp
  { request with headers := Fields.set headers (ascii "Accept-Encoding") (ascii "identity") }

def signingScope (session : Session) (timestamp : Str) : Scope where
  timestamp := timestamp.take 8
  region := session.region
  service := ascii "s3"

def prepareRequest (ext : Externals) (request : Request) (session : Session) (now : UtcTime) :
    Except Failure Request := do
  let timestamp := formatTimestamp now
  let (canonical, signedHeaders, request) ←
    canonicalizeRequest ext (stampRequest ext request session timestamp)
  let sign := signRequest ext session.accessKey session.secretAccessKey canonical signedHeaders
    timestamp (signingScope session timestamp)
  return { request with headers := Fields.set request.headers authorizationName sign }

end S3Cpp.Aws.S3
