import S3Cpp.Aws.Iam.UrlEncode
import S3Cpp.Aws.S3.PrepareRequest

namespace S3Cpp.Aws.S3

open Library.Http Iam

namespace Session

-- The target method_impl gives to its request. A path is encoded unless the
-- caller has done it or the predicate says there is no need.
def encodedTarget (path : Str) (isPathEncoded : Bool) (query : Str) : Str :=
  let encodedPath := if !isPathEncoded && urlencodePathRequired path then urlencodePath path else path
  if query.isEmpty then encodedPath else encodedPath ++ ascii "?" ++ query

-- The request method_impl sends.
def methodImpl (ext : Externals) (session : Session) (now : UtcTime) (method path : Str)
    (isPathEncoded : Bool) (query : Str) (headers : Fields) (body : Str) : Except Failure Request :=
  prepareRequest ext ⟨method, encodedTarget path isPathEncoded query, headers, body⟩ session now

def put (ext : Externals) (session : Session) (now : UtcTime) (path data : Str) (headers : Fields)
    (isEncoded : Bool) : Except Failure Request :=
  methodImpl ext session now (ascii "PUT") path isEncoded [] headers data

def get (ext : Externals) (session : Session) (now : UtcTime) (path query : Str) (headers : Fields)
    (isPathEncoded : Bool) : Except Failure Request :=
  methodImpl ext session now (ascii "GET") path isPathEncoded query headers []

end Session

end S3Cpp.Aws.S3
