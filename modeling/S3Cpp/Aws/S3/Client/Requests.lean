import S3Cpp.Aws.S3.Client.Query
import S3Cpp.Aws.S3.Session

namespace S3Cpp.Aws.S3.Client

open Library.Http Iam

-- The requests that the calls of a client send.
section Requests

variable (ext : Externals) (session : Session) (now : UtcTime) (headers : Fields)

def listObjectsRequest (parameters : ListObjectsParameters) : Except Failure Request :=
  Session.get ext session now (ascii "/" ++ parameters.Bucket) (listObjectsPrepareQueryV1 parameters)
    headers false

def listObjectsV2Request (parameters : ListObjectsV2Parameters) : Except Failure Request :=
  Session.get ext session now (ascii "/" ++ parameters.Bucket) (listObjectsPrepareQueryV2 parameters)
    headers false

def listBucketsRequest (parameters : ListBucketsParameters) : Except Failure Request :=
  Session.get ext session now (ascii "/") (listBucketsQuery parameters) headers true

end Requests

end S3Cpp.Aws.S3.Client
