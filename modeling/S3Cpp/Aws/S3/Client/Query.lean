import S3Cpp.Aws.Iam.UrlEncode

namespace S3Cpp.Aws.S3.Client

open Iam

structure ListObjectsParameters where
  Bucket : Str
  Marker : Option Str
  Delimiter : Option Str
  EncodingType : Option Str
  MaxKeys : Nat := 1000
  Prefix : Option Str

structure ListObjectsV2Parameters where
  Bucket : Str
  ContinuationToken : Option Str
  Delimiter : Option Str
  EncodingType : Option Str
  FetchOwner : Bool := false
  MaxKeys : Nat := 1000
  Prefix : Option Str
  StartAfter : Option Str

structure ListBucketsParameters where
  BucketRegion : Option Str
  ContinuationToken : Option Str
  MaxBuckets : Nat := 10000
  Prefix : Option Str

def addParam (query param : Str) : Str :=
  (if query.isEmpty then query else query ++ ascii "&") ++ param

def addOption (query : Str) (value : Option Str) (param : Str → Str) : Str :=
  match value with
  | some value => addParam query (param value)
  | none => query

-- The parameters both versions of the request end with. The prefix is taken to
-- be encoded already when the encoding type says "url".
def addCommon (query : Str) (delimiter encodingType path : Option Str) : Str :=
  let query := addOption query delimiter fun value => ascii "delimiter=" ++ urlencodeQuery value
  let query := addOption query encodingType fun value => ascii "encoding-type=" ++ value
  addOption query path fun value =>
    if encodingType.getD [] = ascii "url" then ascii "prefix=" ++ value
    else ascii "prefix=" ++ urlencodeQuery value

def listObjectsPrepareQueryV1 (parameters : ListObjectsParameters) : Str :=
  let query := addParam [] (ascii "max-keys=" ++ decimal parameters.MaxKeys)
  let query := addOption query parameters.Marker fun value => ascii "marker=" ++ urlencodeQuery value
  addCommon query parameters.Delimiter parameters.EncodingType parameters.Prefix

def listObjectsPrepareQueryV2 (parameters : ListObjectsV2Parameters) : Str :=
  let query := addParam [] (ascii "list-type=2")
  let query := addParam query (ascii "max-keys=" ++ decimal parameters.MaxKeys)
  let query := addOption query parameters.ContinuationToken fun value =>
    ascii "continuation-token=" ++ urlencodeQuery value
  let query := if parameters.FetchOwner then addParam query (ascii "fetch-owner=true") else query
  let query := addOption query parameters.StartAfter fun value => ascii "start-after=" ++ value
  addCommon query parameters.Delimiter parameters.EncodingType parameters.Prefix

-- The query Client::list_buckets sends.
def listBucketsQuery (parameters : ListBucketsParameters) : Str :=
  let query := addOption [] parameters.BucketRegion fun value =>
    ascii "bucket-region=" ++ urlencodeQuery value
  let query := addOption query parameters.ContinuationToken fun value =>
    ascii "continuation-token=" ++ urlencodeQuery value
  let query := addParam query (ascii "max-buckets=" ++ decimal parameters.MaxBuckets)
  addOption query parameters.Prefix fun value => ascii "prefix=" ++ urlencodeQuery value

end S3Cpp.Aws.S3.Client
