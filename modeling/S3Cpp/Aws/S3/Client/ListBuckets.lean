import S3Cpp.Aws.S3.Client.ListObjects

namespace S3Cpp.Aws.S3.Client

open Library.Xml

def parseBucket (node : Option Node) : Bucket where
  BucketArn := nonEmpty (Node.valueBelow node (ascii "BucketArn"))
  BucketRegion := nonEmpty (Node.valueBelow node (ascii "BucketRegion"))
  Name := some (Node.valueBelow node (ascii "Name"))

-- Each element named Buckets is asked for its child named Bucket.
def parseListBuckets (document : Node) : Except Nat ListAllMyBucketsResult :=
  match document.child (ascii "ListAllMyBucketsResult") with
  | none => .error statusFileNotFound
  | some node => .ok {
      Buckets :=
        if (node.child (ascii "Buckets")).isSome then
          (node.childrenNamed (ascii "Buckets")).map fun child => parseBucket (child.child (ascii "Bucket"))
        else []
      ContinuationToken := nonEmpty (node.childValue (ascii "ContinuationToken"))
      Prefix := nonEmpty (node.childValue (ascii "Prefix"))
    }

def listBuckets : Response → Outcome ListAllMyBucketsResult :=
  outcome fun document => .ok (parseListBuckets document)

end S3Cpp.Aws.S3.Client
