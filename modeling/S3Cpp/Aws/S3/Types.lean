import S3Cpp.Bytes
import S3Cpp.Library.Xml

namespace S3Cpp.Aws.S3

open Library.Xml

inductive ChecksumAlgorithm
  | CRC32
  | CRC32C
  | SHA1
  | SHA256
  | CRC64NVME
deriving DecidableEq

inductive ChecksumType
  | COMPOSITE
  | FULL_OBJECT
deriving DecidableEq

-- boost::describe::enum_from_string
def ChecksumAlgorithm.fromString (text : Str) : Option ChecksumAlgorithm :=
  if text = ascii "CRC32" then some CRC32
  else if text = ascii "CRC32C" then some CRC32C
  else if text = ascii "SHA1" then some SHA1
  else if text = ascii "SHA256" then some SHA256
  else if text = ascii "CRC64NVME" then some CRC64NVME
  else none

def ChecksumType.fromString (text : Str) : Option ChecksumType :=
  if text = ascii "COMPOSITE" then some COMPOSITE
  else if text = ascii "FULL_OBJECT" then some FULL_OBJECT
  else none

-- boost::describe::enum_to_string
def ChecksumAlgorithm.toString : ChecksumAlgorithm → Str
  | .CRC32 => ascii "CRC32"
  | .CRC32C => ascii "CRC32C"
  | .SHA1 => ascii "SHA1"
  | .SHA256 => ascii "SHA256"
  | .CRC64NVME => ascii "CRC64NVME"

def ChecksumType.toString : ChecksumType → Str
  | .COMPOSITE => ascii "COMPOSITE"
  | .FULL_OBJECT => ascii "FULL_OBJECT"

structure Object where
  ChecksumAlgorithm_ : Option ChecksumAlgorithm
  ChecksumType_ : Option ChecksumType
  ETag : Option Str
  Key : Option Str
  Size : Option Nat
deriving DecidableEq

structure CommonPrefix where
  Prefix : Option Str
deriving DecidableEq

structure ListObjectsResult where
  CommonPrefixes : Option (List CommonPrefix)
  Contents : Option (List Object)
  Delimiter : Option Str
  IsTruncated : Bool
  Marker : Option Str
  NextMarker : Option Str
  Prefix : Str
deriving DecidableEq

structure ListObjectsV2Result where
  CommonPrefixes : Option (List CommonPrefix)
  Contents : Option (List Object)
  ContinuationToken : Option Str
  Delimiter : Option Str
  IsTruncated : Bool
  NextContinuationToken : Option Str
  Prefix : Str
deriving DecidableEq

def ListObjectsResult.default : ListObjectsResult := ⟨none, none, none, false, none, none, []⟩

def ListObjectsV2Result.default : ListObjectsV2Result := ⟨none, none, none, none, false, none, []⟩

structure Bucket where
  BucketArn : Option Str
  BucketRegion : Option Str
  Name : Option Str
deriving DecidableEq

structure ListAllMyBucketsResult where
  Buckets : List Bucket
  ContinuationToken : Option Str
  Prefix : Option Str
deriving DecidableEq

def digit (b : UInt8) : Bool := 48 ≤ b && b ≤ 57

def numeral (digits : Str) : Nat := digits.foldl (fun n b => 10 * n + (b.toNat - 48)) 0

-- std::from_chars reads the leading digits and leaves the rest alone. No digit
-- at all and a value out of range are its errors.
def fromChars (text : Str) : Option Nat :=
  let digits := text.takeWhile digit
  if digits = [] then none
  else if numeral digits < 2 ^ 64 then some (numeral digits)
  else none

-- The texts of the exceptions the constructor throws are its errors.
def parseEnum {α : Type} (fromString : Str → Option α) (what : String) (text : Str) :
    Except Str (Option α) :=
  if text = [] then .ok none
  else match fromString text with
    | some chk => .ok (some chk)
    | none => .error (ascii what ++ text)

def parseSize (text : Str) : Except Str Nat :=
  match fromChars text with
  | some size => .ok size
  | none => .error (ascii "failed to parse object size")

def Object.parse (xml : Node) : Except Str Object := do
  let checksumAlgorithm ← parseEnum ChecksumAlgorithm.fromString "unknown checksum algorithm "
    (xml.childValue (ascii "ChecksumAlgorithm"))
  let checksumType ← parseEnum ChecksumType.fromString "unknown checksum type "
    (xml.childValue (ascii "ChecksumType"))
  let size ← parseSize (xml.childValue (ascii "Size"))
  return {
    ChecksumAlgorithm_ := checksumAlgorithm
    ChecksumType_ := checksumType
    ETag := some (xml.childValue (ascii "ETag"))
    Key := some (xml.childValue (ascii "Key"))
    Size := some size
  }

end S3Cpp.Aws.S3
