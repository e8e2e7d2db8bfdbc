import S3Cpp.Bytes
import S3Cpp.Library.Percent

namespace S3Cpp.Aws.Iam

open Library

def charset (b : UInt8) : Bool :=
  (ascii ("ABCDEFGHIJKLMNOPQRSTUVWXYZ" ++ "abcdefghijklmnopqrstuvwxyz" ++ "1234567890" ++ "-._~")).contains b

def pathCharset (b : UInt8) : Bool := charset b || (ascii "/").contains b

def queryCharset : UInt8 → Bool := charset

-- boost::urls::grammar::find_if gives the first byte inside the set, so these
-- predicates ask whether any byte is in the set.
def encodingRequired (set : UInt8 → Bool) (input : Str) : Bool := (input.find? set).isSome

def urlencode (input : Str) : Str := Percent.encode charset input
def urlencodeRequired (input : Str) : Bool := encodingRequired charset input

def urlencodePath (input : Str) : Str := Percent.encode pathCharset input
def urlencodePathRequired (input : Str) : Bool := encodingRequired pathCharset input

def urlencodeQuery (input : Str) : Str := Percent.encode queryCharset input
def urlencodeQueryRequired (input : Str) : Bool := encodingRequired queryCharset input

end S3Cpp.Aws.Iam
