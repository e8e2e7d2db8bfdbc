import S3Cpp.Aws.S3.Client.ListObjects.Rendering
import S3Cpp.Aws.S3.Client.Requests.Theorems
import S3Cpp.Tools.ListAllObjects.Server

namespace S3Cpp.Tools.ListAllObjects

open Aws.S3 Aws.S3.Client Aws.Iam Library Library.Http Library.Xml

-- The request of an attempt in list_one_impl.
def listOneRequest (ext : Externals) (session : Session) (now : UtcTime) (config : Config) (bucket : Str)
    (path : CommonPrefix) (token : Option Str) : Except Failure Request :=
  match config.apiVersion with
  | .V1 =>
      listObjectsRequest ext session now [] {
        Bucket := bucket
        Marker := token
        Delimiter := some (ascii "/")
        EncodingType := none
        Prefix := path.Prefix
      }
  | .V2 =>
      listObjectsV2Request ext session now [] {
        Bucket := bucket
        ContinuationToken := token
        Delimiter := some (ascii "/")
        EncodingType := none
        Prefix := path.Prefix
        StartAfter := none
      }

-- The names that a version of the API has for the token of a request and for
-- those of a response.
def tokenParameter : ListObjectsApiVersion → Str
  | .V1 => ascii "marker"
  | .V2 => ascii "continuation-token"

def tokenNames : ListObjectsApiVersion → TokenNames
  | .V1 => namesV1
  | .V2 => namesV2

section Documents

variable (page : ListingPage)

def contentsGroup : Group where
  name := ascii "Contents"
  nodes := page.objects.map ListedObject.render
  named node hnode := by
    obtain ⟨listed, -, rfl⟩ := List.mem_map.mp hnode
    rfl

def commonPrefixesGroup : Group where
  name := ascii "CommonPrefixes"
  nodes := page.prefixes.map renderPrefix
  named node hnode := by
    obtain ⟨text, -, rfl⟩ := List.mem_map.mp hnode
    rfl

def listingNode (names : TokenNames) : Node :=
  .element (ascii "ListBucketResult")
    ((contentsGroup page :: commonPrefixesGroup page :: page.textGroups names).flatMap Group.nodes)

def listingDocument (version : ListObjectsApiVersion) : Node := .element [] [listingNode page (tokenNames version)]

-- What the crawl makes of a page.
def Page.ofListing : Page := .ofV2 page.resultV2

theorem listingNode_renders (names : TokenNames) : page.Renders names (listingNode page names) := by
  refine .intro (contentsGroup page) (commonPrefixesGroup page) rfl rfl ?_ ?_ (arranged_flatMap _)
  · exact List.forall₂_map_right_iff.mpr (List.forall₂_same.mpr fun listed _ => listed.renders)
  · exact List.forall₂_map_right_iff.mpr (List.forall₂_same.mpr fun text _ => renderPrefix_renders text)

theorem request_listingDocument (version : ListObjectsApiVersion) :
    request version (.received (.document (listingDocument page version))) = .value (.ofListing page) := by
  cases version with
  | V1 =>
      have hfound := (listingNode_renders page namesV1).found (by decide)
      have hroot : (listingDocument page .V1).child (ascii "ListBucketResult") =
          some (listingNode page namesV1) := rfl
      have htruncation : parseTruncation (listingNode page namesV1) "NextMarker" = _ := hfound.truncation
      have hparse : parseListObjectsV1 (listingDocument page .V1) = .ok (.ok page.resultV1) := by
        have htoken : nonEmpty ((listingNode page namesV1).childValue (ascii "Marker")) = _ := hfound.token
        simp only [parseListObjectsV1, hroot, hfound.contents, hfound.commonPrefixes, htruncation,
          hfound.delimiter, htoken, hfound.Prefix]
        rfl
      simp only [request, listObjects, outcome, hparse]
      rfl
  | V2 =>
      have hfound := (listingNode_renders page namesV2).found (by decide)
      have hroot : (listingDocument page .V2).child (ascii "ListBucketResult") =
          some (listingNode page namesV2) := rfl
      have htruncation : parseTruncation (listingNode page namesV2) "NextContinuationToken" = _ :=
        hfound.truncation
      have hparse : parseListObjectsV2 (listingDocument page .V2) = .ok (.ok page.resultV2) := by
        have htoken : nonEmpty ((listingNode page namesV2).childValue (ascii "ContinuationToken")) = _ :=
          hfound.token
        simp only [parseListObjectsV2, hroot, hfound.contents, hfound.commonPrefixes, htruncation,
          hfound.delimiter, htoken, hfound.Prefix]
        rfl
      simp only [request, listObjectsV2, outcome, hparse]
      rfl

-- A readable page comes through the parser as it is, but for what nothing reads.
theorem parsed_listingDocument {page : ListingPage} (h : page.Readable) (version : ListObjectsApiVersion) :
    (listingDocument page version).parsed = listingDocument page.parsed version := by
  have hcontents : Node.parsedAll (contentsGroup page).nodes = (contentsGroup page).nodes := by
    refine Node.parsedAll_of_kept fun node hnode => ?_
    obtain ⟨listed, hlisted, rfl⟩ := List.mem_map.mp hnode
    exact ⟨rfl, ListedObject.parsed_render (h.objects listed hlisted).1 (h.objects listed hlisted).2⟩
  have hprefixes : Node.parsedAll (commonPrefixesGroup page).nodes = (commonPrefixesGroup page).nodes := by
    refine Node.parsedAll_of_kept fun node hnode => ?_
    obtain ⟨text, htext, rfl⟩ := List.mem_map.mp hnode
    exact ⟨rfl, parsed_renderPrefix (h.prefixes text htext)⟩
  have hlisting : (listingNode page (tokenNames version)).parsed = listingNode page.parsed (tokenNames version) := by
    rw [listingNode, Node.parsed, List.flatMap_cons, List.flatMap_cons, Node.parsedAll_append,
      Node.parsedAll_append, hcontents, hprefixes, h.parsed_textGroups]
    rfl
  have hdocument : (listingDocument page version).parsed =
      .element [] [(listingNode page (tokenNames version)).parsed] := rfl
  rw [hdocument, hlisting]
  rfl

theorem request_parsed {page : ListingPage} (h : page.Readable) (version : ListObjectsApiVersion) :
    request version (Response.parsed (.received (.document (listingDocument page version)))) =
      .value (.ofListing page) := by
  rw [Response.parsed, parsed_listingDocument h, request_listingDocument]
  rfl

end Documents

-- A listing service as it stands at the other end of a connection: it has the
-- keys of its clients, one bucket, and answers in pages of its own making.
structure Service where
  bucket : Str
  keys : List Str
  nodup : keys.Nodup
  page : Str → Option Str → ListingPage
  faithful : ∀ p, ∃ pages, Chain (fun token => .ofListing (page p token)) none pages ∧ Listing keys p pages

namespace Service

-- No text of its pages is white space only, which the parser of a client drops.
def Readable (service : Service) : Prop := ∀ p token, (service.page p token).Readable

variable (service : Service) (ext : Externals) (session : Session)

def server : Server where
  keys := service.keys
  nodup := service.nodup
  answer p token := .ofListing (service.page p token)
  faithful := service.faithful

-- A request for a listing of the bucket by directories, with the right signature.
def accepts (request : Request) : Bool :=
  (recomputeAuthorization ext session request).toOption = some (Fields.get request.headers authorizationName) &&
    request.method = ascii "GET" && (Target.read request.target).path = ascii "/" ++ service.bucket &&
    (Target.read request.target).get (ascii "delimiter") = some (ascii "/")

def versionOf (request : Request) : ListObjectsApiVersion :=
  if (Target.read request.target).get (ascii "list-type") = some (ascii "2") then .V2 else .V1

def errorDocument : Node := .element [] [.element (ascii "Error") []]

-- Its answer with the tree that the text of the document stands for. What a client
-- has of it after parsing is its `parsed`.
def respond (request : Request) : Response :=
  let version := versionOf request
  let reading := Target.read request.target
  if service.accepts ext session request then
    let page := service.page ((reading.get (ascii "prefix")).getD []) (reading.get (tokenParameter version))
    .received (.document (listingDocument page version))
  else .received (.document errorDocument)

end Service

section Listing

variable {ext : Externals} {session : Session} (hsha : ∀ message, ext.sha256 message ≠ [])
  (hgrammar : ∀ target, Target.originForm target → ext.originForm target)

-- The parameters of an attempt.
def listOnePairs (version : ListObjectsApiVersion) (path token : Option Str) : List (Str × Str) :=
  (match version with
    | .V1 => []
    | .V2 => [(ascii "list-type", ascii "2")]) ++
    (ascii "max-keys", decimal 1000) :: (token.map (tokenParameter version, ·)).toList ++
    (ascii "delimiter", ascii "/") :: (path.map (ascii "prefix", ·)).toList

include hsha hgrammar

theorem listOneRequest_understood (now : UtcTime) (config : Config) (bucket : Str) (path : CommonPrefix)
    (token : Option Str) :
    ∃ sent, listOneRequest ext session now config bucket path token = .ok sent ∧
      Understood ext session (ascii "/" ++ bucket) (listOnePairs config.apiVersion path.Prefix token) sent := by
  have hcommon : CommonVerbatim none path.Prefix := ⟨by simp, by simp⟩
  unfold listOneRequest
  cases config.apiVersion with
  | V1 =>
      have hsent := @listObjectsRequest_understood ext session now hsha hgrammar []
        ⟨bucket, token, some (ascii "/"), none, 1000, path.Prefix⟩ hcommon
      have hpairs : listOnePairs .V1 path.Prefix token = ListObjectsParameters.pairs
          ⟨bucket, token, some (ascii "/"), none, 1000, path.Prefix⟩ := by
        cases token <;> cases path.Prefix <;> rfl
      rwa [hpairs]
  | V2 =>
      have hsent := @listObjectsV2Request_understood ext session now hsha hgrammar []
        ⟨bucket, token, some (ascii "/"), none, false, 1000, path.Prefix, none⟩ (by simp) hcommon
      have hpairs : listOnePairs .V2 path.Prefix token = ListObjectsV2Parameters.pairs
          ⟨bucket, token, some (ascii "/"), none, false, 1000, path.Prefix, none⟩ := by
        cases token <;> cases path.Prefix <;> rfl
      rwa [hpairs]

theorem understood_of_listOneRequest {now : UtcTime} {config : Config} {bucket : Str} {path : CommonPrefix}
    {token : Option Str} {sent : Request} (hsent : listOneRequest ext session now config bucket path token = .ok sent) :
    Understood ext session (ascii "/" ++ bucket) (listOnePairs config.apiVersion path.Prefix token) sent := by
  obtain ⟨other, hother, hunderstood⟩ := listOneRequest_understood hsha hgrammar now config bucket path token
  obtain rfl := Except.ok.inj (hsent.symm.trans hother)
  exact hunderstood

end Listing

section Answers

variable {ext : Externals} {session : Session} {version : ListObjectsApiVersion} {path token : Option Str}
  {sent : Request}

-- The receiver finds each parameter of an attempt under its name.
theorem get_of_understood {place : Str} (h : Understood ext session place (listOnePairs version path token) sent) :
    (Target.read sent.target).get (ascii "delimiter") = some (ascii "/") ∧
      (Target.read sent.target).get (ascii "prefix") = path ∧
      (Target.read sent.target).get (tokenParameter version) = token ∧ Service.versionOf sent = version := by
  have hget := Target.Reading.get_of_perm h.parameters h.distinct
  rw [Service.versionOf, hget, hget, hget, hget]
  cases version <;> cases path <;> cases token <;> refine ⟨rfl, rfl, rfl, rfl⟩

theorem respond_of_understood (service : Service)
    (h : Understood ext session (ascii "/" ++ service.bucket) (listOnePairs version path token) sent) :
    service.respond ext session sent =
      .received (.document (listingDocument (service.page (path.getD []) token) version)) := by
  obtain ⟨hdelimiter, hprefix, htoken, hversion⟩ := get_of_understood h
  have haccepts : service.accepts ext session sent = true := by
    rw [Service.accepts, h.signed, h.method, h.path, hdelimiter]
    simp [Except.toOption]
  rw [Service.respond, if_pos haccepts, hversion, hprefix, htoken]

-- Through the parser the crawl gets the page that the service means.
theorem request_respond {service : Service} (hreadable : (service.page (path.getD []) token).Readable)
    (h : Understood ext session (ascii "/" ++ service.bucket) (listOnePairs version path token) sent) :
    request version (service.respond ext session sent).parsed =
      .value (.ofListing (service.page (path.getD []) token)) := by
  rw [respond_of_understood service h, request_parsed hreadable]

end Answers

end S3Cpp.Tools.ListAllObjects
