import Mathlib.Data.List.Forall2
import S3Cpp.Aws.S3.Client.ListObjects
import S3Cpp.Aws.S3.Types.Theorems

namespace S3Cpp.Aws.S3.Client

open Library.Xml

-- A page of a listing as a server means it, whatever version of the API it is for.
abbrev NonEmptyStr := { text : Str // text ≠ [] }

structure ListedObject where
  key : Str
  eTag : Str
  size : Nat
  fits : size < 2 ^ 64

-- A page is truncated when there is a token to go on with.
structure ListingPage where
  objects : List ListedObject
  prefixes : List Str
  delimiter : Option NonEmptyStr
  token : Option NonEmptyStr
  nextToken : Option NonEmptyStr
  Prefix : Option Str

namespace ListedObject

variable (listed : ListedObject)

def object : Object := ⟨none, none, some listed.eTag, some listed.key, some listed.size⟩

def groups : List Group :=
  [textGroup (ascii "ChecksumAlgorithm") none, textGroup (ascii "ChecksumType") none,
    textGroup (ascii "ETag") (some listed.eTag), textGroup (ascii "Key") (some listed.key),
    textGroup (ascii "Size") (some (decimal listed.size))]

end ListedObject

def RendersObject (listed : ListedObject) (xml : Node) : Prop := Arranged listed.groups xml.children

def RendersPrefix (text : Str) (xml : Node) : Prop :=
  Arranged [textGroup (ascii "Prefix") (some text)] xml.children

-- How the two versions of the API name the tokens.
structure TokenNames where
  token : String
  nextToken : String

def namesV1 : TokenNames := ⟨"Marker", "NextMarker"⟩

def namesV2 : TokenNames := ⟨"ContinuationToken", "NextContinuationToken"⟩

namespace ListingPage

variable (page : ListingPage)

def isTruncated : Str := if page.nextToken.isSome then ascii "true" else ascii "false"

def textGroups (names : TokenNames) : List Group :=
  [textGroup (ascii "Delimiter") (page.delimiter.map (·.val)),
    textGroup (ascii names.token) (page.token.map (·.val)),
    textGroup (ascii "IsTruncated") (some page.isTruncated),
    textGroup (ascii names.nextToken) (page.nextToken.map (·.val)),
    textGroup (ascii "Prefix") page.Prefix]

-- Any of the documents that say what the page says. Elements that the parser
-- does not read may stand anywhere.
inductive Renders (names : TokenNames) (node : Node) : Prop
  | intro (contents commonPrefixes : Group) (hcontents : contents.name = ascii "Contents")
      (hprefixes : commonPrefixes.name = ascii "CommonPrefixes")
      (hobjects : List.Forall₂ RendersObject page.objects contents.nodes)
      (hpaths : List.Forall₂ RendersPrefix page.prefixes commonPrefixes.nodes)
      (harranged : Arranged (contents :: commonPrefixes :: page.textGroups names) node.children)

def contents : Option (List Object) :=
  if page.objects = [] then none else some (page.objects.map ListedObject.object)

def commonPrefixes : Option (List CommonPrefix) :=
  if page.prefixes = [] then none else some (page.prefixes.map fun text => ⟨some text⟩)

def resultV1 : ListObjectsResult where
  CommonPrefixes := page.commonPrefixes
  Contents := page.contents
  Delimiter := page.delimiter.map (·.val)
  IsTruncated := page.nextToken.isSome
  Marker := page.token.map (·.val)
  NextMarker := page.nextToken.map (·.val)
  Prefix := page.Prefix.getD []

def resultV2 : ListObjectsV2Result where
  CommonPrefixes := page.commonPrefixes
  Contents := page.contents
  ContinuationToken := page.token.map (·.val)
  Delimiter := page.delimiter.map (·.val)
  IsTruncated := page.nextToken.isSome
  NextContinuationToken := page.nextToken.map (·.val)
  Prefix := page.Prefix.getD []

end ListingPage

section Parts

theorem parse_rendersObject {listed : ListedObject} {xml : Node} (h : RendersObject listed xml) :
    Object.parse xml = .ok listed.object := by
  have hnames : (listed.groups.map Group.name).Nodup := by
    show [ascii "ChecksumAlgorithm", ascii "ChecksumType", ascii "ETag", ascii "Key", ascii "Size"].Nodup
    decide
  have htext {name : String} {text : Option Str} (hgroup : textGroup (ascii name) text ∈ listed.groups) :
      xml.childValue (ascii name) = text.getD [] := h.childValue hnames hgroup
  rw [Object.parse_eq_ok_iff, @htext "ChecksumAlgorithm" none (by simp [ListedObject.groups]),
    @htext "ChecksumType" none (by simp [ListedObject.groups]),
    @htext "ETag" (some listed.eTag) (by simp [ListedObject.groups]),
    @htext "Key" (some listed.key) (by simp [ListedObject.groups]),
    @htext "Size" (some (decimal listed.size)) (by simp [ListedObject.groups])]
  exact ⟨none, none, listed.size, rfl, rfl, fromChars_decimal listed.fits, rfl⟩

theorem mapM_rendersObject {objects : List ListedObject} {nodes : List Node}
    (h : List.Forall₂ RendersObject objects nodes) :
    nodes.mapM Object.parse = .ok (objects.map ListedObject.object) := by
  induction h with
  | nil => rfl
  | cons hobject hrest ih =>
      rw [List.mapM_cons, parse_rendersObject hobject, ih]
      rfl

theorem map_rendersPrefix {prefixes : List Str} {nodes : List Node}
    (h : List.Forall₂ RendersPrefix prefixes nodes) :
    nodes.map (fun child => child.childValue (ascii "Prefix")) = prefixes := by
  induction h with
  | nil => rfl
  | cons hprefix hrest ih =>
      rw [List.map_cons, ih, hprefix.childValue (by simp) List.mem_cons_self]
      rfl

-- A page has an element of a list exactly when the list is not empty.
theorem head?_isSome_iff {α : Type} {R : α → Node → Prop} {l : List α} {nodes : List Node}
    (h : List.Forall₂ R l nodes) : nodes.head?.isSome = true ↔ l ≠ [] := by
  cases h <;> simp

theorem nonEmpty_val (text : Option NonEmptyStr) :
    nonEmpty ((text.map (·.val)).getD []) = text.map (·.val) := by
  cases text with
  | none => rfl
  | some text => exact if_neg text.property

end Parts

namespace ListingPage

variable {page : ListingPage} {node : Node} {group : Group}

theorem parseContents_eq (hname : group.name = ascii "Contents")
    (hobjects : List.Forall₂ RendersObject page.objects group.nodes)
    (hnodes : node.childrenNamed group.name = group.nodes) :
    parseContents node = .ok page.contents := by
  have hsome := head?_isSome_iff hobjects
  rw [parseContents, Node.child_eq_head?, ← hname, hnodes, mapM_rendersObject hobjects, contents]
  by_cases hempty : page.objects = []
  · rw [if_neg fun h => hsome.mp h hempty, if_pos hempty]
  · rw [if_pos (hsome.mpr hempty), if_neg hempty]
    rfl

theorem parseCommonPrefixes_eq (hname : group.name = ascii "CommonPrefixes")
    (hpaths : List.Forall₂ RendersPrefix page.prefixes group.nodes)
    (hnodes : node.childrenNamed group.name = group.nodes) :
    parseCommonPrefixes node = page.commonPrefixes := by
  have hmap : (group.nodes.map fun child => (⟨some (child.childValue (ascii "Prefix"))⟩ : CommonPrefix)) =
      page.prefixes.map fun text => ⟨some text⟩ := by
    rw [← map_rendersPrefix hpaths, List.map_map]
    rfl
  have hsome := head?_isSome_iff hpaths
  rw [parseCommonPrefixes, Node.child_eq_head?, ← hname, hnodes, hmap, commonPrefixes]
  by_cases hempty : page.prefixes = []
  · rw [if_neg fun h => hsome.mp h hempty, if_pos hempty]
  · rw [if_pos (hsome.mpr hempty), if_neg hempty]

theorem parseTruncation_eq {nextToken : String}
    (hisTruncated : node.childValue (ascii "IsTruncated") = page.isTruncated)
    (htoken : node.childValue (ascii nextToken) = (page.nextToken.map (·.val)).getD []) :
    parseTruncation node nextToken = .ok (page.nextToken.isSome, page.nextToken.map (·.val)) := by
  rw [parseTruncation, hisTruncated, htoken, isTruncated]
  cases page.nextToken with
  | none =>
      have hne : ascii "false" ≠ ascii "true" := by decide
      simp [hne]
  | some token => simp [token.property]

-- What the parser finds in a document of a page.
structure Found (names : TokenNames) (page : ListingPage) (node : Node) : Prop where
  contents : parseContents node = .ok page.contents
  commonPrefixes : parseCommonPrefixes node = page.commonPrefixes
  truncation : parseTruncation node names.nextToken =
    .ok (page.nextToken.isSome, page.nextToken.map (·.val))
  delimiter : nonEmpty (node.childValue (ascii "Delimiter")) = page.delimiter.map (·.val)
  token : nonEmpty (node.childValue (ascii names.token)) = page.token.map (·.val)
  Prefix : node.childValue (ascii "Prefix") = page.Prefix.getD []

theorem Renders.found {names : TokenNames} (h : page.Renders names node)
    (hnames : ["Contents", "CommonPrefixes", "Delimiter", names.token, "IsTruncated", names.nextToken,
      "Prefix"].map ascii |>.Nodup) : Found names page node := by
  obtain ⟨contents, commonPrefixes, hcontents, hprefixes, hobjects, hpaths, harranged⟩ := h
  have hnodup : ((contents :: commonPrefixes :: page.textGroups names).map Group.name).Nodup := by
    rw [List.map_cons, List.map_cons, hcontents, hprefixes]
    exact hnames
  have htext {name : Str} {text : Option Str} (hgroup : textGroup name text ∈ page.textGroups names) :
      node.childValue name = text.getD [] :=
    harranged.childValue hnodup (List.mem_cons_of_mem _ (List.mem_cons_of_mem _ hgroup))
  have hisTruncated : node.childValue (ascii "IsTruncated") = page.isTruncated :=
    @htext _ (some page.isTruncated) (by simp only [textGroups, List.mem_cons, true_or, or_true])
  have hdelimiter : node.childValue (ascii "Delimiter") = (page.delimiter.map (·.val)).getD [] :=
    htext (by simp only [textGroups, List.mem_cons, true_or])
  have htoken : node.childValue (ascii names.token) = (page.token.map (·.val)).getD [] :=
    htext (by simp only [textGroups, List.mem_cons, true_or, or_true])
  have hnextToken : node.childValue (ascii names.nextToken) = (page.nextToken.map (·.val)).getD [] :=
    htext (by simp only [textGroups, List.mem_cons, true_or, or_true])
  refine ⟨parseContents_eq hcontents hobjects ?_, parseCommonPrefixes_eq hprefixes hpaths ?_,
    parseTruncation_eq hisTruncated hnextToken, ?_, ?_, htext ?_⟩
  · exact harranged.childrenNamed hnodup List.mem_cons_self
  · exact harranged.childrenNamed hnodup (List.mem_cons_of_mem _ List.mem_cons_self)
  · rw [hdelimiter, nonEmpty_val]
  · rw [htoken, nonEmpty_val]
  · simp only [textGroups, List.mem_cons, true_or, or_true]

end ListingPage

-- Parsing gives back the page that a document was made from, in both versions.
theorem parseListObjects_renders (page : ListingPage) (document node : Node)
    (hroot : document.child (ascii "ListBucketResult") = some node) :
    (page.Renders namesV1 node → parseListObjectsV1 document = .ok (.ok page.resultV1)) ∧
      (page.Renders namesV2 node → parseListObjectsV2 document = .ok (.ok page.resultV2)) := by
  constructor
  · intro h
    have hfound := h.found (by decide)
    have htruncation : parseTruncation node "NextMarker" = _ := hfound.truncation
    have htoken : nonEmpty (node.childValue (ascii "Marker")) = _ := hfound.token
    simp only [parseListObjectsV1, hroot, hfound.contents, hfound.commonPrefixes, htruncation,
      hfound.delimiter, htoken, hfound.Prefix]
    rfl
  · intro h
    have hfound := h.found (by decide)
    have htruncation : parseTruncation node "NextContinuationToken" = _ := hfound.truncation
    have htoken : nonEmpty (node.childValue (ascii "ContinuationToken")) = _ := hfound.token
    simp only [parseListObjectsV2, hroot, hfound.contents, hfound.commonPrefixes, htruncation,
      hfound.delimiter, htoken, hfound.Prefix]
    rfl

def ListedObject.render (listed : ListedObject) : Node :=
  .element (ascii "Contents") (listed.groups.flatMap Group.nodes)

def renderPrefix (text : Str) : Node :=
  .element (ascii "CommonPrefixes") ([textGroup (ascii "Prefix") (some text)].flatMap Group.nodes)

theorem ListedObject.renders (listed : ListedObject) : RendersObject listed listed.render := by
  rw [RendersObject, ListedObject.render, Node.children]
  exact arranged_flatMap listed.groups

theorem renderPrefix_renders (text : Str) : RendersPrefix text (renderPrefix text) := by
  rw [RendersPrefix, renderPrefix, Node.children]
  exact arranged_flatMap [textGroup (ascii "Prefix") (some text)]

section Parsed

theorem legible_decimal (n : Nat) : Legible (decimal n) := by
  by_cases hempty : decimal n = []
  · exact .inl hempty
  · obtain ⟨b, hb⟩ := List.exists_mem_of_ne_nil _ hempty
    refine legible_of_mem hb (Bool.eq_false_iff.mpr fun hspace => ?_)
    have hdigit := digit_decimal n b hb
    simp only [space, Bool.or_eq_true, beq_iff_eq] at hspace
    rcases hspace with ((rfl | rfl) | rfl) | rfl <;> exact absurd hdigit (by decide)

theorem map_visible_val {text : Option NonEmptyStr} (h : ∀ some ∈ text, Legible some.val) :
    (text.map (·.val)).map visible = text.map (·.val) := by
  cases text with
  | none => rfl
  | some text => rw [Option.map_some, Option.map_some, visible_of_legible (h text rfl)]

theorem ListedObject.parsed_render {listed : ListedObject} (hkey : Legible listed.key)
    (heTag : Legible listed.eTag) : listed.render.parsed = listed.render := by
  rw [ListedObject.render, Node.parsed, Node.parsedAll_flatMap_of_kept]
  simp only [ListedObject.groups, List.forall_mem_cons]
  refine ⟨rfl, rfl, Node.parsedAll_textGroup_of_legible _ ?_, Node.parsedAll_textGroup_of_legible _ ?_,
    Node.parsedAll_textGroup_of_legible _ ?_, by simp⟩
  · simpa using heTag
  · simpa using hkey
  · simpa using legible_decimal listed.size

theorem parsed_renderPrefix {text : Str} (h : Legible text) : (renderPrefix text).parsed = renderPrefix text := by
  rw [renderPrefix, Node.parsed, Node.parsedAll_flatMap_of_kept]
  simp only [List.forall_mem_cons]
  exact ⟨Node.parsedAll_textGroup_of_legible _ (by simpa using h), by simp⟩

-- Pages whose texts are there after parsing. Nothing reads the prefix that a page
-- repeats.
structure ListingPage.Readable (page : ListingPage) : Prop where
  objects : ∀ listed ∈ page.objects, Legible listed.key ∧ Legible listed.eTag
  prefixes : ∀ text ∈ page.prefixes, Legible text
  delimiter : ∀ text ∈ page.delimiter, Legible text.val
  token : ∀ text ∈ page.token, Legible text.val
  nextToken : ∀ text ∈ page.nextToken, Legible text.val

-- The page that parsing leaves of a readable one.
def ListingPage.parsed (page : ListingPage) : ListingPage := { page with Prefix := page.Prefix.map visible }

theorem ListingPage.Readable.parsed_textGroups {page : ListingPage} (h : page.Readable) (names : TokenNames) :
    Node.parsedAll ((page.textGroups names).flatMap Group.nodes) =
      (page.parsed.textGroups names).flatMap Group.nodes := by
  have hisTruncated : Legible page.isTruncated := by
    rw [ListingPage.isTruncated]
    split <;> decide
  simp only [ListingPage.textGroups, List.flatMap_cons, Node.parsedAll_append, Node.parsedAll_textGroup,
    map_visible_val h.delimiter, map_visible_val h.token, map_visible_val h.nextToken, Option.map_some,
    visible_of_legible hisTruncated]
  rfl

end Parsed

-- What there is of a response once the document in it has been parsed.
def Response.parsed : Response → Response
  | .received (.document document) => .received (.document document.parsed)
  | response => response

def firstListed : ListedObject := ⟨ascii "a", ascii "x", 1, by decide⟩

def lastListed : ListedObject := ⟨ascii "b", [], 0, by decide⟩

def mixedPage : ListingPage where
  objects := [firstListed, lastListed]
  prefixes := [ascii "c/"]
  delimiter := some ⟨ascii "/", by decide⟩
  token := none
  nextToken := some ⟨ascii "next", by decide⟩
  Prefix := some []

def mixedNodes : List Node :=
  [firstListed.render, lastListed.render, renderPrefix (ascii "c/")] ++
    (mixedPage.textGroups namesV2).flatMap Group.nodes ++
    [.pcdata (ascii " "), .textNode (ascii "Name") (ascii "bucket")]

def mixedChild (index : Nat) : Node := mixedNodes.getD index (.pcdata [])

def mixedOrder : List Nat := [7, 4, 0, 2, 8, 6, 1, 5, 3]

def mixedNode : Node := .element (ascii "ListBucketResult") (mixedOrder.map mixedChild)

theorem mixedPage_renders : mixedPage.Renders namesV2 mixedNode := by
  refine .intro ⟨ascii "Contents", [0, 1].map mixedChild, by decide⟩
    ⟨ascii "CommonPrefixes", [2].map mixedChild, by decide⟩ rfl rfl ?_ ?_ ⟨?_, ?_⟩
  · exact .cons firstListed.renders (.cons lastListed.renders .nil)
  · exact .cons (renderPrefix_renders (ascii "c/")) .nil
  · have horder : mixedOrder.Perm [0, 1, 2, 3, 4, 5, 6, 7, 8] := by decide
    exact ⟨[7, 8].map mixedChild, horder.map mixedChild, by decide⟩
  · have hsublist (indices : List Nat) (h : indices.Sublist mixedOrder) :
        (indices.map mixedChild).Sublist mixedNode.children := h.map mixedChild
    simp only [ListingPage.textGroups, List.forall_mem_cons]
    exact ⟨hsublist [0, 1] (by decide), hsublist [2] (by decide), hsublist [3] (by decide),
      hsublist [] (by decide), hsublist [4] (by decide), hsublist [5] (by decide),
      hsublist [6] (by decide), by simp⟩

theorem parseListObjects_renders_mixed :
    parseListObjectsV2 (.element [] [mixedNode]) = .ok (.ok mixedPage.resultV2) :=
  (parseListObjects_renders mixedPage (.element [] [mixedNode]) mixedNode rfl).2 mixedPage_renders

end S3Cpp.Aws.S3.Client
