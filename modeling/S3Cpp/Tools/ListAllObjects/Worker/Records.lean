import S3Cpp.Library.Framing
import S3Cpp.Tools.ListAllObjects.Worker

namespace S3Cpp.Tools.ListAllObjects

open Aws.S3 Library.Framing

def newline : UInt8 := 10

-- What a reader of the output takes from it: each piece that a newline ends.
def records (text : Str) : List Str := (text.splitOn newline).dropLast

def keyMember (members : JsonObject) : Option Str :=
  match members.lookup (ascii "Key") with
  | some (.string key) => some key
  | _ => none

-- The key of a record.
def recordKey (format : OutputFormat) (parse : Str → Option JsonObject) (record : Str) : Option Str :=
  match format with
  | .PLAIN => some record
  | .JSON => (parse record).bind keyMember

-- One record for each object in their order, with its key and in JSON with all
-- of its set fields.
structure ReadsBack (config : Config) (parse : Str → Option JsonObject) (objects : List Object) : Prop where
  keys : (records (objectsText config objects)).map (recordKey config.outputFormat parse) =
    objects.map Object.Key
  fields : config.outputFormat = .JSON →
    (records (objectsText config objects)).map parse = objects.map fun object => some (valueFrom object)

-- What is relied on of the JSON library: serialize escapes control characters,
-- and the text can be parsed.
structure JsonText (serialize : JsonObject → Str) (parse : Str → Option JsonObject) (object : Object) :
    Prop where
  escaped : newline ∉ serialize (valueFrom object)
  parses : parse (serialize (valueFrom object)) = some (valueFrom object)

def OneLine (object : Object) : Prop := ∀ key ∈ object.Key, newline ∉ key

section Text

variable {config : Config} {objects : List Object}

theorem objectsText_plain (hformat : config.outputFormat = .PLAIN)
    (hkeys : ∀ object ∈ objects, object.Key.isSome) :
    objectsText config objects = lines newline (objects.map fun object => object.Key.getD []) := by
  simp only [objectsText, hformat, lines, List.flatMap_map]
  apply List.flatMap_congr
  intro object hobject
  obtain ⟨key, hkey⟩ := Option.isSome_iff_exists.mp (hkeys object hobject)
  rw [hkey]
  rfl

theorem objectsText_json (hformat : config.outputFormat = .JSON) :
    objectsText config objects = lines newline (objects.map config.serialize) := by
  simp only [objectsText, hformat, lines, List.flatMap_map]
  rfl

theorem records_lines {pieces : List Str} (h : ∀ piece ∈ pieces, newline ∉ piece) :
    records (lines newline pieces) = pieces := by
  rw [records, splitOn_lines h, List.dropLast_concat]

theorem length_records_lines (pieces : List Str) :
    (records (lines newline pieces)).length = pieces.length ↔ ∀ piece ∈ pieces, newline ∉ piece := by
  rw [← length_splitOn_lines_iff, records, List.length_dropLast, length_splitOn]
  omega

theorem keys_getD (hkeys : ∀ object ∈ objects, object.Key.isSome) :
    (objects.map fun object => object.Key.getD []).map some = objects.map Object.Key := by
  rw [List.map_map]
  apply List.map_congr_left
  intro object hobject
  obtain ⟨key, hkey⟩ := Option.isSome_iff_exists.mp (hkeys object hobject)
  simp [hkey]

theorem oneLine_iff (hkeys : ∀ object ∈ objects, object.Key.isSome) :
    (∀ piece ∈ objects.map fun object => object.Key.getD [], newline ∉ piece) ↔
      ∀ object ∈ objects, OneLine object := by
  rw [List.forall_mem_map]
  refine forall₂_congr fun object hobject => ?_
  obtain ⟨key, hkey⟩ := Option.isSome_iff_exists.mp (hkeys object hobject)
  simp [OneLine, hkey]

-- Only no object at all leaves nothing to push.
theorem objectsText_eq_nil_iff (hkeys : ∀ object ∈ objects, object.Key.isSome) :
    objectsText config objects = [] ↔ objects = [] := by
  have hlines (pieces : List Str) : lines newline pieces = [] ↔ pieces = [] := by
    cases pieces <;> simp [lines]
  cases hformat : config.outputFormat with
  | PLAIN => rw [objectsText_plain hformat hkeys, hlines, List.map_eq_nil_iff]
  | JSON => rw [objectsText_json hformat, hlines, List.map_eq_nil_iff]

end Text

section Members

theorem lookup_member (name : String) (value : Option JsonValue) (key : Str) :
    (member name value).lookup key = if key = memberName name then value else none := by
  cases value with
  | none => simp [member]
  | some value =>
      by_cases hkey : key = memberName name
      · simp [member, hkey]
      · have hne : (key == memberName name) = false := by simpa using hkey
        simp [member, List.lookup_cons, hkey, hne]

theorem memberName_eq :
    ["ChecksumAlgorithm_", "ChecksumType_", "ETag", "Key", "Size"].map memberName =
      ["ChecksumAlgorithm", "ChecksumType", "ETag", "Key", "Size"].map ascii := by
  decide

-- Every member of a JSON object is found under its name.
theorem lookup_valueFrom (object : Object) :
    ["ChecksumAlgorithm", "ChecksumType", "ETag", "Key", "Size"].map
        (fun name => (valueFrom object).lookup (ascii name)) =
      [object.ChecksumAlgorithm_.map fun chk => .string chk.toString,
        object.ChecksumType_.map fun chk => .string chk.toString, object.ETag.map .string,
        object.Key.map .string, object.Size.map .number] := by
  obtain ⟨hchecksumAlgorithm, hchecksumType, heTag, hkey, hsize, -⟩ := by
    simpa only [List.map_cons, List.map_nil, List.cons.injEq] using memberName_eq
  simp only [valueFrom, List.lookup_append, lookup_member, hchecksumAlgorithm, hchecksumType, heTag, hkey,
    hsize]
  simp +decide only [List.map_cons, List.map_nil, if_true, if_false, Option.none_or, Option.or_none]

theorem keyMember_valueFrom (object : Object) : keyMember (valueFrom object) = object.Key := by
  have hlookup : (valueFrom object).lookup (ascii "Key") = object.Key.map .string :=
    (List.cons.inj (List.cons.inj (List.cons.inj (List.cons.inj (lookup_valueFrom object)).2).2).2).1
  rw [keyMember, hlookup]
  cases object.Key <;> rfl

theorem ChecksumAlgorithm.toString_injective : Function.Injective ChecksumAlgorithm.toString := by
  intro a b h
  cases a <;> cases b <;> first | rfl | exact absurd h (by decide)

theorem ChecksumType.toString_injective : Function.Injective ChecksumType.toString := by
  intro a b h
  cases a <;> cases b <;> first | rfl | exact absurd h (by decide)

-- The set members are all there is to an object.
theorem valueFrom_injective : Function.Injective valueFrom := by
  intro a b h
  have hlookup := lookup_valueFrom a
  rw [h, lookup_valueFrom b] at hlookup
  simp only [List.cons.injEq, and_true] at hlookup
  obtain ⟨hchecksumAlgorithm, hchecksumType, heTag, hkey, hsize⟩ := hlookup
  have hstring : Function.Injective JsonValue.string := fun _ _ => JsonValue.string.inj
  have hnumber : Function.Injective JsonValue.number := fun _ _ => JsonValue.number.inj
  have hAlgorithm := Option.map_injective (hstring.comp ChecksumAlgorithm.toString_injective) hchecksumAlgorithm
  have hType := Option.map_injective (hstring.comp ChecksumType.toString_injective) hchecksumType
  have hETag := Option.map_injective hstring heTag
  have hKey := Option.map_injective hstring hkey
  have hSize := Option.map_injective hnumber hsize
  cases a
  cases b
  simp_all

end Members

section ReadsBack

variable {config : Config} {serialize : JsonObject → Str} {parse : Str → Option JsonObject}
  {objects : List Object}

theorem readsBack_plain_iff (hformat : config.outputFormat = .PLAIN)
    (hkeys : ∀ object ∈ objects, object.Key.isSome) :
    ReadsBack config parse objects ↔ ∀ object ∈ objects, OneLine object := by
  have htext := objectsText_plain hformat hkeys
  constructor
  · intro h
    have hlength := congrArg List.length h.keys
    rw [List.length_map, List.length_map, htext] at hlength
    rw [← oneLine_iff hkeys, ← length_records_lines, hlength, List.length_map]
  · intro h
    have hrecords := records_lines ((oneLine_iff hkeys).mpr h)
    have hsome : recordKey config.outputFormat parse = some := by
      funext record
      simp only [recordKey, hformat]
    refine ⟨?_, fun hjson => absurd (hformat.symm.trans hjson) (by decide)⟩
    rw [htext, hrecords, hsome, keys_getD hkeys]

theorem readsBack_json (hformat : config.outputFormat = .JSON)
    (hserialize : ∀ object, config.serialize object = serialize (valueFrom object))
    (hjson : ∀ object ∈ objects, JsonText serialize parse object) : ReadsBack config parse objects := by
  have hrecords : records (objectsText config objects) = objects.map config.serialize := by
    rw [objectsText_json hformat]
    apply records_lines
    rw [List.forall_mem_map]
    intro object hobject
    rw [hserialize]
    exact (hjson object hobject).escaped
  have hparse (object : Object) (hobject : object ∈ objects) :
      parse (config.serialize object) = some (valueFrom object) := by
    rw [hserialize]
    exact (hjson object hobject).parses
  constructor
  · rw [hrecords, List.map_map]
    apply List.map_congr_left
    intro object hobject
    simp only [Function.comp_apply, recordKey, hformat, hparse object hobject, Option.bind_some,
      keyMember_valueFrom]
  · intro _
    rw [hrecords, List.map_map]
    exact List.map_congr_left hparse

theorem ReadsBack.keys_eq {others : List Object} (h : ReadsBack config parse objects)
    (hothers : ReadsBack config parse others)
    (htext : objectsText config objects = objectsText config others) :
    objects.map Object.Key = others.map Object.Key := by
  rw [← h.keys, htext, hothers.keys]

end ReadsBack

-- What is pushed can be read back in JSON, and in the plain format as long as no
-- key has a newline in it.
theorem writeObjects_readsBack (config : Config) (serialize : JsonObject → Str)
    (parse : Str → Option JsonObject)
    (hserialize : ∀ object, config.serialize object = serialize (valueFrom object))
    (objects : List Object) (hkeys : ∀ object ∈ objects, object.Key.isSome)
    (hjson : ∀ object ∈ objects, JsonText serialize parse object) :
    (∀ sh : Shared, (sh.writeObjects config objects).writeStack =
        (if objects = [] then [] else [objectsText config objects]) ++ sh.writeStack) ∧
      (ReadsBack config parse objects ↔
        config.outputFormat = .JSON ∨ ∀ object ∈ objects, OneLine object) ∧
      ∀ others : List Object, (∀ object ∈ others, object.Key.isSome) →
        (∀ object ∈ others, JsonText serialize parse object) →
        (config.outputFormat = .JSON ∨ ∀ object ∈ objects ++ others, OneLine object) →
        objectsText config objects = objectsText config others →
        objects.map Object.Key = others.map Object.Key := by
  have hreads (objects : List Object) (hkeys : ∀ object ∈ objects, object.Key.isSome)
      (hjson : ∀ object ∈ objects, JsonText serialize parse object) :
      ReadsBack config parse objects ↔
        config.outputFormat = .JSON ∨ ∀ object ∈ objects, OneLine object := by
    cases hformat : config.outputFormat with
    | PLAIN => simpa using readsBack_plain_iff hformat hkeys
    | JSON => simpa using readsBack_json hformat hserialize hjson
  refine ⟨fun sh => ?_, hreads objects hkeys hjson, fun others hotherKeys hotherJson hlines htext => ?_⟩
  · have hnil := @objectsText_eq_nil_iff config objects hkeys
    by_cases hobjects : objects = []
    · have htext := hnil.mpr hobjects
      simp only [Shared.writeObjects, if_pos htext, if_pos hobjects, List.nil_append]
    · have htext := mt hnil.mp hobjects
      simp only [Shared.writeObjects, if_neg htext, if_neg hobjects, List.singleton_append]
  · refine ReadsBack.keys_eq ((hreads objects hkeys hjson).mpr ?_)
      ((hreads others hotherKeys hotherJson).mpr ?_) htext
    · exact hlines.imp_right fun h object hobject => h object (List.mem_append_left _ hobject)
    · exact hlines.imp_right fun h object hobject => h object (List.mem_append_right _ hobject)

def outputConfig (format : OutputFormat) (serialize : JsonObject → Str) : Config where
  apiVersion := .V2
  outputFormat := format
  scaleUpFactor := 3 / 2
  scaleDownFactor := 4 / 5
  serialize object := serialize (valueFrom object)

def keyed (key : String) : Object := ⟨none, none, some (ascii "x"), some (ascii key), some 1⟩

-- The text of an object whose key has two lines.
def twoLinesText : Str := ascii "\x7b\"ETag\":\"x\",\"Key\":\"a\\nb\",\"Size\":1\x7d"

def parseTwoLines (text : Str) : Option JsonObject :=
  if text = twoLinesText then some (valueFrom (keyed "a\nb")) else none

theorem writeObjects_readsBack_twoLines :
    ReadsBack (outputConfig .JSON fun _ => twoLinesText) parseTwoLines [keyed "a\nb"] := by
  have hjson : ∀ object ∈ [keyed "a\nb"], JsonText (fun _ => twoLinesText) parseTwoLines object := by
    intro object hobject
    obtain rfl := List.mem_singleton.mp hobject
    exact ⟨by decide, if_pos rfl⟩
  have hkeys : ∀ object ∈ [keyed "a\nb"], object.Key.isSome := by simp [keyed]
  obtain ⟨-, hreads, -⟩ := writeObjects_readsBack (outputConfig .JSON fun _ => twoLinesText)
    (fun _ => twoLinesText) parseTwoLines (fun _ => rfl) [keyed "a\nb"] hkeys hjson
  exact hreads.mpr (.inl rfl)

-- In the plain format a key of two lines reads back as two keys.
theorem newline_splits_key :
    ¬ ReadsBack (outputConfig .PLAIN fun _ => twoLinesText) parseTwoLines [keyed "a\nb"] ∧
      objectsText (outputConfig .PLAIN fun _ => twoLinesText) [keyed "a\nb"] =
        objectsText (outputConfig .PLAIN fun _ => twoLinesText) [keyed "a", keyed "b"] ∧
      [keyed "a\nb"].map Object.Key ≠ [keyed "a", keyed "b"].map Object.Key := by
  refine ⟨fun h => ?_, by decide, by decide⟩
  exact absurd h.keys (by decide)

end S3Cpp.Tools.ListAllObjects
