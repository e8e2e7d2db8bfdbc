import S3Cpp.Aws.Iam.Canonicalize.Reference
import S3Cpp.Library.Framing

namespace S3Cpp.Aws.Iam

open Library Library.Http Library.Framing

abbrev newlineByte : UInt8 := 10
abbrev colon : UInt8 := 58
abbrev semicolon : UInt8 := 59

def headerLine (entry : Str × Field) : Str := entry.1 ++ colon :: stripSpaces entry.2.value

theorem headerLine_eq (entry : Str × Field) : headerLine entry = entry.1 ++ colon :: entry.2.value := by
  rw [headerLine, stripSpaces_of_trimmed entry.2.trimmed]

theorem canonicalHeaders_eq (headers : OrderedMap Str Field) :
    canonicalHeaders headers = lines newlineByte (headers.entries.map headerLine) := by
  rw [canonicalHeaders, lines, List.flatMap_map]
  apply List.flatMap_congr
  intro entry _
  simp [headerLine, show ascii ":" = [colon] from rfl, show newline = [newlineByte] from rfl]

theorem canonicalText_eq (method : Str) (target : Target) (headers : OrderedMap Str Field) (hash : Str) :
    canonicalText method target headers hash =
      ((method ++ newlineByte :: lines newlineByte
        (target.encodedPath :: canonicalQueryString target.encodedParams ::
          headers.entries.map headerLine)) ++
        newlineByte :: signedHeaders headers) ++ newlineByte :: hash := by
  simp [canonicalText, canonicalHeaders_eq, lines, show newline = [newlineByte] from rfl]

section Target

variable {ext : Externals} {text : Str} {target : Target}

theorem parseOriginForm_some (h : parseOriginForm ext text = some target) :
    ext.originForm text ∧ target.encodedPath ⊆ text ∧
      ∀ p ∈ target.encodedParams, Query.equals ∉ p.key ∧ Query.ampersand ∉ p.piece ∧
        ∀ b ∈ p.piece, b ∈ text ∨ b = Query.equals := by
  unfold parseOriginForm at h
  split at h
  · rename_i hform
    obtain rfl := Option.some.inj h
    refine ⟨hform, List.takeWhile_subset _, fun p hp => ?_⟩
    dsimp only at hp
    split at hp
    · simp at hp
    · rename_i query hquery
      obtain ⟨piece, hpiece, rfl⟩ := List.mem_map.mp hp
      obtain ⟨hamp, hsub⟩ := mem_splitOn hpiece
      have hquery : query ⊆ text := by
        have := List.dropWhile_subset (l := text) (fun b => decide (b ≠ questionMark))
        rw [hquery] at this
        exact fun b hb => this (List.mem_cons_of_mem _ hb)
      have hkey : (parseParam piece).key ⊆ piece := List.takeWhile_subset _
      have hvalue : (parseParam piece).writtenValue ⊆ piece := by
        unfold ParamPctView.writtenValue
        split
        · exact fun b hb => List.dropWhile_subset _ (List.mem_of_mem_drop hb)
        · simp
      have hbytes : ∀ b ∈ (parseParam piece).piece, b ∈ piece ∨ b = Query.equals := by
        intro b hb
        rcases List.mem_append.mp hb with hb | hb
        · exact .inl (hkey hb)
        · exact (List.mem_cons.mp hb).symm.imp_left fun hb => hvalue hb
      refine ⟨fun hmem => ?_, fun hmem => ?_, fun b hb => ?_⟩
      · simpa using List.mem_takeWhile_imp hmem
      · rcases hbytes _ hmem with hb | hb
        · exact hamp hb
        · exact absurd hb (by decide)
      · exact (hbytes b hb).imp_left fun hb => hquery (hsub hb)
  · cases h

end Target

section Query

variable {params others : List ParamPctView}

theorem mem_paramMap {entry : Str × ParamPctView} (hm : entry ∈ (paramMap params).entries) :
    entry.2 ∈ params := by
  rw [paramMap, OrderedMap.mem_emplaceAll_empty] at hm
  obtain ⟨p, hp, rfl⟩ := List.mem_map.mp (List.mem_of_find?_eq_some hm)
  exact hp

-- A piece is a key up to its first '=' and a value.
theorem piece_inj {p q : ParamPctView} (hp : Query.equals ∉ p.key) (hq : Query.equals ∉ q.key)
    (h : p.piece = q.piece) : (p.key, p.writtenValue) = (q.key, q.writtenValue) := by
  obtain ⟨hkey, hvalue⟩ := append_first_inj hp hq h
  rw [hkey, hvalue]

theorem canonicalQueryString_inj
    (hparams : ∀ p ∈ params, Query.equals ∉ p.key ∧ Query.ampersand ∉ p.piece)
    (hothers : ∀ p ∈ others, Query.equals ∉ p.key ∧ Query.ampersand ∉ p.piece)
    (h : canonicalQueryString params = canonicalQueryString others) :
    (paramMap params).entries.map (fun entry => (entry.2.key, entry.2.writtenValue)) =
      (paramMap others).entries.map fun entry => (entry.2.key, entry.2.writtenValue) := by
  have hpieces {ps : List ParamPctView}
      (hps : ∀ p ∈ ps, Query.equals ∉ p.key ∧ Query.ampersand ∉ p.piece) :
      ∀ piece ∈ (paramMap ps).entries.map fun entry => entry.2.piece,
        piece ≠ [] ∧ Query.ampersand ∉ piece := by
    intro piece hm
    obtain ⟨entry, hentry, rfl⟩ := List.mem_map.mp hm
    exact ⟨by simp [ParamPctView.piece], (hps _ (mem_paramMap hentry)).2⟩
  rw [canonicalQueryString_eq, canonicalQueryString_eq] at h
  have hsame := intercalate_inj (hpieces hparams) (hpieces hothers) h
  refine map_eq_of_map_eq (fun a ha b hb hab => ?_) hsame
  exact piece_inj (hparams _ (mem_paramMap ha)).1 (hothers _ (mem_paramMap hb)).1 hab

theorem newline_not_mem_query {text : Str} (htext : newlineByte ∉ text)
    (hparams : ∀ p ∈ params, ∀ b ∈ p.piece, b ∈ text ∨ b = Query.equals) :
    newlineByte ∉ canonicalQueryString params := by
  have hsub : ∀ b ∈ canonicalQueryString params,
      b = Query.ampersand ∨ ∃ p ∈ params, b ∈ p.piece := by
    intro b hb
    rw [canonicalQueryString_eq, ← dropLast_lines] at hb
    obtain ⟨piece, hpiece, hb⟩ := List.mem_flatMap.mp (List.dropLast_subset _ hb)
    obtain ⟨entry, hentry, rfl⟩ := List.mem_map.mp hpiece
    rcases List.mem_append.mp hb with hb | hb
    · exact .inr ⟨_, mem_paramMap hentry, hb⟩
    · exact .inl (List.mem_singleton.mp hb)
  intro hmem
  rcases hsub _ hmem with h | ⟨p, hp, hb⟩
  · exact absurd h (by decide)
  · rcases hparams p hp _ hb with h | h
    · exact htext h
    · exact absurd h (by decide)

end Query

section Headers

variable {host : Field} {headers : Fields}

theorem mem_headers_of_entry (hhost : Fields.find headers hostName = some host)
    {entry : Str × Field} (hm : entry ∈ (headerMap host headers).entries) :
    entry.2 ∈ headers ∧ lower entry.2.name = entry.1 ∧ signedName entry.1 := by
  have hfind := headerMap_entry hhost hm
  have hkey : entry.1 ∈ (headerMap host headers).keys := List.mem_map_of_mem hm
  refine ⟨List.mem_of_find?_eq_some hfind, by simpa using List.find?_some hfind, ?_⟩
  rw [mem_keys_headerMap_iff_signed hhost, mem_signedNames] at hkey
  exact hkey.2

end Headers

theorem token_no_separator {name : Str} (h : Token name) :
    newlineByte ∉ name ∧ colon ∉ name ∧ semicolon ∉ name :=
  ⟨fun hm => absurd (h.2 _ hm) (by decide), fun hm => absurd (h.2 _ hm) (by decide),
    fun hm => absurd (h.2 _ hm) (by decide)⟩

-- A request whose canonical form can be read back line by line. Parameters and
-- signed headers may be repeated.
structure WellFramed (ext : Externals) (request : Request) (target : Target) : Prop where
  parsed : parseOriginForm ext request.target = some target
  host : (Fields.find request.headers hostName).isSome
  hash : Fields.get request.headers contentSha256 ≠ []
  fields : ∀ f ∈ request.headers, signedName (lower f.name) → Token f.name ∧ newlineByte ∉ f.value

def Target.firstParam (target : Target) (key : Str) : Option Str :=
  (target.encodedParams.find? (·.key = key)).map ParamPctView.writtenValue

def firstField (headers : Fields) (name : Str) : Option Str :=
  (headers.find? fun f => lower f.name = name).map Field.value

-- Two requests that differ at most in what the signature leaves open: the order
-- of parameters and headers, all but the first of a repeated one, and what is
-- not signed.
structure Agree (request other : Request) (target target' : Target) : Prop where
  method : request.method = other.method
  path : target.encodedPath = target'.encodedPath
  params : ∀ key, target.firstParam key = target'.firstParam key
  fields : ∀ name, signedName name → firstField request.headers name = firstField other.headers name

theorem Agree.get {request other : Request} {target target' : Target}
    (h : Agree request other target target') {name : Str} (hlower : lower name = name)
    (hsigned : signedName name) :
    Fields.get request.headers name = Fields.get other.headers name := by
  have hfirst (headers : Fields) : Fields.get headers name = (firstField headers name).getD [] := by
    simp [Fields.get, Fields.find, Field.Named, firstField, hlower]
  rw [hfirst, hfirst, h.fields name hsigned]

section Maps

theorem paramMap_at (params : List ParamPctView) (key : Str) :
    OrderedMap.at? (paramMap params).entries key =
      (params.find? (·.key = key)).map fun p => (p.key, p) := by
  rw [paramMap, OrderedMap.at?_emplaceAll]
  simp only [OrderedMap.at?, OrderedMap.empty, List.nil_append, List.find?_map, Function.comp_def]
  congr 2
  funext p
  exact decide_eq_decide.mpr Iff.rfl

theorem headerMap_at {host : Field} {headers : Fields} (hhost : Fields.find headers hostName = some host)
    (name : Str) :
    OrderedMap.at? (headerMap host headers).entries name =
      if signedName name then (headers.find? fun f => lower f.name = name).map fun f => (name, f)
      else none := by
  cases hat : OrderedMap.at? (headerMap host headers).entries name with
  | some entry =>
      have hm : entry ∈ (headerMap host headers).entries := List.mem_of_find?_eq_some hat
      obtain rfl : entry.1 = name := by simpa using List.find?_some hat
      rw [if_pos (mem_headers_of_entry hhost hm).2.2, headerMap_entry hhost hm]
      rfl
  | none =>
      have hkey : name ∉ (headerMap host headers).keys := by
        rw [OrderedMap.mem_keys_iff, hat]
        simp
      rw [mem_keys_headerMap_iff_signed hhost, mem_signedNames] at hkey
      split
      · rename_i hsigned
        have hfind : headers.find? (fun f => lower f.name = name) = none := by
          apply List.find?_eq_none.mpr
          intro f hf hname
          exact hkey ⟨⟨f, hf, by simpa using hname⟩, hsigned⟩
        rw [hfind]
        rfl
      · rfl

variable {request other : Request} {target target' : Target}

theorem paramMap_eq_iff :
    (paramMap target.encodedParams).entries.map (fun entry => (entry.1, entry.2.writtenValue)) =
        (paramMap target'.encodedParams).entries.map (fun entry => (entry.1, entry.2.writtenValue)) ↔
      ∀ key, target.firstParam key = target'.firstParam key := by
  have hfirst (target : Target) (key : Str) :
      (OrderedMap.at? (paramMap target.encodedParams).entries key).map
        (fun entry => entry.2.writtenValue) = target.firstParam key := by
    rw [paramMap_at, Option.map_map]
    rfl
  rw [OrderedMap.map_entries_eq_iff ParamPctView.writtenValue]
  exact forall_congr' fun key => by rw [hfirst, hfirst]

theorem headerMap_eq_iff {host host' : Field} (hhost : Fields.find request.headers hostName = some host)
    (hhost' : Fields.find other.headers hostName = some host') :
    (headerMap host request.headers).entries.map (fun entry => (entry.1, entry.2.value)) =
        (headerMap host' other.headers).entries.map (fun entry => (entry.1, entry.2.value)) ↔
      ∀ name, signedName name →
        firstField request.headers name = firstField other.headers name := by
  have hfirst {host : Field} {headers : Fields} (hhost : Fields.find headers hostName = some host)
      (name : Str) :
      (OrderedMap.at? (headerMap host headers).entries name).map (fun entry => entry.2.value) =
        if signedName name then firstField headers name else none := by
    rw [headerMap_at hhost]
    split
    · rw [Option.map_map]
      rfl
    · rfl
  rw [OrderedMap.map_entries_eq_iff Field.value]
  refine forall_congr' fun name => ?_
  rw [hfirst hhost, hfirst hhost']
  by_cases hsigned : signedName name <;> simp [hsigned]

end Maps

namespace WellFramed

variable {ext : Externals} {request : Request} {target : Target} {host : Field}

theorem entry (h : WellFramed ext request target)
    (hhost : Fields.find request.headers hostName = some host) {entry : Str × Field}
    (hm : entry ∈ (headerMap host request.headers).entries) :
    Token entry.1 ∧ newlineByte ∉ entry.2.value := by
  obtain ⟨hf, hname, hsigned⟩ := mem_headers_of_entry hhost hm
  obtain ⟨htoken, hvalue⟩ := h.fields entry.2 hf (by rwa [hname])
  exact ⟨hname ▸ token_lower htoken, hvalue⟩

-- A signed header that is asked for by its name has a value within its line.
theorem newline_not_mem_get (h : WellFramed ext request target) {name : Str}
    (hsigned : signedName (lower name)) : newlineByte ∉ Fields.get request.headers name := by
  cases hfind : Fields.find request.headers name with
  | none => simp [Fields.get, hfind]
  | some f =>
      have hname : lower f.name = lower name := Fields.named_of_find hfind
      simpa [Fields.get, hfind] using
        (h.fields f (List.mem_of_find?_eq_some hfind) (hname ▸ hsigned)).2

theorem names_listed (h : WellFramed ext request target)
    (hhost : Fields.find request.headers hostName = some host) :
    ∀ name ∈ (headerMap host request.headers).keys,
      name ≠ [] ∧ semicolon ∉ name ∧ newlineByte ∉ name := by
  intro name hm
  obtain ⟨entry, hentry, rfl⟩ := List.mem_map.mp hm
  obtain ⟨htoken, -⟩ := h.entry hhost hentry
  obtain ⟨hnewline, -, hsemicolon⟩ := token_no_separator htoken
  exact ⟨htoken.1, hsemicolon, hnewline⟩

theorem newline_not_mem_signedHeaders (h : WellFramed ext request target)
    (hhost : Fields.find request.headers hostName = some host) :
    newlineByte ∉ signedHeaders (headerMap host request.headers) := by
  intro hm
  obtain ⟨entry, hentry, hb⟩ := List.mem_flatMap.mp (List.dropLast_subset _ hm)
  rcases List.mem_append.mp hb with hb | hb
  · exact (h.names_listed hhost entry.1 (List.mem_map_of_mem hentry)).2.2 hb
  · exact absurd hb (by decide)

theorem newline_not_mem_lines (h : WellFramed ext request target)
    (hhost : Fields.find request.headers hostName = some host)
    (hgrammar : ∀ text, ext.originForm text → newlineByte ∉ text) :
    ∀ line ∈ target.encodedPath :: canonicalQueryString target.encodedParams ::
      (headerMap host request.headers).entries.map headerLine, newlineByte ∉ line := by
  obtain ⟨hform, hpath, hparams⟩ := parseOriginForm_some h.parsed
  have htext := hgrammar _ hform
  intro line hline
  rcases List.mem_cons.mp hline with rfl | hline
  · exact fun hm => htext (hpath hm)
  rcases List.mem_cons.mp hline with rfl | hline
  · exact newline_not_mem_query htext fun p hp => (hparams p hp).2.2
  · obtain ⟨entry, hentry, rfl⟩ := List.mem_map.mp hline
    obtain ⟨htoken, hvalue⟩ := h.entry hhost hentry
    have hcolon : newlineByte ≠ colon := by decide
    rw [headerLine_eq]
    simp [(token_no_separator htoken).1, hvalue, hcolon]

end WellFramed

section Text

variable {ext : Externals} {request other : Request} {target target' : Target} {host host' : Field}

-- The parts of the text that are read out of the two maps.
theorem canonicalQueryString_congr
    (h : (paramMap target.encodedParams).entries.map (fun entry => (entry.1, entry.2.writtenValue)) =
      (paramMap target'.encodedParams).entries.map fun entry => (entry.1, entry.2.writtenValue)) :
    canonicalQueryString target.encodedParams = canonicalQueryString target'.encodedParams := by
  have hpieces (params : List ParamPctView) : (paramMap params).entries.map (fun entry => entry.2.piece) =
      ((paramMap params).entries.map fun entry => (entry.1, entry.2.writtenValue)).map
        fun pair => pair.1 ++ Query.equals :: pair.2 := by
    rw [List.map_map]
    refine List.map_congr_left fun entry hm => ?_
    simp [ParamPctView.piece, paramMap_key params hm]
  rw [canonicalQueryString_eq, canonicalQueryString_eq, hpieces, hpieces, h]

theorem signedHeaders_congr
    (h : (headerMap host request.headers).entries.map (fun entry => (entry.1, entry.2.value)) =
      (headerMap host' other.headers).entries.map fun entry => (entry.1, entry.2.value)) :
    (headerMap host request.headers).entries.map headerLine =
        (headerMap host' other.headers).entries.map headerLine ∧
      signedHeaders (headerMap host request.headers) = signedHeaders (headerMap host' other.headers) := by
  have hlines (map : OrderedMap Str Field) : map.entries.map headerLine =
      (map.entries.map fun entry => (entry.1, entry.2.value)).map
        fun pair => pair.1 ++ colon :: pair.2 := by
    rw [List.map_map]
    exact List.map_congr_left fun entry _ => headerLine_eq entry
  have hkeys (map : OrderedMap Str Field) : map.keys =
      (map.entries.map fun entry => (entry.1, entry.2.value)).map Prod.fst := by
    rw [List.map_map]
    rfl
  refine ⟨by rw [hlines, hlines, h], ?_⟩
  rw [signedHeaders_eq, signedHeaders_eq, hkeys, hkeys, h]

-- The canonical request is the same exactly for requests that agree in what it
-- covers. It is read from its end: the payload hash, the names, a line for each
-- name, the query and the path. What is left is the method.
theorem canonicalText_eq_iff (hgrammar : ∀ text, ext.originForm text → newlineByte ∉ text)
    (h : WellFramed ext request target) (h' : WellFramed ext other target')
    (hhost : Fields.find request.headers hostName = some host)
    (hhost' : Fields.find other.headers hostName = some host') :
    canonicalText request.method target (headerMap host request.headers)
          (Fields.get request.headers contentSha256) =
        canonicalText other.method target' (headerMap host' other.headers)
          (Fields.get other.headers contentSha256) ↔
      Agree request other target target' := by
  have hhash : signedName (lower contentSha256) := by decide
  rw [canonicalText_eq, canonicalText_eq]
  constructor
  · intro htext
    obtain ⟨htext, -⟩ := append_last_inj (h.newline_not_mem_get hhash) (h'.newline_not_mem_get hhash) htext
    obtain ⟨htext, hsigned⟩ := append_last_inj (h.newline_not_mem_signedHeaders hhost)
      (h'.newline_not_mem_signedHeaders hhost') htext
    rw [signedHeaders_eq, signedHeaders_eq] at hsigned
    have hkeys := intercalate_inj (fun name hm => (h.names_listed hhost name hm).imp_right And.left)
      (fun name hm => (h'.names_listed hhost' name hm).imp_right And.left) hsigned
    -- as many names are listed as there are header lines
    have hlength : (headerMap host request.headers).entries.length =
        (headerMap host' other.headers).entries.length := by
      simpa [OrderedMap.keys] using congrArg List.length hkeys
    obtain ⟨hmethod, hlines⟩ := append_lines_inj (h.newline_not_mem_lines hhost hgrammar)
      (h'.newline_not_mem_lines hhost' hgrammar) (by simpa using hlength) htext
    obtain ⟨hpath, hlines⟩ := List.cons.inj hlines
    obtain ⟨hquery, hlines⟩ := List.cons.inj hlines
    refine ⟨hmethod, hpath, paramMap_eq_iff.mp ?_, (headerMap_eq_iff hhost hhost').mp ?_⟩
    · have hpairs := canonicalQueryString_inj
        (fun p hp => ((parseOriginForm_some h.parsed).2.2 p hp).imp_right And.left)
        (fun p hp => ((parseOriginForm_some h'.parsed).2.2 p hp).imp_right And.left) hquery
      have hkey (params : List ParamPctView) :
          (paramMap params).entries.map (fun entry => (entry.1, entry.2.writtenValue)) =
            (paramMap params).entries.map fun entry => (entry.2.key, entry.2.writtenValue) :=
        List.map_congr_left fun entry hm => by rw [paramMap_key params hm]
      rw [hkey, hkey, hpairs]
    · refine map_eq_of_map_eq (fun entry hm entry' hm' hline => ?_) hlines
      rw [headerLine_eq, headerLine_eq] at hline
      obtain ⟨hname, hvalue⟩ := append_first_inj (token_no_separator (h.entry hhost hm).1).2.1
        (token_no_separator (h'.entry hhost' hm').1).2.1 hline
      rw [hname, hvalue]
  · intro hagree
    obtain ⟨hlines, hsigned⟩ := signedHeaders_congr ((headerMap_eq_iff hhost hhost').mpr hagree.fields)
    rw [hagree.method, hagree.path, canonicalQueryString_congr (paramMap_eq_iff.mpr hagree.params),
      hlines, hsigned, hagree.get (by decide) (by decide)]

end Text

end S3Cpp.Aws.Iam
