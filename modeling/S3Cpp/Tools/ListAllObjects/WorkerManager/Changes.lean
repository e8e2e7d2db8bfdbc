import S3Cpp.Library.Paging
import S3Cpp.Tools.ListAllObjects.WorkerManager.Missing

namespace S3Cpp.Tools.ListAllObjects

open Aws.S3 Aws.S3.Client Aws.Iam Library Library.Delimited Library.Http Library.Paging Library.Population
open Library.Transition Library.Xml

-- A bucket whose keys come and go while it is listed. Some stay all the time, and
-- there is never one that is not in `ever`. For a prefix, a token has passed some
-- of the entries: where they are sent in byte order, those up to the last one sent.
structure ChangingBucket where
  name : Str
  stays : List Str
  ever : List Str
  passed : Str → Str → Str → Prop

-- A page of the keys that are there at the time.
structure Page.Cuts (page : Page) (passed : Str → Str → Str → Prop) (keys : List Str) (p : Str)
    (token : Option Str) : Prop where
  cut : ∃ objects prefixes, page.contents.map Object.Key = objects.map some ∧
    page.commonPrefixes.map CommonPrefix.Prefix = prefixes.map some ∧
    Cut slash (passed p) keys p token page.nextToken objects prefixes
  fresh : ∀ t, page.token = some t → page.nextToken ≠ some t

namespace ChangingBucket

variable (bucket : ChangingBucket)

def Sends (path : CommonPrefix) (token : Option Str) (page : Page) : Prop :=
  ∃ keys, bucket.stays ⊆ keys ∧ keys ⊆ bucket.ever ∧ page.Cuts bucket.passed keys (path.Prefix.getD []) token

noncomputable def objectDebt (x : Str) (path : CommonPrefix) (token : Option Str) : Nat :=
  awaitedObject slash (bucket.passed (path.Prefix.getD [])) (path.Prefix.getD []) x token

noncomputable def prefixDebt (x : Str) (path : CommonPrefix) (token : Option Str) : Nat :=
  awaitedPrefix slash (bucket.passed (path.Prefix.getD [])) (path.Prefix.getD []) x token

end ChangingBucket

section Pages

variable {bucket : ChangingBucket} {path : CommonPrefix} {token : Option Str} {page : Page}

theorem elim_add (next : Option Str) (f g : Str → Nat) :
    next.elim 0 (fun t => f t + g t) = next.elim 0 f + next.elim 0 g := by
  cases next <;> rfl

theorem ChangingBucket.Sends.objects_le (h : bucket.Sends path token page) (x : Str) :
    total (fun y => if y = some x then 1 else 0) (page.contents.map Object.Key) +
        page.nextToken.elim 0 (fun next => bucket.objectDebt x path (some next)) ≤ bucket.objectDebt x path token := by
  obtain ⟨keys, -, -, ⟨objects, prefixes, hobjects, -, hcut⟩, -⟩ := h
  rw [hobjects, total_map_some]
  simp only [Option.some.injEq, total_count]
  exact hcut.objects_le x

theorem ChangingBucket.Sends.prefixes_le (h : bucket.Sends path token page) (x : Str) :
    total (fun y : Option Str => if y.getD [] <+: x then 1 else 0) (page.commonPrefixes.map CommonPrefix.Prefix) +
        page.nextToken.elim 0 (fun next => bucket.prefixDebt x path (some next)) ≤ bucket.prefixDebt x path token := by
  obtain ⟨keys, -, -, ⟨objects, prefixes, -, hprefixes, hcut⟩, -⟩ := h
  rw [hprefixes, total_map_some]
  simp only [Option.getD_some]
  exact hcut.prefixes_le x

theorem ChangingBucket.Sends.le_objects (h : bucket.Sends path token page) {x : Str} (hx : x ∈ bucket.stays) :
    bucket.objectDebt x path token ≤ total (fun y => if y = some x then 1 else 0) (page.contents.map Object.Key) +
      page.nextToken.elim 0 (fun next => bucket.objectDebt x path (some next)) := by
  obtain ⟨keys, hstays, -, ⟨objects, prefixes, hobjects, -, hcut⟩, -⟩ := h
  rw [hobjects, total_map_some]
  simp only [Option.some.injEq, total_count]
  exact hcut.le_objects (hstays hx)

theorem ChangingBucket.Sends.le_prefixes (h : bucket.Sends path token page) {x : Str} (hx : x ∈ bucket.stays) :
    bucket.prefixDebt x path token ≤
      total (fun y : Option Str => if y.getD [] <+: x then 1 else 0) (page.commonPrefixes.map CommonPrefix.Prefix) +
        page.nextToken.elim 0 (fun next => bucket.prefixDebt x path (some next)) := by
  obtain ⟨keys, hstays, -, ⟨objects, prefixes, -, hprefixes, hcut⟩, -⟩ := h
  rw [hprefixes, total_map_some]
  simp only [Option.getD_some]
  exact hcut.le_prefixes (hstays hx)

theorem ChangingBucket.Sends.fresh (h : bucket.Sends path token page) : page.repeatsToken = false := by
  obtain ⟨keys, -, -, hpage⟩ := h
  exact repeatsToken_eq_false hpage.fresh

theorem ChangingBucket.Sends.key_mem (h : bucket.Sends path token page) {key : Option Str}
    (hkey : key ∈ page.contents.map Object.Key) : ∃ x ∈ bucket.ever, key = some x := by
  obtain ⟨keys, -, hever, ⟨objects, prefixes, hobjects, -, hcut⟩, -⟩ := h
  rw [hobjects] at hkey
  obtain ⟨x, hx, rfl⟩ := List.mem_map.mp hkey
  exact ⟨x, hever (List.mem_of_mem_filter ((hcut.mem_objects x).mp hx).1), rfl⟩

theorem ChangingBucket.Sends.prefix_mem (h : bucket.Sends path token page) {key : Option Str}
    (hkey : key ∈ page.commonPrefixes.map CommonPrefix.Prefix) : ∃ q, q.getLast? = some slash ∧ key = some q := by
  obtain ⟨keys, -, -, ⟨objects, prefixes, -, hprefixes, hcut⟩, -⟩ := h
  rw [hprefixes] at hkey
  obtain ⟨q, hq, rfl⟩ := List.mem_map.mp hkey
  obtain ⟨k, -, -, rfl⟩ := mem_below_iff.mp ((hcut.mem_prefixes q).mp hq).1
  exact ⟨_, child_getLast _ k, rfl⟩

end Pages

section Courses

variable (bucket : ChangingBucket)

-- The keys, one at a time. Of one that stays nothing slips away.
noncomputable def ChangingBucket.keyCourse (x : Str) : Course where
  call _ := 0
  key y := if y = some x then 1 else 0
  share path := if path.getD [] <+: x then 1 else 0
  sends := bucket.Sends
  valid _ _ := True
  remaining path token := bucket.objectDebt x path token + bucket.prefixDebt x path token
  steady := x ∈ bucket.stays
  start _ := trivial
  opens path := (Nat.zero_add _).trans (awaited_split _ _ x)
  bounded path token _ := awaited_bounded _ _ x token
  fresh path token page _ h := h.fresh
  next _ _ _ _ _ _ _ := trivial
  spends path token page _ h := by
    have hobjects := h.objects_le x
    have hprefixes := h.prefixes_le x
    rw [elim_add]
    omega
  keeps hx path token page _ h := by
    have hobjects := h.le_objects hx
    have hprefixes := h.le_prefixes hx
    rw [elim_add]
    omega

-- What is never a key is never sent as one.
def ChangingBucket.otherCourse (y : Option Str) (hy : ∀ x ∈ bucket.ever, y ≠ some x) : Course where
  call _ := 0
  key z := if z = y then 1 else 0
  share _ := 0
  sends := bucket.Sends
  valid _ _ := True
  remaining _ _ := 0
  steady := False
  start _ := trivial
  opens _ := rfl
  bounded _ _ _ := Nat.zero_le _
  fresh path token page _ h := h.fresh
  next _ _ _ _ _ _ _ := trivial
  spends path token page _ h := by
    have hnone : total (fun z => if z = y then 1 else 0) (page.contents.map Object.Key) = 0 := by
      apply (total_eq_zero_iff _ _).mpr
      intro key hkey
      obtain ⟨x, hx, rfl⟩ := h.key_mem hkey
      exact if_neg fun heq => hy x hx heq.symm
    rw [hnone, total_zero]
    cases page.nextToken <;> exact Nat.le_refl 0
  keeps h := h.elim

-- The calls for a prefix, one prefix at a time.
noncomputable def ChangingBucket.prefixCourse (q : Str) (hq : q.getLast? = some slash) : Course where
  call path := if path = some q then 1 else 0
  key _ := 0
  share path := if path.getD [] <+: q then 1 else 0
  sends := bucket.Sends
  valid _ _ := True
  remaining path token := bucket.prefixDebt q path token
  steady := False
  start _ := trivial
  opens path := by
    have hsplit := awaited_split (d := slash) (bucket.passed (path.Prefix.getD [])) (path.Prefix.getD []) q
    have hcall : Direct slash (path.Prefix.getD []) q ↔ path.Prefix = some q := by
      rw [direct_iff_eq hq]
      cases path.Prefix with
      | none =>
          refine iff_of_false ?_ (by simp)
          rintro rfl
          simp at hq
      | some p => simp
    simpa only [awaitedObject, awaited_none, hcall, ChangingBucket.prefixDebt] using hsplit
  bounded path token _ := (Nat.le_add_left _ _).trans (awaited_bounded _ _ q token)
  fresh path token page _ h := h.fresh
  next _ _ _ _ _ _ _ := trivial
  spends path token page _ h := by
    rw [total_zero, Nat.zero_add]
    exact h.prefixes_le q
  keeps h := h.elim

-- The calls for anything else: one for the root.
def ChangingBucket.otherCallCourse (y : Option Str) (hy : ∀ q : Str, q.getLast? = some slash → y ≠ some q) :
    Course where
  call path := if path = y then 1 else 0
  key _ := 0
  share path := if path = y then 1 else 0
  sends := bucket.Sends
  valid _ _ := True
  remaining _ _ := 0
  steady := False
  start _ := trivial
  opens _ := rfl
  bounded _ _ _ := Nat.zero_le _
  fresh path token page _ h := h.fresh
  next _ _ _ _ _ _ _ := trivial
  spends path token page _ h := by
    have hnone : total (fun path => if path = y then 1 else 0) (page.commonPrefixes.map CommonPrefix.Prefix) = 0 := by
      apply (total_eq_zero_iff _ _).mpr
      intro path hpath
      obtain ⟨q, hq, rfl⟩ := h.prefix_mem hpath
      exact if_neg fun heq => hy q hq heq.symm
    rw [hnone, total_zero]
    cases page.nextToken <;> exact Nat.le_refl 0
  keeps h := h.elim

end Courses

-- A service for the bucket as it is when a request comes. Its page has no text that
-- parsing drops.
structure ChangingBucket.Moment (bucket : ChangingBucket) (path : CommonPrefix) (token : Option Str)
    (service : Service) : Prop where
  name : service.bucket = bucket.name
  stays : bucket.stays ⊆ service.keys
  ever : service.keys ⊆ bucket.ever
  page : (Page.ofListing (service.page (path.Prefix.getD []) token)).Cuts bucket.passed service.keys
    (path.Prefix.getD []) token
  readable : (service.page (path.Prefix.getD []) token).Readable

-- What comes back for an attempt: the answer of the service as it is now to the
-- request as it is sent, through the parser, or something that is no listing.
def ChangingBucket.Replies (bucket : ChangingBucket) (ext : Externals) (session : Session) (config : Config)
    (path : CommonPrefix) (token : Option Str) (response : Response) : Prop :=
  Unlisted response ∨
    ∃ service now sent, bucket.Moment path token service ∧
      listOneRequest ext session now config bucket.name path token = .ok sent ∧
      response = (service.respond ext session sent).parsed

def ChangingBucket.RepliesIn (bucket : ChangingBucket) (ext : Externals) (session : Session) (config : Config)
    (s : Crawl) : Action → Prop
  | .worker index _ response => ∀ call token retries, s.workers[index]? = some (.listOne call token retries) →
      bucket.Replies ext session config call.path token response
  | _ => True

section Runs

variable {ext : Externals} {session : Session} {bucket : ChangingBucket} {config : Config} {s : Crawl}

theorem ChangingBucket.RepliesIn.course {action : Action} {course : Course} (hsha : ∀ message, ext.sha256 message ≠ [])
    (hgrammar : ∀ target, Target.originForm target → ext.originForm target)
    (h : bucket.RepliesIn ext session config s action) (hsends : course.sends = bucket.Sends) :
    course.RepliesIn config s action := by
  cases action with
  | worker index choice response =>
      intro call token retries hw
      rcases h call token retries hw with hunlisted | ⟨service, now, sent, hmoment, hsent, rfl⟩
      · exact .inl (request_unlisted config.apiVersion hunlisted)
      · rw [← hmoment.name] at hsent
        have hunderstood := understood_of_listOneRequest hsha hgrammar hsent
        refine .inr ⟨_, request_respond hmoment.readable hunderstood, ?_⟩
        rw [hsends]
        exact ⟨service.keys, hmoment.stays, hmoment.ever, hmoment.page⟩
  | _ => trivial

-- What is handed over are keys that were there at some time, each once, and those
-- that stayed are among them or have been given up.
theorem handed_of_changes (hs : ∀ course : Course, course.sends = bucket.Sends → Explained course s)
    (hexit : s.manager.Exited) :
    (∀ key ∈ s.shared.handed.map Object.Key, ∃ x ∈ bucket.ever, key = some x) ∧
      (s.shared.handed.map Object.Key).Nodup ∧
      ∀ x ∈ bucket.stays, some x ∈ s.shared.handed.map Object.Key ∨ GivenUp s.shared.stderr x := by
  have hother {key : Option Str} (hkey : ∀ x ∈ bucket.ever, key ≠ some x) :
      key ∉ s.shared.handed.map Object.Key :=
    (hs (bucket.otherCourse key hkey) rfl).not_handed hexit (fun _ => rfl) (fun _ => rfl) rfl
  have hcourse (x : Str) := (hs (bucket.keyCourse x) rfl).handed_once hexit (fun _ => rfl) (fun _ => rfl) fun _ => rfl
  refine ⟨fun key hmem => ?_, List.nodup_iff_count_le_one.mpr fun key => ?_, fun x hx => (hcourse x).2 hx⟩
  · by_contra hnone
    push Not at hnone
    exact hother hnone hmem
  · cases key with
    | none =>
        rw [List.count_eq_zero_of_not_mem (hother (by simp))]
        exact Nat.zero_le 1
    | some x => exact (hcourse x).1

-- No prefix is listed twice.
theorem taken_of_changes (hs : ∀ course : Course, course.sends = bucket.Sends → Explained course s)
    (hexit : s.manager.Exited) : (s.shared.taken.map CommonPrefix.Prefix).Nodup := by
  apply List.nodup_iff_count_le_one.mpr
  intro y
  by_cases hy : ∃ q : Str, q.getLast? = some slash ∧ y = some q
  · obtain ⟨q, hq, rfl⟩ := hy
    obtain ⟨hmost, -⟩ := (hs (bucket.prefixCourse q hq) rfl).spent_bounds hexit
    simp only [Course.spent, ChangingBucket.prefixCourse, total_zero, Nat.add_zero, total_count, Option.getD_none,
      List.nil_prefix, if_true] at hmost
    exact hmost
  · push Not at hy
    obtain ⟨hmost, -⟩ := (hs (bucket.otherCallCourse y hy) rfl).spent_bounds hexit
    simp only [Course.spent, ChangingBucket.otherCallCourse, total_zero, Nat.add_zero, total_count] at hmost
    by_cases hroot : none = y <;> simp only [hroot, if_true, if_false] at hmost <;> omega

end Runs

-- A bucket may change all the time: what the crawl lists are keys that were there
-- at some time, each once, no prefix is listed twice, and a key that stays is
-- listed unless a line on stderr names a prefix of it.
theorem changes_tolerated (ext : Externals) (hsha : ∀ message, ext.sha256 message ≠ [])
    (hgrammar : ∀ target, Target.originForm target → ext.originForm target) (session : Session)
    (bucket : ChangingBucket) (config : Config) (s : Crawl)
    (h : Reach (step config) (bucket.RepliesIn ext session config) construct s)
    (hreturned : s.writer.state = .returned) :
    (s.shared.ended.map fun entry => entry.1.path.Prefix).Nodup ∧
      ∃ keys : List Str, keys.Nodup ∧ keys ⊆ bucket.ever ∧ s.shared.handed.map Object.Key = keys.map some ∧
        (∀ x ∈ bucket.stays, x ∈ keys ∨ GivenUp s.shared.stderr x) ∧
        ((∀ line ∈ s.shared.stderr, ¬ errorLine line) →
          bucket.stays ⊆ keys ∧
          ∃ objects : List Object, (objects.map Object.Key).Perm (keys.map some) ∧
            s.writer.output = objectsText config objects ∧
            (config.outputFormat = .PLAIN → (∀ key ∈ keys, newline ∉ key) →
              (records s.writer.output).Perm keys) ∧
            (config.outputFormat = .JSON → ∀ serialize parse,
              (∀ object, config.serialize object = serialize (valueFrom object)) →
              (∀ object ∈ objects, JsonText serialize parse object) →
              ((records s.writer.output).map fun record => (parse record).bind keyMember).Perm
                (keys.map some))) := by
  have hfree : Reach (freeStep config) (fun _ _ => True) construct s := reach_free h.reachable
  have hreporting : Reporting s :=
    hfree.invariant reporting_construct fun _ _ _ _ hs ht => reporting_step hs ht
  have hexit := hreporting.unsignalled.exited hreturned
  have hexplained (course : Course) (hsends : course.sends = bucket.Sends) : Explained course s :=
    h.invariant explained_construct fun _ _ _ hreplies hs ht =>
      explained_step (hreplies.course hsha hgrammar hsends) hs ht
  obtain ⟨hkeys, hnodup, hmissing⟩ := handed_of_changes hexplained hexit
  have hended := ((hexplained (bucket.otherCourse none (by simp)) rfl).accounted.ended_perm hexit).map
    CommonPrefix.Prefix
  rw [Shared.endedPaths, List.map_map] at hended
  refine ⟨hended.nodup_iff.mpr (taken_of_changes hexplained hexit), ?_⟩
  obtain ⟨keys, hhanded⟩ : s.shared.handed.map Object.Key ∈ Set.range (List.map (some : Str → Option Str)) := by
    rw [Set.range_list_map]
    intro key hkey
    obtain ⟨x, -, rfl⟩ := hkeys key hkey
    exact ⟨x, rfl⟩
  rw [← hhanded] at hkeys hnodup hmissing
  have hmem (x : Str) : some x ∈ keys.map some ↔ x ∈ keys := List.mem_map_of_injective (Option.some_injective _)
  have hever : keys ⊆ bucket.ever := by
    intro x hx
    obtain ⟨y, hy, heq⟩ := hkeys (some x) ((hmem x).mpr hx)
    obtain rfl := Option.some.inj heq
    exact hy
  have hlisted : ∀ x ∈ bucket.stays, x ∈ keys ∨ GivenUp s.shared.stderr x :=
    fun x hx => (hmissing x hx).imp (hmem x).mp id
  refine ⟨keys, (List.nodup_map_iff (Option.some_injective _)).mp hnodup, hever, hhanded.symm, hlisted,
    fun hsilent => ⟨fun x hx => (hlisted x hx).resolve_right ?_, ?_⟩⟩
  · rintro ⟨path, hline, -⟩
    exact hsilent _ hline (errorLine_append _)
  · obtain ⟨objects, hobjects, houtput⟩ := output_of_reporting h.reachable hreporting hreturned hsilent
    have hperm : (objects.map Object.Key).Perm (keys.map some) := by
      rw [hhanded]
      exact hobjects.map Object.Key
    refine ⟨objects, hperm, houtput, ?_⟩
    rw [houtput]
    exact records_of_keys hperm

theorem next_ne_nil : ascii "next" ≠ [] := by decide

-- The keys come on a first page and the prefixes on a second.
def twoParts (keys : List Str) (p : Str) (token : Option Str) : ListingPage where
  objects := if token = none then (direct slash keys p).map fun key => ⟨key, [], 1, one_fits⟩ else []
  prefixes := if token = none then [] else below slash keys p
  delimiter := some ⟨ascii "/", slash_ne_nil⟩
  token := if token = none then none else some ⟨ascii "next", next_ne_nil⟩
  nextToken := if token = none then some ⟨ascii "next", next_ne_nil⟩ else none
  Prefix := some p

theorem ofListing_keys (page : ListingPage) :
    (Page.ofListing page).contents.map Object.Key = (page.objects.map ListedObject.key).map some := by
  by_cases hempty : page.objects = [] <;>
    simp [Page.ofListing, Page.ofV2, ListingPage.resultV2, ListingPage.contents, hempty, ListedObject.object]

theorem ofListing_prefixes (page : ListingPage) :
    (Page.ofListing page).commonPrefixes.map CommonPrefix.Prefix = page.prefixes.map some := by
  by_cases hempty : page.prefixes = [] <;>
    simp [Page.ofListing, Page.ofV2, ListingPage.resultV2, ListingPage.commonPrefixes, hempty]

theorem twoParts_listing (keys : List Str) (p : Str) :
    ∃ pages, Chain (fun token => .ofListing (twoParts keys p token)) none pages ∧ Listing keys p pages := by
  refine ⟨_, .more rfl (.last rfl), ?_, ?_, ?_⟩
  · simp [ofListing_keys, twoParts, Function.comp_def]
  · simp [ofListing_prefixes, twoParts]
  · simp [Page.ofListing, Page.ofV2, ListingPage.resultV2, twoParts]

theorem twoParts_cuts {keys : List Str} (hkeys : keys.Nodup) (p : Str) (token : Option Str) :
    (Page.ofListing (twoParts keys p token)).Cuts (fun p _ entry => Direct slash p entry) keys p token := by
  have hdirect : ∀ x ∈ direct slash keys p, Direct slash p x := fun x hx =>
    of_decide_eq_true (List.mem_filter.mp hx).2
  have hbelow : ∀ c ∈ below slash keys p, ¬ Direct slash p c := by
    intro c hc hdirect
    obtain ⟨k, -, -, rfl⟩ := mem_below_iff.mp hc
    exact hdirect.2 ((child_prefix_iff p k _).mp List.prefix_rfl).1.2
  refine ⟨⟨_, _, ofListing_keys _, ofListing_prefixes _, ?_⟩, ?_⟩
  · cases token with
    | none =>
        refine ⟨?_, fun x => ?_, ?_, fun c => ?_, ?_⟩
        · simpa [twoParts, Function.comp_def, direct] using hkeys.filter _
        · simpa [twoParts, Function.comp_def, Between, Passed, Page.ofListing, Page.ofV2,
            ListingPage.resultV2] using hdirect x
        · simp [twoParts]
        · simpa [twoParts, Between, Passed, Page.ofListing, Page.ofV2, ListingPage.resultV2] using hbelow c
        · rintro t - entry ⟨t', ht', -⟩
          cases ht'
    | some t =>
        refine ⟨?_, fun x => ?_, ?_, fun c => ?_, ?_⟩
        · simp [twoParts]
        · simpa [twoParts, Between, Passed, Page.ofListing, Page.ofV2, ListingPage.resultV2] using hdirect x
        · simpa [twoParts, below] using List.nodup_dedup _
        · simpa [twoParts, Between, Passed, Page.ofListing, Page.ofV2, ListingPage.resultV2] using hbelow c
        · intro t' ht'
          cases ht'
  · intro t
    cases token <;> simp [twoParts, Page.ofListing, Page.ofV2, ListingPage.resultV2]

theorem twoParts_readable {keys : List Str} (hkeys : ∀ key ∈ keys, Legible key) (p : Str) (token : Option Str) :
    (twoParts keys p token).Readable := by
  have hnext : Legible (ascii "next") := by decide
  have hdelimiter : Legible (ascii "/") := by decide
  cases token with
  | none =>
      refine ⟨fun listed hlisted => ?_, by simp [twoParts], by simp [twoParts, hdelimiter], by simp [twoParts],
        by simp [twoParts, hnext]⟩
      obtain ⟨key, hkey, rfl⟩ := List.mem_map.mp hlisted
      exact ⟨hkeys key (List.mem_of_mem_filter hkey), .inl rfl⟩
  | some token =>
      refine ⟨by simp [twoParts], ?_, by simp [twoParts, hdelimiter], by simp [twoParts, hnext], by simp [twoParts]⟩
      simpa [twoParts] using legible_below

def twoPartsService (keys : List Str) (nodup : keys.Nodup) : Service where
  bucket := ascii "a?b"
  keys := keys
  nodup := nodup
  page p token := twoParts keys p token
  faithful := twoParts_listing keys

theorem later_nodup : [ascii "b/c", ascii "b/d"].Nodup := by decide

-- While the crawl runs the key "a" is deleted and "b/d" is put.
def earlier : Service := twoPartsService [ascii "a", ascii "b/c"] twoKeys_nodup

def later : Service := twoPartsService [ascii "b/c", ascii "b/d"] later_nodup

def movingBucket : ChangingBucket where
  name := ascii "a?b"
  stays := [ascii "b/c"]
  ever := [ascii "a", ascii "b/c", ascii "b/d"]
  passed p _ entry := Direct slash p entry

def returnedBy (service : Service) (path : CommonPrefix) (token : Option Str) : Response :=
  match listOneRequest targetExternals uploadSession uploadTime defaultConfig service.bucket path token with
  | .ok sent => service.respond targetExternals uploadSession sent
  | .error _ => .failed []

-- The bucket changes between the two pages of the root.
def changingRun : List Action :=
  let next := some (ascii "next")
  let child : CommonPrefix := ⟨some (ascii "b/")⟩
  firstTick ++ workerSteps 0 4 ++ [.worker 0 0 (returnedBy earlier ⟨none⟩ none)] ++ workerSteps 0 5 ++
    [.worker 0 0 (returnedBy later ⟨none⟩ next)] ++ workerSteps 0 9 ++ [.worker 0 1 (.failed [])] ++
    workerSteps 0 2 ++ [.worker 0 0 (returnedBy later child none)] ++ workerSteps 0 5 ++
    [.worker 0 0 (returnedBy later child next)] ++ workerSteps 0 7 ++ List.replicate 6 (.manager 0) ++
    [.writer none, .writerTimer] ++ List.replicate 7 (.writer none) ++ List.replicate 2 (.manager 0) ++
    List.replicate 2 (.writer none)

def changes (s : Crawl) : Action → Bool
  | .worker index _ response =>
      match s.workers[index]? with
      | some (.listOne call token _) =>
          response = .failed [] || response = returnedBy earlier call.path token ||
            response = returnedBy later call.path token
      | _ => true
  | _ => true

theorem moment_of_twoParts {keys : List Str} (nodup : keys.Nodup) (hstays : movingBucket.stays ⊆ keys)
    (hever : keys ⊆ movingBucket.ever) (path : CommonPrefix) (token : Option Str) :
    movingBucket.Moment path token (twoPartsService keys nodup) :=
  have hkeys : ∀ key ∈ movingBucket.ever, Legible key := by decide
  ⟨rfl, hstays, hever, twoParts_cuts nodup _ token, twoParts_readable (fun key hkey => hkeys key (hever hkey)) _ token⟩

theorem replies_of_moment {service : Service} {path : CommonPrefix} {token : Option Str}
    (h : movingBucket.Moment path token service)
    (hparsed : (returnedBy service path token).parsed = returnedBy service path token) :
    movingBucket.Replies targetExternals uploadSession defaultConfig path token (returnedBy service path token) := by
  obtain ⟨sent, hsent, -⟩ := @listOneRequest_understood targetExternals uploadSession
    (fun _ => by simp [targetExternals, uploadExternals]) (fun _ h => h) uploadTime defaultConfig
    service.bucket path token
  refine .inr ⟨service, uploadTime, sent, h, ?_, ?_⟩
  · rw [← h.name]
    exact hsent
  · rw [returnedBy, hsent] at hparsed ⊢
    exact hparsed.symm

theorem repliesIn_of_changes {s : Crawl} {action : Action} (h : (changes s action && parses action) = true) :
    movingBucket.RepliesIn targetExternals uploadSession defaultConfig s action := by
  obtain ⟨h, hparses⟩ := Bool.and_eq_true_iff.mp h
  cases action with
  | worker index choice response =>
      intro call token retries hw
      simp only [changes, hw, Bool.or_eq_true, decide_eq_true_eq] at h
      rcases h with (rfl | rfl) | rfl
      · exact .inl trivial
      · exact replies_of_moment (moment_of_twoParts _ (by decide) (by decide) call.path token) (of_decide_eq_true hparses)
      · exact replies_of_moment (moment_of_twoParts _ (by decide) (by decide) call.path token) (of_decide_eq_true hparses)
  | _ => trivial

-- Also the key that was there for the first page only has been listed.
theorem changes_tolerated_moving :
    ∃ s : Crawl, s.writer.state = .returned ∧
      s.shared.handed.map Object.Key = [ascii "a", ascii "b/c", ascii "b/d"].map some ∧
      (records s.writer.output).Perm [ascii "a", ascii "b/c", ascii "b/d"] := by
  have hrun : (run (guarded (step defaultConfig) fun s action => changes s action && parses action) construct
      changingRun).map (fun s => decide (s.writer.state = .returned ∧ s.shared.stderr = [] ∧
        s.shared.handed.map Object.Key = [ascii "a", ascii "b/c", ascii "b/d"].map some)) =
      some true := by decide +kernel
  obtain ⟨s, hs, hfacts⟩ := Option.map_eq_some_iff.mp hrun
  obtain ⟨hreturned, hstderr, hhanded⟩ := of_decide_eq_true hfacts
  obtain ⟨-, keys, -, -, hkeys, -, houtput⟩ := changes_tolerated targetExternals
    (fun _ => by simp [targetExternals, uploadExternals]) (fun _ h => h) uploadSession movingBucket defaultConfig s
    ((Reach.of_run hs).mono fun _ _ h => repliesIn_of_changes h) hreturned
  obtain rfl := (List.map_injective_iff.mpr (Option.some_injective Str)) (hkeys.symm.trans hhanded)
  obtain ⟨-, objects, -, -, hplain, -⟩ := houtput (by simp [hstderr])
  exact ⟨s, hreturned, hhanded, hplain rfl (by decide)⟩

end S3Cpp.Tools.ListAllObjects
