import S3Cpp.Tools.ListAllObjects.Service
import S3Cpp.Tools.ListAllObjects.Worker.Records
import S3Cpp.Tools.ListAllObjects.WorkerManager.Output
import S3Cpp.Tools.ListAllObjects.WorkerManager.Tallies

namespace S3Cpp.Tools.ListAllObjects

open Aws.S3 Aws.S3.Client Aws.Iam Library Library.Delimited Library.Http Library.Transition

-- What comes back for an attempt: the service's answer to the request as it is
-- sent, or an error of the connection before the last retry.
def Service.Returns (service : Service) (ext : Externals) (session : Session) (config : Config)
    (path : CommonPrefix) (token : Option Str) (retries : Nat) (response : Response) : Prop :=
  (retries < maxRetries ∧ ∃ what, response = .failed what) ∨
    ∃ now sent, listOneRequest ext session now config service.bucket path token = .ok sent ∧
      response = service.respond ext session sent

-- A step of a crawl that is connected to the service and gets the trees of its
-- documents as they are, with no write that fails.
def Service.Connected (service : Service) (ext : Externals) (session : Session) (config : Config)
    (s : Crawl) : Action → Prop
  | .worker index _ response => ∀ call token retries, s.workers[index]? = some (.listOne call token retries) →
      service.Returns ext session config call.path token retries response
  | .writer failure => failure = none
  | _ => True

-- The same where the parser stands between what comes back and the crawl.
def Service.Delivers (service : Service) (ext : Externals) (session : Session) (config : Config)
    (s : Crawl) : Action → Prop
  | .worker index _ response => ∀ call token retries, s.workers[index]? = some (.listOne call token retries) →
      ∃ answer, service.Returns ext session config call.path token retries answer ∧ response = answer.parsed
  | .writer failure => failure = none
  | _ => True

section Connected

variable {ext : Externals} {session : Session} {service : Service} {config : Config} {s : Crawl}
  (hsha : ∀ message, ext.sha256 message ≠ [])
  (hgrammar : ∀ target, Target.originForm target → ext.originForm target)

include hsha hgrammar

-- What the wire brings is an answer of the abstract server.
theorem Service.Returns.answers {path : CommonPrefix} {token : Option Str} {retries : Nat} {response : Response}
    (h : service.Returns ext session config path token retries response) :
    service.server.answers config path token retries response = true := by
  rcases h with ⟨hretries, what, rfl⟩ | ⟨now, sent, hsent, rfl⟩
  · have hfailed : request config.apiVersion (.failed what) = .unexpected (.transport what) := by
      cases config.apiVersion <;> rfl
    simpa only [Server.answers, hfailed, decide_eq_true_eq] using hretries
  · have hunderstood := understood_of_listOneRequest hsha hgrammar hsent
    rw [Server.answers, respond_of_understood service hunderstood, request_listingDocument]
    exact decide_eq_true rfl

theorem Service.Returns.answers_parsed (hreadable : service.Readable) {path : CommonPrefix} {token : Option Str}
    {retries : Nat} {response : Response} (h : service.Returns ext session config path token retries response) :
    service.server.answers config path token retries response.parsed = true := by
  rcases h with hfailed | ⟨now, sent, hsent, rfl⟩
  · have hreturns : service.Returns ext session config path token retries response := .inl hfailed
    obtain ⟨-, what, rfl⟩ := hfailed
    exact hreturns.answers hsha hgrammar
  · have hunderstood := understood_of_listOneRequest hsha hgrammar hsent
    rw [Server.answers, request_respond (hreadable _ _) hunderstood]
    exact decide_eq_true rfl

theorem Service.Connected.serves {action : Action} (h : service.Connected ext session config s action) :
    service.server.serves config s (.crawl action) = true := by
  cases action with
  | worker index choice response =>
      unfold Server.serves
      dsimp only
      split
      · rename_i call token retries hw
        exact (h call token retries hw).answers hsha hgrammar
      · rfl
  | _ => rfl

theorem Service.Delivers.serves (hreadable : service.Readable) {action : Action}
    (h : service.Delivers ext session config s action) : service.server.serves config s (.crawl action) = true := by
  cases action with
  | worker index choice response =>
      unfold Server.serves
      dsimp only
      split
      · rename_i call token retries hw
        obtain ⟨answer, hanswer, rfl⟩ := h call token retries hw
        exact hanswer.answers_parsed hsha hgrammar hreadable
      · rfl
  | _ => rfl

theorem crawled_of_connected
    (h : Reach (step config) (service.Connected ext session config) construct s) :
    service.server.Crawled config s :=
  reach_free (h.mono fun _ _ hconnected => hconnected.serves hsha hgrammar)

theorem crawled_of_delivers (hreadable : service.Readable)
    (h : Reach (step config) (service.Delivers ext session config) construct s) :
    service.server.Crawled config s :=
  reach_free (h.mono fun _ _ hdelivers => hdelivers.serves hsha hgrammar hreadable)

omit hsha hgrammar

theorem collected_of_writes {allowed : Crawl → Action → Prop} (h : Reach (step config) allowed construct s)
    (hwrites : ∀ t failure, allowed t (.writer failure) → failure = none) : Collected s := by
  have hreach : Reach (freeStep config) (fun _ action => writesSucceed action = true) construct s := by
    refine reach_free (h.mono fun t action hallowed => ?_)
    cases action with
    | writer failure =>
        obtain rfl := hwrites t failure hallowed
        rfl
    | _ => rfl
  exact hreach.invariant collected_construct fun _ _ _ hsucceed hs ht => collected_step hsucceed hs ht

theorem collected_of_connected
    (h : Reach (step config) (service.Connected ext session config) construct s) : Collected s :=
  collected_of_writes h fun _ _ hwriter => hwriter

theorem collected_of_delivers
    (h : Reach (step config) (service.Delivers ext session config) construct s) : Collected s :=
  collected_of_writes h fun _ _ hwriter => hwriter

end Connected

theorem objectsText_flatten (config : Config) (batches : List (List Object)) :
    objectsText config batches.flatten = batches.flatMap (objectsText config) := by
  have happend (objects others : List Object) :
      objectsText config (objects ++ others) = objectsText config objects ++ objectsText config others := by
    unfold objectsText
    cases config.outputFormat <;> exact List.flatMap_append
  induction batches with
  | nil =>
      unfold objectsText
      cases config.outputFormat <;> rfl
  | cons batch batches ih => rw [List.flatten_cons, happend, ih, List.flatMap_cons]

-- A file of all the texts pushed, in any order, is the text of all that was handed
-- over.
theorem output_of_texts {config : Config} {s : Crawl} (h : ReachableCrawl config s) {texts : List Str}
    (htexts : texts.Perm s.shared.written) (houtput : s.writer.output = texts.flatten) :
    ∃ objects : List Object, objects.Perm s.shared.handed ∧ s.writer.output = objectsText config objects := by
  let batches := s.calls.flatMap Call.handed
  have hwritten : texts.Perm ((batches.map (objectsText config)).filter (· ≠ [])) := by
    have hcalls : (batches.map (objectsText config)).filter (· ≠ []) =
        s.calls.flatMap fun call => call.texts config := by
      rw [List.map_flatMap, List.filter_flatMap]
      rfl
    rw [hcalls]
    exact htexts.trans (written_perm_calls h)
  obtain ⟨order, horder, hflatten⟩ := Outbox.flatten_of_perm hwritten
  have hhanded : batches.flatten = s.calls.flatMap fun call => call.handed.flatten := by
    simp only [batches, List.flatten_eq_flatMap, List.flatMap_assoc]
  refine ⟨order.flatten, ?_, ?_⟩
  · have hperm := handed_perm_calls h
    rw [← hhanded] at hperm
    exact horder.flatten.trans hperm.symm
  · rw [houtput, hflatten, objectsText_flatten]

-- Once the writer has returned the file is the text of all that was handed over.
theorem output_of_collected {config : Config} {s : Crawl} (h : ReachableCrawl config s) (hs : Collected s)
    (hreturned : s.writer.state = .returned) :
    ∃ objects : List Object, objects.Perm s.shared.handed ∧ s.writer.output = objectsText config objects := by
  obtain ⟨texts, htexts, houtput⟩ :=
    hs.intact.complete (by simp [Crawl.outbox, hreturned, WriterState.inHand]) (hs.emptied hreturned)
  exact output_of_texts h htexts houtput

-- A reader finds the keys of the objects whose text it is given.
theorem records_of_keys {config : Config} {keys : List Str} {objects : List Object}
    (hperm : (objects.map Object.Key).Perm (keys.map some)) :
    (config.outputFormat = .PLAIN → (∀ key ∈ keys, newline ∉ key) →
        (records (objectsText config objects)).Perm keys) ∧
      (config.outputFormat = .JSON → ∀ serialize parse,
        (∀ object, config.serialize object = serialize (valueFrom object)) →
        (∀ object ∈ objects, JsonText serialize parse object) →
        ((records (objectsText config objects)).map fun record => (parse record).bind keyMember).Perm
          (keys.map some)) := by
  have hkeys : ∀ object ∈ objects, ∃ key ∈ keys, object.Key = some key := by
    intro object hobject
    obtain ⟨key, hkey, heq⟩ := List.mem_map.mp (hperm.subset (List.mem_map_of_mem hobject))
    exact ⟨key, hkey, heq.symm⟩
  have hsome : ∀ object ∈ objects, object.Key.isSome := by
    intro object hobject
    obtain ⟨key, -, hkey⟩ := hkeys object hobject
    rw [hkey]
    rfl
  refine ⟨fun hformat hlines => ?_, fun hformat serialize parse hserialize hjson => ?_⟩
  · have hone : ∀ object ∈ objects, OneLine object := by
      intro object hobject
      obtain ⟨key, hmem, hkey⟩ := hkeys object hobject
      simpa [OneLine, hkey] using hlines key hmem
    have hreads := (@readsBack_plain_iff config (fun _ => none) objects hformat hsome).mpr hone
    have hrecord : recordKey config.outputFormat (fun _ => none) = some := by
      funext record
      simp only [recordKey, hformat]
    have hmap := hreads.keys
    rw [hrecord] at hmap
    exact (List.map_perm_map_iff (Option.some_injective _)).mp (hmap ▸ hperm)
  · have hreads := readsBack_json hformat hserialize hjson
    have hrecord : recordKey config.outputFormat parse = fun record => (parse record).bind keyMember := by
      funext record
      simp only [recordKey, hformat]
    have hmap := hreads.keys
    rw [hrecord] at hmap
    rw [hmap]
    exact hperm

-- The tool does what it is for: when the writer has returned, the file holds
-- every key of the bucket once, however the service cuts its pages into documents,
-- the workers interleave and connections fail, and a reader finds them there.
theorem output_delivered (ext : Externals) (hsha : ∀ message, ext.sha256 message ≠ [])
    (hgrammar : ∀ target, Target.originForm target → ext.originForm target) (session : Session)
    (service : Service) (hreadable : service.Readable) (config : Config) (s : Crawl)
    (h : Reach (step config) (service.Delivers ext session config) construct s)
    (hreturned : s.writer.state = .returned) :
    ∃ objects : List Object, (objects.map Object.Key).Perm (service.keys.map some) ∧
      s.writer.output = objectsText config objects ∧
      (config.outputFormat = .PLAIN → (∀ key ∈ service.keys, newline ∉ key) →
        (records s.writer.output).Perm service.keys) ∧
      (config.outputFormat = .JSON → ∀ serialize parse,
        (∀ object, config.serialize object = serialize (valueFrom object)) →
        (∀ object ∈ objects, JsonText serialize parse object) →
        ((records s.writer.output).map fun record => (parse record).bind keyMember).Perm
          (service.keys.map some)) := by
  have hcollected := collected_of_delivers h
  have hexit := hcollected.unsignalled.exited hreturned
  obtain ⟨objects, hobjects, houtput⟩ := output_of_collected h.reachable hcollected hreturned
  have hperm : (objects.map Object.Key).Perm (service.keys.map some) :=
    (hobjects.map Object.Key).trans ((crawled_of_delivers hsha hgrammar hreadable h).handed_perm hexit)
  refine ⟨objects, hperm, houtput, ?_⟩
  rw [houtput]
  exact records_of_keys hperm

theorem one_fits : 1 < 2 ^ 64 := Nat.one_lt_two_pow (by decide)

theorem slash_ne_nil : ascii "/" ≠ [] := by decide

-- All that a bucket has for a prefix on one page.
def wholePage (keys : List Str) (p : Str) : ListingPage where
  objects := (direct slash keys p).map fun key => ⟨key, [], 1, one_fits⟩
  prefixes := below slash keys p
  delimiter := some ⟨ascii "/", slash_ne_nil⟩
  token := none
  nextToken := none
  Prefix := some p

theorem wholePage_listing (keys : List Str) (p : Str) :
    ∃ pages, Chain (fun _ => .ofListing (wholePage keys p)) none pages ∧ Listing keys p pages := by
  refine ⟨_, .last rfl, ?_, ?_, by simp [Page.ofListing, Page.ofV2, ListingPage.resultV2, wholePage]⟩
  · by_cases hempty : direct slash keys p = []
    · simp [Page.ofListing, Page.ofV2, ListingPage.resultV2, ListingPage.contents, wholePage, hempty]
    · simp [Page.ofListing, Page.ofV2, ListingPage.resultV2, ListingPage.contents, wholePage, hempty,
        ListedObject.object, Function.comp_def]
  · by_cases hempty : below slash keys p = []
    · simp [Page.ofListing, Page.ofV2, ListingPage.resultV2, ListingPage.commonPrefixes, wholePage, hempty]
    · simp [Page.ofListing, Page.ofV2, ListingPage.resultV2, ListingPage.commonPrefixes, wholePage, hempty,
        Function.comp_def]

theorem twoKeys_nodup : [ascii "a", ascii "b/c"].Nodup := by decide

def twoKeysService : Service where
  bucket := ascii "a?b"
  keys := [ascii "a", ascii "b/c"]
  nodup := twoKeys_nodup
  page p _ := wholePage [ascii "a", ascii "b/c"] p
  faithful := wholePage_listing [ascii "a", ascii "b/c"]

theorem legible_below {keys : List Str} {p : Str} : ∀ text ∈ below slash keys p, Xml.Legible text := by
  intro text htext
  obtain ⟨key, -, -, rfl⟩ := mem_below_iff.mp htext
  exact Xml.legible_of_mem (b := slash) (by simp [child]) (by decide)

theorem wholePage_readable {keys : List Str} (hkeys : ∀ key ∈ keys, Xml.Legible key) (p : Str) :
    (wholePage keys p).Readable where
  objects listed hlisted := by
    obtain ⟨key, hkey, rfl⟩ := List.mem_map.mp hlisted
    exact ⟨hkeys key (List.mem_of_mem_filter hkey), .inl rfl⟩
  prefixes := legible_below
  delimiter text htext := by
    obtain rfl := Option.some.inj htext
    decide
  token text htext := by cases htext
  nextToken text htext := by cases htext

theorem twoKeysService_readable : twoKeysService.Readable := fun p _ => wholePage_readable (by decide) p

def returned (path : CommonPrefix) (token : Option Str) : Response :=
  match listOneRequest targetExternals uploadSession uploadTime defaultConfig twoKeysService.bucket path token with
  | .ok sent => twoKeysService.respond targetExternals uploadSession sent
  | .error _ => .failed []

-- The first attempt for the prefix fails.
def deliveringRun : List Action :=
  firstTick ++ workerSteps 0 4 ++ [.worker 0 0 (returned ⟨none⟩ none)] ++ workerSteps 0 9 ++
    [.worker 0 1 (.failed [])] ++ workerSteps 0 3 ++ [.worker 0 0 (returned ⟨some (ascii "b/")⟩ none)] ++
    workerSteps 0 7 ++ List.replicate 6 (.manager 0) ++ [.writer none, .writerTimer] ++
    List.replicate 7 (.writer none) ++ List.replicate 2 (.manager 0) ++ List.replicate 2 (.writer none)

def connects (s : Crawl) : Action → Bool
  | .worker index _ response =>
      match s.workers[index]? with
      | some (.listOne call token retries) =>
          response = .failed [] && retries < maxRetries || response = returned call.path token
      | _ => true
  | .writer failure => failure.isNone
  | _ => true

theorem connected_of_connects {s : Crawl} {action : Action} (h : connects s action = true) :
    twoKeysService.Connected targetExternals uploadSession defaultConfig s action := by
  cases action with
  | worker index choice response =>
      intro call token retries hw
      simp only [connects, hw, Bool.or_eq_true, Bool.and_eq_true, decide_eq_true_eq] at h
      rcases h with ⟨hfailed, hretries⟩ | hreturned
      · exact .inl ⟨hretries, [], hfailed⟩
      · obtain ⟨sent, hsent, -⟩ := @listOneRequest_understood targetExternals uploadSession
          (fun _ => by simp [targetExternals, uploadExternals]) (fun _ h => h) uploadTime defaultConfig
          twoKeysService.bucket call.path token
        refine .inr ⟨uploadTime, sent, hsent, ?_⟩
        rw [hreturned, returned, hsent]
  | writer failure => exact Option.isNone_iff_eq_none.mp h
  | _ => trivial

-- The responses of the run hold no text that parsing drops.
def parses : Action → Bool
  | .worker _ _ response => response.parsed = response
  | _ => true

theorem delivers_of_connects {s : Crawl} {action : Action} (h : (connects s action && parses action) = true) :
    twoKeysService.Delivers targetExternals uploadSession defaultConfig s action := by
  obtain ⟨hconnects, hparses⟩ := Bool.and_eq_true_iff.mp h
  have hconnected := connected_of_connects hconnects
  cases action with
  | worker index choice response =>
      intro call token retries hw
      exact ⟨response, hconnected call token retries hw, (of_decide_eq_true hparses).symm⟩
  | writer failure => exact hconnected
  | _ => trivial

theorem output_delivered_twoKeys :
    ∃ s, Reach (step defaultConfig) (twoKeysService.Delivers targetExternals uploadSession defaultConfig)
        construct s ∧ s.writer.state = .returned ∧
      (records s.writer.output).Perm [ascii "a", ascii "b/c"] := by
  have hrun : (run (guarded (step defaultConfig) fun s action => connects s action && parses action) construct
      deliveringRun).map (fun s => decide (s.writer.state = .returned)) = some true := by decide +kernel
  obtain ⟨s, hs, hreturned⟩ := Option.map_eq_some_iff.mp hrun
  have hreturned := of_decide_eq_true hreturned
  have hdelivers := (Reach.of_run hs).mono fun _ _ h => delivers_of_connects h
  obtain ⟨objects, -, -, hplain, -⟩ := output_delivered targetExternals
    (fun _ => by simp [targetExternals, uploadExternals]) (fun _ h => h) uploadSession twoKeysService
    twoKeysService_readable defaultConfig s hdelivers hreturned
  exact ⟨s, hdelivers, hreturned, hplain rfl (by decide)⟩

end S3Cpp.Tools.ListAllObjects
