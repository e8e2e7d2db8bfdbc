import S3Cpp.Tools.ListAllObjects.WorkerManager.Courses
import S3Cpp.Tools.ListAllObjects.WorkerManager.Liveness

namespace S3Cpp.Tools.ListAllObjects

open Aws.S3 Aws.S3.Client Aws.Iam Library Library.Delimited Library.Http Library.Population Library.Transition
open Library.Xml

-- A response that holds no listing: an error of the connection, a body that is not
-- XML, or a document about something else.
def Unlisted : Response → Prop
  | .failed _ => True
  | .received (.unparsable _) => True
  | .received (.document document) => document.child (ascii "ListBucketResult") = none

theorem request_unlisted (version : ListObjectsApiVersion) {response : Response} (h : Unlisted response) :
    ∃ error, request version response = .unexpected error := by
  cases response with
  | failed error => cases version <;> exact ⟨_, rfl⟩
  | received body =>
      cases body with
      | unparsable status => cases version <;> exact ⟨_, rfl⟩
      | document document =>
          have hnone : document.child (ascii "ListBucketResult") = none := h
          refine ⟨.parse statusFileNotFound, ?_⟩
          cases version with
          | V1 => simp only [request, listObjects, outcome, parseListObjectsV1, hnone]
          | V2 => simp only [request, listObjectsV2, outcome, parseListObjectsV2, hnone]

section Server

variable (server : Server) (ledger : Ledger server.keys)

theorem remaining_of_going {path : CommonPrefix} {token : Option Str} (h : server.Going path token) :
    total ledger.pageDebt (server.pagesFrom path token) =
      ledger.pageDebt (server.answer (path.Prefix.getD []) token) +
        (server.answer (path.Prefix.getD []) token).nextToken.elim 0 fun next =>
          total ledger.pageDebt (server.pagesFrom path (some next)) := by
  rw [laterDebt_of_going ledger h, Server.laterDebt]
  cases (server.answer (path.Prefix.getD []) token).nextToken <;> rfl

-- A faithful server sends what a ledger counts, and nothing gets lost on the way.
noncomputable def Server.course : Course where
  call := ledger.call
  key := ledger.key
  share := ledger.share
  sends path token page := page = server.answer (path.Prefix.getD []) token
  valid path token :=
    server.Going path token ∧ total ledger.pageDebt (server.pagesFrom path token) ≤ ledger.share path.Prefix
  remaining path token := total ledger.pageDebt (server.pagesFrom path token)
  steady := True
  start path := by
    have hshare := share_eq ledger path
    exact ⟨(server.going_none path).1, by omega⟩
  opens path := (share_eq ledger path).symm
  bounded path token h := h.2
  fresh := by
    rintro path token page ⟨hgoing, -⟩ rfl
    exact (Server.Going.page server hgoing).1
  next := by
    rintro path token page ⟨hgoing, hbound⟩ rfl next hnext
    have hpage := (Server.Going.page server hgoing).2
    have hremaining := remaining_of_going server ledger hgoing
    rw [hnext] at hpage hremaining
    simp only [Option.elim_some] at hremaining
    exact ⟨hpage.1, by omega⟩
  spends := by
    rintro path token page ⟨hgoing, -⟩ rfl
    exact (remaining_of_going server ledger hgoing).ge
  keeps := by
    rintro - path token page ⟨hgoing, -⟩ rfl
    exact (remaining_of_going server ledger hgoing).le

end Server

-- The call for some prefix of the key has given up, and has said so.
def GivenUp (lines : List Str) (key : Str) : Prop :=
  ∃ path : CommonPrefix, errorNoSuccess path ∈ lines ∧ path.Prefix.getD [] <+: key

section Handed

variable {s : Crawl}

-- Where a course counts a key, the key is handed over at most once, and if nothing
-- slips away it is handed over or given up.
theorem Explained.handed_once {course : Course} {x : Str} (hs : Explained course s) (hexit : s.manager.Exited)
    (hcall : ∀ path, course.call path = 0) (hkey : ∀ y, course.key y = if y = some x then 1 else 0)
    (hshare : ∀ path, course.share path = if path.getD [] <+: x then 1 else 0) :
    (s.shared.handed.map Object.Key).count (some x) ≤ 1 ∧
      (course.steady → some x ∈ s.shared.handed.map Object.Key ∨ GivenUp s.shared.stderr x) := by
  obtain ⟨hmost, hleast⟩ := hs.spent_bounds hexit
  have hspent : course.spent s.shared = (s.shared.handed.map Object.Key).count (some x) := by
    rw [Course.spent, funext hcall, funext hkey, total_zero, Nat.zero_add, total_count]
  have hroot : course.share none = 1 := (hshare none).trans (if_pos List.nil_prefix)
  rw [hspent, hroot] at hmost hleast
  refine ⟨hmost, fun hsteady => (hleast hsteady).imp List.count_pos_iff.mp ?_⟩
  rintro ⟨path, hline, hpos⟩
  rw [hshare] at hpos
  by_cases hbelow : path.Prefix.getD [] <+: x
  · exact ⟨path, hline, hbelow⟩
  · rw [if_neg hbelow] at hpos
    exact absurd hpos (Nat.lt_irrefl 0)

-- Where a course counts what is not in its share, that is not handed over.
theorem Explained.not_handed {course : Course} {y : Option Str} (hs : Explained course s) (hexit : s.manager.Exited)
    (hcall : ∀ path, course.call path = 0) (hkey : ∀ z, course.key z = if z = y then 1 else 0)
    (hshare : course.share none = 0) : y ∉ s.shared.handed.map Object.Key := by
  obtain ⟨hmost, -⟩ := hs.spent_bounds hexit
  rw [Course.spent, funext hcall, funext hkey, total_zero, Nat.zero_add, total_count, hshare] at hmost
  exact List.count_eq_zero.mp (Nat.le_zero.mp hmost)

variable {server : Server}

-- Every key is handed over once, or is given up, and nothing else is handed over.
theorem handed_or_givenUp (hs : ∀ ledger : Ledger server.keys, Explained (server.course ledger) s)
    (hexit : s.manager.Exited) :
    (∀ key ∈ s.shared.handed.map Object.Key, ∃ x ∈ server.keys, key = some x) ∧
      (s.shared.handed.map Object.Key).Nodup ∧
      ∀ x ∈ server.keys, some x ∈ s.shared.handed.map Object.Key ∨ GivenUp s.shared.stderr x := by
  have hother {y : Option Str} (hy : ∀ x ∈ server.keys, y ≠ some x) : y ∉ s.shared.handed.map Object.Key :=
    (hs (otherLedger y hy)).not_handed hexit (fun _ => rfl) (fun _ => rfl) rfl
  have hkey {x : Str} (hx : x ∈ server.keys) :=
    (hs (keyLedger server.nodup x hx)).handed_once hexit (fun _ => rfl) (fun _ => rfl) fun _ => rfl
  refine ⟨fun key hmem => ?_, List.nodup_iff_count_le_one.mpr fun y => ?_, fun x hx => (hkey hx).2 trivial⟩
  · by_contra hnone
    push Not at hnone
    exact hother hnone hmem
  · by_cases hy : ∃ x ∈ server.keys, y = some x
    · obtain ⟨x, hx, rfl⟩ := hy
      exact (hkey hx).1
    · push Not at hy
      rw [List.count_eq_zero_of_not_mem (hother hy)]
      exact Nat.zero_le 1

end Handed

-- What comes back for an attempt: the service's answer to the request as it is
-- sent, through the parser, or something that is no listing.
def Service.Replies (service : Service) (ext : Externals) (session : Session) (config : Config)
    (path : CommonPrefix) (token : Option Str) (response : Response) : Prop :=
  Unlisted response ∨
    ∃ now sent, listOneRequest ext session now config service.bucket path token = .ok sent ∧
      response = (service.respond ext session sent).parsed

-- A step of a crawl at such a service. Any write may fail.
def Service.RepliesIn (service : Service) (ext : Externals) (session : Session) (config : Config)
    (s : Crawl) : Action → Prop
  | .worker index _ response => ∀ call token retries, s.workers[index]? = some (.listOne call token retries) →
      service.Replies ext session config call.path token response
  | _ => True

theorem Service.RepliesIn.course {ext : Externals} {session : Session} {service : Service} {config : Config}
    {s : Crawl} {action : Action} (hsha : ∀ message, ext.sha256 message ≠ [])
    (hgrammar : ∀ target, Target.originForm target → ext.originForm target)
    (hreadable : service.Readable) (h : service.RepliesIn ext session config s action)
    (ledger : Ledger service.server.keys) :
    (service.server.course ledger).RepliesIn config s action := by
  cases action with
  | worker index choice response =>
      intro call token retries hw
      rcases h call token retries hw with hunlisted | ⟨now, sent, hsent, rfl⟩
      · exact .inl (request_unlisted config.apiVersion hunlisted)
      · have hunderstood := understood_of_listOneRequest hsha hgrammar hsent
        exact .inr ⟨_, request_respond (hreadable _ _) hunderstood, rfl⟩
  | _ => trivial

-- A line that reports a loss.
def errorLine (line : Str) : Bool := (ascii "ERROR").isPrefixOf line

theorem errorLine_append (rest : Str) : errorLine (ascii "ERROR" ++ rest) := by
  rw [errorLine, List.isPrefixOf_iff_prefix]
  exact List.prefix_append _ _

-- Without a report every text is in the file from beginning to end.
theorem output_of_reporting {config : Config} {s : Crawl} (h : ReachableCrawl config s) (hs : Reporting s)
    (hreturned : s.writer.state = .returned) (hsilent : ∀ line ∈ s.shared.stderr, ¬ errorLine line) :
    ∃ objects : List Object, objects.Perm s.shared.handed ∧ s.writer.output = objectsText config objects := by
  have hhand : s.outbox.inHand = none := by simp [Crawl.outbox, hreturned, WriterState.inHand]
  have hwrites : writeErrors s.shared.stderr = 0 := by
    apply List.countP_eq_zero.mpr
    intro line hline hprefix
    obtain ⟨rest, rfl⟩ := List.isPrefixOf_iff_prefix.mp hprefix
    exact hsilent _ hline (errorLine_append (ascii " writing to output file: " ++ rest))
  obtain ⟨done, hdone, houtput, -, hcut⟩ := hs.reported.complete hhand (hs.emptied hreturned)
  rw [hwrites, Nat.le_zero, List.countP_eq_zero] at hcut
  have hwhole : done.map Prod.snd = done.map Prod.fst :=
    List.map_congr_left fun entry hentry => by simpa using hcut entry hentry
  refine output_of_texts h hdone ?_
  have hfile : s.writer.output = done.flatMap Prod.snd := houtput
  rw [hfile, List.flatMap_def, hwhole]

-- No loss is silent: however many attempts and writes fail, a key that has not been
-- handed over lies below a prefix that a line on stderr names, and when no line
-- there says ERROR the file holds every key of the bucket once.
theorem losses_reported (ext : Externals) (hsha : ∀ message, ext.sha256 message ≠ [])
    (hgrammar : ∀ target, Target.originForm target → ext.originForm target) (session : Session)
    (service : Service) (hreadable : service.Readable) (config : Config) (s : Crawl)
    (h : Reach (step config) (service.RepliesIn ext session config) construct s)
    (hreturned : s.writer.state = .returned) :
    ((∀ key ∈ s.shared.handed.map Object.Key, ∃ x ∈ service.keys, key = some x) ∧
      (s.shared.handed.map Object.Key).Nodup ∧
      ∀ x ∈ service.keys, some x ∈ s.shared.handed.map Object.Key ∨ GivenUp s.shared.stderr x) ∧
      ((∀ line ∈ s.shared.stderr, ¬ errorLine line) →
        ∃ objects : List Object, (objects.map Object.Key).Perm (service.keys.map some) ∧
          s.writer.output = objectsText config objects ∧
          (config.outputFormat = .PLAIN → (∀ key ∈ service.keys, newline ∉ key) →
            (records s.writer.output).Perm service.keys) ∧
          (config.outputFormat = .JSON → ∀ serialize parse,
            (∀ object, config.serialize object = serialize (valueFrom object)) →
            (∀ object ∈ objects, JsonText serialize parse object) →
            ((records s.writer.output).map fun record => (parse record).bind keyMember).Perm
              (service.keys.map some))) := by
  have hfree : Reach (freeStep config) (fun _ _ => True) construct s := reach_free h.reachable
  have hreporting : Reporting s :=
    hfree.invariant reporting_construct fun _ _ _ _ hs ht => reporting_step hs ht
  have hexit := hreporting.unsignalled.exited hreturned
  have hexplained (ledger : Ledger service.server.keys) : Explained (service.server.course ledger) s :=
    h.invariant explained_construct fun _ _ _ hreplies hs ht =>
      explained_step (hreplies.course hsha hgrammar hreadable ledger) hs ht
  obtain ⟨hkeys, hnodup, hmissing⟩ := handed_or_givenUp hexplained hexit
  refine ⟨⟨hkeys, hnodup, hmissing⟩, fun hsilent => ?_⟩
  have hall : (s.shared.handed.map Object.Key).Perm (service.keys.map some) := by
    apply (List.perm_ext_iff_of_nodup hnodup (service.nodup.map (Option.some_injective _))).mpr
    intro key
    constructor
    · intro hmem
      obtain ⟨x, hx, rfl⟩ := hkeys key hmem
      exact List.mem_map_of_mem hx
    · intro hmem
      obtain ⟨x, hx, rfl⟩ := List.mem_map.mp hmem
      refine (hmissing x hx).resolve_right ?_
      rintro ⟨path, hline, -⟩
      exact hsilent _ hline (errorLine_append _)
  obtain ⟨objects, hobjects, houtput⟩ := output_of_reporting h.reachable hreporting hreturned hsilent
  have hperm := (hobjects.map Object.Key).trans hall
  refine ⟨objects, hperm, houtput, ?_⟩
  rw [houtput]
  exact records_of_keys hperm

-- No attempt for the prefix succeeds.
def givingUpRun : List Action :=
  interruptedRun ++ List.replicate 4 (.worker 0 0 (.failed [])) ++ workerSteps 0 7 ++
    List.replicate 6 (.manager 0) ++ [.writer none, .writerTimer] ++ List.replicate 5 (.writer none) ++
    List.replicate 2 (.manager 0) ++ List.replicate 2 (.writer none)

def replies (s : Crawl) : Action → Bool
  | .worker index _ response =>
      match s.workers[index]? with
      | some (.listOne call token _) => response = .failed [] || response = returned call.path token
      | _ => true
  | _ => true

theorem repliesIn_of_replies {s : Crawl} {action : Action} (h : (replies s action && parses action) = true) :
    twoKeysService.RepliesIn targetExternals uploadSession defaultConfig s action := by
  obtain ⟨h, hparses⟩ := Bool.and_eq_true_iff.mp h
  cases action with
  | worker index choice response =>
      intro call token retries hw
      simp only [replies, hw, Bool.or_eq_true, decide_eq_true_eq] at h
      rcases h with rfl | rfl
      · exact .inl trivial
      · obtain ⟨sent, hsent, -⟩ := @listOneRequest_understood targetExternals uploadSession
          (fun _ => by simp [targetExternals, uploadExternals]) (fun _ h => h) uploadTime defaultConfig
          twoKeysService.bucket call.path token
        refine .inr ⟨uploadTime, sent, hsent, ?_⟩
        have hparsed := of_decide_eq_true hparses
        rw [returned, hsent] at hparsed ⊢
        exact hparsed.symm
  | _ => trivial

theorem losses_reported_givingUp :
    ∃ s : Crawl, s.writer.state = .returned ∧ s.shared.handed.map Object.Key = [some (ascii "a")] ∧
      GivenUp s.shared.stderr (ascii "b/c") := by
  have hrun : (run (guarded (step defaultConfig) fun s action => replies s action && parses action) construct
      givingUpRun).map (fun s => decide (s.writer.state = .returned ∧ s.shared.handed.map Object.Key = [some (ascii "a")])) =
      some true := by decide +kernel
  obtain ⟨s, hs, hfacts⟩ := Option.map_eq_some_iff.mp hrun
  obtain ⟨hreturned, hhanded⟩ := of_decide_eq_true hfacts
  obtain ⟨⟨-, -, hmissing⟩, -⟩ := losses_reported targetExternals
    (fun _ => by simp [targetExternals, uploadExternals]) (fun _ h => h) uploadSession twoKeysService
    twoKeysService_readable defaultConfig s ((Reach.of_run hs).mono fun _ _ h => repliesIn_of_replies h) hreturned
  have hkey : ascii "b/c" ∈ twoKeysService.keys := by decide
  refine ⟨s, hreturned, hhanded, (hmissing _ hkey).resolve_left ?_⟩
  rw [hhanded]
  decide

end S3Cpp.Tools.ListAllObjects
