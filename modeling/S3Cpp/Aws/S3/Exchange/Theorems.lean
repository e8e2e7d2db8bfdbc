import S3Cpp.Aws.S3.Client.Requests.Theorems
import S3Cpp.Aws.S3.DnsCache.Exclusion
import S3Cpp.Aws.S3.Exchange

namespace S3Cpp.Aws.S3.Exchange

open Library.Http Library.Population Library.Transition Iam DnsCache Client

-- What stands on the other side of the libraries: the answers a resolver may give
-- for a host and a service, and the names a peer can prove to have.
structure World where
  resolves : Str → Str → Resolution → Prop
  certified : Str → Str → Prop

variable {ρ : Type} {ext : Externals} {session : Session} (world : World) (url : EndpointUrl)

-- The answers for what update() asks.
def World.given : Resolution → Prop := world.resolves url.host url.portOrScheme

-- A step in which the resolver answers what it is asked, and a handshake that
-- has to verify the peer succeeds only with a peer that has the name.
def Trusted (s : State ρ) : Action ρ → Prop
  | .call _ _ => True
  | .step index _ resolution outcome => ∀ call, s.calls[index]? = some call →
      (∀ caller, call.stage = .getEndpoint caller → s.cache.callers[caller]? = some .update →
        world.given url resolution) ∧
      (call.stage = .handshake → outcome.code.failed = false → ∀ peer name, call.stream.peer = some peer →
        call.stream.verifyPeer = true → call.stream.verifyCallback = some name → world.certified peer name)

-- A peer that a resolution of the endpoint's host has named.
def World.Named (peer : Str) : Prop :=
  ∃ resolution, world.given url resolution ∧ resolution.Succeeds ∧ peer ∈ resolution.results

-- A peer a request may go to.
def World.Right (peer : Str) : Prop :=
  world.Named url peer ∧ (url.scheme = some (ascii "http") ∨ world.certified peer url.hostName)

def Connected (call : Call ρ) : Prop :=
  call.written = [] ∧ url.isSsl = true ∧ ∃ peer, call.stream.peer = some peer ∧ world.Named url peer

-- The one request a call sends has gone to the right peer.
def Sent (call : Call ρ) : Prop := ∃ peer, call.written = [(some peer, call.request)] ∧ world.Right url peer

def StageSound (call : Call ρ) : Prop :=
  match call.stage with
  | .expiresAfter | .getEndpoint _ => call.written = []
  | .connect endpoints => call.written = [] ∧ ∀ peer ∈ endpoints, world.Named url peer
  | .setHostName | .setVerifyCallback => Connected world url call
  | .setVerifyMode => Connected world url call ∧ call.stream.verifyCallback = some url.hostName
  | .handshake =>
      Connected world url call ∧ call.stream.verifyCallback = some url.hostName ∧ call.stream.verifyPeer = true
  | .write => call.written = [] ∧ ∃ peer, call.stream.peer = some peer ∧ world.Right url peer
  | .read | .returned (.ok _) => Sent world url call
  | .returned (.error _) => call.written = [] ∨ Sent world url call

structure Sound (call : Call ρ) : Prop where
  isSsl : call.stream.isSsl = url.isSsl
  stage : StageSound world url call

variable {world url}

theorem EndpointUrl.scheme_of_not_ssl (h : url.isSsl = false) : url.scheme = some (ascii "http") := by
  have hscheme : url.scheme.getD [] = ascii "http" := by simpa [EndpointUrl.isSsl] using h
  cases hs : url.scheme with
  | none =>
      rw [hs] at hscheme
      exact absurd hscheme (by decide)
  | some scheme =>
      rw [hs] at hscheme
      exact congrArg some hscheme

theorem Sound.fail {call : Call ρ} (hs : Sound world url call) (code : ErrorCode)
    (h : call.written = [] ∨ Sent world url call) :
    Sound world url (call.fail code) ∧ (call.fail code).request = call.request :=
  ⟨⟨hs.isSsl, h⟩, rfl⟩

theorem Sound.written {call : Call ρ} (hs : Sound world url call) :
    call.written = [] ∨ Sent world url call := by
  have hstage := hs.stage
  unfold StageSound at hstage
  split at hstage
  all_goals first
    | exact .inl hstage
    | exact .inl hstage.1
    | exact .inl hstage.1.1
    | exact .inr hstage
    | exact hstage

theorem callStep_sound {outcome : Outcome ρ} {call next : Call ρ} (hs : Sound world url call)
    (hshakes : call.stage = .handshake → outcome.code.failed = false → ∀ peer name, call.stream.peer = some peer →
      call.stream.verifyPeer = true → call.stream.verifyCallback = some name → world.certified peer name)
    (h : callStep url outcome call = some next) : Sound world url next ∧ next.request = call.request := by
  have hstage := hs.stage
  unfold StageSound at hstage
  cases hst : call.stage with
  | connect endpoints =>
      rw [hst] at hstage
      obtain ⟨hnone, hnamed⟩ := hstage
      simp only [callStep, hst] at h
      split at h
      · obtain rfl := Option.some.inj h
        exact hs.fail _ (.inl hnone)
      · obtain ⟨peer, hpeer, rfl⟩ := Option.map_eq_some_iff.mp h
        have hnamed := hnamed peer (List.mem_of_getElem? hpeer)
        refine ⟨⟨hs.isSsl, ?_⟩, rfl⟩
        cases hssl : url.isSsl with
        | true =>
            simp only [StageSound, hs.isSsl, hssl, if_true]
            exact ⟨hnone, hssl, peer, rfl, hnamed⟩
        | false =>
            simp only [StageSound, hs.isSsl, hssl, Bool.false_eq_true, if_false]
            exact ⟨hnone, peer, rfl, hnamed, .inl (EndpointUrl.scheme_of_not_ssl hssl)⟩
  | setHostName =>
      rw [hst] at hstage
      simp only [callStep, hst] at h
      split at h <;> obtain rfl := Option.some.inj h
      · exact ⟨⟨hs.isSsl, hstage⟩, rfl⟩
      · exact hs.fail _ (.inl hstage.1)
  | setVerifyCallback =>
      rw [hst] at hstage
      simp only [callStep, hst] at h
      split at h <;> obtain rfl := Option.some.inj h
      · exact hs.fail _ (.inl hstage.1)
      · exact ⟨⟨hs.isSsl, hstage, rfl⟩, rfl⟩
  | setVerifyMode =>
      rw [hst] at hstage
      simp only [callStep, hst] at h
      split at h <;> obtain rfl := Option.some.inj h
      · exact hs.fail _ (.inl hstage.1.1)
      · exact ⟨⟨hs.isSsl, hstage.1, hstage.2, rfl⟩, rfl⟩
  | handshake =>
      rw [hst] at hstage
      obtain ⟨⟨hnone, hssl, peer, hpeer, hnamed⟩, hcallback, hverify⟩ := hstage
      simp only [callStep, hst] at h
      split at h <;> obtain rfl := Option.some.inj h
      · exact hs.fail _ (.inl hnone)
      · have hcertified := hshakes hst (by simpa using ‹¬ outcome.code.failed = true›) peer _ hpeer hverify hcallback
        exact ⟨⟨hs.isSsl, hnone, peer, hpeer, hnamed, .inr hcertified⟩, rfl⟩
  | write =>
      rw [hst] at hstage
      obtain ⟨hnone, peer, hpeer, hright⟩ := hstage
      have hsent : call.written ++ [(call.stream.peer, call.request)] = [(some peer, call.request)] := by
        rw [hnone, hpeer]
        rfl
      simp only [callStep, hst] at h
      split at h <;> obtain rfl := Option.some.inj h
      · exact ⟨⟨hs.isSsl, .inr ⟨peer, hsent, hright⟩⟩, rfl⟩
      · exact ⟨⟨hs.isSsl, peer, hsent, hright⟩, rfl⟩
  | read =>
      rw [hst] at hstage
      simp only [callStep, hst] at h
      split at h <;> obtain rfl := Option.some.inj h
      · exact hs.fail _ (.inr hstage)
      · exact ⟨⟨hs.isSsl, hstage⟩, rfl⟩
  | expiresAfter | getEndpoint caller | returned result => simp only [callStep, hst, reduceCtorEq] at h

-- What holds of a session whose calls interleave in any way.
structure Safe (world : World) (url : EndpointUrl) (ext : Externals) (session : Session) (s : State ρ) : Prop where
  cache : Holding (world.given url) s.cache
  calls : ∀ call ∈ s.calls, Sound world url call
  signed : ∀ call ∈ s.calls, recomputeAuthorization ext session call.request =
    .ok (Fields.get call.request.headers authorizationName)

-- A request that method_impl has prepared, with the stamped request it comes from.
theorem Arguments.prepare_stamped (hsha : ∀ message, ext.sha256 message ≠ []) {arguments : Arguments}
    {now : UtcTime} {request : Request} (h : arguments.prepare ext session now = .ok request) :
    ∃ sign, let target := Session.encodedTarget arguments.path arguments.isPathEncoded arguments.query
      let stamped := stampRequest ext ⟨arguments.method, target, arguments.headers, arguments.body⟩ session
        (formatTimestamp now)
      ext.originForm target ∧
        request = { stamped with headers := Fields.set stamped.headers authorizationName sign } ∧
        recomputeAuthorization ext session request = .ok (Fields.get request.headers authorizationName) := by
  set target := Session.encodedTarget arguments.path arguments.isPathEncoded arguments.query with htarget
  by_cases hform : ext.originForm target
  · obtain ⟨parsed, hparse⟩ : ∃ parsed, parseOriginForm ext target = some parsed := by
      rw [parseOriginForm, if_pos hform]
      exact ⟨_, rfl⟩
    obtain ⟨sign, sent, hsent, hprepare, hverifies⟩ := @prepareRequest_stamped ext hsha
      ⟨arguments.method, target, arguments.headers, arguments.body⟩ parsed hparse session now
    obtain rfl := Except.ok.inj (h.symm.trans hprepare)
    exact ⟨sign, hform, hsent, hverifies⟩
  · have hparse : parseOriginForm ext target = none := by
      rw [parseOriginForm, if_neg hform]
    have hfails : arguments.prepare ext session now = .error .invalidTarget := by
      simp only [Arguments.prepare, Session.methodImpl, prepareRequest, canonicalizeRequest, stampRequest,
        ← htarget, hparse]
      rfl
    rw [hfails] at h
    cases h

theorem prepare_signed (hsha : ∀ message, ext.sha256 message ≠ []) {arguments : Arguments} {now : UtcTime}
    {request : Request} (h : arguments.prepare ext session now = .ok request) :
    recomputeAuthorization ext session request = .ok (Fields.get request.headers authorizationName) := by
  obtain ⟨-, -, -, hsigned⟩ := Arguments.prepare_stamped hsha h
  exact hsigned

theorem advance_safe {now : Int} {resolution : Resolution} {outcome : Outcome ρ} {s : State ρ} {index : Nat}
    {call next : Call ρ} {cache : DnsCache.State} (hs : Safe world url ext session s)
    (htrusted : Trusted world url s (.step index now resolution outcome)) (hcall : s.calls[index]? = some call)
    (h : advance url now resolution outcome s call = some (cache, next)) :
    Holding (world.given url) cache ∧ Sound world url next ∧ next.request = call.request := by
  have hsound := hs.calls call (List.mem_of_getElem? hcall)
  have hstage := hsound.stage
  obtain ⟨hresolves, hshakes⟩ := htrusted call hcall
  unfold StageSound at hstage
  cases hst : call.stage with
  | expiresAfter =>
      rw [hst] at hstage
      simp only [advance, hst] at h
      obtain ⟨cache', hcache, heq⟩ := Option.map_eq_some_iff.mp h
      obtain ⟨rfl, rfl⟩ := Prod.mk.inj heq
      exact ⟨step_holding (by rintro i now' resolution' ⟨⟩) hs.cache hcache, ⟨hsound.isSsl, hstage⟩, rfl⟩
  | getEndpoint caller =>
      rw [hst] at hstage
      simp only [advance, hst] at h
      split at h
      · rename_i endpoints hanswer
        obtain ⟨rfl, rfl⟩ := Prod.mk.inj (Option.some.inj h)
        obtain ⟨-, resolution', hgiven, hsucceeds, rfl⟩ := hs.cache.callers _ (List.mem_of_getElem? hanswer)
        exact ⟨hs.cache, ⟨hsound.isSsl, hstage, fun peer hpeer => ⟨resolution', hgiven, hsucceeds, hpeer⟩⟩, rfl⟩
      · obtain ⟨rfl, rfl⟩ := Prod.mk.inj (Option.some.inj h)
        exact ⟨hs.cache, hsound.fail _ (.inl hstage)⟩
      · obtain ⟨cache', hcache, heq⟩ := Option.map_eq_some_iff.mp h
        obtain ⟨rfl, rfl⟩ := Prod.mk.inj heq
        refine ⟨step_holding ?_ hs.cache hcache, hsound, rfl⟩
        rintro i now' resolution' heq hupdate
        obtain ⟨rfl, rfl, rfl⟩ := DnsCache.Action.step.inj heq
        exact hresolves _ hst hupdate
  | connect | setHostName | setVerifyCallback | setVerifyMode | handshake | write | read | returned =>
      simp only [advance, hst] at h
      obtain ⟨next', hnext, heq⟩ := Option.map_eq_some_iff.mp h
      obtain ⟨rfl, rfl⟩ := Prod.mk.inj heq
      exact ⟨hs.cache, callStep_sound hsound hshakes hnext⟩

theorem step_safe (hsha : ∀ message, ext.sha256 message ≠ []) {s t : State ρ} {action : Action ρ}
    (hs : Safe world url ext session s) (htrusted : Trusted world url s action)
    (h : step ext session url s action = some t) : Safe world url ext session t := by
  cases action with
  | call now arguments =>
      simp only [step] at h
      split at h
      · obtain rfl := Option.some.inj h
        exact hs
      · rename_i request hrequest
        obtain rfl := Option.some.inj h
        refine ⟨hs.cache, forall_concat hs.calls ⟨rfl, rfl⟩, forall_concat hs.signed ?_⟩
        exact prepare_signed hsha hrequest
  | step index now resolution outcome =>
      obtain ⟨call, hcall, h⟩ := Option.bind_eq_some_iff.mp h
      obtain ⟨⟨cache, next⟩, hnext, rfl⟩ := Option.map_eq_some_iff.mp h
      obtain ⟨hcache, hsound, hsame⟩ := advance_safe hs htrusted hcall hnext
      refine ⟨hcache, fun other hother => ?_, fun other hother => ?_⟩
      · rcases List.mem_or_eq_of_mem_set hother with hother | rfl
        · exact hs.calls other hother
        · exact hsound
      · rcases List.mem_or_eq_of_mem_set hother with hother | rfl
        · exact hs.signed other hother
        · rw [hsame]
          exact hs.signed call (List.mem_of_getElem? hcall)

-- However the calls of a session interleave and whatever fails, a request goes out
-- once at most, signed, and only to a peer that the endpoint's host resolves to.
-- Unless the scheme is http the peer has proved to be that host.
theorem requests_guarded (world : World) (ext : Externals) (hsha : ∀ message, ext.sha256 message ≠ [])
    (session : Session) (url : EndpointUrl) (now : Int) (resolution : Resolution)
    (hresolution : world.given url resolution) (s : State ρ)
    (h : Reach (step ext session url) (Trusted world url) (construct now resolution) s) :
    ∀ call ∈ s.calls,
      call.written.length ≤ 1 ∧
      (∀ entry ∈ call.written, entry.2 = call.request ∧ ∃ peer, entry.1 = some peer ∧ world.Named url peer ∧
        (url.scheme = some (ascii "http") ∨ world.certified peer url.hostName)) ∧
      recomputeAuthorization ext session call.request =
        .ok (Fields.get call.request.headers authorizationName) ∧
      ∀ response, call.stage = .returned (.ok response) → call.written.length = 1 := by
  have hsafe : Safe world url ext session s :=
    h.invariant ⟨construct_holding now hresolution, by simp [construct], by simp [construct]⟩
      fun _ _ _ htrusted hs hstep => step_safe hsha hs htrusted hstep
  intro call hcall
  have hstage := (hsafe.calls call hcall).stage
  have hwritten := (hsafe.calls call hcall).written
  refine ⟨?_, ?_, hsafe.signed call hcall, fun response hreturned => ?_⟩
  · rcases hwritten with hnone | ⟨peer, hsent, -⟩
    · simp [hnone]
    · simp [hsent]
  · intro entry hentry
    rcases hwritten with hnone | ⟨peer, hsent, hnamed, hright⟩
    · simp [hnone] at hentry
    · rw [hsent, List.mem_singleton] at hentry
      subst hentry
      exact ⟨rfl, peer, rfl, hnamed, hright⟩
  · rw [StageSound, hreturned] at hstage
    obtain ⟨peer, hsent, -⟩ := hstage
    rw [hsent, List.length_singleton]

-- A resolver and a peer for one host.
def oneHost : World where
  resolves host service resolution :=
    host = ascii "s3.example" ∧ service = ascii "https" ∧ resolution = answering
  certified peer name := peer = ascii "192.0.2.1" ∧ name = ascii "s3.example"

def oneHostUrl : EndpointUrl := ⟨some (ascii "https"), ascii "s3.example", ascii "s3.example", none⟩

def putUpload : Action Str :=
  .call uploadTime ⟨ascii "PUT", ascii "/bucket/key", false, [], [], ascii "data"⟩

def goesWell (index : Nat) : Action Str := .step index 0 answering ⟨ErrorCode.success, true, 0, ascii "OK"⟩

def trusts (s : State Str) : Action Str → Bool
  | .call _ _ => true
  | .step index _ resolution _ =>
      resolution = answering &&
        match s.calls[index]? with
        | some ⟨_, .handshake, stream, _⟩ =>
            stream.peer = some (ascii "192.0.2.1") && stream.verifyCallback = some (ascii "s3.example")
        | _ => true

theorem trusted_of_trusts {s : State Str} {action : Action Str} (h : trusts s action = true) :
    Trusted oneHost oneHostUrl s action := by
  cases action with
  | call => trivial
  | step index now resolution outcome =>
      intro call hcall
      simp only [trusts, hcall, Bool.and_eq_true, decide_eq_true_eq] at h
      refine ⟨fun _ _ _ => ⟨rfl, rfl, h.1⟩, fun hst _ peer name hpeer _ hname => ?_⟩
      obtain ⟨request, stage, stream, written⟩ := call
      obtain rfl : stage = .handshake := hst
      have hboth := h.2
      simp only [Bool.and_eq_true, decide_eq_true_eq] at hboth
      exact ⟨Option.some.inj (hpeer.symm.trans hboth.1), Option.some.inj (hname.symm.trans hboth.2)⟩

-- Two uploads, of which the first is answered.
theorem requests_guarded_oneHost :
    ∃ (s : State Str) (call : Call Str), Reach (step targetExternals uploadSession oneHostUrl)
        (Trusted oneHost oneHostUrl) (construct 0 answering) s ∧ call ∈ s.calls ∧ call.written.length = 1 ∧
      ∀ entry ∈ call.written, ∃ peer, entry.1 = some peer ∧ oneHost.certified peer (ascii "s3.example") := by
  have hrun : (run (guarded (step targetExternals uploadSession oneHostUrl) trusts) (construct 0 answering)
      (putUpload :: putUpload :: goesWell 1 :: List.replicate 11 (goesWell 0))).map
        (fun s => s.calls.any fun call => match call.stage with
          | .returned (.ok _) => true
          | _ => false) = some true := by decide +kernel
  obtain ⟨s, hs, hreturned⟩ := Option.map_eq_some_iff.mp hrun
  obtain ⟨call, hcall, hreturned⟩ := List.any_eq_true.mp hreturned
  have hreach := (Reach.of_run hs).mono fun _ _ h => trusted_of_trusts h
  obtain ⟨-, hentries, -, hresponse⟩ := requests_guarded oneHost targetExternals
    (fun _ => by simp [targetExternals, uploadExternals]) uploadSession oneHostUrl 0 answering
    ⟨rfl, rfl, rfl⟩ s hreach call hcall
  obtain ⟨response, hok⟩ : ∃ response, call.stage = .returned (.ok response) := by
    split at hreturned
    · exact ⟨_, ‹_›⟩
    · cases hreturned
  refine ⟨s, call, hreach, hcall, hresponse response hok, fun entry hentry => ?_⟩
  obtain ⟨-, peer, hpeer, -, hright⟩ := hentries entry hentry
  exact ⟨peer, hpeer, hright.resolve_left (by decide)⟩

end S3Cpp.Aws.S3.Exchange
