import S3Cpp.Aws.S3.Exchange.Objects
import S3Cpp.Library.Linearizable

namespace S3Cpp.Aws.S3.Exchange

open Library.Http Library.Linearizable Library.Transition Iam DnsCache Client

-- A session at work on the objects of a service. Its calls have their
-- operations, and what has been served its answers.
structure Attached where
  exchange : State Answer
  operations : List Operation
  objects : Objects
  served : List (Nat × Answer)

inductive Event
  | call (now : UtcTime) (operation : Operation)
  | step (index : Nat) (now : Int) (resolution : Resolution) (outcome : Outcome Answer)
  | serve (index : Nat)

namespace Attached

def construct (objects : Objects) (now : Int) (resolution : Resolution) : Attached :=
  ⟨Exchange.construct now resolution, [], objects, []⟩

-- A response is what the service has answered.
def responds (s : Attached) (index : Nat) (outcome : Outcome Answer) : Bool :=
  match s.exchange.calls[index]? with
  | some ⟨_, .read, _, _⟩ => outcome.code.failed || s.served.contains (index, outcome.response)
  | _ => true

def returned (s : Attached) (index : Nat) (answer : Answer) : Prop :=
  ∃ call, s.exchange.calls[index]? = some call ∧ call.stage = .returned (.ok answer)

end Attached

section Step

variable (ext : Externals) (session : Session) (url : EndpointUrl)

-- A request that has gone out may be served at any later time, or never, also
-- where writing it has failed.
def attachedStep (s : Attached) : Event → Option Attached
  | .call now operation =>
      (step ext session url s.exchange (.call now operation.arguments)).map fun exchange =>
        let made := if (operation.arguments.prepare ext session now).isOk then [operation] else []
        { s with exchange := exchange, operations := s.operations ++ made }
  | .step index now resolution outcome =>
      if s.responds index outcome then
        (step ext session url s.exchange (.step index now resolution outcome)).map fun exchange =>
          { s with exchange := exchange }
      else none
  | .serve index =>
      if index ∈ s.served.map Prod.fst then none
      else
        (s.exchange.calls[index]?).bind fun call =>
          (call.written.head?).map fun entry =>
            let result := serve ext session entry.2 s.objects
            { s with objects := result.1, served := s.served ++ [(index, result.2)] }

end Step

-- Where nothing is said about the resolver and the peers.
def anyWorld : World where
  resolves _ _ _ := True
  certified _ _ := True

theorem trusted_anyWorld {ρ : Type} (url : EndpointUrl) (s : State ρ) (action : Action ρ) :
    Trusted anyWorld url s action := by
  cases action with
  | call now arguments => trivial
  | step index now resolution outcome =>
      exact fun call _ => ⟨fun _ _ _ => trivial, fun _ _ _ _ _ _ _ => trivial⟩

-- Only a call that reads gets a response.
theorem advance_returned {ρ : Type} {url : EndpointUrl} {now : Int} {resolution : Resolution} {outcome : Outcome ρ}
    {s : State ρ} {call next : Call ρ} {cache : DnsCache.State} {answer : ρ}
    (h : advance url now resolution outcome s call = some (cache, next))
    (hreturned : next.stage = .returned (.ok answer)) :
    call.stage = .read ∧ outcome.code.failed = false ∧ answer = outcome.response := by
  cases hst : call.stage with
  | expiresAfter =>
      simp only [advance, hst] at h
      obtain ⟨cache', -, heq⟩ := Option.map_eq_some_iff.mp h
      obtain ⟨rfl, rfl⟩ := Prod.mk.inj heq
      cases hreturned
  | getEndpoint caller =>
      simp only [advance, hst] at h
      split at h
      · obtain ⟨rfl, rfl⟩ := Prod.mk.inj (Option.some.inj h)
        cases hreturned
      · obtain ⟨rfl, rfl⟩ := Prod.mk.inj (Option.some.inj h)
        cases hreturned
      · obtain ⟨cache', -, heq⟩ := Option.map_eq_some_iff.mp h
        obtain ⟨rfl, rfl⟩ := Prod.mk.inj heq
        rw [hst] at hreturned
        cases hreturned
  | connect endpoints =>
      simp only [advance, callStep, hst] at h
      obtain ⟨next', hnext, heq⟩ := Option.map_eq_some_iff.mp h
      obtain ⟨rfl, rfl⟩ := Prod.mk.inj heq
      split at hnext
      · obtain rfl := Option.some.inj hnext
        cases hreturned
      · obtain ⟨peer, -, rfl⟩ := Option.map_eq_some_iff.mp hnext
        cases hssl : call.stream.isSsl <;> simp [hssl] at hreturned
  | read =>
      simp only [advance, callStep, hst] at h
      obtain ⟨next', hnext, heq⟩ := Option.map_eq_some_iff.mp h
      obtain ⟨rfl, rfl⟩ := Prod.mk.inj heq
      split at hnext
      · obtain rfl := Option.some.inj hnext
        cases hreturned
      · rename_i hsucceeds
        obtain rfl := Option.some.inj hnext
        have hanswer : outcome.response = answer := Except.ok.inj (Stage.returned.inj hreturned)
        exact ⟨rfl, by simpa using hsucceeds, hanswer.symm⟩
  | setHostName | setVerifyCallback | setVerifyMode | handshake | write =>
      simp only [advance, callStep, hst] at h
      obtain ⟨next', hnext, heq⟩ := Option.map_eq_some_iff.mp h
      obtain ⟨rfl, rfl⟩ := Prod.mk.inj heq
      split at hnext <;> obtain rfl := Option.some.inj hnext <;> cases hreturned
  | returned result =>
      simp only [advance, callStep, hst, Option.map_none, reduceCtorEq] at h

section Run

variable {ext : Externals} {session : Session} {url : EndpointUrl} {initial : Objects}

-- A call sends the request of its operation, and what it returns has been served.
structure Linear (ext : Externals) (session : Session) (url : EndpointUrl) (initial : Objects) (s : Attached) :
    Prop where
  safe : Safe anyWorld url ext session s.exchange
  prepared : List.Forall₂ (fun operation request =>
    ∃ now, operation.arguments.prepare ext session now = .ok request) s.operations
      (s.exchange.calls.map Call.request)
  returned : ∀ i answer, s.returned i answer → (i, answer) ∈ s.served
  linearization : Linearization (fun operation => operation.perform ext) initial s.operations s.served s.objects

theorem Linear.length_eq {s : Attached} (hs : Linear ext session url initial s) :
    s.operations.length = s.exchange.calls.length :=
  hs.prepared.length_eq.trans (List.length_map _)

theorem Linear.operation_of_call {s : Attached} (hs : Linear ext session url initial s) {i : Nat}
    {call : Call Answer} (hcall : s.exchange.calls[i]? = some call) :
    ∃ operation, s.operations[i]? = some operation ∧
      ∃ now, operation.arguments.prepare ext session now = .ok call.request := by
  obtain ⟨hlt, rfl⟩ := List.getElem?_eq_some_iff.mp hcall
  have hlength := hs.length_eq
  have hi : i < s.operations.length := by omega
  have hprepared := hs.prepared.get hi (by simpa using hlt)
  refine ⟨s.operations[i], List.getElem?_eq_getElem hi, ?_⟩
  simpa using hprepared

theorem Linear.call {s : Attached} (hs : Linear ext session url initial s) (hsha : ∀ message, ext.sha256 message ≠ [])
    {now : UtcTime} {operation : Operation} {exchange : State Answer}
    (h : step ext session url s.exchange (.call now operation.arguments) = some exchange) :
    let made := if (operation.arguments.prepare ext session now).isOk then [operation] else []
    Linear ext session url initial { s with exchange := exchange, operations := s.operations ++ made } := by
  intro made
  have hsafe := step_safe hsha hs.safe (trusted_anyWorld url s.exchange _) h
  simp only [step] at h
  cases hprepare : operation.arguments.prepare ext session now with
  | error failure =>
      simp only [hprepare] at h
      obtain rfl := Option.some.inj h
      have hmade : made = [] := by simp only [made, hprepare, Except.isOk, Except.toBool, Bool.false_eq_true, if_false]
      rw [hmade, List.append_nil]
      exact hs
  | ok request =>
      simp only [hprepare] at h
      obtain rfl := Option.some.inj h
      have hmade : made = [operation] := by simp only [made, hprepare, Except.isOk, Except.toBool, if_true]
      rw [hmade]
      refine ⟨hsafe, ?_, fun i answer hreturned => ?_, hs.linearization.made _⟩
      · rw [List.map_append]
        exact List.rel_append hs.prepared (.cons ⟨now, hprepare⟩ .nil)
      · obtain ⟨call, hcall, hstage⟩ := hreturned
        rw [List.getElem?_append] at hcall
        split at hcall
        · exact hs.returned i answer ⟨call, hcall, hstage⟩
        · -- the call has just been made
          obtain rfl := List.mem_singleton.mp (List.mem_of_getElem? hcall)
          cases hstage

theorem Linear.step {s : Attached} (hs : Linear ext session url initial s) (hsha : ∀ message, ext.sha256 message ≠ [])
    {index : Nat} {now : Int} {resolution : Resolution} {outcome : Outcome Answer} {exchange : State Answer}
    (hresponds : s.responds index outcome)
    (h : Exchange.step ext session url s.exchange (.step index now resolution outcome) = some exchange) :
    Linear ext session url initial { s with exchange := exchange } := by
  have htrusted := trusted_anyWorld url s.exchange (.step index now resolution outcome)
  have hsafe := step_safe hsha hs.safe htrusted h
  obtain ⟨call, hcall, h⟩ := Option.bind_eq_some_iff.mp h
  obtain ⟨⟨cache, next⟩, hnext, rfl⟩ := Option.map_eq_some_iff.mp h
  obtain ⟨-, -, hrequest⟩ := advance_safe hs.safe htrusted hcall hnext
  refine ⟨hsafe, ?_, fun i answer hreturned => ?_, hs.linearization⟩
  · have hrequests : (s.exchange.calls.set index next).map Call.request = s.exchange.calls.map Call.request := by
      obtain ⟨hlt, rfl⟩ := List.getElem?_eq_some_iff.mp hcall
      rw [List.map_set, hrequest, ← List.map_set, List.set_getElem_self]
    rw [hrequests]
    exact hs.prepared
  · obtain ⟨other, hother, hstage⟩ := hreturned
    rw [List.getElem?_set] at hother
    split at hother
    · obtain rfl : index = i := by assumption
      split at hother
      · obtain rfl := Option.some.inj hother
        obtain ⟨hread, hsucceeds, rfl⟩ := advance_returned hnext hstage
        obtain ⟨request, stage, stream, written⟩ := call
        obtain rfl : stage = .read := hread
        simpa [Attached.responds, hcall, hsucceeds] using hresponds
      · cases hother
    · exact hs.returned i answer ⟨other, hother, hstage⟩

theorem Linear.serve {s : Attached} (hs : Linear ext session url initial s)
    (hsha : ∀ message, ext.sha256 message ≠ [])
    (hgrammar : ∀ target, ext.originForm target → target.head? = some Library.Target.slash) {index : Nat}
    (hnew : index ∉ s.served.map Prod.fst) {call : Call Answer} (hcall : s.exchange.calls[index]? = some call)
    {entry : Option Str × Request} (hentry : call.written.head? = some entry) :
    let result := Exchange.serve ext session entry.2 s.objects
    Linear ext session url initial { s with objects := result.1, served := s.served ++ [(index, result.2)] } := by
  intro result
  obtain ⟨operation, hoperation, now, hprepare⟩ := hs.operation_of_call hcall
  have hrequest : entry.2 = call.request := by
    rcases (hs.safe.calls call (List.mem_of_getElem? hcall)).written with hnone | ⟨peer, hsent, -⟩
    · rw [hnone] at hentry
      cases hentry
    · rw [hsent] at hentry
      obtain rfl := Option.some.inj hentry
      rfl
  have hresult : result = operation.perform ext s.objects := by
    simp only [result, hrequest]
    exact serve_prepare hsha hgrammar hprepare s.objects
  refine ⟨hs.safe, hs.prepared, fun i answer hreturned => ?_, ?_⟩
  · exact List.mem_append_left _ (hs.returned i answer hreturned)
  · rw [hresult]
    exact hs.linearization.took hoperation hnew

theorem attachedStep_linear (hsha : ∀ message, ext.sha256 message ≠ [])
    (hgrammar : ∀ target, ext.originForm target → target.head? = some Library.Target.slash) {s t : Attached}
    {event : Event}
    (hs : Linear ext session url initial s) (h : attachedStep ext session url s event = some t) :
    Linear ext session url initial t := by
  cases event with
  | call now operation =>
      obtain ⟨exchange, hexchange, rfl⟩ := Option.map_eq_some_iff.mp h
      exact hs.call hsha hexchange
  | step index now resolution outcome =>
      simp only [attachedStep] at h
      split at h
      · rename_i hresponds
        obtain ⟨exchange, hexchange, rfl⟩ := Option.map_eq_some_iff.mp h
        exact hs.step hsha hresponds hexchange
      · cases h
  | serve index =>
      simp only [attachedStep] at h
      split at h
      · cases h
      · rename_i hnew
        obtain ⟨call, hcall, h⟩ := Option.bind_eq_some_iff.mp h
        obtain ⟨entry, hentry, rfl⟩ := Option.map_eq_some_iff.mp h
        exact hs.serve hsha hgrammar hnew hcall hentry

theorem attachedStep_served {s t : Attached} {event : Event} (h : attachedStep ext session url s event = some t) :
    s.served <+: t.served := by
  cases event with
  | call now operation =>
      obtain ⟨exchange, -, rfl⟩ := Option.map_eq_some_iff.mp h
      exact List.prefix_rfl
  | step index now resolution outcome =>
      simp only [attachedStep] at h
      split at h
      · obtain ⟨exchange, -, rfl⟩ := Option.map_eq_some_iff.mp h
        exact List.prefix_rfl
      · cases h
  | serve index =>
      simp only [attachedStep] at h
      split at h
      · cases h
      · obtain ⟨call, -, h⟩ := Option.bind_eq_some_iff.mp h
        obtain ⟨entry, -, rfl⟩ := Option.map_eq_some_iff.mp h
        exact List.prefix_append _ _

end Run

-- The objects of a session are linearizable: whatever calls are under way at once
-- and whatever fails, the service stands where single operations one after another
-- would have brought it, each call's once at most. A call that returns an answer
-- has had its operation done in the meantime, and the answer is that operation's.
theorem objects_linearizable (ext : Externals) (hsha : ∀ message, ext.sha256 message ≠ [])
    (hgrammar : ∀ target, ext.originForm target → target.head? = some Library.Target.slash) (session : Session)
    (url : EndpointUrl) (initial : Objects) {now : Int} {resolution : Resolution} {s : Attached}
    (h : Reachable (attachedStep ext session url) (Attached.construct initial now resolution) s) :
    Linearization (fun operation => operation.perform ext) initial s.operations s.served s.objects ∧
      (∀ i answer, s.returned i answer → (i, answer) ∈ s.served) ∧
      ∀ t, Reachable (attachedStep ext session url) s t → ∀ i j answer, s.returned i answer →
        s.operations.length ≤ j → j ∈ t.served.map Prod.fst → [i, j].Sublist (t.served.map Prod.fst) := by
  have hs : Linear ext session url initial s := by
    refine h.invariant ⟨⟨construct_holding now trivial, by simp [Attached.construct, construct], ?_⟩, .nil, ?_,
      .none⟩ fun _ _ _ _ hs hstep => attachedStep_linear hsha hgrammar hs hstep
    · simp [Attached.construct, construct]
    · rintro i answer ⟨call, hcall, -⟩
      simp [Attached.construct, construct] at hcall
  refine ⟨hs.linearization, hs.returned, fun t ht i j answer hreturned hj hserved => ?_⟩
  have hprefix : s.served <+: t.served := by
    refine Reach.invariant (I := fun u : Attached => s.served <+: u.served) List.prefix_rfl ?_ ht
    exact fun _ _ _ _ hprefix hstep => hprefix.trans (attachedStep_served hstep)
  exact hs.linearization.precedes hprefix (List.mem_map_of_mem (hs.returned i answer hreturned)) hj hserved

def putObject : Operation := ⟨.put (ascii "data"), ascii "/bucket/a key", [], false, nofun⟩

def getObject : Operation := ⟨.get, ascii "/bucket/a%20key", [], true, by decide⟩

def attachedAnswers (index : Nat) (answer : Answer) : Event :=
  .step index 0 answering ⟨ErrorCode.success, true, 0, answer⟩

-- The two are under way at once, and the upload is served first.
def attachedRun : List Event :=
  [.call uploadTime putObject, .call uploadTime getObject] ++
    (List.replicate 10 [attachedAnswers 1 .stored, attachedAnswers 0 .stored]).flatten ++
    [.serve 0, .serve 1, attachedAnswers 1 (.found (some (ascii "data"))), attachedAnswers 0 .stored]

def answered (s : Attached) (index : Nat) (answer : Answer) : Bool :=
  match s.exchange.calls[index]? with
  | some ⟨_, .returned (.ok given), _, _⟩ => given = answer
  | _ => false

theorem returned_of_answered {s : Attached} {index : Nat} {answer : Answer} (h : answered s index answer) :
    s.returned index answer := by
  unfold answered at h
  split at h
  · rename_i hcall
    obtain rfl := of_decide_eq_true h
    exact ⟨_, hcall, rfl⟩
  · cases h

theorem slash_of_originForm {target : Str} (h : targetExternals.originForm target) :
    target.head? = some Library.Target.slash := by
  have hform : Library.Target.originForm target := h
  simp only [Library.Target.originForm, Bool.and_eq_true, beq_iff_eq] at hform
  obtain ⟨rest, hpath⟩ := List.head?_eq_some_iff.mp hform.1.1
  obtain ⟨more, hmore⟩ := List.takeWhile_prefix (l := target) fun b => decide (b ≠ Library.Target.questionMark)
  rw [Library.Target.pathOf] at hpath
  rw [← hmore, hpath]
  rfl

theorem objects_linearizable_twoCalls :
    ∃ s : Attached, s.returned 1 (.found (some (ascii "data"))) ∧
      (1, .found (some (ascii "data"))) ∈ s.served ∧
      Linearization (fun operation => operation.perform targetExternals) (fun _ => none) [putObject, getObject]
        s.served s.objects := by
  have hrun : (run (attachedStep targetExternals uploadSession oneHostUrl)
      (Attached.construct (fun _ => none) 0 answering) attachedRun).map (fun s : Attached =>
        decide (s.operations = [putObject, getObject]) && answered s 1 (.found (some (ascii "data")))) =
      some true := by decide +kernel
  obtain ⟨s, hs, hfacts⟩ := Option.map_eq_some_iff.mp hrun
  obtain ⟨hoperations, hanswer⟩ := Bool.and_eq_true_iff.mp hfacts
  obtain ⟨hlinearization, hreturned, -⟩ := objects_linearizable targetExternals
    (fun _ => by simp [targetExternals, uploadExternals]) (fun _ => slash_of_originForm) uploadSession oneHostUrl
    (fun _ => none)
    (Reachable.of_run hs)
  rw [of_decide_eq_true hoperations] at hlinearization
  have hfound := returned_of_answered hanswer
  exact ⟨s, hfound, hreturned 1 _ hfound, hlinearization⟩

end S3Cpp.Aws.S3.Exchange
