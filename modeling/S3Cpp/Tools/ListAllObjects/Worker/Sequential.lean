import S3Cpp.Tools.ListAllObjects.Worker.Theorems

namespace S3Cpp.Tools.ListAllObjects

open Aws.S3 Aws.S3.Client

-- What list_one_impl has come to when it has seen some responses. Those after
-- the one it returns with are left over.
inductive ListOne
  | waiting (call : Call) (retries : Nat)
  | page (call : Call) (page : Page) (rest : List Response)
  | threw (call : Call) (what : Str)

-- The loop over the retries, from the retry it is at.
def listOneImpl (config : Config) (token : Option Str) : Call → Nat → List Response → ListOne
  | call, retries, [] => .waiting call retries
  | call, retries, response :: rest =>
      let received := call.receive token response
      match request config.apiVersion response with
      | .exception what => .threw received what
      | .value page => .page received page rest
      | .unexpected error =>
          let warned := received.print [warnRetry call.path error retries]
          if retries < maxRetries then listOneImpl config token warned (retries + 1) rest
          else .page (warned.print [errorNoSuccess call.path]) (Page.default config.apiVersion) rest

-- Where a process_prefix call stands when it has seen some responses: it waits
-- for the next one or has ended.
inductive Progress
  | waiting (call : Call) (token : Option Str) (retries : Nat)
  | ended (call : Call) (ending : Ending)

theorem listOneImpl_rest_lt {config : Config} {token : Option Str} {call later : Call} {retries : Nat}
    {responses rest : List Response} {page : Page}
    (h : listOneImpl config token call retries responses = .page later page rest) :
    rest.length < responses.length := by
  induction responses generalizing call retries with
  | nil => cases h
  | cons response responses ih =>
      rw [listOneImpl] at h
      split at h
      · cases h
      · cases h
        exact Nat.lt_succ_self _
      · split at h
        · exact (ih h).trans (Nat.lt_succ_self _)
        · cases h
          exact Nat.lt_succ_self _

-- The loop over the pages, from a request that may have been retried.
def processPages (config : Config) (call : Call) (token : Option Str) (retries : Nat)
    (responses : List Response) : Progress :=
  match _h : listOneImpl config token call retries responses with
  | .waiting call retries => .waiting call token retries
  | .threw call what => .ended call (.threw what)
  | .page call page rest =>
      if page.repeatsToken then
        .ended (call.print [warnRepeated config.apiVersion call.path]) .returned
      else
        let call := (call.hand page.contents).queue page.commonPrefixes
        match page.nextToken with
        | some next => processPages config call (some next) 1 rest
        | none => .ended call .returned
termination_by responses.length
decreasing_by exact listOneImpl_rest_lt _h

def processPrefix (config : Config) (path : CommonPrefix) (depth : Nat) (responses : List Response) :
    Progress :=
  processPages config (Call.start path depth) none 1 responses

-- What a call comes to when it has dealt with a page.
def Call.afterPage (call : Call) (page : Page) : Progress :=
  match page.nextToken with
  | some next => .waiting call (some next) 1
  | none => .ended call .returned

-- Going on with more responses. A call that has ended takes no more.
def Progress.resume (config : Config) (responses : List Response) : Progress → Progress
  | .waiting call token retries => processPages config call token retries responses
  | .ended call ending => .ended call ending

section Responses

variable {config : Config} {token : Option Str}

theorem listOneImpl_append (call : Call) (retries : Nat) (responses more : List Response) :
    listOneImpl config token call retries (responses ++ more) =
      match listOneImpl config token call retries responses with
      | .waiting call retries => listOneImpl config token call retries more
      | .page call page rest => .page call page (rest ++ more)
      | .threw call what => .threw call what := by
  induction responses generalizing call retries with
  | nil => rfl
  | cons response responses ih =>
      simp only [List.cons_append, listOneImpl]
      split
      · rfl
      · rfl
      · split
        · exact ih _ _
        · rfl

theorem processPages_eq (call : Call) (retries : Nat) (responses : List Response) :
    processPages config call token retries responses =
      match listOneImpl config token call retries responses with
      | .waiting call retries => .waiting call token retries
      | .threw call what => .ended call (.threw what)
      | .page call page rest =>
          if page.repeatsToken then
            .ended (call.print [warnRepeated config.apiVersion call.path]) .returned
          else (((call.hand page.contents).queue page.commonPrefixes).afterPage page).resume config rest := by
  rw [processPages]
  split
  · simp [*]
  · simp [*]
  · simp only [*, Call.afterPage]
    split
    · rfl
    · split <;> rfl

theorem processPages_nil (call : Call) (retries : Nat) :
    processPages config call token retries [] = .waiting call token retries := by
  rw [processPages_eq]
  rfl

@[simp] theorem resume_nil (progress : Progress) : progress.resume config [] = progress := by
  cases progress with
  | waiting call token retries => exact processPages_nil call retries
  | ended call ending => rfl

theorem processPages_append (call : Call) (retries : Nat) (responses more : List Response) :
    processPages config call token retries (responses ++ more) =
      (processPages config call token retries responses).resume config more := by
  induction hlength : responses.length using Nat.strongRecOn generalizing call token retries responses with
  | _ length ih =>
      rw [processPages_eq, processPages_eq, listOneImpl_append]
      cases hlist : listOneImpl config token call retries responses with
      | waiting later retries' =>
          exact (processPages_eq later retries' more).symm
      | threw later what => rfl
      | page later page rest =>
          dsimp only
          split
          · rfl
          · unfold Call.afterPage
            cases page.nextToken with
            | none => rfl
            | some next => exact ih rest.length (hlength ▸ listOneImpl_rest_lt hlist) _ _ _ rfl

end Responses

end S3Cpp.Tools.ListAllObjects
