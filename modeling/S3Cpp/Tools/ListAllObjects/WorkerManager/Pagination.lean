import S3Cpp.Tools.ListAllObjects.WorkerManager.Losses

namespace S3Cpp.Tools.ListAllObjects

open Aws.S3 Aws.S3.Client Library.Transition Library.Xml

def answered (version : ListObjectsApiVersion) (exchange : Option Str × Response) : Bool :=
  match request version exchange.2 with
  | .value _ => true
  | _ => false

-- The tokens that one page after another was asked for with. A request that
-- fails is repeated for the same page.
def tokensAsked (version : ListObjectsApiVersion) (exchanges : List (Option Str × Response)) :
    List (Option Str) :=
  (exchanges.filter (answered version)).map Prod.fst

namespace Call

variable (config : Config) (call : Call)

-- Those of a call that is about to ask with `token`.
def asked (token : Option Str) : List (Option Str) :=
  tokensAsked config.apiVersion call.exchanges ++ [token]

-- The tokens the server has said to go on with.
def nextTokens : List Str := (call.pages config).filterMap Page.nextToken

-- No two pages are asked for with one token, and a server with finitely many
-- tokens is asked finitely often.
structure Progresses (token : Option Str) : Prop where
  once : (call.asked config token).Nodup
  ends : ∀ tokens : List Str, call.nextTokens config ⊆ tokens →
    call.exchanges.length < maxRetries * (tokens.length + 1)

end Call

section Tokens

variable {version : ListObjectsApiVersion}

-- Each request goes by the page before it, so the tokens asked with are those
-- the pages gave.
theorem tokensAsked_eq (exchanges : List (Option Str × Response))
    (hlinked : ∀ before exchange after, exchanges = before ++ exchange :: after →
      exchange.1 = tokenAfter (pagesOf version before)) :
    tokensAsked version exchanges ++ [tokenAfter (pagesOf version exchanges)] =
      none :: (pagesOf version exchanges).map Page.nextToken := by
  induction exchanges using List.reverseRecOn with
  | nil => rfl
  | append_singleton before exchange ih =>
      have htoken : exchange.1 = tokenAfter (pagesOf version before) :=
        hlinked before exchange [] rfl
      have hbefore := ih fun first next after hsplit =>
        hlinked first next (after ++ [exchange]) (by simp [hsplit])
      cases hr : request version exchange.2 with
      | value page =>
          have hasked : tokensAsked version (before ++ [exchange]) =
              tokensAsked version before ++ [exchange.1] := by
            simp [tokensAsked, answered, hr]
          have hpages : pagesOf version (before ++ [exchange]) = pagesOf version before ++ [page] := by
            simp [pagesOf, hr]
          rw [hasked, hpages, tokenAfter_concat, htoken, hbefore]
          simp
      | unexpected error | exception what =>
          have hasked : tokensAsked version (before ++ [exchange]) = tokensAsked version before := by
            simp [tokensAsked, answered, hr]
          have hpages : pagesOf version (before ++ [exchange]) = pagesOf version before := by
            simp [pagesOf, hr]
          rw [hasked, hpages, hbefore]

theorem map_nextToken {pages : List Page} (h : MorePages pages) :
    pages.map Page.nextToken = (pages.filterMap Page.nextToken).map some := by
  induction pages with
  | nil => rfl
  | cons page rest ih =>
      obtain ⟨next, hnext⟩ := Option.ne_none_iff_exists'.mp (h page (by simp))
      have hrest := ih fun p hp => h p (by simp [hp])
      simp [hnext, hrest]

variable {config : Config} {sh : Shared} {call : Call} {token : Option Str}

theorem asked_nodup_iff (hsound : Sound config sh call) (hask : Asking config sh call token) :
    (call.asked config token).Nodup ↔ (call.nextTokens config).Nodup := by
  have hasked : call.asked config token = none :: (call.nextTokens config).map some := by
    rw [Call.asked, hask.token_eq, Call.nextTokens, ← map_nextToken hask.more]
    exact tokensAsked_eq call.exchanges hsound.linked
  rw [hasked, List.nodup_cons]
  simp only [List.mem_map, reduceCtorEq, and_false, exists_false, not_false_eq_true, true_and]
  exact List.nodup_map_iff (Option.some_injective Str)

theorem length_nextTokens (hask : Asking config sh call token) :
    (call.nextTokens config).length = (call.pages config).length := by
  rw [← List.length_map some, Call.nextTokens, ← map_nextToken hask.more, List.length_map]

end Tokens

-- A page takes at most `maxRetries` requests.
def Budgeted (config : Config) : WorkerState → Prop
  | .listOne call _ retries =>
      retries ≤ maxRetries ∧ call.exchanges.length < maxRetries * (call.pages config).length + retries
  | .writeObjects call page | .lockQueue call page | .countObjects call page | .pushPrefixes call page
  | .countOp call page =>
      page.nextToken = none ∨ call.exchanges.length ≤ maxRetries * (call.pages config).length
  | _ => True

section Budget

variable {config : Config} {response : Response} {sh sh' : Shared} {w w' : WorkerState}

theorem ListStep.budgeted {call : Call} {token : Option Str} {retries : Nat}
    (h : ListStep config response sh call token retries sh' w')
    (hw : Budgeted config (.listOne call token retries)) : Budgeted config w' := by
  obtain ⟨hretries, hlength⟩ := hw
  have hreceive : (call.receive token response).exchanges.length = call.exchanges.length + 1 := by
    simp [Call.receive]
  cases h with
  | throws | repeated => trivial
  | retry error hr hmore =>
      have hpages : (call.receive token response).pages config = call.pages config :=
        Call.pages_receive_of_not_value (by simp [hr])
      refine ⟨hmore, ?_⟩
      simp only [Call.pages, Call.print] at hpages ⊢
      rw [hpages, hreceive]
      exact Nat.succ_lt_succ hlength
  | giveUp error hr hlast =>
      left
      cases config.apiVersion <;> rfl
  | accept page hr hrepeats =>
      right
      rw [Call.pages_receive_value hr, hreceive, List.length_append, List.length_singleton,
        Nat.mul_add_one]
      omega

theorem WorkerStep.budgeted (h : WorkerStep config response sh w sh' w') (hw : Budgeted config w) :
    Budgeted config w' := by
  cases h with
  | list call token retries h => exact h.budgeted hw
  | release path depth => exact ⟨by decide, by simp [Call.start, Call.pages, pagesOf]⟩
  | nextPage call page token htoken =>
      rcases hw with hnone | hlength
      · simp [hnone] at htoken
      · exact ⟨by decide, Nat.lt_succ_of_le hlength⟩
  | write | lockAgain | count | push => exact hw
  | _ => trivial

end Budget

theorem ReachableCrawl.budgeted {config : Config} {s : Crawl} (h : ReachableCrawl config s) :
    ∀ w ∈ s.workers, Budgeted config w :=
  h.invariant (by simp [construct]) fun _ _ _ _ hs ht =>
    step_workers trivial (fun hstep hw => hstep.budgeted hw) hs ht

-- A listing gets along as long as the server gives no next token twice.
theorem progresses_iff (config : Config) (s : Crawl) (h : ReachableCrawl config s) (call : Call)
    (token : Option Str) (retries : Nat) (hw : .listOne call token retries ∈ s.workers) :
    call.Progresses config token ↔ (call.nextTokens config).Nodup := by
  obtain ⟨hsound, hask⟩ := h.callsSound.workers _ hw
  obtain ⟨hretries, hbudget⟩ := h.budgeted _ hw
  have honce := asked_nodup_iff hsound hask
  constructor
  · intro hprogresses
    exact honce.mp hprogresses.once
  · intro hnodup
    refine ⟨honce.mpr hnodup, fun tokens hsubset => ?_⟩
    have hpages : (call.pages config).length ≤ tokens.length := by
      rw [← length_nextTokens hask]
      exact hnodup.length_le_of_subset hsubset
    calc call.exchanges.length < maxRetries * (call.pages config).length + retries := hbudget
      _ ≤ maxRetries * tokens.length + maxRetries :=
          Nat.add_le_add (Nat.mul_le_mul_left _ hpages) hretries
      _ = maxRetries * (tokens.length + 1) := (Nat.mul_add_one _ _).symm

def nextPage (token : String) : Response :=
  listingResponse [textElement "IsTruncated" "true", textElement "NextContinuationToken" token]

-- A worker that asks for the root and then for the page after each token.
def pagesRun (tokens : List String) : List Action :=
  firstTick ++ workerSteps 0 4 ++
    tokens.flatMap fun token => .worker 0 0 (nextPage token) :: workerSteps 0 5

theorem pagesRun_asks {tokens : List String} {facts : Call → Option Str → Bool}
    (h : (run (step defaultConfig) construct (pagesRun tokens)).map (fun s => s.workers.any fun w =>
      match w with
      | .listOne call token _ => facts call token
      | _ => false) = some true) :
    ∃ s call token retries, ReachableCrawl defaultConfig s ∧
      WorkerState.listOne call token retries ∈ s.workers ∧ facts call token = true := by
  obtain ⟨s, hs, hfacts⟩ := ReachableCrawl.of_run h
  obtain ⟨w, hw, hfacts⟩ := List.any_eq_true.mp hfacts
  split at hfacts
  · exact ⟨s, _, _, _, hs, hw, hfacts⟩
  · cases hfacts

theorem progresses_iff_twoTokens :
    ∃ (call : Call) (token : Option Str), call.nextTokens defaultConfig = [ascii "one", ascii "two"] ∧
      call.Progresses defaultConfig token := by
  let facts (call : Call) (_ : Option Str) : Bool :=
    call.nextTokens defaultConfig = [ascii "one", ascii "two"]
  obtain ⟨s, call, token, retries, hs, hw, hfacts⟩ :=
    @pagesRun_asks ["one", "two"] facts (by decide +kernel)
  have hnext := of_decide_eq_true hfacts
  refine ⟨call, token, hnext, (progresses_iff defaultConfig s hs call token retries hw).mpr ?_⟩
  rw [hnext]
  decide

-- A server that does not repeat the token it was asked with gives one token
-- twice, and the second page after it is asked for as the first was.
theorem token_followed_twice :
    ¬ ∀ (config : Config) (s : Crawl) (call : Call) (token : Option Str) (retries : Nat),
      ReachableCrawl config s → .listOne call token retries ∈ s.workers →
        call.Progresses config token := by
  intro h
  let facts (call : Call) (token : Option Str) : Bool :=
    call.asked defaultConfig token = [none, some (ascii "next"), some (ascii "next")]
  obtain ⟨s, call, token, retries, hs, hw, hfacts⟩ :=
    @pagesRun_asks ["next", "next"] facts (by decide +kernel)
  have honce := (h defaultConfig s call token retries hs hw).once
  rw [of_decide_eq_true hfacts] at honce
  exact absurd honce (by decide)

end S3Cpp.Tools.ListAllObjects
