import S3Cpp.Aws.S3.DnsCache.Theorems

namespace S3Cpp.Aws.S3.DnsCache

open Library.Transition

def HasSucceeded (s : State) : Prop := ∃ e, some e ∈ s.stored

-- The value stored last in current_endpoints came from a successful resolution.
def LastSucceeded (s : State) : Prop := ∃ e, s.stored.getLast? = some (some e)

-- A new call on the cache `s`, at the loop's head or at `pc`.
def State.withCall (s : State) (pc : Caller) : State := { s with callers := s.callers ++ [pc] }

-- Only the new call moves, and every query of it is answered with endpoints.
def Alone (s : State) (_ : State) (action : Action) : Prop :=
  ∃ now resolution, action = .step s.callers.length now resolution ∧ resolution.Succeeds

def answerOf (s t : State) : Option Answer :=
  match t.callers[s.callers.length]? with
  | some (.returned answer) => some answer
  | _ => none

-- No more than a minute passes over any four steps of the call, so an answer
-- is not yet stale when it is looked at for the first time.
def Prompt (clock : Nat → Int) : Prop := ∀ k, clock (k + 4) ≤ clock k + seconds 60

def actionsAlone (s : State) (clock : Nat → Int) (resolver : Nat → Resolution) (k : Nat) :
    List Action :=
  (List.range k).map fun j => .step s.callers.length (clock j) (resolver j)

-- A call that runs alone against a working resolver never gives an error, and
-- it does give endpoints.
structure Recovers (s : State) : Prop where
  no_error : ∀ t, Reach step (Alone s) (s.withCall .snapshot) t →
    ∀ code, answerOf s t ≠ some (.error code)
  endpoints : ∀ clock resolver, Prompt clock → (∀ k, (resolver k).Succeeds) →
    ∃ k t results, run step (s.withCall .snapshot) (actionsAlone s clock resolver k) = some t ∧
      answerOf s t = some (.ok results) ∧ results ≠ []

@[simp] theorem answerOf_withCall (s t : State) (pc : Caller) (h : t.callers = s.callers) :
    answerOf s (t.withCall pc) =
      match pc with
      | .returned answer => some answer
      | _ => none := by
  simp only [answerOf, State.withCall, h, List.getElem?_concat_length]
  cases pc <;> rfl

theorem callerStep_congr_callers (now : Int) (resolution : Resolution) (s : State)
    (callers : List Caller) (pc : Caller) :
    callerStep now resolution { s with callers := callers } pc =
      (callerStep now resolution s pc).map fun next =>
        ({ next.1 with callers := callers }, next.2) := by
  cases pc with
  | checkNull endpoints => cases endpoints <;> simp only [callerStep] <;> (try split) <;> rfl
  | compareExchange endpoints => simp only [callerStep]; split <;> rfl
  | _ => rfl

-- The new call does not disturb the others, so its steps are those of the
-- cache without it.
theorem step_withCall {s t : State} (ht : t.callers = s.callers) (now : Int)
    (resolution : Resolution) (pc : Caller) :
    step (t.withCall pc) (.step s.callers.length now resolution) =
      (callerStep now resolution t pc).map fun next => next.1.withCall next.2 := by
  simp only [step, State.withCall, ht, List.getElem?_concat_length, Option.bind_some,
    callerStep_congr_callers, Option.map_map]
  cases h : callerStep now resolution t pc with
  | none => rfl
  | some next => simp [callerStep_callers h, ht]

-- What holds of the call running alone: every endpoint set it meets is one
-- that a resolution gave.
def Sound (t : State) : Caller → Prop
  | .snapshot | .resetFlag => t.currentEndpoints ≠ none
  | .checkNull endpoints | .store endpoints => endpoints ≠ none
  | .compareExchange _ | .update => True
  | .returned answer => ∃ results, answer = .ok results

theorem callerStep_sound {t u : State} {now : Int} {resolution : Resolution}
    {pc next : Caller} (hr : resolution.Succeeds) (hs : Sound t pc)
    (h : callerStep now resolution t pc = some (u, next)) : Sound u next := by
  cases callerStep_inv h with
  | snapshot => exact hs
  | noEndpoints => exact absurd rfl hs
  | old e _ => trivial
  | fresh e _ => exact ⟨_, rfl⟩
  | busy e _ => exact ⟨_, rfl⟩
  | exchange e _ => trivial
  | update => simp [Sound, update_of_succeeds _ _ _ hr]
  | store result => exact hs
  | resetFlag => exact hs

theorem alone_sound {s t : State} (hc : s.currentEndpoints ≠ none)
    (h : Reach step (Alone s) (s.withCall .snapshot) t) :
    ∃ base pc, t = base.withCall pc ∧ base.callers = s.callers ∧ Sound base pc := by
  apply h.invariant (I := fun t => ∃ base pc, t = base.withCall pc ∧
    base.callers = s.callers ∧ Sound base pc) ⟨s, .snapshot, rfl, rfl, hc⟩
  rintro _ _ t ⟨now, resolution, rfl, hr⟩ ⟨base, pc, rfl, hb, hs⟩ ht
  rw [step_withCall hb, Option.map_eq_some_iff] at ht
  obtain ⟨⟨u, next⟩, hu, rfl⟩ := ht
  exact ⟨u, next, rfl, (callerStep_callers hu).trans hb, callerStep_sound hr hs hu⟩

theorem alone_no_error {s t : State} (hc : s.currentEndpoints ≠ none)
    (h : Reach step (Alone s) (s.withCall .snapshot) t) (code : ErrorCode) :
    answerOf s t ≠ some (.error code) := by
  obtain ⟨base, pc, rfl, hb, hs⟩ := alone_sound hc h
  rw [answerOf_withCall _ _ _ hb]
  cases pc with
  | returned answer =>
      obtain ⟨results, rfl⟩ := hs
      simp
  | _ => simp

theorem run_withCall {s t u : State} {now : Int} {resolution : Resolution} {pc next : Caller}
    {rest : List Action} (ht : t.callers = s.callers)
    (h : callerStep now resolution t pc = some (u, next)) :
    run step (t.withCall pc) (.step s.callers.length now resolution :: rest) =
      run step (u.withCall next) rest := by
  apply run_cons
  rw [step_withCall ht, h]
  rfl

-- A call that finds the flag clear refreshes the endpoints and answers with what
-- it was given, as no minute passes before it looks at them.
theorem run_refresh {s : State} (e : Endpoints) (hu : s.beingUpdated = false) {clock : Nat → Int}
    {resolver : Nat → Resolution} (hp : Prompt clock) (hr : ∀ k, (resolver k).Succeeds) :
    ∃ t : State, t.callers = s.callers ∧
      run step (s.withCall (.compareExchange e))
          ((List.range' 2 6).map fun j => .step s.callers.length (clock j) (resolver j)) =
        some (t.withCall (.returned (.ok (resolver 3).results))) := by
  let fresh : Endpoints := ⟨clock 3, (resolver 3).results⟩
  let claimed : State := { s with beingUpdated := true }
  let refreshed : State := { claimed with
    currentEndpoints := some fresh, stored := s.stored ++ [some fresh] }
  let final : State := { refreshed with beingUpdated := false }
  have hexchange : callerStep (clock 2) (resolver 2) s (.compareExchange e) =
      some (claimed, .update) := by simp [callerStep, hu, claimed]
  have hupdate : callerStep (clock 3) (resolver 3) claimed .update =
      some (claimed, .store (some fresh)) := by
    simp [callerStep, update_of_succeeds _ _ _ (hr 3), claimed, fresh]
  -- store, reset of the flag and the second snapshot read no input
  have hstored : callerStep (clock 4) (resolver 4) claimed (.store (some fresh)) =
      some (refreshed, .resetFlag) := rfl
  have hreset : callerStep (clock 5) (resolver 5) refreshed .resetFlag =
      some (final, .snapshot) := rfl
  have hagain : callerStep (clock 6) (resolver 6) final .snapshot =
      some (final, .checkNull (some fresh)) := rfl
  have hfresh : stale fresh (clock 7) = false := by
    have : clock 7 ≤ clock 3 + seconds 60 := hp 3
    simp only [stale, fresh, decide_eq_false_iff_not]
    omega
  have hrecheck : callerStep (clock 7) (resolver 7) final (.checkNull (some fresh)) =
      some (final, .returned (.ok fresh.endpoints)) := by simp [callerStep, hfresh]
  refine ⟨final, rfl, ?_⟩
  change run step _ [.step _ _ _, .step _ _ _, .step _ _ _, .step _ _ _, .step _ _ _,
    .step _ _ _] = _
  rw [run_withCall rfl hexchange, run_withCall rfl hupdate, run_withCall rfl hstored,
    run_withCall rfl hreset, run_withCall rfl hagain, run_withCall rfl hrecheck]
  rfl

-- The three ways the call can go: the endpoints are fresh, another call is
-- refreshing them, or this call refreshes them itself.
theorem alone_endpoints {s : State} {e : Endpoints} (hc : s.currentEndpoints = some e)
    (hne : e.endpoints ≠ []) (clock : Nat → Int) (resolver : Nat → Resolution)
    (hp : Prompt clock) (hr : ∀ k, (resolver k).Succeeds) :
    ∃ k t results, run step (s.withCall .snapshot) (actionsAlone s clock resolver k) = some t ∧
      answerOf s t = some (.ok results) ∧ results ≠ [] := by
  have answered (t : State) (ht : t.callers = s.callers) (results : Results) :
      answerOf s (t.withCall (.returned (.ok results))) = some (.ok results) := by simp [ht]
  have hsnapshot : callerStep (clock 0) (resolver 0) s .snapshot = some (s, .checkNull (some e)) := by
    simp [callerStep, hc]
  by_cases hstale : stale e (clock 1)
  · have hcheck : callerStep (clock 1) (resolver 1) s (.checkNull (some e)) =
        some (s, .compareExchange e) := by simp [callerStep, hstale]
    by_cases hu : s.beingUpdated
    · have hexchange : callerStep (clock 2) (resolver 2) s (.compareExchange e) =
          some (s, .returned (.ok e.endpoints)) := by simp [callerStep, hu]
      refine ⟨3, s.withCall (.returned (.ok e.endpoints)), e.endpoints, ?_, answered s rfl _, hne⟩
      change run step _ [.step _ _ _, .step _ _ _, .step _ _ _] = _
      rw [run_withCall rfl hsnapshot, run_withCall rfl hcheck, run_withCall rfl hexchange]
      rfl
    · obtain ⟨t, ht, hrun⟩ := run_refresh e (Bool.eq_false_iff.mpr hu) hp hr
      refine ⟨8, t.withCall (.returned (.ok (resolver 3).results)), (resolver 3).results, ?_,
        answered t ht _, (hr 3).2⟩
      change run step _ (.step _ _ _ :: .step _ _ _ :: _) = _
      rw [run_withCall rfl hsnapshot, run_withCall rfl hcheck]
      exact hrun
  · have hcheck : callerStep (clock 1) (resolver 1) s (.checkNull (some e)) =
        some (s, .returned (.ok e.endpoints)) := by simp [callerStep, hstale]
    refine ⟨2, s.withCall (.returned (.ok e.endpoints)), e.endpoints, ?_, answered s rfl _, hne⟩
    change run step _ [.step _ _ _, .step _ _ _] = _
    rw [run_withCall rfl hsnapshot, run_withCall rfl hcheck]
    rfl

theorem recovers_of_current {s : State} {e : Endpoints} (hc : s.currentEndpoints = some e)
    (hne : e.endpoints ≠ []) : Recovers s where
  no_error _ h code := alone_no_error (by simp [hc]) h code
  endpoints clock resolver hp hr := alone_endpoints hc hne clock resolver hp hr

-- Once null is stored the call answers with last_error after two steps and
-- never gets to the resolver.
theorem not_recovers_of_null {s : State} (hc : s.currentEndpoints = none) : ¬Recovers s := by
  intro h
  let working : Resolution := ⟨ErrorCode.success, [ascii "address"]⟩
  have hw : working.Succeeds := by decide
  have hsnapshot : callerStep 0 working s .snapshot = some (s, .checkNull none) := by
    simp [callerStep, hc]
  have hcheck : callerStep 0 working s (.checkNull none) =
      some (s, .returned (.error s.lastError)) := rfl
  have halone (t : State) : Alone s t (.step s.callers.length 0 working) := ⟨0, working, rfl, hw⟩
  have hr : Reach step (Alone s) (s.withCall .snapshot) (s.withCall (.returned (.error s.lastError))) :=
    .tail (.tail .refl (halone _) (by rw [step_withCall rfl, hsnapshot]; rfl)) (halone _)
      (by rw [step_withCall rfl, hcheck]; rfl)
  exact h.no_error _ hr s.lastError (by simp)

-- A call on its own gets endpoints exactly when the last refresh stored them:
-- one failed refresh is final, as the null check precedes the staleness check.
theorem recovers_iff_lastSucceeded {s : State} (h : ReachableCache s) :
    Recovers s ↔ LastSucceeded s := by
  have hv := h.valid
  constructor
  · intro hr
    cases hc : s.currentEndpoints with
    | none => exact absurd hr (not_recovers_of_null hc)
    | some e => exact ⟨e, hc ▸ hv.current⟩
  · rintro ⟨e, he⟩
    have hc : s.currentEndpoints = some e := Option.some.inj (hv.current.symm.trans he)
    exact recovers_of_current hc (hv.stored_nonempty e (List.mem_of_getLast? he))

-- A cache built at time 0.
def builtOnce : State := construct 0 ⟨ErrorCode.success, [ascii "192.0.2.1"]⟩

-- Two minutes later two calls find the endpoints old. The refresh of the first
-- fails, and the second goes on to make its own.
def firstFails : List Action :=
  [.call, .call] ++ ([0, 1, 0, 1] ++ List.replicate 6 0).map fun i =>
    .step i (seconds 120) ⟨⟨110, ascii "system"⟩, []⟩

def secondSucceeds : List Action := List.replicate 4 (.step 1 (seconds 120) answering)

theorem recovers_iff_lastSucceeded_refreshedTwice :
    ∃ s t, run step builtOnce firstFails = some s ∧ run step s secondSucceeds = some t ∧
      ¬ Recovers s ∧ Recovers t := by
  have hfirst : (run step builtOnce firstFails).map (fun s => s.stored.getLast?) = some (some none) := by decide
  obtain ⟨s, hs, hnull⟩ := Option.map_eq_some_iff.mp hfirst
  have hsecond : ((run step builtOnce firstFails).bind fun s => run step s secondSucceeds).map
      (fun s => s.stored.getLast?) = some (some (some ⟨seconds 120, answering.results⟩)) := by decide
  rw [hs, Option.bind_some] at hsecond
  obtain ⟨t, ht, hfresh⟩ := Option.map_eq_some_iff.mp hsecond
  have hreach : Reachable step builtOnce s := .of_run hs
  refine ⟨s, t, hs, ht, fun h => ?_, ?_⟩
  · obtain ⟨e, he⟩ := (recovers_iff_lastSucceeded ⟨0, _, hreach⟩).mp h
    simp [hnull] at he
  · exact (recovers_iff_lastSucceeded ⟨0, _, hreach.trans (Reachable.of_run ht)⟩).mpr ⟨_, hfresh⟩

-- Two minutes later a first call finds the endpoints stale and its resolution
-- times out.
def refreshFailed : List Action :=
  .call :: List.replicate 8 (.step 0 (seconds 120) ⟨⟨110, ascii "system"⟩, []⟩)

def afterFailedRefresh : State :=
  { currentEndpoints := none
    beingUpdated := false
    lastError := ⟨110, ascii "system"⟩
    callers := [.returned (.error ⟨110, ascii "system"⟩)]
    stored := [some ⟨0, [ascii "192.0.2.1"]⟩, none] }

theorem failed_refresh_is_fatal :
    ¬∀ s, ReachableCache s → HasSucceeded s → Recovers s := by
  intro h
  have hr : run step builtOnce refreshFailed = some afterFailedRefresh := by decide
  refine not_recovers_of_null rfl (h afterFailedRefresh ?_ ?_)
  · exact ⟨0, _, .of_run hr⟩
  · exact ⟨⟨0, [ascii "192.0.2.1"]⟩, by decide⟩

end S3Cpp.Aws.S3.DnsCache
