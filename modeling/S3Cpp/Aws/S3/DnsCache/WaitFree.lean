import S3Cpp.Aws.S3.DnsCache.Exclusion
import S3Cpp.Aws.S3.DnsCache.Expiry
import S3Cpp.Library.Sampling

namespace S3Cpp.Aws.S3.DnsCache

open Library.Transition

-- What one call has done: when it began, how many steps it has taken, and when
-- it has set the flag.
structure Effort where
  began : Option Int
  steps : Nat
  refreshes : List Int
  deriving DecidableEq

def Effort.none : Effort := ⟨.none, 0, []⟩

def Effort.step (effort : Effort) (now : Int) (refreshes : Bool) : Effort where
  began := effort.began.or (some now)
  steps := effort.steps + 1
  refreshes := if refreshes then effort.refreshes ++ [now] else effort.refreshes

-- The cache under a clock that never goes back, with an eye on one of the calls.
structure Watched where
  cache : State
  clock : Int
  effort : Effort
  deriving DecidableEq

def Watched.construct (now : Int) (resolution : Resolution) : Watched :=
  ⟨DnsCache.construct now resolution, now, Effort.none⟩

-- The call's next step is a compare-exchange that succeeds.
def State.exchanges (s : State) (i : Nat) : Bool :=
  match s.callers[i]? with
  | some (.compareExchange _) => !s.beingUpdated
  | _ => false

def watchedStep (watched : Nat) (s : Watched) : Action → Option Watched
  | .call => (step s.cache .call).map fun cache => { s with cache := cache }
  | .step i now resolution =>
      if now < s.clock then none
      else
        (step s.cache (.step i now resolution)).map fun cache =>
          ⟨cache, now, if i = watched then s.effort.step now (s.cache.exchanges i) else s.effort⟩

-- How far a call is in its loop.
def Caller.position : Caller → Nat
  | .snapshot => 0
  | .checkNull _ => 1
  | .compareExchange _ => 2
  | .update | .returned _ => 3
  | .store _ => 4
  | .resetFlag => 5

-- What has been resolved is no older than each of the call's refreshes that has
-- come to an end.
def After (refreshes : List Int) (e : Endpoints) : Prop := ∀ time ∈ refreshes, time ≤ e.created

def Caller.Ahead (refreshes : List Int) (clock : Int) (current : Option Endpoints) : Caller → Prop
  | .update | .store _ => True
  | .checkNull endpoints => (∀ e ∈ endpoints, After refreshes e) ∧ ∀ e ∈ current, After refreshes e
  | .compareExchange endpoints =>
      (After refreshes endpoints ∧ stale endpoints clock = true) ∧ ∀ e ∈ current, After refreshes e
  | .snapshot | .resetFlag | .returned _ => ∀ e ∈ current, After refreshes e

-- The refreshes of one call are more than 60 s apart, and between them it takes
-- one round of its loop.
structure Spaced (watched : Nat) (s : Watched) : Prop where
  counted : Counted s.cache
  spaced : s.effort.refreshes.Pairwise fun earlier later => earlier + seconds 60 < later
  within : ∀ began ∈ s.effort.began, began ≤ s.clock ∧
    ∀ time ∈ s.effort.refreshes, began ≤ time ∧ time ≤ s.clock
  unbegun : s.effort.began = none → s.effort = Effort.none
  storing : ∀ e, Caller.store (some e) ∈ s.cache.callers → After s.effort.refreshes e
  absent : s.cache.callers[watched]? = none → s.effort = Effort.none
  ahead : ∀ pc, s.cache.callers[watched]? = some pc →
    pc.Ahead s.effort.refreshes s.clock s.cache.currentEndpoints
  rounds : ∀ pc, s.cache.callers[watched]? = some pc →
    s.effort.steps + (if pc.refreshing then 6 else 0) ≤ 6 * s.effort.refreshes.length + pc.position

theorem watchedStep_cases {watched : Nat} {s t : Watched} {action : Action}
    (h : watchedStep watched s action = some t) :
    t = { s with cache := { s.cache with callers := s.cache.callers ++ [.snapshot] } } ∨
    ∃ i now resolution pc u next, s.clock ≤ now ∧ s.cache.callers[i]? = some pc ∧
      callerStep now resolution s.cache pc = some (u, next) ∧
      t = ⟨{ u with callers := s.cache.callers.set i next }, now,
        if i = watched then s.effort.step now (s.cache.exchanges i) else s.effort⟩ := by
  cases action with
  | call =>
      obtain rfl := Option.some.inj h
      exact .inl rfl
  | step i now resolution =>
      simp only [watchedStep] at h
      split at h
      · cases h
      · obtain ⟨cache, hcache, rfl⟩ := Option.map_eq_some_iff.mp h
        rcases step_cases hcache with ⟨hcall, -⟩ | ⟨j, time, r, pc, u, next, hstep, hpc, hu, rfl⟩
        · cases hcall
        · obtain ⟨rfl, rfl, rfl⟩ := Action.step.inj hstep
          exact .inr ⟨i, now, resolution, pc, u, next, by omega, hpc, hu, rfl⟩

section Step

variable {watched : Nat} {s : Watched} {now : Int} {resolution : Resolution} {u : State}
  {pc next : Caller}

theorem update_created {lastError : ErrorCode} {e : Endpoints}
    (h : (update lastError now resolution).2 = some e) : e.created = now := by
  unfold update at h
  split at h
  · cases h
  split at h
  · cases h
  · obtain rfl := Option.some.inj h
    rfl

theorem Spaced.le_clock (hs : Spaced watched s) {time : Int} (htime : time ∈ s.effort.refreshes) :
    time ≤ s.clock := by
  cases hbegan : s.effort.began with
  | none =>
      rw [hs.unbegun hbegan] at htime
      cases htime
  | some began => exact ((hs.within began hbegan).2 time htime).2

-- A result comes from an update, which has looked at the clock.
theorem Spaced.storing_step (hs : Spaced watched s) (hnow : s.clock ≤ now) {i : Nat}
    (hpc : s.cache.callers[i]? = some pc) (hu : callerStep now resolution s.cache pc = some (u, next))
    {e : Endpoints} (he : Caller.store (some e) ∈ s.cache.callers.set i next) :
    After s.effort.refreshes e := by
  rcases List.mem_or_eq_of_mem_set he with he | he
  · exact hs.storing e he
  · cases callerStep_inv hu with
    | update =>
        have hcreated := update_created (Caller.store.inj he).symm
        intro time htime
        have hclock := hs.le_clock htime
        omega
    | _ => cases he

theorem Spaced.current_step (hs : Spaced watched s) {i : Nat}
    (hpc : s.cache.callers[i]? = some pc) (hu : callerStep now resolution s.cache pc = some (u, next))
    (hcurrent : ∀ e ∈ s.cache.currentEndpoints, After s.effort.refreshes e) :
    ∀ e ∈ u.currentEndpoints, After s.effort.refreshes e := by
  cases callerStep_inv hu with
  | store result =>
      intro e he
      have he : result = some e := he
      subst he
      exact hs.storing e (List.mem_of_getElem? hpc)
  | _ => exact hcurrent

theorem Caller.Ahead.mono {caller : Caller} {refreshes : List Int} {clock : Int}
    {current current' : Option Endpoints} (h : caller.Ahead refreshes clock current)
    (hclock : clock ≤ now)
    (hcurrent : (∀ e ∈ current, After refreshes e) → ∀ e ∈ current', After refreshes e) :
    caller.Ahead refreshes now current' := by
  cases caller with
  | update | store => trivial
  | checkNull endpoints => exact ⟨h.1, hcurrent h.2⟩
  | compareExchange endpoints => exact ⟨⟨h.1.1, stale_mono hclock h.1.2⟩, hcurrent h.2⟩
  | snapshot | resetFlag | returned => exact hcurrent h

-- Another call's step leaves the watched one where it is.
theorem Spaced.step_other (hs : Spaced watched s) (hnow : s.clock ≤ now) {i : Nat} (hi : i ≠ watched)
    (hpc : s.cache.callers[i]? = some pc) (hu : callerStep now resolution s.cache pc = some (u, next))
    (hcounted : Counted { u with callers := s.cache.callers.set i next }) :
    Spaced watched ⟨{ u with callers := s.cache.callers.set i next }, now, s.effort⟩ where
  counted := hcounted
  spaced := hs.spaced
  within began hbegan := by
    obtain ⟨hle, htimes⟩ := hs.within began hbegan
    exact ⟨hle.trans hnow, fun time htime => ⟨(htimes time htime).1, (htimes time htime).2.trans hnow⟩⟩
  unbegun := hs.unbegun
  storing e he := hs.storing_step hnow hpc hu he
  absent habsent := by
    rw [List.getElem?_set_ne hi] at habsent
    exact hs.absent habsent
  ahead other hother := by
    rw [List.getElem?_set_ne hi] at hother
    have hcurrent := fun h => @Spaced.current_step watched s now resolution u pc next hs i hpc hu h
    exact (hs.ahead other hother).mono hnow hcurrent
  rounds other hother := by
    rw [List.getElem?_set_ne hi] at hother
    exact hs.rounds other hother

theorem Effort.within_step {effort : Effort} {clock : Int} {refreshes : Bool} (hnow : clock ≤ now)
    (hwithin : ∀ began ∈ effort.began, began ≤ clock ∧
      ∀ time ∈ effort.refreshes, began ≤ time ∧ time ≤ clock)
    (hunbegun : effort.began = .none → effort = Effort.none) :
    ∀ began ∈ (effort.step now refreshes).began, began ≤ now ∧
      ∀ time ∈ (effort.step now refreshes).refreshes, began ≤ time ∧ time ≤ now := by
  intro began hbegan
  have hold : began ≤ now ∧ ∀ time ∈ effort.refreshes, began ≤ time ∧ time ≤ now := by
    cases h : effort.began with
    | none =>
        simp only [Effort.step, h, Option.none_or, Option.mem_some_iff] at hbegan
        rw [hunbegun h]
        exact ⟨by omega, nofun⟩
    | some first =>
        simp only [Effort.step, h, Option.some_or, Option.mem_some_iff] at hbegan
        subst hbegan
        obtain ⟨hle, htimes⟩ := hwithin _ h
        exact ⟨hle.trans hnow, fun time htime => ⟨(htimes time htime).1, (htimes time htime).2.trans hnow⟩⟩
  refine ⟨hold.1, fun time htime => ?_⟩
  simp only [Effort.step] at htime
  split at htime
  · rcases List.mem_append.mp htime with htime | htime
    · exact hold.2 time htime
    · rw [List.mem_singleton.mp htime]
      exact ⟨hold.1, le_rfl⟩
  · exact hold.2 time htime

theorem exchanges_eq_false (hpc : s.cache.callers[watched]? = some pc) (hother : ∀ e, pc ≠ .compareExchange e) :
    s.cache.exchanges watched = false := by
  unfold State.exchanges
  rw [hpc]
  split
  · rename_i e he
    exact absurd (Option.some.inj he) (hother e)
  · rfl

-- Every step of the watched call but a compare-exchange that succeeds.
theorem Spaced.step_kept (hs : Spaced watched s) (hnow : s.clock ≤ now)
    (hpc : s.cache.callers[watched]? = some pc) (hu : callerStep now resolution s.cache pc = some (u, next))
    (hcounted : Counted { u with callers := s.cache.callers.set watched next })
    (hexchanges : s.cache.exchanges watched = false)
    (hnext : next.Ahead s.effort.refreshes now u.currentEndpoints)
    (hposition : pc.position + (if next.refreshing then 6 else 0) + 1 ≤
      next.position + if pc.refreshing then 6 else 0) :
    Spaced watched ⟨{ u with callers := s.cache.callers.set watched next }, now,
      s.effort.step now (s.cache.exchanges watched)⟩ := by
  have hlt : watched < s.cache.callers.length := (List.getElem?_eq_some_iff.mp hpc).1
  have hself : (s.cache.callers.set watched next)[watched]? = some next := by simp [hlt]
  have hrefreshes : (s.effort.step now (s.cache.exchanges watched)).refreshes = s.effort.refreshes := by
    simp [Effort.step, hexchanges]
  have hrounds := hs.rounds pc hpc
  refine ⟨hcounted, ?_, Effort.within_step hnow hs.within hs.unbegun, ?_, ?_, ?_, ?_, ?_⟩
  · rw [hrefreshes]
    exact hs.spaced
  · intro hbegan
    simp [Effort.step] at hbegan
  · rw [hrefreshes]
    exact fun e he => hs.storing_step hnow hpc hu he
  · intro habsent
    rw [hself] at habsent
    cases habsent
  · intro other hother
    rw [hself] at hother
    obtain rfl := Option.some.inj hother
    rw [hrefreshes]
    exact hnext
  · intro other hother
    rw [hself] at hother
    obtain rfl := Option.some.inj hother
    rw [hrefreshes]
    simp only [Effort.step]
    omega

-- The watched call sets the flag only on endpoints that are more than 60 s older
-- than the clock, so its last refresh was before that.
theorem Spaced.step_exchange (hs : Spaced watched s) (hnow : s.clock ≤ now) {e : Endpoints}
    (hpc : s.cache.callers[watched]? = some (.compareExchange e)) (hfree : s.cache.beingUpdated = false)
    (hcounted : Counted { s.cache with beingUpdated := true, callers := s.cache.callers.set watched .update }) :
    Spaced watched ⟨{ s.cache with beingUpdated := true, callers := s.cache.callers.set watched .update }, now,
      s.effort.step now (s.cache.exchanges watched)⟩ := by
  have hlt : watched < s.cache.callers.length := (List.getElem?_eq_some_iff.mp hpc).1
  have hself : (s.cache.callers.set watched .update)[watched]? = some .update := by simp [hlt]
  have hahead := hs.ahead _ hpc
  have hrounds := hs.rounds _ hpc
  have hexchanges : s.cache.exchanges watched = true := by
    simp only [State.exchanges, hpc, hfree, Bool.not_false]
  have hrefreshes : (s.effort.step now (s.cache.exchanges watched)).refreshes = s.effort.refreshes ++ [now] := by
    simp [Effort.step, hexchanges]
  have hstale : stale e now = true := stale_mono hnow hahead.1.2
  refine ⟨hcounted, ?_, Effort.within_step hnow hs.within hs.unbegun, ?_, ?_, ?_, ?_, ?_⟩
  · rw [hrefreshes, List.pairwise_append]
    refine ⟨hs.spaced, List.pairwise_singleton _ _, fun time htime later hlater => ?_⟩
    rw [List.mem_singleton.mp hlater]
    have hcreated := hahead.1.1 time htime
    simp only [stale, decide_eq_true_eq] at hstale
    omega
  · intro hbegan
    simp [Effort.step] at hbegan
  · -- while the flag was clear nobody was about to store
    intro result hresult
    have hidle : s.cache.callers.countP Caller.refreshing = 0 := by
      have hzero := hs.counted
      rwa [Counted, hfree] at hzero
    rcases List.mem_or_eq_of_mem_set hresult with hresult | hresult
    · exact absurd rfl (List.countP_eq_zero.mp hidle _ hresult)
    · cases hresult
  · intro habsent
    rw [hself] at habsent
    cases habsent
  · intro other hother
    rw [hself] at hother
    obtain rfl := Option.some.inj hother
    trivial
  · intro other hother
    rw [hself] at hother
    obtain rfl := Option.some.inj hother
    rw [hrefreshes]
    simp only [Effort.step, Caller.refreshing, Caller.position, List.length_append,
      List.length_singleton, if_true, Bool.false_eq_true, if_false] at hrounds ⊢
    omega

theorem Spaced.step_self (hs : Spaced watched s) (hnow : s.clock ≤ now)
    (hpc : s.cache.callers[watched]? = some pc)
    (hu : callerStep now resolution s.cache pc = some (u, next))
    (hcounted : Counted { u with callers := s.cache.callers.set watched next }) :
    Spaced watched ⟨{ u with callers := s.cache.callers.set watched next }, now,
      s.effort.step now (s.cache.exchanges watched)⟩ := by
  have hahead := hs.ahead pc hpc
  have keep := hs.step_kept hnow hpc hu hcounted
  have hnone := exchanges_eq_false hpc
  cases callerStep_inv hu with
  | snapshot =>
      exact keep (hnone (by simp)) ⟨hahead, hahead⟩ (by simp [Caller.position, Caller.refreshing])
  | noEndpoints => exact keep (hnone (by simp)) hahead.2 (by simp [Caller.position, Caller.refreshing])
  | old e hold =>
      exact keep (hnone (by simp)) ⟨⟨hahead.1 e rfl, hold⟩, hahead.2⟩
        (by simp [Caller.position, Caller.refreshing])
  | fresh e hfresh => exact keep (hnone (by simp)) hahead.2 (by simp [Caller.position, Caller.refreshing])
  | busy e hbusy =>
      have hexchanges : s.cache.exchanges watched = false := by
        simp only [State.exchanges, hpc, hbusy, Bool.not_true]
      exact keep hexchanges hahead.2 (by simp [Caller.position, Caller.refreshing])
  | update => exact keep (hnone (by simp)) trivial (by simp [Caller.position, Caller.refreshing])
  | store result =>
      refine keep (hnone (by simp)) ?_ (by simp [Caller.position, Caller.refreshing])
      intro e he
      have he : result = some e := he
      subst he
      exact hs.storing e (List.mem_of_getElem? hpc)
  | resetFlag => exact keep (hnone (by simp)) hahead (by simp [Caller.position, Caller.refreshing])
  | exchange e hfree => exact hs.step_exchange hnow hpc hfree hcounted

end Step

theorem spaced_construct (watched : Nat) (now : Int) (resolution : Resolution) :
    Spaced watched (Watched.construct now resolution) where
  counted := construct_counted now resolution
  spaced := .nil
  within := nofun
  unbegun _ := rfl
  storing := nofun
  absent _ := rfl
  ahead := nofun
  rounds := nofun

theorem spaced_step {watched : Nat} {s t : Watched} {action : Action} (hs : Spaced watched s)
    (h : watchedStep watched s action = some t) : Spaced watched t := by
  rcases watchedStep_cases h with rfl | ⟨i, now, resolution, pc, u, next, hnow, hpc, hu, rfl⟩
  · have hcounted := step_counted hs.counted (show step s.cache .call = some _ from rfl)
    have hcalled (pc : Caller) (hpc : (s.cache.callers ++ [.snapshot])[watched]? = some pc) :
        s.cache.callers[watched]? = some pc ∨ s.effort = Effort.none ∧ pc = .snapshot := by
      rw [List.getElem?_append] at hpc
      split at hpc
      · exact .inl hpc
      · rename_i hlt
        refine .inr ⟨hs.absent (List.getElem?_eq_none (Nat.le_of_not_lt hlt)), ?_⟩
        exact List.mem_singleton.mp (List.mem_of_getElem? hpc)
    refine ⟨hcounted, hs.spaced, hs.within, hs.unbegun, ?_, ?_, ?_, ?_⟩
    · intro e he
      rcases List.mem_append.mp he with he | he
      · exact hs.storing e he
      · cases List.mem_singleton.mp he
    · intro habsent
      have hle := List.getElem?_eq_none_iff.mp habsent
      refine hs.absent (List.getElem?_eq_none ?_)
      rw [List.length_append] at hle
      exact Nat.le_of_add_right_le hle
    · intro pc hpc
      rcases hcalled pc hpc with hpc | ⟨heffort, rfl⟩
      · exact hs.ahead pc hpc
      · rw [heffort]
        exact fun _ _ => nofun
    · intro pc hpc
      rcases hcalled pc hpc with hpc | ⟨heffort, rfl⟩
      · exact hs.rounds pc hpc
      · rw [heffort]
        exact Nat.le_refl _
  · have hcache : step s.cache (.step i now resolution) = some { u with callers := s.cache.callers.set i next } := by
      simp only [step, hpc, hu, Option.bind_some, Option.map_some, callerStep_callers hu]
    have hcounted := step_counted hs.counted hcache
    by_cases hi : i = watched
    · subst hi
      rw [if_pos rfl]
      exact hs.step_self hnow hpc hu hcounted
    · rw [if_neg hi]
      exact hs.step_other hnow hi hpc hu hcounted

-- get_endpoint is wait-free: whatever other calls do and however often the
-- endpoints expire, a call takes at most nine steps of its own and six more for
-- each minute that it goes on.
theorem getEndpoint_waitFree {now : Int} {resolution : Resolution} (watched : Nat) {s : Watched}
    (h : Reachable (watchedStep watched) (Watched.construct now resolution) s) {began : Int}
    (hbegan : s.effort.began = some began) :
    s.effort.refreshes.Pairwise (fun earlier later => earlier + seconds 60 < later) ∧
      (s.effort.steps : Int) ≤ 9 + 6 * ((s.clock - began) / seconds 60) := by
  have hs : Spaced watched s :=
    h.invariant (spaced_construct watched now resolution) fun _ _ _ _ hs ht => spaced_step hs ht
  obtain ⟨hle, hwithin⟩ := hs.within began hbegan
  refine ⟨hs.spaced, ?_⟩
  have hrefreshes := Library.Sampling.length_of_spaced (by decide) hs.spaced hwithin hle
  cases hpc : s.cache.callers[watched]? with
  | none =>
      rw [hs.absent hpc] at hbegan
      cases hbegan
  | some pc =>
      have hrounds := hs.rounds pc hpc
      have hposition : pc.position ≤ 3 + if pc.refreshing then 6 else 0 := by
        cases pc <;> simp [Caller.position, Caller.refreshing]
      have hsteps : s.effort.steps ≤ 6 * s.effort.refreshes.length + 3 := by omega
      have hcast : (s.effort.steps : Int) ≤ 6 * s.effort.refreshes.length + 3 := by exact_mod_cast hsteps
      omega

-- Two calls find the endpoints of time 0 old, and the first refreshes them.
def watchedRun : List Action :=
  [.call, .call] ++ [0, 1, 0, 1, 0, 1, 0, 0, 0, 0, 0].map fun i => .step i (seconds 120) answering

theorem getEndpoint_waitFree_first :
    ∃ s : Watched, s.cache.callers = [.returned (.ok answering.results), .returned (.ok answering.results)] ∧
      s.effort.steps = 8 ∧ (s.effort.steps : Int) ≤ 9 + 6 * ((seconds 120 - seconds 120) / seconds 60) := by
  have hrun : (run (watchedStep 0) (Watched.construct 0 answering) watchedRun).map (fun s =>
      decide (s.cache.callers = [.returned (.ok answering.results), .returned (.ok answering.results)] ∧
        s.effort.steps = 8 ∧ s.effort.began = some (seconds 120) ∧ s.clock = seconds 120)) =
      some true := by decide +kernel
  obtain ⟨s, hs, hfacts⟩ := Option.map_eq_some_iff.mp hrun
  obtain ⟨hcallers, hsteps, hbegan, hclock⟩ := of_decide_eq_true hfacts
  have hbound := (getEndpoint_waitFree 0 (Reachable.of_run hs) hbegan).2
  rw [hclock] at hbound
  exact ⟨s, hcallers, hsteps, hbound⟩

end S3Cpp.Aws.S3.DnsCache
