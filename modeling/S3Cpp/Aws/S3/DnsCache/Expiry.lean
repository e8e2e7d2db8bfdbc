import S3Cpp.Aws.S3.DnsCache.Theorems

namespace S3Cpp.Aws.S3.DnsCache

open Library.Transition

-- A refresh at its successful compare-exchange: the time, what current_endpoints
-- holds, and what has been stored since the snapshot of the call.
structure Refresh where
  time : Int
  current : Option Endpoints
  since : List (Option Endpoints)
  deriving DecidableEq

-- The cache under a clock that never goes back.
structure Timed where
  cache : State
  clock : Int
  -- For each call, how many results had been stored at its last snapshot.
  seen : List Nat
  refreshes : List Refresh
  deriving DecidableEq

namespace Timed

def construct (now : Int) (resolution : Resolution) : Timed :=
  ⟨DnsCache.construct now resolution, now, [], []⟩

variable (s : Timed)

def seenAfter (i : Nat) : List Nat :=
  if s.cache.callers[i]? = some .snapshot then s.seen.set i s.cache.stored.length else s.seen

def refreshesAt (i : Nat) (now : Int) : List Refresh :=
  match s.cache.callers[i]? with
  | some (.compareExchange _) =>
      if s.cache.beingUpdated then []
      else [⟨now, s.cache.currentEndpoints, s.cache.stored.drop (s.seen.getD i 0)⟩]
  | _ => []

end Timed

def timedStep (s : Timed) : Action → Option Timed
  | .call => (step s.cache .call).map fun cache => { s with cache := cache, seen := s.seen ++ [0] }
  | .step i now resolution =>
      if now < s.clock then none
      else
        (step s.cache (.step i now resolution)).map fun cache =>
          ⟨cache, now, s.seenAfter i, s.refreshes ++ s.refreshesAt i now⟩

namespace Refresh

variable (refresh : Refresh)

-- The endpoints it replaces are more than 60 s old, and they are not a fresh
-- result that has taken the place of the call's snapshot.
def Due : Prop :=
  (∃ e, refresh.current = some e ∧ stale e refresh.time = true) ∧
    ¬ ∃ e, refresh.since.getLast? = some (some e) ∧ stale e refresh.time = false

-- Since the call's snapshot nothing has been stored, or endpoints last that have
-- grown old again.
def Undisturbed : Prop :=
  ∀ result, refresh.since.getLast? = some result →
    ∃ e, result = some e ∧ stale e refresh.time = true

theorem undisturbed_of_unchanged {refresh : Refresh} (h : refresh.since = []) : refresh.Undisturbed := by
  intro result hlast
  rw [h] at hlast
  cases hlast

-- What the run has left of the call's snapshot.
structure Recorded (snapshot : Endpoints) : Prop where
  old : stale snapshot refresh.time = true
  kept : refresh.since = [] → refresh.current = some snapshot
  last : ∀ result, refresh.since.getLast? = some result → result = refresh.current

theorem due_iff_undisturbed {refresh : Refresh} {snapshot : Endpoints}
    (h : refresh.Recorded snapshot) : refresh.Due ↔ refresh.Undisturbed := by
  constructor
  · rintro ⟨⟨e, he, hold⟩, -⟩ result hlast
    exact ⟨e, (h.last result hlast).trans he, hold⟩
  · intro hu
    cases hlast : refresh.since.getLast? with
    | none =>
        have hcurrent := h.kept (List.getLast?_eq_none_iff.mp hlast)
        exact ⟨⟨snapshot, hcurrent, h.old⟩, by simp [hlast]⟩
    | some result =>
        obtain ⟨e, rfl, hold⟩ := hu result hlast
        refine ⟨⟨e, (h.last _ hlast).symm, hold⟩, ?_⟩
        rintro ⟨other, hother, hfresh⟩
        obtain rfl : e = other := by simpa using hlast.symm.trans hother
        exact absurd hold (by simp [hfresh])

end Refresh

theorem stale_mono {e : Endpoints} {now later : Int} (hle : now ≤ later)
    (h : stale e now = true) : stale e later = true := by
  simp only [stale, decide_eq_true_eq] at h ⊢
  omega

theorem callerStep_stored {now : Int} {resolution : Resolution} {s u : State} {pc next : Caller}
    (h : callerStep now resolution s pc = some (u, next)) : s.stored <+: u.stored := by
  cases callerStep_inv h with
  | store result => exact List.prefix_append _ _
  | _ => exact List.prefix_rfl

-- A call between its snapshot and its compare-exchange holds the last of the
-- first `n` results.
def Caller.Saw (stored : List (Option Endpoints)) (clock : Int) (n : Nat) : Caller → Prop
  | .checkNull endpoints => n ≤ stored.length ∧ (stored.take n).getLast? = some endpoints
  | .compareExchange e =>
      n ≤ stored.length ∧ (stored.take n).getLast? = some (some e) ∧ stale e clock = true
  | _ => True

theorem Caller.Saw.mono {stored stored' : List (Option Endpoints)} {clock clock' : Int} {n : Nat}
    {pc : Caller} (hs : stored <+: stored') (hc : clock ≤ clock') (h : pc.Saw stored clock n) :
    pc.Saw stored' clock' n := by
  obtain ⟨more, rfl⟩ := hs
  cases pc with
  | checkNull endpoints =>
      obtain ⟨hn, hlast⟩ := h
      refine ⟨by simp; omega, ?_⟩
      rwa [List.take_append_of_le_length hn]
  | compareExchange e =>
      obtain ⟨hn, hlast, hold⟩ := h
      refine ⟨by simp; omega, ?_, stale_mono hc hold⟩
      rwa [List.take_append_of_le_length hn]
  | _ => trivial

theorem callerStep_saw {now clock : Int} {resolution : Resolution} {s u : State} {n : Nat}
    {pc : Caller} {next : Caller} (hv : Valid s) (hs : pc.Saw s.stored clock n)
    (h : callerStep now resolution s pc = some (u, next)) :
    next.Saw u.stored now (if pc = .snapshot then s.stored.length else n) := by
  cases callerStep_inv h with
  | snapshot => exact ⟨le_rfl, by rw [if_pos rfl, List.take_length, hv.current]⟩
  | old e hold => exact ⟨hs.1, hs.2, hold⟩
  | _ => trivial

structure Tracked (s : Timed) : Prop where
  length : s.seen.length = s.cache.callers.length
  saw : ∀ (i : Nat) (pc : Caller), s.cache.callers[i]? = some pc →
    pc.Saw s.cache.stored s.clock (s.seen.getD i 0)

theorem timedStep_cases {s t : Timed} {action : Action} (h : timedStep s action = some t) :
    (t.cache = { s.cache with callers := s.cache.callers ++ [.snapshot] } ∧ t.clock = s.clock ∧
        t.seen = s.seen ++ [0] ∧ t.refreshes = s.refreshes) ∨
    ∃ i now resolution pc u next, s.clock ≤ now ∧ s.cache.callers[i]? = some pc ∧
      callerStep now resolution s.cache pc = some (u, next) ∧
      t = ⟨{ u with callers := s.cache.callers.set i next }, now, s.seenAfter i,
        s.refreshes ++ s.refreshesAt i now⟩ := by
  cases action with
  | call =>
      obtain rfl := Option.some.inj h
      exact .inl ⟨rfl, rfl, rfl, rfl⟩
  | step i now resolution =>
      simp only [timedStep] at h
      split at h
      · cases h
      · obtain ⟨cache, hcache, rfl⟩ := Option.map_eq_some_iff.mp h
        rcases step_cases hcache with ⟨hcall, -⟩ | ⟨j, time, r, pc, u, next, hstep, hpc, hu, rfl⟩
        · cases hcall
        · obtain ⟨rfl, rfl, rfl⟩ := Action.step.inj hstep
          exact .inr ⟨i, now, resolution, pc, u, next, by omega, hpc, hu, rfl⟩

theorem seenAfter_self {s : Timed} {i : Nat} {pc : Caller}
    (hl : s.seen.length = s.cache.callers.length) (hpc : s.cache.callers[i]? = some pc) :
    (s.seenAfter i).getD i 0 = if pc = .snapshot then s.cache.stored.length else s.seen.getD i 0 := by
  have hlt : i < s.seen.length := hl ▸ (List.getElem?_eq_some_iff.mp hpc).1
  simp only [Timed.seenAfter, hpc, Option.some.injEq]
  split
  · simp [List.getD_eq_getElem?_getD, hlt]
  · rfl

theorem seenAfter_ne {s : Timed} {i j : Nat} (h : i ≠ j) :
    (s.seenAfter i).getD j 0 = s.seen.getD j 0 := by
  unfold Timed.seenAfter
  split
  · rw [List.getD_eq_getElem?_getD, List.getElem?_set_ne h, List.getD_eq_getElem?_getD]
  · rfl

theorem seenAfter_length (s : Timed) (i : Nat) : (s.seenAfter i).length = s.seen.length := by
  unfold Timed.seenAfter
  split <;> simp

theorem timedStep_tracked {s t : Timed} {action : Action} (hv : Valid s.cache) (hi : Tracked s)
    (h : timedStep s action = some t) : Tracked t := by
  rcases timedStep_cases h with
    ⟨hcache, hclock, hseen, -⟩ | ⟨i, now, resolution, pc, u, next, hnow, hpc, hu, rfl⟩
  · refine ⟨by simp [hcache, hseen, hi.length], fun j other hother => ?_⟩
    rw [hcache] at hother ⊢
    rw [hseen, hclock]
    by_cases hj : j < s.cache.callers.length
    · rw [List.getElem?_append_left hj] at hother
      rw [List.getD_eq_getElem?_getD, List.getElem?_append_left (hi.length ▸ hj),
        ← List.getD_eq_getElem?_getD]
      exact hi.saw j other hother
    · rw [List.getElem?_append_right (Nat.le_of_not_lt hj)] at hother
      obtain rfl := List.mem_singleton.mp (List.mem_of_getElem? hother)
      trivial
  · refine ⟨by simp [seenAfter_length, hi.length], fun j other hother => ?_⟩
    by_cases hj : i = j
    · subst hj
      have hlt := (List.getElem?_eq_some_iff.mp hpc).1
      obtain rfl : next = other := by simpa [hlt] using hother
      rw [seenAfter_self hi.length hpc]
      have hnext := callerStep_saw hv (hi.saw i pc hpc) hu
      exact hnext
    · rw [List.getElem?_set_ne hj] at hother
      rw [seenAfter_ne hj]
      have hstored := callerStep_stored hu
      exact (hi.saw j other hother).mono hstored hnow

theorem refreshesAt_recorded {s : Timed} (hv : Valid s.cache) (hi : Tracked s) {i : Nat}
    {now : Int} (hnow : s.clock ≤ now) {refresh : Refresh} (h : refresh ∈ s.refreshesAt i now) :
    ∃ snapshot, refresh.Recorded snapshot := by
  unfold Timed.refreshesAt at h
  split at h
  · rename_i e hpc
    split at h
    · simp at h
    · obtain rfl := List.mem_singleton.mp h
      obtain ⟨hn, hlast, hold⟩ := hi.saw i _ hpc
      refine ⟨e, stale_mono hnow hold, fun hnone => ?_, fun result hresult => ?_⟩
      · rw [List.take_of_length_le (List.drop_eq_nil_iff.mp hnone)] at hlast
        exact Option.some.inj (hv.current.symm.trans hlast)
      · rw [List.getLast?_drop] at hresult
        split at hresult
        · cases hresult
        · exact Option.some.inj (hresult.symm.trans hv.current)
  · simp at h

theorem timedStep_valid {s t : Timed} {action : Action} (hv : Valid s.cache)
    (h : timedStep s action = some t) : Valid t.cache := by
  rcases timedStep_cases h with ⟨hcache, -⟩ | ⟨i, now, resolution, pc, u, next, -, hpc, hu, rfl⟩
  · rw [hcache]
    exact step_valid hv (show step s.cache .call = some _ from rfl)
  · exact callerStep_valid hv hpc hu

structure Kept (s : Timed) : Prop where
  valid : Valid s.cache
  tracked : Tracked s
  recorded : ∀ refresh ∈ s.refreshes, ∃ snapshot, refresh.Recorded snapshot

theorem construct_kept (now : Int) (resolution : Resolution) :
    Kept (Timed.construct now resolution) where
  valid := construct_valid now resolution
  tracked := ⟨rfl, by simp [Timed.construct, construct]⟩
  recorded := by simp [Timed.construct]

theorem timedStep_kept {s t : Timed} {action : Action} (hk : Kept s)
    (h : timedStep s action = some t) : Kept t := by
  refine ⟨timedStep_valid hk.valid h, timedStep_tracked hk.valid hk.tracked h, ?_⟩
  intro refresh hm
  rcases timedStep_cases h with
    ⟨-, -, -, hrefreshes⟩ | ⟨i, now, resolution, pc, u, next, hnow, -, -, rfl⟩
  · exact hk.recorded refresh (hrefreshes ▸ hm)
  · rcases List.mem_append.mp hm with hm | hm
    · exact hk.recorded refresh hm
    · exact refreshesAt_recorded hk.valid hk.tracked hnow hm

-- A run under the clock is a run of the cache.
theorem timed_reachable {now : Int} {resolution : Resolution} {s : Timed}
    (h : Reachable timedStep (Timed.construct now resolution) s) : ReachableCache s.cache := by
  refine ⟨now, resolution, ?_⟩
  induction h with
  | refl => exact .refl
  | @tail s t action _ _ hs ih =>
      obtain ⟨action, hstep⟩ : ∃ action, step s.cache action = some t.cache := by
        rcases timedStep_cases hs with ⟨hcache, -⟩ | ⟨i, now, resolution, pc, u, next, -, hpc, hu, rfl⟩
        · exact ⟨.call, by rw [hcache]; rfl⟩
        · exact ⟨.step i now resolution, by simp [step, hpc, hu, callerStep_callers hu]⟩
      exact ih.tail trivial hstep

theorem refreshes_recorded {now : Int} {resolution : Resolution} {s : Timed}
    (h : Reachable timedStep (Timed.construct now resolution) s) :
    ∀ refresh ∈ s.refreshes, ∃ snapshot, refresh.Recorded snapshot :=
  (h.invariant (construct_kept now resolution) fun _ _ _ _ hk hs => timedStep_kept hk hs).recorded

-- A refresh that nothing has been stored before, since its call's snapshot, is due.
theorem due_of_unchanged {now : Int} {resolution : Resolution} {s : Timed}
    (h : Reachable timedStep (Timed.construct now resolution) s) :
    ∀ refresh ∈ s.refreshes, refresh.since = [] → refresh.Due := by
  intro refresh hm hsince
  obtain ⟨snapshot, hrecorded⟩ := refreshes_recorded h refresh hm
  exact (Refresh.due_iff_undisturbed hrecorded).mpr (Refresh.undisturbed_of_unchanged hsince)

-- Every refresh of a run is due exactly when none of them comes after another
-- call's result has taken the place of the snapshot it was decided on.
theorem refreshes_due_iff {now : Int} {resolution : Resolution} {s : Timed}
    (h : Reachable timedStep (Timed.construct now resolution) s) :
    (∀ refresh ∈ s.refreshes, refresh.Due) ↔ ∀ refresh ∈ s.refreshes, refresh.Undisturbed := by
  apply forall₂_congr
  intro refresh hm
  obtain ⟨snapshot, hrecorded⟩ := refreshes_recorded h refresh hm
  exact Refresh.due_iff_undisturbed hrecorded

-- A call two minutes after the construction, up to its compare-exchange.
def firstRefresh : List Action :=
  .call :: List.replicate 3 (.step 0 (seconds 120) answering)

def refreshing : Timed where
  cache := {
    currentEndpoints := some ⟨0, answering.results⟩
    beingUpdated := true
    lastError := ErrorCode.success
    callers := [.update]
    stored := [some ⟨0, answering.results⟩]
  }
  clock := seconds 120
  seen := [1]
  refreshes := [⟨seconds 120, some ⟨0, answering.results⟩, []⟩]

theorem refreshes_due_iff_first : Refresh.Due ⟨seconds 120, some ⟨0, answering.results⟩, []⟩ := by
  have hrun : run timedStep (Timed.construct 0 answering) firstRefresh = some refreshing := by decide
  have hdue : ∀ refresh ∈ refreshing.refreshes, refresh.Due := by
    apply (refreshes_due_iff (.of_run hrun)).mpr
    intro refresh hm
    obtain rfl := List.mem_singleton.mp hm
    exact Refresh.undisturbed_of_unchanged rfl
  exact hdue _ (by decide)

-- Two calls find the endpoints of time 0 old. The second gets to its
-- compare-exchange when the first has stored new ones and reset the flag.
def overtaken : List Action :=
  [.call, .call] ++ [0, 1, 0, 1, 0, 0, 0, 0, 1].map fun i => .step i (seconds 120) answering

theorem refreshed_twice :
    ¬ ∀ now resolution s, Reachable timedStep (Timed.construct now resolution) s →
      ∀ refresh ∈ s.refreshes, refresh.Due := by
  intro h
  let fresh : Option Endpoints := some ⟨seconds 120, answering.results⟩
  have hrun : ∃ s, run timedStep (Timed.construct 0 answering) overtaken = some s ∧
      ⟨seconds 120, fresh, [fresh]⟩ ∈ s.refreshes := ⟨_, rfl, by decide⟩
  obtain ⟨s, hs, hm⟩ := hrun
  obtain ⟨-, hreplaced⟩ := h 0 answering s (.of_run hs) _ hm
  exact hreplaced ⟨_, rfl, by decide⟩

end S3Cpp.Aws.S3.DnsCache
