import S3Cpp.Aws.S3.DnsCache

namespace S3Cpp.Aws.S3.DnsCache

open Library.Transition

def Resolution.Succeeds (resolution : Resolution) : Prop :=
  resolution.code.failed = false ∧ resolution.results ≠ []

instance (resolution : Resolution) : Decidable resolution.Succeeds :=
  inferInstanceAs (Decidable (_ ∧ _))

theorem update_of_succeeds (lastError : ErrorCode) (now : Int) (resolution : Resolution)
    (h : resolution.Succeeds) :
    update lastError now resolution = (lastError, some ⟨now, resolution.results⟩) := by
  simp [update, h.1, h.2]

theorem update_nonempty (lastError : ErrorCode) (now : Int) (resolution : Resolution)
    (e : Endpoints) (h : (update lastError now resolution).2 = some e) : e.endpoints ≠ [] := by
  unfold update at h
  split at h
  · simp at h
  split at h
  · simp at h
  · rename_i hne
    obtain rfl := Option.some.inj h
    simpa using hne

-- All that one step of a call can do.
inductive CallerStep (now : Int) (resolution : Resolution) (s : State) :
    Caller → State → Caller → Prop
  | snapshot : CallerStep now resolution s .snapshot s (.checkNull s.currentEndpoints)
  | noEndpoints :
      CallerStep now resolution s (.checkNull none) s (.returned (.error s.lastError))
  | old (e : Endpoints) (h : stale e now = true) :
      CallerStep now resolution s (.checkNull (some e)) s (.compareExchange e)
  | fresh (e : Endpoints) (h : stale e now = false) :
      CallerStep now resolution s (.checkNull (some e)) s (.returned (.ok e.endpoints))
  | busy (e : Endpoints) (h : s.beingUpdated = true) :
      CallerStep now resolution s (.compareExchange e) s (.returned (.ok e.endpoints))
  | exchange (e : Endpoints) (h : s.beingUpdated = false) :
      CallerStep now resolution s (.compareExchange e) { s with beingUpdated := true } .update
  | update :
      CallerStep now resolution s .update
        { s with lastError := (update s.lastError now resolution).1 }
        (.store (update s.lastError now resolution).2)
  | store (result : Option Endpoints) :
      CallerStep now resolution s (.store result)
        { s with currentEndpoints := result, stored := s.stored ++ [result] } .resetFlag
  | resetFlag : CallerStep now resolution s .resetFlag { s with beingUpdated := false } .snapshot

theorem callerStep_inv {now : Int} {resolution : Resolution} {s u : State} {pc next : Caller}
    (h : callerStep now resolution s pc = some (u, next)) :
    CallerStep now resolution s pc u next := by
  cases pc with
  | checkNull endpoints =>
      cases endpoints with
      | none =>
          obtain ⟨rfl, rfl⟩ := Prod.mk.inj (Option.some.inj h)
          exact .noEndpoints
      | some e =>
          simp only [callerStep] at h
          split at h <;> obtain ⟨rfl, rfl⟩ := Prod.mk.inj (Option.some.inj h)
          · exact .old e ‹_›
          · exact .fresh e (by simpa using ‹¬ stale e now = true›)
  | compareExchange e =>
      simp only [callerStep] at h
      split at h <;> obtain ⟨rfl, rfl⟩ := Prod.mk.inj (Option.some.inj h)
      · exact .busy e ‹_›
      · exact .exchange e (by simpa using ‹¬ s.beingUpdated = true›)
  | returned answer => simp [callerStep] at h
  | _ =>
      obtain ⟨rfl, rfl⟩ := Prod.mk.inj (Option.some.inj h)
      constructor

theorem callerStep_callers {now : Int} {resolution : Resolution} {s t : State}
    {pc next : Caller} (h : callerStep now resolution s pc = some (t, next)) :
    t.callers = s.callers := by
  cases callerStep_inv h <;> rfl

theorem step_cases {s t : State} {action : Action} (h : step s action = some t) :
    (action = .call ∧ t = { s with callers := s.callers ++ [.snapshot] }) ∨
    ∃ i now resolution pc u next, action = .step i now resolution ∧ s.callers[i]? = some pc ∧
      callerStep now resolution s pc = some (u, next) ∧
      t = { u with callers := s.callers.set i next } := by
  cases action with
  | call => exact .inl ⟨rfl, (Option.some.inj h).symm⟩
  | step i now resolution =>
      obtain ⟨pc, hpc, h⟩ := Option.bind_eq_some_iff.mp h
      obtain ⟨⟨u, next⟩, hu, rfl⟩ := Option.map_eq_some_iff.mp h
      exact .inr ⟨i, now, resolution, pc, u, next, rfl, hpc, hu, by rw [callerStep_callers hu]⟩

-- What every history keeps: the pointer is the value stored last, and no
-- empty endpoint set is ever stored or about to be.
structure Valid (s : State) : Prop where
  current : s.stored.getLast? = some s.currentEndpoints
  stored_nonempty : ∀ e, some e ∈ s.stored → e.endpoints ≠ []
  store_nonempty : ∀ e, Caller.store (some e) ∈ s.callers → e.endpoints ≠ []

theorem construct_valid (now : Int) (resolution : Resolution) : Valid (construct now resolution) where
  current := rfl
  stored_nonempty e h :=
    update_nonempty ErrorCode.success now resolution e (List.mem_singleton.mp h).symm
  store_nonempty e h := by simp [construct] at h

theorem callerStep_valid {now : Int} {resolution : Resolution} {s u : State} {i : Nat}
    {pc next : Caller} (hv : Valid s) (hpc : s.callers[i]? = some pc)
    (h : callerStep now resolution s pc = some (u, next)) :
    Valid { u with callers := s.callers.set i next } := by
  -- no step but the update brings a new value to store into a caller
  have keep (hn : ∀ e, next ≠ .store (some e)) (hs : u.stored = s.stored)
      (hc : u.currentEndpoints = s.currentEndpoints) :
      Valid { u with callers := s.callers.set i next } := by
    refine ⟨by simpa [hs, hc] using hv.current, fun e he => hv.stored_nonempty e (hs ▸ he), ?_⟩
    intro e he
    rcases List.mem_or_eq_of_mem_set he with he | he
    · exact hv.store_nonempty e he
    · exact absurd he.symm (hn e)
  cases callerStep_inv h with
  | update =>
      refine ⟨hv.current, hv.stored_nonempty, ?_⟩
      intro e he
      rcases List.mem_or_eq_of_mem_set he with he | he
      · exact hv.store_nonempty e he
      · exact update_nonempty _ _ _ e (Caller.store.inj he).symm
  | store result =>
      have hm := List.mem_of_getElem? hpc
      refine ⟨by simp, ?_, ?_⟩
      · intro e he
        rcases List.mem_append.mp he with he | he
        · exact hv.stored_nonempty e he
        · exact hv.store_nonempty e (List.mem_singleton.mp he ▸ hm)
      · intro e he
        rcases List.mem_or_eq_of_mem_set he with he | he
        · exact hv.store_nonempty e he
        · simp at he
  | _ => exact keep (by simp) rfl rfl

theorem step_valid {s t : State} {action : Action} (hv : Valid s) (h : step s action = some t) :
    Valid t := by
  rcases step_cases h with ⟨_, rfl⟩ | ⟨i, now, resolution, pc, u, next, _, hpc, hu, rfl⟩
  · exact ⟨hv.current, hv.stored_nonempty, fun e he => hv.store_nonempty e (by simpa using he)⟩
  · exact callerStep_valid hv hpc hu

theorem ReachableCache.valid {s : State} (h : ReachableCache s) : Valid s := by
  obtain ⟨now, resolution, h⟩ := h
  exact h.invariant (construct_valid now resolution) fun _ _ _ _ hv hs => step_valid hv hs

-- A resolver that works.
def answering : Resolution := ⟨ErrorCode.success, [ascii "192.0.2.1"]⟩

end S3Cpp.Aws.S3.DnsCache
