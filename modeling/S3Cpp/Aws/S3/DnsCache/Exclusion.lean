import S3Cpp.Aws.S3.DnsCache.Theorems
import S3Cpp.Library.Population

namespace S3Cpp.Aws.S3.DnsCache

open Library.Population Library.Transition

-- Between the successful compare-exchange and the reset of the flag.
def Caller.refreshing : Caller → Bool
  | .update | .store _ | .resetFlag => true
  | _ => false

-- Only the resolutions of `given` are ever given to a call that asks for one.
def Asks (given : Resolution → Prop) (s : State) (action : Action) : Prop :=
  ∀ i now resolution, action = .step i now resolution → s.callers[i]? = some .update →
    given resolution

def Resolved (given : Resolution → Prop) (results : Results) : Prop :=
  ∃ resolution, given resolution ∧ resolution.Succeeds ∧ resolution.results = results

def Backed (given : Resolution → Prop) (lastError : ErrorCode) : Option Endpoints → Prop
  | none => lastError.failed = true
  | some e => Resolved given e.endpoints

def Answer.Meaningful (given : Resolution → Prop) : Answer → Prop
  | .ok results => results ≠ [] ∧ Resolved given results
  | .error code => code.failed = true

theorem Resolved.nonempty {given : Resolution → Prop} {results : Results}
    (h : Resolved given results) : results ≠ [] := by
  obtain ⟨resolution, -, hs, rfl⟩ := h
  exact hs.2

theorem Resolved.meaningful {given : Resolution → Prop} {results : Results}
    (h : Resolved given results) : Answer.Meaningful given (.ok results) :=
  ⟨h.nonempty, h⟩

theorem Backed.mono {given : Resolution → Prop} {lastError lastError' : ErrorCode}
    {endpoints : Option Endpoints} (hl : lastError.failed = true → lastError'.failed = true)
    (h : Backed given lastError endpoints) : Backed given lastError' endpoints := by
  cases endpoints with
  | none => exact hl h
  | some e => exact h

-- Either kind of failure leaves an error behind, and a success leaves the old one.
theorem update_backed {given : Resolution → Prop} (lastError : ErrorCode) (now : Int)
    {resolution : Resolution} (h : given resolution) :
    Backed given (update lastError now resolution).1 (update lastError now resolution).2 := by
  unfold update
  split
  · assumption
  split
  · rfl
  · rename_i hcode hresults
    exact ⟨resolution, h, ⟨by simpa using hcode, by simpa using hresults⟩, rfl⟩

theorem update_failed (lastError : ErrorCode) (now : Int) (resolution : Resolution)
    (h : lastError.failed = true) : (update lastError now resolution).1.failed = true := by
  unfold update
  split
  · assumption
  split
  · rfl
  · exact h

theorem callerStep_failed {now : Int} {resolution : Resolution} {s u : State} {pc next : Caller}
    (h : callerStep now resolution s pc = some (u, next)) (hs : s.lastError.failed = true) :
    u.lastError.failed = true := by
  cases callerStep_inv h with
  | update => exact update_failed _ _ _ hs
  | _ => exact hs

-- The flag counts the calls that refresh.
def Counted (s : State) : Prop := s.callers.countP Caller.refreshing = s.beingUpdated.toNat

-- What each call holds has come from a resolution, or the last error tells why
-- it holds nothing.
def Caller.Holds (given : Resolution → Prop) (lastError : ErrorCode) : Caller → Prop
  | .checkNull endpoints | .store endpoints => Backed given lastError endpoints
  | .compareExchange e => Resolved given e.endpoints
  | .returned answer => answer.Meaningful given
  | .snapshot | .update | .resetFlag => True

structure Holding (given : Resolution → Prop) (s : State) : Prop where
  current : Backed given s.lastError s.currentEndpoints
  callers : ∀ caller ∈ s.callers, caller.Holds given s.lastError

theorem Caller.Holds.mono {given : Resolution → Prop} {lastError lastError' : ErrorCode}
    {caller : Caller} (hl : lastError.failed = true → lastError'.failed = true)
    (h : caller.Holds given lastError) : caller.Holds given lastError' := by
  cases caller with
  | checkNull endpoints => exact Backed.mono hl h
  | store endpoints => exact Backed.mono hl h
  | _ => exact h

-- A call enters the window when it sets the flag and leaves it when it clears
-- the flag.
theorem callerStep_flag {now : Int} {resolution : Resolution} {s u : State} {pc next : Caller}
    (h : callerStep now resolution s pc = some (u, next)) :
    u.beingUpdated.toNat + pc.refreshing.toNat = s.beingUpdated.toNat + next.refreshing.toNat ∨
      pc = .resetFlag ∧ u.beingUpdated = false ∧ next = .snapshot := by
  cases callerStep_inv h with
  | exchange e hfree =>
      left
      simp [hfree, Caller.refreshing]
  | resetFlag => exact .inr ⟨rfl, rfl, rfl⟩
  | _ => exact .inl rfl

theorem construct_counted (now : Int) (resolution : Resolution) :
    Counted (construct now resolution) := rfl

theorem step_counted {s t : State} {action : Action} (hc : Counted s) (h : step s action = some t) :
    Counted t := by
  unfold Counted at hc ⊢
  rcases step_cases h with ⟨_, rfl⟩ | ⟨i, now, resolution, pc, u, next, _, hpc, hu, rfl⟩
  · simpa [List.countP_append, Caller.refreshing] using hc
  · have hmove := countP_set (p := Caller.refreshing) next hpc
    rcases callerStep_flag hu with hflag | ⟨rfl, hflag, rfl⟩
    · simp only
      omega
    · -- whoever resets the flag is the one call in the window
      have hle := Bool.toNat_le s.beingUpdated
      simp only [hflag, Caller.refreshing, Bool.toNat_true, Bool.toNat_false] at hmove ⊢
      omega

theorem callerStep_holds {given : Resolution → Prop} {now : Int} {resolution : Resolution}
    {s u : State} {pc next : Caller} (hgiven : pc = .update → given resolution)
    (hcurrent : Backed given s.lastError s.currentEndpoints) (hpc : pc.Holds given s.lastError)
    (h : callerStep now resolution s pc = some (u, next)) :
    Backed given u.lastError u.currentEndpoints ∧ next.Holds given u.lastError := by
  cases callerStep_inv h with
  | snapshot => exact ⟨hcurrent, hcurrent⟩
  | noEndpoints => exact ⟨hcurrent, hpc⟩
  | old e _ => exact ⟨hcurrent, hpc⟩
  | fresh e _ => exact ⟨hcurrent, Resolved.meaningful hpc⟩
  | busy e _ => exact ⟨hcurrent, Resolved.meaningful hpc⟩
  | exchange e _ => exact ⟨hcurrent, trivial⟩
  | update => exact ⟨hcurrent.mono (update_failed _ _ _), update_backed _ _ (hgiven rfl)⟩
  | store result => exact ⟨hpc, trivial⟩
  | resetFlag => exact ⟨hcurrent, trivial⟩

theorem step_holding {given : Resolution → Prop} {s t : State} {action : Action}
    (ha : Asks given s action) (hi : Holding given s) (h : step s action = some t) :
    Holding given t := by
  rcases step_cases h with ⟨_, rfl⟩ | ⟨i, now, resolution, pc, u, next, haction, hpc, hu, rfl⟩
  · refine ⟨hi.current, fun caller hm => ?_⟩
    rcases List.mem_append.mp hm with hm | hm
    · exact hi.callers caller hm
    · obtain rfl := List.mem_singleton.mp hm
      trivial
  · have hgiven (hp : pc = .update) : given resolution := ha i now resolution haction (hp ▸ hpc)
    obtain ⟨hcurrent, hnext⟩ :=
      callerStep_holds hgiven hi.current (hi.callers pc (List.mem_of_getElem? hpc)) hu
    refine ⟨hcurrent, fun caller hm => ?_⟩
    rcases List.mem_or_eq_of_mem_set hm with hm | rfl
    · have hfailed := callerStep_failed hu
      exact (hi.callers caller hm).mono hfailed
    · exact hnext

theorem construct_holding {given : Resolution → Prop} (now : Int) {resolution : Resolution}
    (h : given resolution) : Holding given (construct now resolution) :=
  ⟨update_backed _ _ h, by simp [construct]⟩

-- One refresh at a time, the flag set while it lasts, and no answer without a
-- meaning.
theorem refreshing_exclusive {given : Resolution → Prop} {now : Int}
    {resolution : Resolution} (hgiven : given resolution) {s : State}
    (h : Reach step (Asks given) (construct now resolution) s) :
    s.callers.countP Caller.refreshing ≤ 1 ∧
      (s.beingUpdated = true ↔ ∃ caller ∈ s.callers, caller.refreshing = true) ∧
      ∀ answer, Caller.returned answer ∈ s.callers → answer.Meaningful given := by
  have hcounted : Counted s :=
    h.invariant (construct_counted now resolution) fun _ _ _ _ hc hs => step_counted hc hs
  have hholding : Holding given s :=
    h.invariant (construct_holding now hgiven) fun _ _ _ ha hi hs => step_holding ha hi hs
  refine ⟨hcounted.trans_le (Bool.toNat_le _), ?_, fun answer hm => hholding.callers _ hm⟩
  rw [← List.countP_pos_iff, hcounted]
  cases s.beingUpdated <;> simp

def failing : Resolution := ⟨⟨110, ascii "system"⟩, []⟩

-- Two calls find the endpoints of time 0 old. The first asks the resolver, which
-- fails, the second goes on with what it has.
def overlapping : List Action :=
  [.call, .call] ++ [0, 1, 0, 1, 0, 1, 0].map fun i => .step i (seconds 120) failing

def overlapped : State :=
  { currentEndpoints := some ⟨0, answering.results⟩
    beingUpdated := true
    lastError := failing.code
    callers := [.store none, .returned (.ok answering.results)]
    stored := [some ⟨0, answering.results⟩] }

def asksFailing (_ : State) : Action → Bool
  | .call => true
  | .step _ _ resolution => resolution = failing

theorem refreshing_exclusive_overlapping :
    overlapped.callers.countP Caller.refreshing ≤ 1 ∧
      Answer.Meaningful (fun resolution => resolution = answering ∨ resolution = failing)
        (.ok answering.results) := by
  have hrun : run (guarded step asksFailing) (construct 0 answering) overlapping = some overlapped := by
    decide
  have hreach : Reach step (Asks fun resolution => resolution = answering ∨ resolution = failing)
      (construct 0 answering) overlapped := by
    refine (Reach.of_run hrun).mono fun s action hcheck i now resolution haction _ => ?_
    subst haction
    exact .inr (of_decide_eq_true hcheck)
  obtain ⟨hone, -, hanswers⟩ := refreshing_exclusive (.inl rfl) hreach
  exact ⟨hone, hanswers _ (by decide)⟩

end S3Cpp.Aws.S3.DnsCache
