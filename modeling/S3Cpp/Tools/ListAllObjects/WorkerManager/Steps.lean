import S3Cpp.Library.Transition
import S3Cpp.Tools.ListAllObjects.Worker.Theorems
import S3Cpp.Tools.ListAllObjects.WorkerManager

namespace S3Cpp.Tools.ListAllObjects

open Aws.S3 Aws.S3.Client Library.Population Library.Transition

-- All that one step of ~WorkerManager can do.
inductive ManagerStep (s : Crawl) : Crawl → Prop
  | lock (hm : s.manager = .waiting) (hfree : s.shared.queueMutex = false) :
      ManagerStep s { s with shared := s.shared.lock, manager := .cleanup }
  | clean (hm : s.manager = .cleanup) (hempty : s.shared.prefixQueue = []) :
      ManagerStep s { s with manager := .readQueueLength }
  | drop (before after : PrefixQueue) (top : PrefixQueueEntry) (hm : s.manager = .cleanup)
      (htop : IsTop s.shared.prefixQueue before top after) (hnone : top.paths = []) :
      ManagerStep s { s with shared.prefixQueue := before ++ after }
  | found (before after : PrefixQueue) (top : PrefixQueueEntry) (hm : s.manager = .cleanup)
      (htop : IsTop s.shared.prefixQueue before top after) (hsome : top.paths ≠ []) :
      ManagerStep s { s with manager := .readQueueLength }
  | noLength (hm : s.manager = .readQueueLength) (h : s.shared.metrics.totalQueueLength = 0) :
      ManagerStep s { s with manager := .readActive }
  | length (hm : s.manager = .readQueueLength) (h : s.shared.metrics.totalQueueLength ≠ 0) :
      ManagerStep s { s with shared := s.shared.unlock, manager := .waiting }
  | noWorker (hm : s.manager = .readActive) (h : s.shared.metrics.activeWorkers = 0) :
      ManagerStep s { s with manager := .checkQueue }
  | worker (hm : s.manager = .readActive) (h : s.shared.metrics.activeWorkers ≠ 0) :
      ManagerStep s { s with shared := s.shared.unlock, manager := .waiting }
  | finish (hm : s.manager = .checkQueue) (hempty : s.shared.prefixQueue = []) :
      ManagerStep s { s with shared := s.shared.unlock, manager := .emitScaling }
  | report (hm : s.manager = .checkQueue) (h : s.shared.prefixQueue ≠ []) :
      ManagerStep s { s with shared := s.shared.print [remainingHeader], manager := .draining }
  | drained (hm : s.manager = .draining) (hempty : s.shared.prefixQueue = []) :
      ManagerStep s { s with shared := s.shared.unlock, manager := .emitScaling }
  | drain (before after : PrefixQueue) (top : PrefixQueueEntry) (hm : s.manager = .draining)
      (htop : IsTop s.shared.prefixQueue before top after) :
      ManagerStep s
        { s with shared := { s.shared.print (remainingLines top) with prefixQueue := before ++ after } }
  | emitScaling (hm : s.manager = .emitScaling) :
      ManagerStep s { s with scaling.state := s.scaling.state.emit, manager := .emitWriter }
  | emitWriter (hm : s.manager = .emitWriter) :
      ManagerStep s { s with writer.state := s.writer.state.emit, manager := .joining }
  | join (hm : s.manager = .joining) (hscaling : s.scaling.state.ended = true)
      (hwriter : s.writer.state.ended = true) (hworkers : ∀ w ∈ s.workers, w.ended = true) :
      ManagerStep s { s with manager := .joined }

theorem managerStep_sound {choice : Nat} {s t : Crawl} (h : managerStep choice s = some t) :
    ManagerStep s t := by
  simp only [managerStep] at h
  split at h
  · rename_i hm
    split at h
    · cases h
    · obtain rfl := Option.some.inj h
      exact .lock hm (by simpa using ‹¬ s.shared.queueMutex = true›)
  · rename_i hm
    split at h
    · obtain rfl := Option.some.inj h
      exact .clean hm ‹_›
    · obtain ⟨top, htop, h⟩ := Option.map_eq_some_iff.mp h
      obtain ⟨before, after, htop, -, -, herase⟩ := isTop_of_top htop
      split at h
      · subst h
        rw [herase]
        exact .drop before after top hm htop ‹_›
      · subst h
        exact .found before after top hm htop ‹_›
  · rename_i hm
    split at h <;> obtain rfl := Option.some.inj h
    · exact .noLength hm ‹_›
    · exact .length hm ‹_›
  · rename_i hm
    split at h <;> obtain rfl := Option.some.inj h
    · exact .noWorker hm ‹_›
    · exact .worker hm ‹_›
  · rename_i hm
    split at h <;> obtain rfl := Option.some.inj h
    · exact .finish hm ‹_›
    · exact .report hm ‹_›
  · rename_i hm
    split at h
    · obtain rfl := Option.some.inj h
      exact .drained hm ‹_›
    · obtain ⟨top, htop, rfl⟩ := Option.map_eq_some_iff.mp h
      obtain ⟨before, after, htop, -, -, herase⟩ := isTop_of_top htop
      have hdrain := ManagerStep.drain before after top hm htop
      rwa [← herase] at hdrain
  · rename_i hm
    obtain rfl := Option.some.inj h
    exact .emitScaling hm
  · rename_i hm
    obtain rfl := Option.some.inj h
    exact .emitWriter hm
  · rename_i hm
    split at h
    · rename_i hended
      obtain rfl := Option.some.inj h
      simp only [Bool.and_eq_true, List.all_eq_true] at hended
      exact .join hm hended.1.1 hended.1.2 hended.2
    · cases h
  · cases h

-- All that one step of scaling_worker can do.
inductive ScalingStep (config : Config) (s : Crawl) : Crawl → Prop
  | arm (h : s.scaling.state = .arming) :
      ScalingStep config s { s with scaling.state := .waiting .pending }
  | aborted (h : s.scaling.state = .waiting (.completed .aborted)) :
      ScalingStep config s { s with scaling.state := .returned }
  | failed (h : s.scaling.state = .waiting (.completed .failed)) :
      ScalingStep config s { s with scaling.state := .threw }
  | expired (h : s.scaling.state = .waiting (.completed .success)) :
      ScalingStep config s { s with scaling.state := .loadOps }
  | loadOps (samples : List Nat) (h : s.scaling.state = .loadOps)
      (hsamples : samples =
        addSample s.scaling.samples (s.shared.metrics.totalOps - s.scaling.previousOps)) :
      ScalingStep config s
        { s with scaling := ⟨.checkQueue (rollingMean samples), s.shared.metrics.totalOps, samples⟩ }
  | queueEmpty (mean : Rat) (h : s.scaling.state = .checkQueue mean)
      (hlength : s.shared.metrics.totalQueueLength = 0) :
      ScalingStep config s { s with scaling.state := .loadActive }
  | queued (mean : Rat) (h : s.scaling.state = .checkQueue mean)
      (hlength : s.shared.metrics.totalQueueLength ≠ 0) :
      ScalingStep config s { s with scaling.state := .calculate mean }
  | loadActive (h : s.scaling.state = .loadActive) :
      ScalingStep config s { s with scaling.state := .alignTarget s.shared.metrics.activeWorkers }
  | alignTarget (active : Nat) (h : s.scaling.state = .alignTarget active) :
      ScalingStep config s
        { s with shared.metrics.targetWorkers := active, scaling.state := .arming }
  | calculate (mean : Rat) (h : s.scaling.state = .calculate mean) :
      ScalingStep config s
        { s with
          scaling.state :=
            .compareTarget (calculateDesiredWorkers config s.shared.metrics.activeWorkers mean) }
  | keep (desired : Nat) (h : s.scaling.state = .compareTarget desired)
      (htarget : desired = s.shared.metrics.targetWorkers) :
      ScalingStep config s { s with scaling.state := .arming }
  | change (desired : Nat) (h : s.scaling.state = .compareTarget desired)
      (htarget : desired ≠ s.shared.metrics.targetWorkers) :
      ScalingStep config s { s with scaling.state := .setTarget desired }
  | setTarget (desired : Nat) (h : s.scaling.state = .setTarget desired) :
      ScalingStep config s
        { s with shared.metrics.targetWorkers := desired, scaling.state := .loadRunning desired }
  | fewer (desired : Nat) (h : s.scaling.state = .loadRunning desired)
      (hrunning : s.shared.metrics.activeWorkers < desired) :
      ScalingStep config s
        { s with scaling.state := .spawning (desired - s.shared.metrics.activeWorkers) }
  | enough (desired : Nat) (h : s.scaling.state = .loadRunning desired)
      (hrunning : desired ≤ s.shared.metrics.activeWorkers) :
      ScalingStep config s { s with scaling.state := .arming }
  | spawned (h : s.scaling.state = .spawning 0) :
      ScalingStep config s { s with scaling.state := .arming }
  | spawn (remaining : Nat) (h : s.scaling.state = .spawning (remaining + 1)) :
      ScalingStep config s
        { s with workers := s.workers ++ [.pending], scaling.state := .spawning remaining }

-- All that one step of writer_coroutine can do.
inductive WriterStep (s : Crawl) : Crawl → Prop
  | arm (h : s.writer.state = .arming) : WriterStep s { s with writer.state := .waiting .pending }
  | aborted (h : s.writer.state = .waiting (.completed .aborted)) :
      WriterStep s { s with writer.state := .draining true }
  | expired (h : s.writer.state = .waiting (.completed .success)) :
      WriterStep s { s with writer.state := .draining false }
  | failed (h : s.writer.state = .waiting (.completed .failed)) :
      WriterStep s { s with writer.state := .threw }
  | finish (h : s.writer.state = .draining true) (hempty : s.shared.writeStack = []) :
      WriterStep s { s with writer.state := .returned }
  | rearm (h : s.writer.state = .draining false) (hempty : s.shared.writeStack = []) :
      WriterStep s { s with writer.state := .arming }
  | pop (aborted : Bool) (text : Str) (rest : List Str) (h : s.writer.state = .draining aborted)
      (hstack : s.shared.writeStack = text :: rest) :
      WriterStep s { s with shared.writeStack := rest, writer.state := .writing aborted text }
  | write (aborted : Bool) (text : Str) (h : s.writer.state = .writing aborted text) :
      WriterStep s { s with writer := ⟨.draining aborted, s.writer.output ++ text⟩ }
  | writeFailed (aborted : Bool) (text line : Str) (count : Nat)
      (h : s.writer.state = .writing aborted text) :
      WriterStep s
        { s with
          shared := s.shared.print [line]
          writer := ⟨.draining aborted, s.writer.output ++ text.take count⟩ }

theorem scalingStep_sound {config : Config} {s t : Crawl} (h : scalingStep config s = some t) :
    ScalingStep config s t := by
  simp only [scalingStep] at h
  split at h
  · cases h
    exact .arm ‹_›
  · cases h
  · cases h
    exact .aborted ‹_›
  · cases h
    exact .failed ‹_›
  · cases h
    exact .expired ‹_›
  · cases h
    exact .loadOps _ ‹_› rfl
  · cases h
    split
    · exact .queueEmpty _ ‹_› ‹_›
    · exact .queued _ ‹_› ‹_›
  · cases h
    exact .loadActive ‹_›
  · cases h
    exact .alignTarget _ ‹_›
  · cases h
    exact .calculate _ ‹_›
  · cases h
    split
    · exact .change _ ‹_› ‹_›
    · exact .keep _ ‹_› (not_ne_iff.mp ‹_›)
  · cases h
    exact .setTarget _ ‹_›
  · cases h
    split
    · exact .fewer _ ‹_› ‹_›
    · exact .enough _ ‹_› (Nat.le_of_not_lt ‹_›)
  · cases h
    exact .spawned ‹_›
  · cases h
    exact .spawn _ ‹_›
  · cases h
  · cases h

theorem writerStep_sound {failure : Option (Nat × Str)} {s t : Crawl}
    (h : writerStep failure s = some t) : WriterStep s t := by
  simp only [writerStep] at h
  split at h
  · cases h
    exact .arm ‹_›
  · cases h
  · cases h
    exact .aborted ‹_›
  · cases h
    exact .expired ‹_›
  · cases h
    exact .failed ‹_›
  · rename_i aborted hstate
    split at h
    · cases h
      cases aborted with
      | true => exact .finish hstate ‹_›
      | false => exact .rearm hstate ‹_›
    · cases h
      exact .pop aborted _ _ hstate ‹_›
  · rename_i aborted text hstate
    split at h
    · cases h
      exact .write aborted text hstate
    · cases h
      exact .writeFailed aborted text _ _ hstate
  · cases h
  · cases h

-- What the steps of the scaling worker, the writer and the timers leave alone.
inductive FrameStep (s t : Crawl) : Prop
  | touch (target : Nat) (stack lines : List Str) (hmanager : t.manager = s.manager)
      (hworkers : t.workers = s.workers) (hlines : s.shared.stderr <+: lines)
      (hshared : t.shared =
        { s.shared with metrics.targetWorkers := target, writeStack := stack, stderr := lines }) :
      FrameStep s t
  | spawn (hmanager : t.manager = s.manager) (hworkers : t.workers = s.workers ++ [.pending])
      (hshared : t.shared = s.shared) : FrameStep s t

theorem FrameStep.same {s t : Crawl} (hmanager : t.manager = s.manager)
    (hworkers : t.workers = s.workers) (hshared : t.shared = s.shared) : FrameStep s t :=
  .touch s.shared.metrics.targetWorkers s.shared.writeStack s.shared.stderr hmanager hworkers
    List.prefix_rfl (by rw [hshared])

theorem ScalingStep.frame {config : Config} {s t : Crawl} (h : ScalingStep config s t) :
    FrameStep s t := by
  cases h with
  | alignTarget | setTarget => exact .touch _ _ _ rfl rfl List.prefix_rfl rfl
  | spawn => exact .spawn rfl rfl rfl
  | _ => exact .same rfl rfl rfl

theorem WriterStep.frame {s t : Crawl} (h : WriterStep s t) : FrameStep s t := by
  cases h with
  | pop => exact .touch _ _ _ rfl rfl List.prefix_rfl rfl
  | writeFailed => exact .touch _ _ _ rfl rfl (List.prefix_append _ _) rfl
  | _ => exact .same rfl rfl rfl

-- One step of the crawl, told apart by whose it is.
inductive ActionStep (config : Config) (s : Crawl) : Action → Crawl → Prop
  | worker (index choice : Nat) (response : Response) (w w' : WorkerState) (sh' : Shared)
      (hw : s.workers[index]? = some w) (h : WorkerStep config response s.shared w sh' w') :
      ActionStep config s (.worker index choice response)
        { s with shared := sh', workers := s.workers.set index w' }
  | manager (choice : Nat) {t : Crawl} (h : ManagerStep s t) : ActionStep config s (.manager choice) t
  | scaling {t : Crawl} (h : ScalingStep config s t) : ActionStep config s .scaling t
  | writer (failure : Option (Nat × Str)) {t : Crawl} (h : WriterStep s t) :
      ActionStep config s (.writer failure) t
  | scalingTimer (h : s.scaling.state = .waiting .pending) :
      ActionStep config s .scalingTimer { s with scaling.state := .waiting (.completed .success) }
  | writerTimer (h : s.writer.state = .waiting .pending) :
      ActionStep config s .writerTimer { s with writer.state := .waiting (.completed .success) }

theorem step_inv {config : Config} {s t : Crawl} {action : Action} (h : step config s action = some t) :
    ActionStep config s action t := by
  cases action with
  | worker index choice response =>
      obtain ⟨w, hw, h⟩ := Option.bind_eq_some_iff.mp h
      obtain ⟨⟨sh', w'⟩, hstep, rfl⟩ := Option.map_eq_some_iff.mp h
      exact .worker index choice response w w' sh' hw (workerStep_sound hstep)
  | manager choice => exact .manager choice (managerStep_sound h)
  | scaling => exact .scaling (scalingStep_sound h)
  | writer failure => exact .writer failure (writerStep_sound h)
  | scalingTimer | writerTimer =>
      simp only [step] at h
      split at h <;> cases h
      constructor
      assumption

-- Every step is one of a worker, of the manager, or of something that leaves
-- the listing alone.
inductive CrawlStep (config : Config) (s : Crawl) : Action → Crawl → Prop
  | worker (index choice : Nat) (response : Response) (before after : List WorkerState)
      (w w' : WorkerState) (sh' : Shared) (hworkers : s.workers = before ++ w :: after)
      (hindex : before.length = index) (h : WorkerStep config response s.shared w sh' w') :
      CrawlStep config s (.worker index choice response)
        { s with shared := sh', workers := before ++ w' :: after }
  | manager (choice : Nat) {t : Crawl} (h : ManagerStep s t) : CrawlStep config s (.manager choice) t
  | frame (action : Action) {t : Crawl} (haction : ∀ index choice response,
      action ≠ .worker index choice response) (h : FrameStep s t) : CrawlStep config s action t

theorem step_sound {config : Config} {s t : Crawl} {action : Action}
    (h : step config s action = some t) : CrawlStep config s action t := by
  cases step_inv h with
  | worker index choice response w w' sh' hw hstep =>
      obtain ⟨before, after, hworkers, hindex, hset, -⟩ := split_of_getElem? hw
      rw [hset]
      exact .worker index choice response before after w w' sh' hworkers hindex hstep
  | manager choice hstep => exact .manager choice hstep
  | scaling hstep => exact .frame _ (by simp) hstep.frame
  | writer failure hstep => exact .frame _ (by simp) hstep.frame
  | scalingTimer | writerTimer => exact .frame _ (by simp) (.same rfl rfl rfl)

-- What every step of a worker keeps holds of all of them.
theorem step_workers {config : Config} {P : WorkerState → Prop} (hpending : P .pending)
    (hworker : ∀ {response sh sh' w w'}, WorkerStep config response sh w sh' w' → P w → P w')
    {s t : Crawl} {action : Action} (hs : ∀ w ∈ s.workers, P w) (h : step config s action = some t) :
    ∀ w ∈ t.workers, P w := by
  cases step_sound h with
  | worker index choice response before after w w' sh' hworkers hindex hstep =>
      have hw := hs w (by simp [hworkers])
      rw [hworkers] at hs
      exact forall_move hs (hworker hstep hw)
  | manager choice hstep => cases hstep <;> exact hs
  | frame _ _ hstep =>
      cases hstep with
      | touch _ _ _ _ hworkers => exact hworkers ▸ hs
      | spawn _ hworkers =>
          rw [hworkers]
          exact forall_concat hs hpending

-- A crawl some time after its construction, whatever responses, timer expiries
-- and schedules came before.
def ReachableCrawl (config : Config) (s : Crawl) : Prop := Reachable (step config) construct s

theorem ReachableCrawl.of_run {config : Config} {actions : List Action} {P : Crawl → Bool}
    (h : (run (step config) construct actions).map P = some true) :
    ∃ s, ReachableCrawl config s ∧ P s = true := by
  obtain ⟨s, hs, hP⟩ := Option.map_eq_some_iff.mp h
  exact ⟨s, Reachable.of_run hs, hP⟩

end S3Cpp.Tools.ListAllObjects
