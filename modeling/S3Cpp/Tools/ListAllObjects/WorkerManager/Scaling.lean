import Mathlib.Algebra.Order.Ring.Rat
import Mathlib.Order.OrderIsoNat
import Mathlib.Tactic.Linarith
import S3Cpp.Tools.ListAllObjects.WorkerManager

namespace S3Cpp.Tools.ListAllObjects

section Tick

variable (config : Config) (workers : Nat) (rate : Rat)

theorem calculateDesiredWorkers_pos : 0 < calculateDesiredWorkers config workers rate := by
  unfold calculateDesiredWorkers
  split
  · exact Nat.lt_of_lt_of_le (by decide) (Nat.le_max_right _ _)
  · exact Nat.lt_of_lt_of_le Nat.one_pos (Nat.le_max_right _ _)

-- The ceilings only round up, and in the dead band there are enough workers.
theorem le_calculateDesiredWorkers : rate ≤ calculateDesiredWorkers config workers rate := by
  unfold calculateDesiredWorkers
  split
  · rename_i hidle
    have hten : (10 : Rat) ≤ (max workers 10 : Nat) := by exact_mod_cast Nat.le_max_right _ _
    linarith
  · have hceil (scaled : Rat) : rate ≤ (⌈max scaled rate⌉₊ : Rat) :=
      (le_max_right _ _).trans (Nat.le_ceil _)
    apply le_trans _ (Nat.cast_le.mpr (Nat.le_max_left _ 1))
    split
    · exact hceil _
    split
    · exact hceil _
    · exact not_lt.mp ‹_›

theorem calculateDesiredWorkers_idle (h : rate < 1) :
    calculateDesiredWorkers config workers rate = max workers 10 := by
  rw [calculateDesiredWorkers, if_pos h]

theorem lt_calculateDesiredWorkers (h : (workers : Rat) < rate) :
    workers < calculateDesiredWorkers config workers rate := by
  have hrate := le_calculateDesiredWorkers config workers rate
  exact_mod_cast h.trans_le hrate

-- Scaling down shrinks towards the rate, which is no more than the workers there are.
theorem calculateDesiredWorkers_le (hdown : config.scaleDownFactor ≤ 1) (hrate : 1 ≤ rate)
    (h : rate ≤ workers) : calculateDesiredWorkers config workers rate ≤ workers := by
  have hone : 1 ≤ workers := by exact_mod_cast hrate.trans h
  rw [calculateDesiredWorkers, if_neg (not_lt.mpr hrate)]
  apply max_le _ hone
  rw [if_neg (not_lt.mpr h)]
  split
  · have hscaled : (workers : Rat) * config.scaleDownFactor ≤ workers :=
      mul_le_of_le_one_right workers.cast_nonneg hdown
    exact Nat.ceil_le.mpr (max_le hscaled h)
  · exact le_rfl

end Tick

section Ticks

variable (config : Config) (rate : Rat)

-- The workers after so many ticks at one rate, each of which sets what it wants.
def desiredAfter (workers : Nat) : Nat → Nat
  | 0 => workers
  | ticks + 1 => calculateDesiredWorkers config (desiredAfter workers ticks) rate

theorem desiredAfter_succ_le (hdown : config.scaleDownFactor ≤ 1) (workers ticks : Nat) :
    desiredAfter config rate workers (ticks + 2) ≤ desiredAfter config rate workers (ticks + 1) := by
  by_cases hidle : rate < 1
  · simp only [desiredAfter, calculateDesiredWorkers_idle _ _ _ hidle]
    omega
  · exact calculateDesiredWorkers_le _ _ _ hdown (not_lt.mp hidle) (le_calculateDesiredWorkers _ _ _)

theorem desiredAfter_constant (hdown : config.scaleDownFactor ≤ 1) (workers : Nat) :
    ∃ settled, ∀ ticks, settled ≤ ticks →
      desiredAfter config rate workers ticks = desiredAfter config rate workers settled := by
  have hanti : Antitone fun ticks => desiredAfter config rate workers (ticks + 1) :=
    antitone_nat_of_succ_le (desiredAfter_succ_le config rate hdown workers)
  obtain ⟨settled, hsettled⟩ := WellFoundedLT.antitone_chain_condition hanti
  refine ⟨settled + 1, fun ticks hle => ?_⟩
  obtain ⟨later, rfl⟩ := Nat.exists_eq_add_of_le' (Nat.one_pos.trans_le (by omega : 1 ≤ ticks))
  exact (hsettled later (by omega)).symm

-- One tick moves towards the rate, and after the first tick there is no way up.
theorem calculateDesiredWorkers_settles (hdown : config.scaleDownFactor ≤ 1) (workers : Nat) :
    1 ≤ calculateDesiredWorkers config workers rate ∧
      rate ≤ calculateDesiredWorkers config workers rate ∧
      (1 ≤ rate → (workers : Rat) < rate → workers < calculateDesiredWorkers config workers rate) ∧
      (1 ≤ rate → rate ≤ workers → calculateDesiredWorkers config workers rate ≤ workers) ∧
      (∀ ticks, desiredAfter config rate workers (ticks + 2) ≤
        desiredAfter config rate workers (ticks + 1)) ∧
      ∃ settled, ∀ ticks, settled ≤ ticks →
        desiredAfter config rate workers ticks = desiredAfter config rate workers settled := by
  refine ⟨calculateDesiredWorkers_pos config workers rate,
    le_calculateDesiredWorkers config workers rate, ?_, ?_, ?_, ?_⟩
  · intro _ h
    exact lt_calculateDesiredWorkers config workers rate h
  · intro hrate h
    exact calculateDesiredWorkers_le config workers rate hdown hrate h
  · exact desiredAfter_succ_le config rate hdown workers
  · exact desiredAfter_constant config rate hdown workers

end Ticks

-- The configuration the command line defaults to.
def defaultConfig : Config where
  apiVersion := .V2
  outputFormat := .PLAIN
  scaleUpFactor := 6 / 5
  scaleDownFactor := 4 / 5
  serialize _ := []

theorem calculateDesiredWorkers_settles_default :
    ∃ settled, ∀ ticks, settled ≤ ticks →
      desiredAfter defaultConfig (7 / 2) 100 ticks = desiredAfter defaultConfig (7 / 2) 100 settled := by
  have hdown : defaultConfig.scaleDownFactor ≤ 1 := by norm_num [defaultConfig]
  exact (calculateDesiredWorkers_settles defaultConfig (7 / 2) hdown 100).2.2.2.2.2

end S3Cpp.Tools.ListAllObjects
